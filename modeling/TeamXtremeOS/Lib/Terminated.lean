/-
  Sequences that end at a marker, such as strings with a zero byte behind them.

  `terminated z l` is the part of `l` before the first `z`.  Without a `z`
  there is none: a loop that looks for one runs off the end of `l`.
-/
import Mathlib.Data.List.TakeWhile
import Mathlib.Data.List.GetD

namespace Lib

variable {α : Type*} [DecidableEq α] {z x : α} {l u v : List α} {i : ℕ}

/-- The elements before the first `z`, if there is one. -/
def terminated (z : α) : List α → Option (List α)
  | [] => none
  | x :: l => if x = z then some [] else (terminated z l).map (x :: ·)

theorem terminated_append (hu : ∀ x ∈ u, x ≠ z) :
    terminated z (u ++ v) = (terminated z v).map (u ++ ·) := by
  induction u with
  | nil => simp
  | cons x u ih =>
    rw [List.cons_append, terminated, if_neg (hu x List.mem_cons_self),
      ih fun y hy => hu y (List.mem_cons_of_mem _ hy), Option.map_map]
    rfl

/-- What stands behind a marker does not matter. -/
theorem terminated_append_of_mem (hz : z ∈ u) : terminated z (u ++ v) = terminated z u := by
  induction u with
  | nil => cases hz
  | cons x u ih =>
    rw [List.cons_append, terminated, terminated]
    split_ifs with hx
    · rfl
    · rw [ih ((List.mem_cons.1 hz).resolve_left fun h => hx h.symm)]

/-- **What comes before the marker.** -/
theorem terminated_eq_some : terminated z l = some u ↔ (∀ x ∈ u, x ≠ z) ∧ ∃ v, l = u ++ z :: v := by
  constructor
  · intro h
    induction l generalizing u with
    | nil => cases h
    | cons x l ih =>
      rw [terminated] at h
      split_ifs at h with hx
      · cases h
        exact ⟨by simp, l, by rw [hx, List.nil_append]⟩
      · obtain ⟨w, hw, rfl⟩ := Option.map_eq_some_iff.1 h
        obtain ⟨hne, v, rfl⟩ := ih hw
        refine ⟨?_, v, rfl⟩
        rintro y (_ | ⟨_, hy⟩)
        · exact hx
        · exact hne y hy
  · rintro ⟨hu, v, rfl⟩
    rw [terminated_append hu, terminated, if_pos rfl, Option.map_some, List.append_nil]

theorem terminated_takeWhile (u v : List α) : terminated z (u ++ z :: v) = some (u.takeWhile (· ≠ z)) := by
  induction u with
  | nil => simp [terminated]
  | cons x u ih =>
    rw [List.cons_append, terminated, ih]
    by_cases hx : x = z
    · rw [if_pos hx, List.takeWhile_cons_of_neg (by simpa using hx)]
    · rw [if_neg hx, List.takeWhile_cons_of_pos (by simpa using hx), Option.map_some]

theorem length_lt_of_terminated (h : terminated z l = some u) : u.length < l.length := by
  obtain ⟨-, v, rfl⟩ := terminated_eq_some.1 h
  simp

end Lib
