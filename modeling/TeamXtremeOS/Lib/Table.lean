/-
  Tables of named values with a fixed number of places: what is found after a
  value has been put in or taken out, and whether there is a place for one more.
-/
import Mathlib.Algebra.BigOperators.Fin
import Mathlib.Data.List.FinRange

namespace Lib

variable {ν α : Type*} {n : ℕ}

/-- Named values in `n` places, no two of them with the same name. -/
structure Table (ν α : Type*) (n : ℕ) where
  slot : Fin n → Option (ν × α)
  distinct : ∀ i j x y, slot i = some x → slot j = some y → x.1 = y.1 → i = j

namespace Table

theorem ext {t t' : Table ν α n} (h : ∀ i, t.slot i = t'.slot i) : t = t' := by
  obtain ⟨s, hs⟩ := t
  obtain ⟨s', hs'⟩ := t'
  obtain rfl : s = s' := funext h
  rfl

/-- The first place that is not taken. -/
def vacant (t : Table ν α n) : Option (Fin n) := (List.finRange n).find? fun i => (t.slot i).isNone

/-- The names in the table, in the order of the places. -/
def names (t : Table ν α n) : List ν := (List.finRange n).filterMap fun i => (t.slot i).map Prod.fst

variable {t t' : Table ν α n} {f g : ν} {a b : α} {i j : Fin n}

theorem vacant_slot (h : t.vacant = some i) : t.slot i = none := by
  simpa using List.find?_some h

theorem vacant_eq_none : t.vacant = none ↔ ∀ i, (t.slot i).isSome = true := by
  rw [vacant, List.find?_eq_none]
  simp [Option.isSome_iff_ne_none]

variable [DecidableEq ν]

/-- The place of a name. -/
def find (t : Table ν α n) (f : ν) : Option (Fin n) :=
  (List.finRange n).find? fun i => (t.slot i).any fun x => x.1 = f

/-- The value with a name. -/
def get (t : Table ν α n) (f : ν) : Option α := (t.find f).bind fun i => (t.slot i).map Prod.snd

/-- Fill a place with a value whose name is in no other place. -/
def fill (t : Table ν α n) (i : Fin n) (f : ν) (a : α) (h : ∀ j x, t.slot j = some x → x.1 = f → j = i) :
    Table ν α n where
  slot := Function.update t.slot i (some (f, a))
  distinct := by
    intro j k x y hx hy he
    rw [Function.update_apply] at hx hy
    split_ifs at hx hy with hj hk hk
    · rw [hj, hk]
    · cases hx
      rw [hj, h k y hy he.symm]
    · cases hy
      rw [hk, h j x hx he]
    · exact t.distinct j k x y hx hy he

/-- Take out the value with a name. -/
def erase (t : Table ν α n) (f : ν) : Table ν α n where
  slot i := (t.slot i).filter fun x => x.1 ≠ f
  distinct := by
    intro i j x y hx hy he
    exact t.distinct i j x y (Option.eq_some_of_filter_eq_some hx) (Option.eq_some_of_filter_eq_some hy) he

/-! ## Looking up -/

theorem find_eq_some : t.find f = some i ↔ ∃ a, t.slot i = some (f, a) := by
  constructor
  · intro h
    have hi := List.find?_some h
    obtain ⟨⟨g, a⟩, hs, hg⟩ := (Option.any_eq_true ..).1 hi
    obtain rfl : g = f := of_decide_eq_true hg
    exact ⟨a, hs⟩
  · rintro ⟨a, hi⟩
    have hmem : ((t.slot i).any fun x => x.1 = f) = true := by simp [hi]
    rcases hf : t.find f with _ | j
    · exact absurd hmem (by simpa using List.find?_eq_none.1 hf i (List.mem_finRange i))
    · have hj := List.find?_some (show List.find? _ _ = some j from hf)
      obtain ⟨⟨g, b⟩, hs, hg⟩ := (Option.any_eq_true ..).1 hj
      rw [t.distinct j i _ _ hs hi (of_decide_eq_true hg)]

theorem find_eq_none : t.find f = none ↔ ∀ i x, t.slot i = some x → x.1 ≠ f := by
  rw [Option.eq_none_iff_forall_ne_some]
  constructor
  · rintro h i ⟨g, a⟩ hi rfl
    exact h i (find_eq_some.2 ⟨a, hi⟩)
  · intro h i hi
    obtain ⟨a, ha⟩ := find_eq_some.1 hi
    exact h i _ ha rfl

theorem get_eq_some : t.get f = some a ↔ ∃ i, t.slot i = some (f, a) := by
  rw [get, Option.bind_eq_some_iff]
  constructor
  · rintro ⟨i, hi, ha⟩
    obtain ⟨b, hb⟩ := find_eq_some.1 hi
    rw [hb, Option.map_some, Option.some.injEq] at ha
    exact ⟨i, by rw [hb, ← ha]⟩
  · rintro ⟨i, hi⟩
    exact ⟨i, find_eq_some.2 ⟨a, hi⟩, by rw [hi, Option.map_some]⟩

theorem get_eq_none : t.get f = none ↔ ∀ i x, t.slot i = some x → x.1 ≠ f := by
  rw [Option.eq_none_iff_forall_ne_some]
  constructor
  · rintro h i ⟨g, a⟩ hi rfl
    exact h a (get_eq_some.2 ⟨i, hi⟩)
  · intro h a ha
    obtain ⟨i, hi⟩ := get_eq_some.1 ha
    exact h i _ hi rfl

/-! ## Putting in -/

/-- The place for a value: that of its name, or else a new one. -/
def place (t : Table ν α n) (f : ν) : Option (Fin n) := (t.find f).or t.vacant

theorem eq_of_place (h : t.place f = some i) (j : Fin n) (x : ν × α) (hj : t.slot j = some x) (hx : x.1 = f) :
    j = i := by
  rw [place, Option.or_eq_some_iff] at h
  rcases h with h | ⟨h, -⟩
  · obtain ⟨a, ha⟩ := find_eq_some.1 h
    exact t.distinct j i _ _ hj ha hx
  · exact absurd hx (find_eq_none.1 h j x hj)

/-- Put in a value: it replaces the one with its name, or takes a new place, if
    there is one. -/
def put (t : Table ν α n) (f : ν) (a : α) : Option (Table ν α n) :=
  match h : t.place f with
  | none => none
  | some i => some (t.fill i f a (eq_of_place h))

theorem put_eq_some : t.put f a = some t' ↔
    ∃ i, t.place f = some i ∧ ∀ j, t'.slot j = if j = i then some (f, a) else t.slot j := by
  rw [put]
  split
  · next h => simp [h]
  · next i h =>
    constructor
    · intro ht
      cases ht
      exact ⟨i, h, fun j => Function.update_apply ..⟩
    · rintro ⟨j, hj, ht⟩
      rw [h, Option.some.injEq] at hj
      subst hj
      exact congrArg some (ext fun j => (Function.update_apply ..).trans (ht j).symm)

theorem put_eq_none : t.put f a = none ↔ t.get f = none ∧ ∀ i, (t.slot i).isSome = true := by
  have hp : t.put f a = none ↔ t.place f = none := by
    rw [put]
    split
    · next h => simp [h]
    · next h => simp [h]
  rw [hp, place, Option.or_eq_none_iff, find_eq_none, ← get_eq_none, vacant_eq_none]

/-- **What is found after a value has been put in.** -/
theorem get_put (h : t.put f a = some t') (g : ν) : t'.get g = if g = f then some a else t.get g := by
  obtain ⟨i, hp, hs⟩ := put_eq_some.1 h
  split_ifs with hg
  · exact get_eq_some.2 ⟨i, by rw [hs, if_pos rfl, hg]⟩
  · ext b
    rw [get_eq_some, get_eq_some]
    constructor
    · rintro ⟨j, hj⟩
      rw [hs] at hj
      split_ifs at hj
      · cases hj
        exact absurd rfl hg
      · exact ⟨j, hj⟩
    · rintro ⟨j, hj⟩
      refine ⟨j, ?_⟩
      rw [hs, if_neg, hj]
      rintro rfl
      -- the place was taken by the name `f`, or by nobody
      rw [place, Option.or_eq_some_iff] at hp
      rcases hp with hp | ⟨-, hp⟩
      · obtain ⟨c, hc⟩ := find_eq_some.1 hp
        rw [hc] at hj
        cases hj
        exact hg rfl
      · rw [vacant_slot hp] at hj
        cases hj

/-! ## Taking out -/

theorem erase_slot_eq_some {x : ν × α} : (t.erase f).slot i = some x ↔ t.slot i = some x ∧ x.1 ≠ f := by
  simp [erase, Option.filter_eq_some_iff]

/-! ## Sizes -/

/-- The size of what is in a place. -/
def sizeAt (w : α → ℕ) (t : Table ν α n) (i : Fin n) : ℕ := (t.slot i).elim 0 fun x => w x.2

/-- The sum of the sizes. -/
def total (w : α → ℕ) (t : Table ν α n) : ℕ := ∑ i, t.sizeAt w i

/-- The size of the value with a name. -/
def sizeOf (w : α → ℕ) (t : Table ν α n) (f : ν) : ℕ := (t.get f).elim 0 w

variable {w : α → ℕ}

theorem sizeOf_eq (h : t.slot i = some (f, a)) : t.sizeOf w f = w a := by
  rw [sizeOf, get_eq_some.2 ⟨i, h⟩, Option.elim_some]

theorem sizeAt_place (h : t.place f = some i) : t.sizeAt w i = t.sizeOf w f := by
  rw [place, Option.or_eq_some_iff] at h
  rcases h with h | ⟨hn, h⟩
  · obtain ⟨a, ha⟩ := find_eq_some.1 h
    rw [sizeOf_eq ha, sizeAt, ha, Option.elim_some]
  · rw [sizeAt, vacant_slot h, Option.elim_none, sizeOf, get_eq_none.2 (find_eq_none.1 hn), Option.elim_none]

/-- **A value that is put in replaces the old one.** -/
theorem total_put (h : t.put f a = some t') : t'.total w + t.sizeOf w f = t.total w + w a := by
  obtain ⟨i, hp, hs⟩ := put_eq_some.1 h
  have hi : t'.sizeAt w i = w a := by rw [sizeAt, hs, if_pos rfl, Option.elim_some]
  have hrest : ∀ j ∈ Finset.univ.erase i, t'.sizeAt w j = t.sizeAt w j := by
    intro j hj
    rw [sizeAt, hs, if_neg (Finset.ne_of_mem_erase hj), sizeAt]
  have h1 := Finset.add_sum_erase Finset.univ (t'.sizeAt w) (Finset.mem_univ i)
  have h2 := Finset.add_sum_erase Finset.univ (t.sizeAt w) (Finset.mem_univ i)
  rw [hi, Finset.sum_congr rfl hrest] at h1
  rw [sizeAt_place hp] at h2
  rw [total, total, ← h1, ← h2]
  ac_rfl

theorem total_erase : (t.erase f).total w + t.sizeOf w f = t.total w := by
  rcases hg : t.get f with _ | a
  · have hsame : ∀ i, (t.erase f).sizeAt w i = t.sizeAt w i := by
      intro i
      have hs : (t.erase f).slot i = t.slot i := by
        ext x
        rw [erase_slot_eq_some]
        exact and_iff_left_of_imp fun hx => get_eq_none.1 hg i x hx
      rw [sizeAt, hs, sizeAt]
    rw [sizeOf, hg, Option.elim_none, Nat.add_zero]
    exact Finset.sum_congr rfl fun i _ => hsame i
  · obtain ⟨i, hi⟩ := get_eq_some.1 hg
    have hnone : (t.erase f).slot i = none := by
      rw [Option.eq_none_iff_forall_ne_some]
      intro x hx
      obtain ⟨hx, hne⟩ := erase_slot_eq_some.1 hx
      rw [hi] at hx
      cases hx
      exact hne rfl
    have hgone : (t.erase f).sizeAt w i = 0 := by rw [sizeAt, hnone, Option.elim_none]
    have hsize : t.sizeAt w i = w a := by rw [sizeAt, hi, Option.elim_some]
    have hrest : ∀ j ∈ Finset.univ.erase i, (t.erase f).sizeAt w j = t.sizeAt w j := by
      intro j hj
      have hs : (t.erase f).slot j = t.slot j := by
        ext x
        rw [erase_slot_eq_some]
        exact and_iff_left_of_imp fun hx he =>
          Finset.ne_of_mem_erase hj (t.distinct j i _ _ hx hi he)
      rw [sizeAt, hs, sizeAt]
    have h1 := Finset.add_sum_erase Finset.univ ((t.erase f).sizeAt w) (Finset.mem_univ i)
    have h2 := Finset.add_sum_erase Finset.univ (t.sizeAt w) (Finset.mem_univ i)
    rw [hgone, Nat.zero_add, Finset.sum_congr rfl hrest] at h1
    rw [total, total, ← h1, ← h2, sizeOf_eq hi, hsize]
    exact Nat.add_comm ..

end Table

end Lib
