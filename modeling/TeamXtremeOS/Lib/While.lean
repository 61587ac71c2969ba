/-
  While loops: the states they pass through, the state they end in, and loops
  that never end.

  `whileLoop c f n s` makes at most `n` tests.  A loop whose body comes back to
  the first state within `n` turns does not end unless it has ended by then.
-/
import Mathlib.Logic.Function.Iterate
import Mathlib.Tactic.SplitIfs

namespace Lib

variable {σ : Type*}

/-- `while (c) f`: the state the loop ends in, if it does so within `n` tests. -/
def whileLoop (c : σ → Prop) [DecidablePred c] (f : σ → σ) : ℕ → σ → Option σ
  | 0, _ => none
  | n + 1, s => if c s then whileLoop c f n (f s) else some s

/-- The states in which the loop makes its tests. -/
inductive Passes (c : σ → Prop) (f : σ → σ) (s : σ) : σ → Prop
  | start : Passes c f s s
  | turn {s'} : Passes c f s s' → c s' → Passes c f s (f s')

variable {c : σ → Prop} {f : σ → σ} {s s' : σ} {k m n : ℕ}

namespace Passes

/-- **The invariant rule**: what holds at the start and is kept by every turn
    holds at every test. -/
theorem invariant {I : σ → Prop} (hI : ∀ s, I s → c s → I (f s)) (h : Passes c f s s') (h0 : I s) : I s' := by
  induction h with
  | start => exact h0
  | turn _ hc ih => exact hI _ ih hc

theorem head (hc : c s) (h : Passes c f (f s) s') : Passes c f s s' := by
  induction h with
  | start => exact .turn .start hc
  | turn _ hc' ih => exact .turn ih hc'

end Passes

variable [DecidablePred c]

/-- The loop ends where its test fails. -/
theorem whileLoop_passes (h : whileLoop c f n s = some s') : Passes c f s s' ∧ ¬ c s' := by
  induction n generalizing s with
  | zero => cases h
  | succ n ih =>
    rw [whileLoop] at h
    split_ifs at h with hc
    · obtain ⟨hp, hend⟩ := ih h
      exact ⟨.head hc hp, hend⟩
    · cases h
      exact ⟨.start, hc⟩

/-- From every state the loop passes through it goes on as from there. -/
theorem Passes.whileLoop_eq (h : Passes c f s s') :
    ∃ k, ∀ n, whileLoop c f (k + n) s = whileLoop c f n s' := by
  induction h with
  | start => exact ⟨0, fun n => by rw [Nat.zero_add]⟩
  | turn _ hc ih =>
    obtain ⟨k, hk⟩ := ih
    refine ⟨k + 1, ?_⟩
    intro n
    rw [Nat.add_assoc, Nat.add_comm 1 n, hk, whileLoop, if_pos hc]

/-- **The loop ends in the states it passes through where its test fails.** -/
theorem exists_whileLoop_iff : (∃ n, whileLoop c f n s = some s') ↔ Passes c f s s' ∧ ¬ c s' := by
  constructor
  · rintro ⟨n, hn⟩
    exact whileLoop_passes hn
  · rintro ⟨h, hend⟩
    obtain ⟨k, hk⟩ := h.whileLoop_eq
    exact ⟨k + 1, by rw [hk, whileLoop, if_neg hend]⟩

/-- **The variant rule**: a loop ends within as many turns as a number that
    every turn makes smaller. -/
theorem exists_whileLoop_of_variant {I : σ → Prop} {μ : σ → ℕ}
    (hI : ∀ s, I s → c s → I (f s) ∧ μ (f s) < μ s) (h0 : I s) (hn : μ s < n) :
    ∃ s', whileLoop c f n s = some s' := by
  induction n generalizing s with
  | zero => exact absurd hn (Nat.not_lt_zero _)
  | succ n ih =>
    rw [whileLoop]
    split_ifs with hc
    · obtain ⟨hf, hlt⟩ := hI s h0 hc
      exact ih hf (by omega)
    · exact ⟨s, rfl⟩

/-! ## Loops that do not end -/

/-- More tests do not change where a loop ends. -/
theorem whileLoop_mono (hle : m ≤ n) (h : whileLoop c f m s = some s') : whileLoop c f n s = some s' := by
  induction m generalizing n s with
  | zero => cases h
  | succ m ih =>
    obtain ⟨n, rfl⟩ : ∃ k, n = k + 1 := ⟨n - 1, by omega⟩
    rw [whileLoop] at h ⊢
    split_ifs at h ⊢
    · exact ih (by omega) h
    · exact h

theorem whileLoop_unique {a b : σ} (ha : whileLoop c f m s = some a) (hb : whileLoop c f n s = some b) : a = b := by
  have ha' := whileLoop_mono (Nat.le_max_left m n) ha
  have hb' := whileLoop_mono (Nat.le_max_right m n) hb
  exact Option.some.inj (ha'.symm.trans hb')

theorem whileLoop_add (h : whileLoop c f n s = none) :
    whileLoop c f (n + m) s = whileLoop c f m (f^[n] s) := by
  induction n generalizing s with
  | zero => rw [Nat.zero_add, Function.iterate_zero_apply]
  | succ n ih =>
    rw [whileLoop] at h
    split_ifs at h with hc
    rw [Nat.succ_add_eq_add_succ, Function.iterate_succ_apply, ← ih h, Nat.add_succ, whileLoop, if_pos hc]

/-- **A loop that is back where it started** goes on for ever. -/
theorem whileLoop_none_of_iterate (hpos : 0 < n) (hf : f^[n] s = s) (h : whileLoop c f n s = none) :
    whileLoop c f m s = none := by
  induction m using Nat.strongRecOn with
  | ind m ih =>
    rcases Nat.lt_or_ge m n with hlt | hge
    · rcases hm : whileLoop c f m s with _ | s'
      · rfl
      · rw [whileLoop_mono (Nat.le_of_lt hlt) hm] at h
        cases h
    · obtain ⟨k, rfl⟩ := Nat.exists_eq_add_of_le hge
      rw [whileLoop_add h, hf]
      exact ih k (by omega)

end Lib
