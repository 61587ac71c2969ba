/-
  Laying a list over a memory, with a terminator behind it, and how far a chain
  of such lists reaches when each one starts at the length of the one before.
-/
import Mathlib.Data.List.GetD
import Mathlib.Data.List.Chain
import Mathlib.Algebra.BigOperators.Group.List.Basic
import Mathlib.Algebra.Ring.Nat

namespace Lib

variable {α : Type*} {z : α} {t i k o : ℕ} {l : List α} {mem : ℕ → α} {ns : List ℕ}

/-- The memory with `l` from place `t` on, and `z` behind it. -/
def laid (z : α) (t : ℕ) (l : List α) (mem : ℕ → α) : ℕ → α := fun o =>
  if t ≤ o ∧ o ≤ t + l.length then l.getD (o - t) z else mem o

theorem laid_before (h : o < t) : laid z t l mem o = mem o := if_neg (by omega)

theorem laid_behind (h : t + l.length < o) : laid z t l mem o = mem o := if_neg (by omega)

theorem laid_at (h : i ≤ l.length) : laid z t l mem (t + i) = l.getD i z := by
  rw [laid, if_pos (by omega), Nat.add_sub_cancel_left]

theorem laid_zero (h : i ≤ l.length) : laid z 0 l mem i = l.getD i z := by
  rw [laid, if_pos (by omega), Nat.sub_zero]

/-- Two neighbours of four positive numbers or more do not sum up to what all of
    them do, less one.  (`k` counts what has been left out in front.) -/
theorem isChain_add_lt (hpos : ∀ n ∈ ns, 0 < n) (hsum : ns.sum + k ≤ o + 1) (hlen : 4 ≤ ns.length + k) :
    ns.IsChain fun a b => a + b < o := by
  induction ns generalizing k with
  | nil => exact .nil
  | cons a ns ih =>
    rcases ns with _ | ⟨b, ns⟩
    · exact List.isChain_singleton a
    · have ha := hpos a List.mem_cons_self
      have hle := ns.length_le_sum_of_one_le fun n hn => hpos n (List.mem_cons_of_mem _ (List.mem_cons_of_mem _ hn))
      simp only [List.sum_cons, List.length_cons] at hsum hlen ih
      rw [List.isChain_cons_cons]
      refine ⟨by omega, ih (k := k + a) (fun n hn => hpos n (List.mem_cons_of_mem _ hn)) ?_ ?_⟩
      · omega
      · omega

end Lib
