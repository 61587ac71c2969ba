/-
  First-in first-out queues: the list that is meant, and implementations that
  keep it in a state of their own.

  `add` and `remove` may fail.  What the state looks like behind a removed
  element, or in elements that are not in the queue, is left open.
-/
import Mathlib.Data.List.Basic

namespace Lib

variable {α σ : Type*}

/-- The operations on a queue. -/
inductive FifoOp (α : Type*) where
  | add (a : α)
  | remove
  deriving DecidableEq, Repr

/-- What the removals of a list return, and the list that is left. -/
def fifo : List (FifoOp α) → List α → List (Option α) × List α
  | [], q => ([], q)
  | .add a :: ops, q => fifo ops (q ++ [a])
  | .remove :: ops, q => (q.head? :: (fifo ops q.tail).1, (fifo ops q.tail).2)

/-- No element is added while it is in the list. -/
def FifoFresh : List (FifoOp α) → List α → Prop
  | [], _ => True
  | .add a :: ops, q => a ∉ q ∧ FifoFresh ops (q ++ [a])
  | .remove :: ops, q => FifoFresh ops q.tail

instance FifoFresh.decidable [DecidableEq α] :
    ∀ (ops : List (FifoOp α)) (q : List α), Decidable (FifoFresh ops q)
  | [], _ => inferInstanceAs (Decidable True)
  | .add a :: ops, q => @instDecidableAnd _ _ inferInstance (FifoFresh.decidable ops (q ++ [a]))
  | .remove :: ops, q => FifoFresh.decidable ops q.tail

/-- A queue in a state: how an element is added, how one is removed, and which
    ones are in it. -/
structure FifoImpl (σ α : Type*) where
  add : α → σ → Option σ
  remove : σ → Option (Option α × σ)
  mem : σ → α → Prop

namespace FifoImpl
variable (I : FifoImpl σ α) {R : σ → List α → Prop} {s : σ} {q : List α} {ops : List (FifoOp α)}

/-- What the removals return, and the state afterwards. -/
def run : List (FifoOp α) → σ → Option (List (Option α) × σ)
  | [], s => some ([], s)
  | .add a :: ops, s => (I.add a s).bind (run ops)
  | .remove :: ops, s => (I.remove s).bind fun r => (run ops r.2).map fun rs => (r.1 :: rs.1, rs.2)

/-- No element is added while it is in the queue. -/
def Fresh : List (FifoOp α) → σ → Prop
  | [], _ => True
  | .add a :: ops, s => ¬ I.mem s a ∧ ∀ s', I.add a s = some s' → Fresh ops s'
  | .remove :: ops, s => ∀ r s', I.remove s = some (r, s') → Fresh ops s'

/-- `R s q`: the state `s` holds the list `q`. -/
structure Holds (R : σ → List α → Prop) : Prop where
  mem : ∀ {s q a}, R s q → (I.mem s a ↔ a ∈ q)
  add : ∀ {s q a}, R s q → a ∉ q → ∃ s', I.add a s = some s' ∧ R s' (q ++ [a])
  remove : ∀ {s q}, R s q → ∃ s', I.remove s = some (q.head?, s') ∧ R s' q.tail

variable {I}

theorem Holds.fresh_iff (hR : I.Holds R) (h : R s q) : I.Fresh ops s ↔ FifoFresh ops q := by
  induction ops generalizing s q with
  | nil => exact Iff.rfl
  | cons op ops ih =>
    cases op with
    | add a =>
      rw [Fresh, FifoFresh, hR.mem h]
      refine and_congr_right ?_
      intro ha
      obtain ⟨s', hs, h'⟩ := hR.add h ha
      rw [← ih h']
      refine ⟨fun hf => hf s' hs, ?_⟩
      intro hf s'' hs''
      rw [hs, Option.some.injEq] at hs''
      exact hs'' ▸ hf
    | remove =>
      obtain ⟨s', hs, h'⟩ := hR.remove h
      rw [Fresh, FifoFresh, ← ih h']
      refine ⟨fun hf => hf _ s' hs, ?_⟩
      intro hf r s'' hs''
      rw [hs, Option.some.injEq, Prod.mk.injEq] at hs''
      exact hs''.2 ▸ hf

/-- **An implementation that holds a list returns what the list returns.** -/
theorem Holds.run_eq (hR : I.Holds R) (h : R s q) (hf : I.Fresh ops s) :
    ∃ s', I.run ops s = some ((fifo ops q).1, s') ∧ R s' (fifo ops q).2 := by
  induction ops generalizing s q with
  | nil => exact ⟨s, rfl, h⟩
  | cons op ops ih =>
    cases op with
    | add a =>
      obtain ⟨ha, hf⟩ := hf
      rw [hR.mem h] at ha
      obtain ⟨s', hs, h'⟩ := hR.add h ha
      obtain ⟨s'', hr, h''⟩ := ih h' (hf s' hs)
      refine ⟨s'', ?_, h''⟩
      rw [run, hs, Option.bind_some, hr, fifo]
    | remove =>
      obtain ⟨s', hs, h'⟩ := hR.remove h
      obtain ⟨s'', hr, h''⟩ := ih h' (hf _ s' hs)
      refine ⟨s'', ?_, h''⟩
      rw [run, hs, Option.bind_some, hr, Option.map_some, fifo]

end FifoImpl

end Lib
