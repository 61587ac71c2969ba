/-
  Runs of a partial step function.

  `Run step ok s es s'`: the events `es` lead from `s` to `s'`, each of them
  is permitted (`ok`) in the state in which it happens, and its step succeeds.
-/
import Mathlib.Data.List.Basic
import Mathlib.Tactic.SplitIfs

namespace Lib

variable {σ ε α β : Type*}

/-- The runs of `step` whose every event satisfies `ok` in the state it meets. -/
inductive Run (step : σ → ε → Option σ) (ok : σ → ε → Prop) : σ → List ε → σ → Prop
  | nil {s} : Run step ok s [] s
  | cons {s e s' es s''} : ok s e → step s e = some s' → Run step ok s' es s'' →
      Run step ok s (e :: es) s''

/-- The labels `lab` gives to the events of a run, each in the state it meets. -/
def labels (step : σ → ε → Option σ) (lab : σ → ε → β) : σ → List ε → List β
  | _, [] => []
  | s, e :: es => lab s e :: match step s e with
    | some s' => labels step lab s' es
    | none => []

namespace Run
variable {step : σ → ε → Option σ} {ok ok' : σ → ε → Prop} {s s' s'' : σ} {e : ε} {es es' : List ε}

theorem append (h : Run step ok s es s') (h' : Run step ok s' es' s'') :
    Run step ok s (es ++ es') s'' := by
  induction h with
  | nil => exact h'
  | cons hok hs _ ih => exact .cons hok hs (ih h')

theorem single (hok : ok s e) (hs : step s e = some s') : Run step ok s [e] s' :=
  .cons hok hs .nil

theorem mono (h : Run step ok s es s') (hle : ∀ s e, ok s e → ok' s e) : Run step ok' s es s' := by
  induction h with
  | nil => exact .nil
  | cons hok hs _ ih => exact .cons (hle _ _ hok) hs ih

/-- **The invariant rule**: what holds initially and is preserved by every
    permitted step holds after every run. -/
theorem invariant {I : σ → Prop} (hI : ∀ s e s', I s → ok s e → step s e = some s' → I s')
    (h : Run step ok s es s') (h0 : I s) : I s' := by
  induction h with
  | nil => exact h0
  | cons hok hs _ ih => exact ih (hI _ _ _ h0 hok hs)

/-- **The simulation rule**: a relation preserved by every permitted step and
    the abstract step of its label relates the end of a run to the end of the
    abstract run over its labels. -/
theorem simulate {R : σ → α → Prop} {astep : α → β → α} {lab : σ → ε → β}
    (hR : ∀ s a e s', R s a → ok s e → step s e = some s' → R s' (astep a (lab s e)))
    (h : Run step ok s es s') {a : α} (h0 : R s a) :
    R s' ((labels step lab s es).foldl astep a) := by
  induction h generalizing a with
  | nil => exact h0
  | cons hok hs _ ih =>
    simp only [labels, hs, List.foldl_cons]
    exact ih (hR _ _ _ _ h0 hok hs)

theorem labels_append {lab : σ → ε → β} (h : Run step ok s es s') (es' : List ε) :
    labels step lab s (es ++ es') = labels step lab s es ++ labels step lab s' es' := by
  induction h with
  | nil => rfl
  | cons _ hs _ ih => simp only [List.cons_append, labels, hs, ih]

theorem labels_id (h : Run step ok s es s') : labels step (fun _ e => e) s es = es := by
  induction h with
  | nil => rfl
  | cons _ hs _ ih => simp only [labels, hs, ih]

end Run

/-- The state after a run, if each event is permitted and each step succeeds. -/
def evalRun (step : σ → ε → Option σ) (ok : σ → ε → Prop) [∀ s e, Decidable (ok s e)] :
    σ → List ε → Option σ
  | s, [] => some s
  | s, e :: es => if ok s e then (step s e).bind fun s' => evalRun step ok s' es else none

theorem Run.of_evalRun {step : σ → ε → Option σ} {ok : σ → ε → Prop} [∀ s e, Decidable (ok s e)]
    {s s' : σ} {es : List ε} (h : evalRun step ok s es = some s') : Run step ok s es s' := by
  induction es generalizing s with
  | nil => cases h; exact .nil
  | cons e es ih =>
    rw [evalRun] at h
    split_ifs at h with hok
    simp only [Option.bind_eq_some_iff] at h
    obtain ⟨s₁, h1, h2⟩ := h
    exact .cons hok h1 (ih h2)

theorem Run.exists_of_evalRun {step : σ → ε → Option σ} {ok : σ → ε → Prop}
    [∀ s e, Decidable (ok s e)] {s : σ} {es : List ε} {good : σ → Bool}
    (h : (evalRun step ok s es).any good = true) : ∃ s', Run step ok s es s' ∧ good s' = true := by
  rcases he : evalRun step ok s es with _ | s'
  · rw [he] at h; cases h
  · rw [he] at h; exact ⟨s', .of_evalRun he, h⟩

end Lib
