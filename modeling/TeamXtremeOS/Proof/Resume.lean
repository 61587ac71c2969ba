/-
  Resuming: the pair handed to `returnFromTimer` is the one at which the
  process was interrupted, unless the handler falls back on the idle process.
-/
import TeamXtremeOS.Proof.Wake

namespace TeamXtremeOS

open Lib

variable {s s' : Proc} {k : Kernel} {m m' : Machine} {c : Call} {es : List Call} {i p : Fin 8}
  {seconds sp seg : Int16} {x : PCBRef}

/-! ## What is to be remembered -/

/-- Where each process was interrupted: stack segment and stack pointer. -/
abbrev Contexts := PCBRef → Int16 × Int16

/-- The context of a process after a call: an interrupt gives one to the running
    process, and a new process starts at `0xFF00` in its segment. -/
def record (m : Machine) (c : Call) (ctx : Contexts) : Contexts :=
  match c with
  | .timer sp | .sleep _ sp =>
    Function.update ctx m.kernel.running (stackSegment m.kernel.toProc, sp)
  | .executeProgram name =>
    if Succeeds name m.kernel then
      match freePCB m.kernel.toProc, (getFreeMemorySegment m.kernel.toProc).1 with
      | some p, some i => Function.update ctx (.pcbPool p) (segmentOf (Int16.ofNat i.val), 0xFF00)
      | _, _ => ctx
    else ctx
  | _ => ctx

/-- The contexts along a run. -/
def contexts (m : Machine) (es : List Call) (ctx : Contexts) : Contexts :=
  (labels Machine.step record m es).foldl (fun ctx f => f ctx) ctx

/-- The PCBs hold the contexts of the processes that wait, and the idle process
    waits on the stack of the kernel. -/
structure Remembers (s : Proc) (ctx : Contexts) : Prop where
  pool : ∀ i, s.running ≠ .pcbPool i → (s.pcb (.pcbPool i)).segment ≠ 0 →
    ((s.pcb (.pcbPool i)).segment, (s.pcb (.pcbPool i)).stackPointer) = ctx (.pcbPool i)
  idle : s.running ≠ .idleProc → (ctx .idleProc).1 = 0x1000
  idleSegment : (s.pcb .idleProc).segment = 0

/-- Behind a tick every PCB of a process holds its context. -/
structure Interrupted (s : Proc) (ctx : Contexts) : Prop where
  pool : ∀ i, (s.pcb (.pcbPool i)).segment ≠ 0 →
    ((s.pcb (.pcbPool i)).segment, (s.pcb (.pcbPool i)).stackPointer) = ctx (.pcbPool i)
  idle : (ctx .idleProc).1 = 0x1000
  idleSegment : (s.pcb .idleProc).segment = 0

theorem Interrupted.remembers {ctx : Contexts} (h : Interrupted s ctx) : Remembers s ctx :=
  ⟨fun i _ => h.pool i, fun _ => h.idle, h.idleSegment⟩

theorem Remembers.tick {ctx : Contexts} (h : Remembers s ctx) (ht : Ticked sp s s') :
    Interrupted s' (Function.update ctx s.running (stackSegment s, sp)) := by
  refine ⟨?_, ?_, by rw [ht.segment]; exact h.idleSegment⟩
  · intro i hi
    rw [ht.segment] at hi
    rw [ht.segment, ht.stackPointer, Function.update_apply]
    split_ifs with hr
    · rw [stackSegment, ← hr]
    · exact h.pool i (Ne.symm hr) hi
  · rw [Function.update_apply]
    split_ifs with hr
    · rw [stackSegment, ← hr]
    · exact h.idle (Ne.symm hr)

theorem Remembers.lieDown {ctx : Contexts} (h : Remembers s ctx) (seconds : Int16) :
    Remembers (lieDown seconds s) ctx ∧ stackSegment (lieDown seconds s) = stackSegment s := by
  have hseg : ∀ x, ((TeamXtremeOS.lieDown seconds s).pcb x).segment = (s.pcb x).segment := fun x => by
    rw [lieDown_pcb]; split_ifs <;> rfl
  have hsp : ∀ x, ((TeamXtremeOS.lieDown seconds s).pcb x).stackPointer = (s.pcb x).stackPointer :=
    fun x => by rw [lieDown_pcb]; split_ifs <;> rfl
  refine ⟨⟨?_, h.idle, by rw [hseg]; exact h.idleSegment⟩, ?_⟩
  · intro i hr hi
    rw [hseg] at hi
    rw [hseg, hsp]
    exact h.pool i hr hi
  · have hrun : (TeamXtremeOS.lieDown seconds s).running = s.running := rfl
    unfold stackSegment
    rw [hrun]
    cases s.running with
    | idleProc => rfl
    | pcbPool i => exact hseg _

/-! ## Runs -/

/-- The variables when the handler is entered: `sleep` has laid the running
    process down. -/
def atInterrupt (m : Machine) : Call → Proc
  | .sleep seconds _ => lieDown seconds m.kernel.toProc
  | _ => m.kernel.toProc

/-- An exit frees a segment by an index of the memory map. -/
def FreesByIndex (s : Proc) : Call → Prop
  | .terminate => ∃ i : Fin 8, freedIndex s = Int16.ofNat i.val
  | _ => True

instance : ∀ (s : Proc) (c : Call), Decidable (FreesByIndex s c)
  | s, .terminate => inferInstanceAs (Decidable (∃ i : Fin 8, freedIndex s = Int16.ofNat i.val))
  | _, .executeProgram _ | _, .sleep _ _ | _, .timer _ | _, .kill _ | _, .yield =>
    inferInstanceAs (Decidable True)

theorem resume_ticked {r : Int16 × Int16} {ctx : Contexts} (hJ : Remembers m.kernel.toProc ctx)
    (hr : m.resume c = some (r, s')) :
    r = ((s'.pcb s'.running).segment, (s'.pcb s'.running).stackPointer) ∧
    s'.running = (dispatched (atInterrupt m c)).getD .idleProc ∧
    (∀ x, (s'.pcb x).segment = (m.kernel.pcb x).segment) ∧ Interrupted s' (record m c ctx) := by
  cases c with
  | timer sp =>
    change handleTimerInterrupt (stackSegment m.kernel.toProc) sp _ = _ at hr
    obtain ⟨h1, ht⟩ := handleTimerInterrupt_ticked hr
    exact ⟨h1, ht.running, ht.segment, hJ.tick ht⟩
  | sleep seconds sp =>
    change handleTimerInterrupt (stackSegment m.kernel.toProc) sp _ = _ at hr
    obtain ⟨h1, ht⟩ := handleTimerInterrupt_ticked hr
    obtain ⟨hl, hst⟩ := hJ.lieDown seconds
    have hI := hl.tick ht
    rw [hst] at hI
    refine ⟨h1, ht.running, ?_, hI⟩
    intro x
    rw [ht.segment, lieDown_pcb]
    split_ifs <;> rfl
  | _ => cases hr

theorem Remembers.step {ctx : Contexts} (h : Remembers m.kernel.toProc ctx) (hc : SleepCall m c)
    (hs : m.step c = some m') : Remembers m'.kernel.toProc (record m c ctx) := by
  cases c with
  | executeProgram name =>
    obtain ⟨r, k', hx, rfl⟩ := Machine.step_executeProgram hs
    rcases executeProgram_cases hx with ⟨hr, hx'⟩ | ⟨rfl, i, p, hst⟩
    · have hn : ¬ Succeeds name m.kernel := fun hsu => by
        rw [Succeeds, hx] at hsu
        cases hsu
        exact absurd hr (by decide)
      simp only [record, if_neg hn]
      rw [hx'.eq]
      exact ⟨h.pool, h.idle, h.idleSegment⟩
    · have hsu : Succeeds name m.kernel := by rw [Succeeds, hx]; rfl
      simp only [record, if_pos hsu, hst.free, hst.handedOut]
      refine ⟨?_, ?_, ?_⟩
      · intro j hj hseg
        rw [hst.running] at hj
        rw [hst.segment] at hseg
        rw [hst.segment, hst.stackPointer, Function.update_apply]
        split_ifs at hseg ⊢ with hjp
        · rfl
        · exact h.pool j hj hseg
      · intro hj
        rw [hst.running] at hj
        rw [Function.update_of_ne (by simp)]
        exact h.idle hj
      · rw [hst.segment, if_neg (by simp)]
        exact h.idleSegment
  | terminate =>
    cases hs
    have hrel := releasePCB_released m.kernel.running
      (releaseMemorySegment (freedIndex m.kernel.toProc) m.kernel.toProc)
    change Remembers (terminate m.kernel.toProc) ctx
    rw [terminate_eq]
    refine ⟨?_, ?_, ?_⟩
    · intro j hj hseg
      rw [hrel.running] at hj
      rw [hrel.segment] at hseg
      rw [hrel.segment, hrel.stackPointer]
      exact h.pool j hj hseg
    · intro hj
      rw [hrel.running] at hj
      exact h.idle hj
    · rw [hrel.segment]
      exact h.idleSegment
  | sleep seconds sp =>
    simp only [Machine.step, Option.map_eq_some_iff] at hs
    obtain ⟨⟨r, s'⟩, hr, rfl⟩ := hs
    exact (resume_ticked h hr).2.2.2.remembers
  | timer sp =>
    simp only [Machine.step, Option.map_eq_some_iff] at hs
    obtain ⟨⟨r, s'⟩, hr, rfl⟩ := hs
    exact (resume_ticked h hr).2.2.2.remembers
  | kill => cases hc
  | yield => cases hc

theorem remembers_init (k : Kernel) (ctx : Contexts) :
    Remembers (Machine.init k).kernel.toProc ctx := by
  have hb := initializeProcStructures_booted k.toProc
  exact ⟨fun i _ hi => absurd (hb.segment i) hi, fun hr => absurd hb.running hr, hb.idleSegment⟩

/-- **Every process resumes exactly where it was interrupted**, when the handler
    finds a process to dispatch; the idle process never does. -/
theorem resume_run (ctx : Contexts)
    (h : Run Machine.step (fun m c => SleepCall m c ∧ FreesByIndex m.kernel.toProc c)
      (Machine.init k) es m) {seg sp : Int16} (hr : m.resume c = some ((seg, sp), s')) :
    ((∃ x, dispatched (atInterrupt m c) = some x ∧ (m.kernel.pcb x).segment ≠ 0) →
      (seg, sp) = record m c (contexts (Machine.init k) es ctx) s'.running) ∧
    (dispatched (atInterrupt m c) = none →
      (seg, sp) ≠ record m c (contexts (Machine.init k) es ctx) s'.running) := by
  have hJ : Remembers m.kernel.toProc (contexts (Machine.init k) es ctx) :=
    h.simulate (R := fun m ctx => Remembers m.kernel.toProc ctx)
      (fun m ctx c m' hJ hc hs => Remembers.step hJ hc.1 hs) (remembers_init k ctx)
  obtain ⟨h1, hrun, hseg, hI⟩ := resume_ticked hJ hr
  constructor
  · rintro ⟨x, hx, hne⟩
    rw [hx] at hrun
    rw [h1, hrun]
    rcases x with _ | i
    · exact absurd (by rw [← hseg]; exact hI.idleSegment) hne
    · exact hI.pool i (by rw [hseg]; exact hne)
  · intro hx he
    rw [hx] at hrun
    rw [h1, hrun] at he
    have := congrArg Prod.fst he
    simp only [Option.getD_none, hI.idle, hI.idleSegment] at this
    exact absurd this (by decide)

/-- Two processes: the first one is interrupted, the second one runs and is
    interrupted elsewhere, and the first one is resumed where it has been. -/
theorem resume_run_two : ∃ m s', m.resume (.timer 11) = some ((0x2000, 9), s') ∧
    ((0x2000 : Int16), (9 : Int16)) = record m (.timer 11) (contexts (Machine.init oneFileKernel)
      [.executeProgram nameA, .executeProgram nameA, .timer 7, .timer 9] fun _ => (0, 0)) s'.running := by
  have h : (evalRun Machine.step (fun m c => SleepCall m c ∧ FreesByIndex m.kernel.toProc c)
      (Machine.init oneFileKernel) [.executeProgram nameA, .executeProgram nameA, .timer 7, .timer 9]).any
      (fun m => (dispatched m.kernel.toProc = some (.pcbPool 0) ∧
        (m.kernel.pcb (.pcbPool 0)).segment ≠ 0) ∧
        (m.resume (.timer 11)).any fun r => r.1 = (0x2000, 9)) = true := by decide +kernel
  obtain ⟨m, hr, hm⟩ := Run.exists_of_evalRun h
  simp only [decide_eq_true_eq, Option.any_eq_true, Prod.exists, Prod.mk.injEq] at hm
  obtain ⟨hd, seg, sp, s', hs, rfl, rfl⟩ := hm
  exact ⟨m, s', hs, (resume_run _ hr hs).1 ⟨_, hd⟩⟩

/-- The main loop of the kernel is interrupted with `ss` 0x1000, and resumed
    with stack segment 0. -/
theorem resume_idle : ∃ m s', Run Machine.step SleepCall (Machine.init oneFileKernel)
      [.executeProgram nameA, .timer 7, .terminate] m ∧
    m.resume (.timer 9) = some ((0, 7), s') ∧ s'.running = .idleProc ∧
    record m (.timer 9) (contexts (Machine.init oneFileKernel)
      [.executeProgram nameA, .timer 7, .terminate] fun _ => (0, 0)) .idleProc = (0x1000, 7) := by
  have h : (evalRun Machine.step SleepCall (Machine.init oneFileKernel)
      [.executeProgram nameA, .timer 7, .terminate]).any
      (fun m => record m (.timer 9) (contexts (Machine.init oneFileKernel)
        [.executeProgram nameA, .timer 7, .terminate] fun _ => (0, 0)) .idleProc = (0x1000, 7) ∧
        (m.resume (.timer 9)).any fun r => r.1 = (0, 7) ∧ r.2.running = .idleProc) = true := by
    decide +kernel
  obtain ⟨m, hr, hm⟩ := Run.exists_of_evalRun h
  simp only [decide_eq_true_eq, Option.any_eq_true, Prod.exists, Prod.mk.injEq] at hm
  obtain ⟨hc, seg, sp, s', hs, ⟨rfl, rfl⟩, hi⟩ := hm
  exact ⟨m, s', hr, hs, hi, hc⟩

end TeamXtremeOS
