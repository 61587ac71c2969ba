/-
  Killing: a killed process never runs again, as long as every PCB that is
  released has links that tell where it is, and no running process is started
  anew.
-/
import TeamXtremeOS.Proof.Isolation
import TeamXtremeOS.Proof.Sleepers

namespace TeamXtremeOS

open Lib

variable {s s' : Proc} {k : Kernel} {m m' : Machine} {c : Call} {es : List Call} {i j p : Fin 8}
  {q : List PCBRef} {name : FileName} {seg sp : Int16} {x : PCBRef}

/-! ## Runs with kills -/

/-- The calls of a run with kills: `executeProgram`, with any outcome, `kill`
    of a segment index, exits, and the timer. -/
def KillCall (m : Machine) : Call → Prop
  | .executeProgram name => m.MayCall (.executeProgram name)
  | .kill segment => m.MayCall (.kill segment) ∧ 0 ≤ segment ∧ segment ≤ 7
  | .terminate => m.MayCall .terminate
  | .timer _ => True
  | _ => False

instance : ∀ (m : Machine) (c : Call), Decidable (KillCall m c)
  | m, .executeProgram name => inferInstanceAs (Decidable (m.MayCall (.executeProgram name)))
  | _, .kill _ => inferInstanceAs (Decidable (_ ∧ _ ∧ _))
  | m, .terminate => inferInstanceAs (Decidable (m.MayCall .terminate))
  | _, .timer _ => inferInstanceAs (Decidable True)
  | _, .yield | _, .sleep _ _ => inferInstanceAs (Decidable False)

/-- What is released can be found by its links, a segment is freed by an index
    of the memory map, and the PCB of the running process is not taken for a
    new one. -/
def KnowsItsPlace (s : Proc) : Call → Prop
  | .executeProgram _ => ∀ p, freePCB s = some p → s.running ≠ .pcbPool p
  | .kill segment => ∀ i, victim segment s = some i → LinksTell s (.pcbPool i)
  | .terminate => (∃ i : Fin 8, freedIndex s = Int16.ofNat i.val) ∧ LinksTell s s.running
  | _ => True

/-- The call of `executeProgram` obtains PCB `p`. -/
def Obtains (p : Fin 8) (m : Machine) : Call → Prop
  | .executeProgram name => Succeeds name m.kernel ∧ freePCB m.kernel.toProc = some p
  | _ => False

/-- PCB `p` is released and not that of the running process. -/
def Gone (s : Proc) (p : Fin 8) : Prop := ¬ Live s p ∧ s.running ≠ .pcbPool p

theorem Gone.release (h : Gone s p) {idx : Int16} (hr : Released (releaseMemorySegment idx s) s' x) :
    Gone s' p := by
  refine ⟨fun hl => h.1 (hr.live_iff.1 hl).1, ?_⟩
  rw [hr.running]
  exact h.2

/-- A tick does not dispatch what is gone. -/
theorem Gone.tick (h : Gone s p) (hq : ReadyQueue DQueue s q) (hw : woken s = []) (ht : Ticked sp s s') :
    Gone s' p := by
  have hd : (s.pcb (.pcbPool p)).state = .DEFUNCT := not_not.1 h.1
  have hne : .pcbPool p ∉ q ++ woken s ++ requeued s := fun hm => by
    rw [hw, List.append_nil] at hm
    rcases List.mem_append.1 hm with hm | hm
    · exact hq.notMem (by rw [hd]; decide) hm
    · exact h.2 (mem_requeued.1 hm).2.symm
  have hdis : dispatched s ≠ some (.pcbPool p) := fun he =>
    hne (List.mem_of_mem_head? (hq.queue.queue.dispatched_eq ▸ he))
  constructor
  · unfold Live
    rw [ht.state, if_neg hdis, if_neg fun hm => hne (by
      rw [List.append_assoc]; exact List.mem_append_right _ hm)]
    exact h.1
  · exact fun hr => hdis (ht.running_iff.1 hr)

/-- What holds along a run with kills: there is a ready queue, and nobody
    sleeps. -/
structure KillInv (s : Proc) : Prop where
  queue : ∃ q, ReadyQueue DQueue s q
  awake : ∀ i, (s.pcb (.pcbPool i)).state ≠ .SLEEPING

/-- One step keeps the invariant, and what is gone stays gone unless it is
    obtained. -/
theorem KillInv.step (h : KillInv m.kernel.toProc) (hc : KillCall m c)
    (hk : KnowsItsPlace m.kernel.toProc c) (hs : m.step c = some m') :
    KillInv m'.kernel.toProc ∧
      ∀ p, Gone m.kernel.toProc p → ¬ Obtains p m c → Gone m'.kernel.toProc p := by
  obtain ⟨⟨q, hq⟩, ha⟩ := h
  have hrel : ∀ i idx, LinksTell m.kernel.toProc (.pcbPool i) →
      KillInv (releasePCB (.pcbPool i) (releaseMemorySegment idx m.kernel.toProc)) :=
    fun i idx hl => ⟨⟨_, hq.release hl idx⟩, fun j => by
      have hr := releasePCB_released (.pcbPool i) (releaseMemorySegment idx m.kernel.toProc)
      rw [hr.state]
      split_ifs
      · decide
      · exact ha j⟩
  cases c with
  | executeProgram name =>
    obtain ⟨r, k', he, rfl⟩ := Machine.step_executeProgram hs
    rcases executeProgram_cases he with ⟨-, hr⟩ | ⟨rfl, i, p, hst⟩
    · refine ⟨⟨⟨q, hq.refused queueInv_dQueue hr⟩, ?_⟩, ?_⟩
      · intro j
        change (k'.toProc.pcb (.pcbPool j)).state ≠ _
        rw [hr.eq]
        exact ha j
      · intro p hp _
        change Gone k'.toProc p
        rw [hr.eq]
        exact hp
    · refine ⟨⟨⟨_, hq.started queueInv_dQueue hst (hk p hst.free)⟩, ?_⟩, ?_⟩
      · intro j
        rw [hst.state]
        split_ifs
        · decide
        · exact ha j
      · intro p' hp' ho
        have hne : p' ≠ p := fun hpp => ho ⟨by rw [Succeeds, he]; rfl, hpp ▸ hst.free⟩
        refine ⟨?_, by rw [hst.running]; exact hp'.2⟩
        unfold Live
        rw [hst.state, if_neg fun he => hne (pcbPool_injective he)]
        exact hp'.1
  | terminate =>
    cases hs
    obtain ⟨i, hi⟩ := exists_pool hc.2
    have hl := hk.2
    rw [hi] at hl
    refine ⟨?_, fun p hp _ => hp.release (releasePCB_released _ _)⟩
    change KillInv (terminate m.kernel.toProc)
    unfold terminate
    rw [hi]
    exact hrel i _ hl
  | kill segment =>
    cases hs
    change KillInv (kill segment m.kernel.toProc).2 ∧ ∀ p, Gone m.kernel.toProc p →
      _ → Gone (kill segment m.kernel.toProc).2 p
    rcases hv : victim segment m.kernel.toProc with _ | i
    · rw [kill_none hv]
      exact ⟨⟨⟨q, hq⟩, ha⟩, fun p hp _ => hp⟩
    · rw [kill_eq hv]
      exact ⟨hrel i _ (hk i hv), fun p hp _ => hp.release (releasePCB_released _ _)⟩
  | timer sp =>
    have hw := woken_awake ha
    obtain ⟨r, s', hts, ht, hq'⟩ := hq.tick queueInv_dQueue (by rw [hw]; simp) (stackSegment m.kernel.toProc) sp
    rw [Machine.step_timer_of hts] at hs
    cases hs
    refine ⟨⟨⟨_, hq'⟩, ?_⟩, fun p hp _ => hp.tick hq hw ht⟩
    intro j
    rw [ht.state]
    split_ifs
    · decide
    · decide
    · exact ha j
  | yield => cases hc
  | sleep => cases hc

theorem Booted.killInv (h : Booted s s') (hl : NullLinks s) : KillInv s' :=
  ⟨⟨[], h.readyQueue (h.dQueue hl)⟩, fun i => by simp [h.defunct]⟩

/-- **A killed process never runs again**, in every run in which what is
    released knows its place; and no released PCB is on the queue. -/
theorem killed_run (hk : NullLinks k.toProc)
    (h : Run Machine.step (fun m c => KillCall m c ∧ KnowsItsPlace m.kernel.toProc c)
      (Machine.init k) es m) :
    (∀ j, ¬ Live m.kernel.toProc j → ¬ OnQueue m.kernel.toProc (.pcbPool j)) ∧
    ∀ segment i m₁ es' m₂, KillCall m (.kill segment) →
      KnowsItsPlace m.kernel.toProc (.kill segment) → (kill segment m.kernel.toProc).1 = 1 →
      victim segment m.kernel.toProc = some i → m.kernel.running ≠ .pcbPool i →
      m.step (.kill segment) = some m₁ →
      Run Machine.step (fun m c => (KillCall m c ∧ KnowsItsPlace m.kernel.toProc c) ∧
        ¬ Obtains i m c) m₁ es' m₂ →
      m₂.kernel.running ≠ .pcbPool i ∧ (m₂.kernel.pcb (.pcbPool i)).state ≠ .RUNNING := by
  have hI : KillInv m.kernel.toProc := h.invariant (I := fun m => KillInv m.kernel.toProc)
    (fun m c m' hI hc hs => (hI.step hc.1 hc.2 hs).1)
    ((initializeProcStructures_booted k.toProc).killInv hk)
  obtain ⟨q, hq⟩ := hI.queue
  refine ⟨fun j hj => hq.notOnQueue queueInv_dQueue (by rw [not_not.1 hj]; decide), ?_⟩
  intro segment i m₁ es' m₂ hc hp _ hv hne hs hr
  have h1 := (hI.step hc hp hs).1
  have hg : Gone m₁.kernel.toProc i := by
    cases hs
    change Gone (kill segment m.kernel.toProc).2 i
    rw [kill_eq hv]
    have hrel := releasePCB_released (.pcbPool i) (releaseMemorySegment segment m.kernel.toProc)
    exact ⟨fun hl => hl (by rw [hrel.state, if_pos rfl]), by rw [hrel.running]; exact hne⟩
  have h2 := hr.invariant (I := fun m => KillInv m.kernel.toProc ∧ Gone m.kernel.toProc i)
    (fun m c m' hI hc hs => ⟨(hI.1.step hc.1.1 hc.1.2 hs).1,
      (hI.1.step hc.1.1 hc.1.2 hs).2 i hI.2 hc.2⟩) ⟨h1, hg⟩
  refine ⟨h2.2.2, fun hst => h2.2.1 ?_⟩
  unfold Live
  rw [hst]
  decide

/-- Of three processes the one at the head of the queue is killed; the other two
    take turns then. -/
theorem killed_run_head : ∃ m m₁ m₂ m₃ : Machine, m.kernel.readyHead = some (.pcbPool 1) ∧
    m.step (.kill 1) = some m₁ ∧ m₁.step (.timer 8) = some m₂ ∧ m₂.step (.timer 9) = some m₃ ∧
    m₂.kernel.running = .pcbPool 2 ∧ m₃.kernel.running = .pcbPool 0 ∧
    (m₃.kernel.pcb (.pcbPool 1)).state ≠ .RUNNING := by
  have h : (evalRun Machine.step (fun m c => KillCall m c ∧ SleeperCall m c ∧
      ∀ p, freePCB m.kernel.toProc = some p → m.kernel.running ≠ .pcbPool p)
      (Machine.init oneFileKernel)
      [.executeProgram nameA, .executeProgram nameA, .executeProgram nameA, .timer 7]).any
      (fun m => (m.kernel.readyHead = some (.pcbPool 1) ∧ m.kernel.readyTail ≠ some (.pcbPool 1) ∧
        victim 1 m.kernel.toProc = some 1 ∧ m.kernel.running ≠ .pcbPool 1 ∧ m.halted = false) ∧
        (m.step (.kill 1)).any fun m₁ => (m₁.step (.timer 8)).any fun m₂ =>
          m₂.kernel.running = .pcbPool 2 ∧ (m₂.step (.timer 9)).any fun m₃ => m₃.kernel.running = .pcbPool 0) =
      true := by decide +kernel
  obtain ⟨m, hr, hm⟩ := Run.exists_of_evalRun h
  simp only [decide_eq_true_eq, Option.any_eq_true] at hm
  obtain ⟨⟨hh, ht, hv, hne, hhalt⟩, m₁, h₁, m₂, h₂, hrun₂, m₃, h₃, hrun₃⟩ := hm
  have hr' : Run Machine.step (fun m c => KillCall m c ∧ KnowsItsPlace m.kernel.toProc c)
      (Machine.init oneFileKernel) _ m := hr.mono fun m c hc => by
    refine ⟨hc.1, ?_⟩
    cases c with
    | executeProgram name => exact hc.2.2
    | timer => trivial
    | yield => trivial
    | sleep => trivial
    | terminate => cases hc.2.1
    | kill => cases hc.2.1
  have hp : KnowsItsPlace m.kernel.toProc (.kill 1) := fun i hi => by
    rw [hv] at hi; cases hi
    exact linksTell_head hh ht
  have hlater : Run Machine.step (fun m c => (KillCall m c ∧ KnowsItsPlace m.kernel.toProc c) ∧ ¬ Obtains 1 m c)
      m₁ [.timer 8, .timer 9] m₃ :=
    .cons ⟨⟨trivial, trivial⟩, not_false⟩ h₂ (.cons ⟨⟨trivial, trivial⟩, not_false⟩ h₃ .nil)
  refine ⟨m, m₁, m₂, m₃, hh, h₁, h₂, h₃, hrun₂, hrun₃, ?_⟩
  exact ((killed_run oneFileKernel_nullLinks hr').2 1 1 m₁ _ m₃ ⟨hhalt, by decide, by decide⟩ hp
    (by rw [kill_eq hv]) hv hne h₁ hlater).2

/-- A process that is killed when it is the only one on the queue stays there
    and is dispatched by the next tick. -/
theorem killed_runs : NullLinks oneFileKernel.toProc ∧ ∃ m m₁ m₂,
    Run Machine.step KillCall (Machine.init oneFileKernel)
      [.executeProgram nameA, .timer 7, .executeProgram nameA] m ∧
    KillCall m (.kill 1) ∧ (kill 1 m.kernel.toProc).1 = 1 ∧ m.step (.kill 1) = some m₁ ∧
    victim 1 m.kernel.toProc = some 1 ∧ m.kernel.running ≠ .pcbPool 1 ∧
    (¬ Live m₁.kernel.toProc 1 ∧ OnQueue m₁.kernel.toProc (.pcbPool 1)) ∧
    m₁.step (.timer 9) = some m₂ ∧ m₂.kernel.running = .pcbPool 1 ∧
    (m₂.kernel.pcb (.pcbPool 1)).state = .RUNNING := by
  have h : (evalRun Machine.step KillCall (Machine.init oneFileKernel)
      [.executeProgram nameA, .timer 7, .executeProgram nameA]).any (fun m =>
        (KillCall m (.kill 1) ∧ (kill 1 m.kernel.toProc).1 = 1 ∧
          victim 1 m.kernel.toProc = some 1 ∧ m.kernel.running ≠ .pcbPool 1) ∧
        (m.step (.kill 1)).any (fun m₁ => (¬ Live m₁.kernel.toProc 1 ∧
          m₁.kernel.readyHead = some (.pcbPool 1)) ∧ (m₁.step (.timer 9)).any (fun m₂ =>
            m₂.kernel.running = .pcbPool 1 ∧ (m₂.kernel.pcb (.pcbPool 1)).state = .RUNNING))) =
      true := by decide +kernel
  obtain ⟨m, hr, hm⟩ := Run.exists_of_evalRun h
  simp only [decide_eq_true_eq, Option.any_eq_true] at hm
  obtain ⟨⟨hc, hk, hv, hne⟩, m₁, h1, ⟨hd, hh⟩, m₂, h2, hrun, hst⟩ := hm
  exact ⟨oneFileKernel_nullLinks, m, m₁, m₂, hr, hc, hk, h1, hv, hne, ⟨hd, .head hh⟩, h2, hrun, hst⟩

end TeamXtremeOS
