/-
  Sleeping: a sleeper is not on the queue and is not dispatched early, as long
  as no exit relinks it.
-/
import TeamXtremeOS.Proof.Isolation
import TeamXtremeOS.Proof.ReadyQueue

namespace TeamXtremeOS

open Lib

variable {s s' : Proc} {k : Kernel} {m m' : Machine} {c : Call} {es : List Call} {i j p : Fin 8}
  {q : List PCBRef} {name : FileName} {seconds seg sp : Int16} {x : PCBRef}

/-- The calls of a run with sleeps and exits: `executeProgram`, with any
    outcome, sleeps of 1 to 262 seconds, exits, and the timer. -/
def SleepCall (m : Machine) : Call → Prop
  | .executeProgram name => m.MayCall (.executeProgram name)
  | .sleep seconds sp => m.MayCall (.sleep seconds sp) ∧ 1 ≤ seconds ∧ seconds ≤ 262
  | .terminate => m.MayCall .terminate
  | .timer _ => True
  | _ => False

instance : ∀ (m : Machine) (c : Call), Decidable (SleepCall m c)
  | m, .executeProgram name => inferInstanceAs (Decidable (m.MayCall (.executeProgram name)))
  | _, .sleep _ _ => inferInstanceAs (Decidable (_ ∧ _ ∧ _))
  | m, .terminate => inferInstanceAs (Decidable (m.MayCall .terminate))
  | _, .timer _ => inferInstanceAs (Decidable True)
  | _, .kill _ | _, .yield => inferInstanceAs (Decidable False)

/-- A process exits without a stale `next` link, and its segment is freed by an
    index of the memory map. -/
def ExitsUnlinked (s : Proc) : Call → Prop
  | .terminate => (∃ i : Fin 8, freedIndex s = Int16.ofNat i.val) ∧
      ((s.pcb s.running).next = none ∨ (s.pcb s.running).next = s.readyHead)
  | _ => True

instance : ∀ (s : Proc) (c : Call), Decidable (ExitsUnlinked s c)
  | s, .terminate => inferInstanceAs (Decidable ((∃ i : Fin 8, freedIndex s = Int16.ofNat i.val) ∧ _))
  | _, .executeProgram _ | _, .sleep _ _ | _, .timer _ | _, .kill _ | _, .yield =>
    inferInstanceAs (Decidable True)

/-- What holds along such a run: there is a ready queue, and the running
    process is `RUNNING` until it exits. -/
structure SleepInv (m : Machine) : Prop where
  queue : ∃ q, ReadyQueue DQueue m.kernel.toProc q
  active : ∀ i, m.kernel.running = .pcbPool i → (m.kernel.pcb (.pcbPool i)).state =
    if m.halted then .DEFUNCT else .RUNNING

theorem SleepInv.running_ne (h : SleepInv m) (hi : (m.kernel.pcb (.pcbPool i)).state = .SLEEPING) :
    m.kernel.running ≠ .pcbPool i := fun hr => by
  have := h.active i hr
  rw [hi] at this
  split_ifs at this

theorem SleepInv.running_notMem_woken (h : SleepInv m) :
    m.kernel.running ∉ woken m.kernel.toProc := fun hw => by
  obtain ⟨i, hi⟩ := pool_of_mem_wokenOf hw
  exact h.running_ne (i := i) (hi ▸ sleeping_of_mem_woken hw) hi

/-- The running process, once it has lain down, does not wake at once. -/
theorem lieDown_notMem_woken (h1 : 1 ≤ seconds) (h2 : seconds ≤ 262) (hr : s.running = .pcbPool i) :
    (lieDown seconds s).running ∉ woken (lieDown seconds s) := by
  have hrun : (lieDown seconds s).running = .pcbPool i := hr
  rw [hrun, mem_woken]
  rintro ⟨-, hc⟩
  rw [lieDown_pcb, if_pos hr.symm] at hc
  rw [Int16.le_iff_toInt_le] at h1 h2 hc
  have e0 : (0 : Int16).toInt = 0 := rfl
  have e1 : (1 : Int16).toInt = 1 := rfl
  have e2 : (262 : Int16).toInt = 262 := rfl
  have e3 : (125 : Int16).toInt = 125 := rfl
  have hm : (seconds * 125).toInt = seconds.toInt * 125 := by
    rw [Int16.toInt_mul, e3, Int.bmod_eq_of_le (by omega) (by omega)]
  rw [Int16.toInt_sub, hm, e0, e1, Int.bmod_eq_of_le (by omega) (by omega)] at hc
  omega

theorem SleepInv.step (h : SleepInv m) (hc : SleepCall m c) (he : ExitsUnlinked m.kernel.toProc c)
    (hs : m.step c = some m') : SleepInv m' := by
  obtain ⟨q, hq⟩ := h.queue
  cases c with
  | executeProgram name =>
    have hh : m.halted = false := hc
    obtain ⟨r, k', hx, rfl⟩ := Machine.step_executeProgram hs
    rcases executeProgram_cases hx with ⟨-, hr⟩ | ⟨rfl, i, p, hst⟩
    · refine ⟨⟨q, hq.refused queueInv_dQueue hr⟩, ?_⟩
      intro j hj
      change k'.toProc.running = _ at hj
      change (k'.toProc.pcb (.pcbPool j)).state = _
      rw [hr.eq] at hj ⊢
      exact h.active j hj
    · have hp : m.kernel.running ≠ .pcbPool p := fun hr => by
        have h1 := h.active p hr
        rw [hst.defunct, hh] at h1
        cases h1
      refine ⟨⟨_, hq.started queueInv_dQueue hst hp⟩, ?_⟩
      intro j hj
      rw [hst.running] at hj
      rw [hst.state, if_neg fun hjp => hp (hj.trans hjp)]
      exact h.active j hj
  | sleep seconds sp =>
    obtain ⟨i, hi⟩ := exists_pool hc.1.2
    obtain ⟨r, s', hts, ht, hq'⟩ := (hq.lieDown queueInv_dQueue hc.1.2).tick queueInv_dQueue
      (lieDown_notMem_woken hc.2.1 hc.2.2 hi) (stackSegment m.kernel.toProc) sp
    rw [Machine.step_sleep_of hts] at hs
    cases hs
    exact ⟨⟨_, hq'⟩, fun j hj => ht.active hj⟩
  | terminate =>
    cases hs
    obtain ⟨i, hi⟩ := exists_pool hc.2
    have hiq : .pcbPool i ∉ q := hi ▸ hq.notRunning
    have hno : ¬ OnQueue m.kernel.toProc (.pcbPool i) := fun ho =>
      hiq (hq.queue.queue.onQueue_iff.1 ho)
    have hl : LinksTell m.kernel.toProc (.pcbPool i) :=
      ⟨fun ho => absurd ho hno, fun ho => absurd ho hno, fun _ => hi ▸ he.2⟩
    have hrel := releasePCB_released m.kernel.running
      (releaseMemorySegment (freedIndex m.kernel.toProc) m.kernel.toProc)
    refine ⟨⟨q.erase (.pcbPool i), ?_⟩, ?_⟩
    · change ReadyQueue DQueue (terminate m.kernel.toProc) _
      rw [terminate_eq, hi]
      exact hq.release hl _
    · intro j hj
      have hij : j = i := pcbPool_injective (hj.symm.trans (hrel.running.trans hi))
      have := hrel.state (.pcbPool j)
      rw [hij, if_pos hi.symm] at this
      rw [hij]
      exact this
  | timer sp =>
    obtain ⟨r, s', hts, ht, hq'⟩ :=
      hq.tick queueInv_dQueue h.running_notMem_woken (stackSegment m.kernel.toProc) sp
    rw [Machine.step_timer_of hts] at hs
    cases hs
    exact ⟨⟨_, hq'⟩, fun j hj => ht.active hj⟩
  | kill => cases hc
  | yield => cases hc

theorem sleepInv_init (hk : NullLinks k.toProc) : SleepInv (Machine.init k) := by
  have hb := initializeProcStructures_booted k.toProc
  exact ⟨⟨[], hb.readyQueue (hb.dQueue hk)⟩, fun i hi => by cases hb.running.symm.trans hi⟩

/-- A tick makes a sleeper the running process only when its counter has
    reached 0. -/
theorem Ticked.dispatch_sleeper (ht : Ticked sp s s') (hq : ReadyQueue DQueue s q)
    (hst : (s.pcb (.pcbPool i)).state = .SLEEPING) (hne : .pcbPool i ∉ requeued s)
    (hr : s'.running = .pcbPool i) : (s'.pcb (.pcbPool i)).sleepCounter ≤ 0 := by
  rw [ht.sleepCounter, if_pos hst]
  rcases dispatched_cases (ht.running_iff.1 hr) with hh | ⟨-, hw | hw⟩
  · have hno := hq.notOnQueue queueInv_dQueue (x := .pcbPool i) (by rw [hst]; decide)
    exact absurd (.head hh) hno
  · exact (mem_woken.1 hw).2
  · exact absurd hw hne

theorem SleepInv.dispatch (h : SleepInv m) (hc : SleepCall m c)
    (hst : (m.kernel.pcb (.pcbPool i)).state = .SLEEPING) (hs : m.step c = some m')
    (hr : m'.kernel.running = .pcbPool i) : (m'.kernel.pcb (.pcbPool i)).sleepCounter ≤ 0 := by
  obtain ⟨q, hq⟩ := h.queue
  have hne := h.running_ne hst
  cases c with
  | executeProgram name =>
    obtain ⟨r, k', hx, rfl⟩ := Machine.step_executeProgram hs
    rcases executeProgram_cases hx with ⟨-, hx⟩ | ⟨rfl, _, p, hx⟩
    · change k'.toProc.running = _ at hr
      rw [hx.eq] at hr
      exact absurd hr hne
    · rw [hx.running] at hr
      exact absurd hr hne
  | terminate =>
    cases hs
    have hrel := releasePCB_released m.kernel.running
      (releaseMemorySegment (freedIndex m.kernel.toProc) m.kernel.toProc)
    exact absurd (hrel.running.symm.trans hr) hne
  | sleep seconds sp =>
    obtain ⟨r, s', ht, rfl⟩ := Machine.step_sleep hs
    have ht := (handleTimerInterrupt_ticked ht).2
    refine ht.dispatch_sleeper (hq.lieDown queueInv_dQueue hc.1.2) ?_ ?_ hr
    · rw [lieDown_pcb, if_neg hne.symm]
      exact hst
    · intro hm
      exact hne (mem_requeued.1 hm).2.symm
  | timer sp =>
    obtain ⟨r, s', ht, rfl⟩ := Machine.step_timer hs
    have ht := (handleTimerInterrupt_ticked ht).2
    exact ht.dispatch_sleeper hq hst (fun hm => hne (mem_requeued.1 hm).2.symm) hr
  | kill => cases hc
  | yield => cases hc

/-- **A sleeper is not on the queue and is never dispatched early**, in every
    run whose exits are unlinked. -/
theorem sleeper_run (hk : NullLinks k.toProc)
    (h : Run Machine.step (fun m c => SleepCall m c ∧ ExitsUnlinked m.kernel.toProc c)
      (Machine.init k) es m) (i : Fin 8)
    (hst : (m.kernel.pcb (.pcbPool i)).state = .SLEEPING) :
    ¬ OnQueue m.kernel.toProc (.pcbPool i) ∧ m.kernel.running ≠ .pcbPool i ∧
    ∀ c m', SleepCall m c → m.step c = some m' → m'.kernel.running = .pcbPool i →
      (m'.kernel.pcb (.pcbPool i)).sleepCounter ≤ 0 := by
  have hI : SleepInv m := h.invariant (fun _ _ _ hI hc hs => SleepInv.step hI hc.1 hc.2 hs)
    (sleepInv_init hk)
  obtain ⟨q, hq⟩ := hI.queue
  exact ⟨hq.notOnQueue queueInv_dQueue (by rw [hst]; decide), hI.running_ne hst,
    fun c m' hc hs hr => hI.dispatch hc hst hs hr⟩

/-- One of two processes sleeps, the other one has exited. -/
theorem sleeper_run_exit : ∃ m : Machine, m.halted = true ∧
    ¬ OnQueue m.kernel.toProc (.pcbPool 0) := by
  have h : (evalRun Machine.step (fun m c => SleepCall m c ∧ ExitsUnlinked m.kernel.toProc c)
      (Machine.init oneFileKernel)
      [.executeProgram nameA, .executeProgram nameA, .timer 7, .sleep 1 8, .terminate]).any
      (fun m => m.halted = true ∧ (m.kernel.pcb (.pcbPool 0)).state = .SLEEPING) = true := by
    decide +kernel
  obtain ⟨m, hr, hm⟩ := Run.exists_of_evalRun h
  simp only [decide_eq_true_eq] at hm
  exact ⟨m, hm.1, (sleeper_run oneFileKernel_nullLinks hr 0 hm.2).1⟩

/-- The exit of a process that has slept puts another sleeper on the queue:
    its `next` link still points there. -/
theorem sleeper_on_queue : NullLinks oneFileKernel.toProc ∧ ∃ m,
    Run Machine.step SleepCall (Machine.init oneFileKernel)
      ([.executeProgram nameA, .executeProgram nameA, .timer 7, .timer 8, .sleep 1 9, .sleep 2 9] ++
        List.replicate 123 (.timer 8) ++ [.terminate]) m ∧
    (m.kernel.pcb (.pcbPool 0)).state = .SLEEPING ∧
    0 < (m.kernel.pcb (.pcbPool 0)).sleepCounter ∧ OnQueue m.kernel.toProc (.pcbPool 0) := by
  have h : (evalRun Machine.step SleepCall (Machine.init oneFileKernel)
      ([Call.executeProgram nameA, .executeProgram nameA, .timer 7, .timer 8, .sleep 1 9, .sleep 2 9] ++
        List.replicate 123 (Call.timer 8) ++ [Call.terminate])).any
      (fun m => (m.kernel.pcb (.pcbPool 0)).state = .SLEEPING ∧
        0 < (m.kernel.pcb (.pcbPool 0)).sleepCounter ∧
        m.kernel.readyHead = some (.pcbPool 0)) = true := by decide +kernel
  obtain ⟨m, hr, hm⟩ := Run.exists_of_evalRun h
  simp only [decide_eq_true_eq] at hm
  exact ⟨oneFileKernel_nullLinks, m, hr, hm.1, hm.2.1, .head hm.2.2⟩

end TeamXtremeOS
