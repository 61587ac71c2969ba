/-
  Memory isolation: no two processes share a segment, and the segment of a
  process is not handed out again, as long as nothing that has been released
  comes back to life.
-/
import TeamXtremeOS.Lib.Run
import TeamXtremeOS.Proof.Boot

namespace TeamXtremeOS

open Lib

variable {s s' : Proc} {k : Kernel} {m m' : Machine} {c : Call} {es : List Call} {i j p : Fin 8}
  {name : FileName} {sp : Int16} {x : PCBRef}

/-- The PCB is that of a process that can still run. -/
def Live (s : Proc) (j : Fin 8) : Prop := (s.pcb (.pcbPool j)).state ≠ .DEFUNCT

instance (s : Proc) (j : Fin 8) : Decidable (Live s j) := inferInstanceAs (Decidable (_ ≠ _))

/-- Memory isolation: processes have different segments, and the memory map
    knows them all. -/
structure Isolated (s : Proc) : Prop where
  distinct : ∀ i j, Live s i → Live s j →
    (s.pcb (.pcbPool i)).segment = (s.pcb (.pcbPool j)).segment → i = j
  used : ∀ i j : Fin 8, Live s j → (s.pcb (.pcbPool j)).segment = segmentOf (Int16.ofNat i.val) →
    s.memoryMap (Int16.ofNat i.val) = USED

/-- Isolation, and the fact that keeps it: the segments of processes are those
    `executeProgram` hands out. -/
structure Apart (s : Proc) : Prop extends Isolated s where
  loaded : ∀ j, Live s j →
    ∃ i : Fin 8, (s.pcb (.pcbPool j)).segment = segmentOf (Int16.ofNat i.val)

theorem segmentOf_injective : ∀ i j : Fin 8,
    segmentOf (Int16.ofNat i.val) = segmentOf (Int16.ofNat j.val) → i = j := by decide

/-- A free segment is nobody's. -/
theorem Isolated.free (h : Isolated s) (hf : s.memoryMap (Int16.ofNat i.val) = FREE) (hj : Live s j) :
    (s.pcb (.pcbPool j)).segment ≠ segmentOf (Int16.ofNat i.val) := fun he => by
  have := h.used i j hj he
  rw [hf] at this
  exact absurd this (by decide)

/-! ## Who is alive -/

theorem Started.live_iff (hs : Started name i p s s') : Live s' j ↔ j = p ∨ Live s j := by
  unfold Live
  rw [hs.state]
  by_cases hj : j = p <;> simp [hj]

theorem Started.segment_of_ne (hs : Started name i p s s') (hj : j ≠ p) :
    (s'.pcb (.pcbPool j)).segment = (s.pcb (.pcbPool j)).segment := by
  rw [hs.segment, if_neg fun he => hj (PCBRef.pcbPool.inj he)]

theorem Released.live_iff (hr : Released s s' x) : Live s' j ↔ Live s j ∧ .pcbPool j ≠ x := by
  unfold Live
  rw [hr.state]
  by_cases hj : .pcbPool j = x <;> simp [hj]

theorem Ticked.keeps_live (ht : Ticked sp s s') (hj : Live s j) : Live s' j := by
  rw [Live, ht.state]
  split_ifs
  · decide
  · decide
  · exact hj

/-! ## Steps -/

theorem Booted.apart (h : Booted s s') : Apart s' :=
  ⟨⟨fun i _ hi => absurd (h.defunct i) hi, fun _ j hj => absurd (h.defunct j) hj⟩,
    fun j hj => absurd (h.defunct j) hj⟩

/-- Fewer processes, the same segments, and a map that keeps theirs. -/
theorem Apart.mono (h : Apart s) (hl : ∀ j, Live s' j → Live s j)
    (hs : ∀ j, (s'.pcb (.pcbPool j)).segment = (s.pcb (.pcbPool j)).segment)
    (hm : ∀ i j : Fin 8, Live s' j → (s.pcb (.pcbPool j)).segment = segmentOf (Int16.ofNat i.val) →
      s.memoryMap (Int16.ofNat i.val) = USED → s'.memoryMap (Int16.ofNat i.val) = USED) : Apart s' where
  distinct i j hi hj he := h.distinct i j (hl i hi) (hl j hj) (by rw [← hs, ← hs, he])
  used i j hj he := by
    rw [hs] at he
    exact hm i j hj he (h.used i j (hl j hj) he)
  loaded j hj := by rw [hs]; exact h.loaded j (hl j hj)

theorem Apart.refused (h : Apart s) (hr : Refused s s') : Apart s' := by
  rcases hr with rfl | ⟨-, i, -, rfl⟩
  · exact h
  · refine h.mono (fun _ hj => hj) (fun _ => rfl) ?_
    intro j _ _ _ hu
    simp only [Function.update_apply]
    split_ifs
    · rfl
    · exact hu

theorem Apart.started (h : Apart s) (hs : Started name i p s s') : Apart s' := by
  have hlive : ∀ j, Live s' j → j ≠ p → Live s j := fun j hj hne => (hs.live_iff.1 hj).resolve_left hne
  have hseg : ∀ j, j ≠ p → (s'.pcb (.pcbPool j)).segment = (s.pcb (.pcbPool j)).segment :=
    fun j hne => hs.segment_of_ne hne
  have hp : (s'.pcb (.pcbPool p)).segment = segmentOf (Int16.ofNat i.val) := by
    rw [hs.segment, if_pos rfl]
  have hother : ∀ j, Live s' j → j ≠ p → (s'.pcb (.pcbPool j)).segment ≠ (s'.pcb (.pcbPool p)).segment :=
    fun j hj hne => by rw [hseg j hne, hp]; exact h.free hs.segmentFree (hlive j hj hne)
  refine ⟨⟨?_, ?_⟩, ?_⟩
  · intro j j' hj hj' he
    by_cases hjp : j = p <;> by_cases hjp' : j' = p
    · rw [hjp, hjp']
    · rw [hjp] at he
      exact absurd he.symm (hother j' hj' hjp')
    · rw [hjp'] at he
      exact absurd he (hother j hj hjp)
    · rw [hseg j hjp, hseg j' hjp'] at he
      exact h.distinct j j' (hlive j hj hjp) (hlive j' hj' hjp') he
  · intro i' j hj he
    rw [hs.memoryMap, Function.update_apply]
    split_ifs with hi
    · rfl
    · by_cases hjp : j = p
      · rw [hjp, hp] at he
        exact absurd (by rw [segmentOf_injective _ _ he]) hi
      · rw [hseg j hjp] at he
        exact h.used i' j (hlive j hj hjp) he
  · intro j hj
    by_cases hjp : j = p
    · exact ⟨i, by rw [hjp, hp]⟩
    · rw [hseg j hjp]
      exact h.loaded j (hlive j hj hjp)

theorem Apart.ticked (h : Apart s) (ht : Ticked sp s s')
    (hh : ∀ j, s.readyHead = some (.pcbPool j) → Live s j) : Apart s' := by
  refine h.mono ?_ (fun j => ht.segment _) fun i j _ _ hu => ht.memoryMap ▸ hu
  intro j hj
  rcases ht.live hj with h1 | h1
  · exact h1
  · exact hh j h1

/-- Releasing the segment with index `idx` and a PCB, when no other process has
    that segment. -/
theorem Apart.release (h : Apart s) {idx : Int16}
    (hr : Released (releaseMemorySegment idx s) s' x)
    (ho : ∀ j, Live s j → .pcbPool j ≠ x → (s.pcb (.pcbPool j)).segment ≠ segmentOf idx) :
    Apart s' := by
  have hl : ∀ j, Live s' j → Live s j ∧ .pcbPool j ≠ x := fun j hj => hr.live_iff.1 hj
  refine h.mono (fun j hj => (hl j hj).1) (fun j => hr.segment _) ?_
  intro i j hj he hu
  rw [hr.memoryMap]
  change Function.update s.memoryMap idx FREE _ = USED
  rw [Function.update_apply, if_neg fun hi => ho j (hl j hj).1 (hl j hj).2 (by rw [he, hi])]
  exact hu

/-! ## Runs -/

/-- The system calls of a process, with their arguments in range, and the
    timer. -/
def InRange (m : Machine) : Call → Prop
  | .kill segment => m.MayCall (.kill segment) ∧ 0 ≤ segment ∧ segment ≤ 7
  | .sleep seconds sp => m.MayCall (.sleep seconds sp) ∧ 1 ≤ seconds ∧ seconds ≤ 262
  | c => m.MayCall c

instance : ∀ (m : Machine) (c : Call), Decidable (InRange m c)
  | _, .kill _ | _, .sleep _ _ => inferInstanceAs (Decidable (_ ∧ _ ∧ _))
  | m, .executeProgram name => inferInstanceAs (Decidable (m.MayCall (.executeProgram name)))
  | m, .terminate => inferInstanceAs (Decidable (m.MayCall .terminate))
  | m, .yield => inferInstanceAs (Decidable (m.MayCall .yield))
  | m, .timer sp => inferInstanceAs (Decidable (m.MayCall (.timer sp)))

/-- The head of the queue has not been released. -/
def HeadLive (s : Proc) : Prop := ∀ j, s.readyHead = some (.pcbPool j) → Live s j

/-- The segment index `terminate` releases. -/
def freedIndex (s : Proc) : Int16 := (s.pcb s.running).segment / 0x1000 - 2

theorem terminate_eq (s : Proc) :
    terminate s = releasePCB s.running (releaseMemorySegment (freedIndex s) s) := rfl

/-- No process but the one at `x` is in the segment with index `idx`. -/
def Alone (s : Proc) (idx : Int16) (x : PCBRef) : Prop :=
  ∀ j, Live s j → .pcbPool j ≠ x → (s.pcb (.pcbPool j)).segment ≠ segmentOf idx

/-- Nothing that has been released comes back: a tick finds no released PCB at
    the head of the queue, a released process does not go to sleep, and a
    segment is freed by its only process, by an index of the memory map. -/
def ReleasesForGood (s : Proc) : Call → Prop
  | .timer _ => HeadLive s
  | .sleep _ _ => HeadLive s ∧ (s.pcb s.running).state ≠ .DEFUNCT
  | .kill segment => ∀ i, victim segment s = some i → Alone s segment (.pcbPool i)
  | .terminate => (∃ i : Fin 8, freedIndex s = Int16.ofNat i.val) ∧ Alone s (freedIndex s) s.running
  | .executeProgram _ => True
  | .yield => True

instance (s : Proc) : Decidable (HeadLive s) :=
  inferInstanceAs (Decidable (∀ j, s.readyHead = some (.pcbPool j) → Live s j))

instance (s : Proc) (idx : Int16) (x : PCBRef) : Decidable (Alone s idx x) :=
  inferInstanceAs (Decidable (∀ j, Live s j → .pcbPool j ≠ x → _ ≠ _))

instance : ∀ (s : Proc) (c : Call), Decidable (ReleasesForGood s c)
  | s, .timer _ => inferInstanceAs (Decidable (HeadLive s))
  | s, .sleep _ _ => inferInstanceAs (Decidable (HeadLive s ∧ _))
  | s, .kill segment =>
    inferInstanceAs (Decidable (∀ i, victim segment s = some i → Alone s segment (.pcbPool i)))
  | s, .terminate => inferInstanceAs (Decidable ((∃ i : Fin 8, freedIndex s = Int16.ofNat i.val) ∧
      Alone s (freedIndex s) s.running))
  | _, .executeProgram _ | _, .yield => inferInstanceAs (Decidable True)

theorem Apart.step (h : Apart m.kernel.toProc) (hc : ReleasesForGood m.kernel.toProc c)
    (hs : m.step c = some m') : Apart m'.kernel.toProc := by
  cases c with
  | executeProgram name =>
    obtain ⟨r, k', he, rfl⟩ := Machine.step_executeProgram hs
    rcases executeProgram_cases he with ⟨-, hr⟩ | ⟨-, i, p, hst⟩
    · exact h.refused hr
    · exact h.started hst
  | terminate =>
    cases hs
    exact h.release (releasePCB_released _ _) hc.2
  | kill segment =>
    cases hs
    change Apart (kill segment m.kernel.toProc).2
    rcases hv : victim segment m.kernel.toProc with _ | i
    · rw [kill_none hv]; exact h
    · rw [kill_eq hv]
      exact h.release (releasePCB_released _ _) (hc i hv)
  | yield =>
    simp only [Machine.step, Option.map_eq_some_iff] at hs
    obtain ⟨s', ha, rfl⟩ := hs
    have hf := addToReady_frame ha
    refine h.mono ?_ (fun j => hf.segment _) fun i j _ _ hu => hf.memoryMap ▸ hu
    intro j hj
    unfold Live at hj ⊢
    rw [← hf.state]
    exact hj
  | sleep seconds sp =>
    obtain ⟨r, s', ht, rfl⟩ := Machine.step_sleep hs
    have hl := lieDown_pcb seconds m.kernel.toProc
    have hlive : ∀ j, Live (lieDown seconds m.kernel.toProc) j ↔ Live m.kernel.toProc j := fun j => by
      unfold Live
      rw [hl]
      split_ifs with hj
      · have := hc.2
        rw [← hj] at this
        simp [this]
      · rfl
    have hA : Apart (lieDown seconds m.kernel.toProc) :=
      h.mono (fun j hj => (hlive j).1 hj) (fun j => by rw [hl]; split_ifs <;> rfl)
        fun i j _ _ hu => hu
    exact hA.ticked (handleTimerInterrupt_ticked ht).2 fun j hj => (hlive j).2 (hc.1 j hj)
  | timer sp =>
    obtain ⟨r, s', ht, rfl⟩ := Machine.step_timer hs
    exact h.ticked (handleTimerInterrupt_ticked ht).2 hc

/-- **Memory isolation** in every run in which nothing that has been released
    comes back; `executeProgram` then never stores into the segment of a
    process. -/
theorem isolation_run
    (h : Run Machine.step (fun m c => InRange m c ∧ ReleasesForGood m.kernel.toProc c)
      (Machine.init k) es m) :
    Isolated m.kernel.toProc ∧
    ∀ name r k', executeProgram name m.kernel = some (r, k') → ∀ j, Live m.kernel.toProc j →
      ∀ off, k'.mem (m.kernel.pcb (.pcbPool j)).segment off =
        m.kernel.mem (m.kernel.pcb (.pcbPool j)).segment off := by
  have hA : Apart m.kernel.toProc := h.invariant (I := fun m => Apart m.kernel.toProc)
    (fun m c m' hm hc hs => Apart.step hm hc.2 hs)
    (initializeProcStructures_booted k.toProc).apart
  exact ⟨hA.toIsolated, fun name r k' he j hj off =>
    executeProgram_mem he (fun i hi => hA.free hi hj) off⟩

/-- Two processes, of which one exits. -/
theorem isolation_run_exit : ∃ m : Machine, m.halted = true ∧ Isolated m.kernel.toProc := by
  have h : (evalRun Machine.step (fun m c => InRange m c ∧ ReleasesForGood m.kernel.toProc c)
      (Machine.init oneFileKernel)
      [.executeProgram nameA, .executeProgram nameA, .timer 7, .terminate]).any
      (fun m => m.halted = true) = true := by decide +kernel
  obtain ⟨m, hr, hm⟩ := Run.exists_of_evalRun h
  exact ⟨m, by simpa using hm, (isolation_run hr).1⟩

/-- A process that is killed when it is the only one on the queue stays there,
    is dispatched, and runs in a segment that is marked as free. -/
theorem isolation_fails : NullLinks oneFileKernel.toProc ∧ ∃ m,
    Run Machine.step InRange (Machine.init oneFileKernel)
      [.executeProgram nameA, .timer 7, .executeProgram nameA, .kill 1, .timer 9] m ∧
    ¬ Isolated m.kernel.toProc := by
  have h : (evalRun Machine.step InRange (Machine.init oneFileKernel)
      [.executeProgram nameA, .timer 7, .executeProgram nameA, .kill 1, .timer 9]).any
      (fun m => Live m.kernel.toProc 1 ∧ (m.kernel.pcb (.pcbPool 1)).segment = segmentOf 1 ∧
        m.kernel.memoryMap 1 = FREE) = true := by decide +kernel
  obtain ⟨m, hr, hm⟩ := Run.exists_of_evalRun h
  simp only [decide_eq_true_eq] at hm
  exact ⟨oneFileKernel_nullLinks, m, hr, fun hI => hI.free (i := 1) hm.2.2 hm.1 hm.2.1⟩

end TeamXtremeOS
