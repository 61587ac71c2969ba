/-
  Segment accounting: the memory map marks the segments of the processes, as
  long as no process exits from one of the two segments that are negative as
  an `int`.
-/
import TeamXtremeOS.Proof.Isolation
import TeamXtremeOS.Proof.Lifetimes

namespace TeamXtremeOS

open Lib

variable {s s' : Proc} {k : Kernel} {m m' : Machine} {c : Call} {es : List Call} {i j p : Fin 8}
  {q : List PCBRef} {name : FileName} {sp : Int16}

/-! ## The memory map -/

/-- A segment is marked as used exactly when a process is in it, and there is
    a free one while there are fewer than eight processes. -/
structure Tracked (s : Proc) : Prop where
  used : ∀ i : Fin 8, s.memoryMap (Int16.ofNat i.val) = USED ↔
    ∃ j, Live s j ∧ (s.pcb (.pcbPool j)).segment = segmentOf (Int16.ofNat i.val)
  room : (∃ j, ¬ Live s j) → (getFreeMemorySegment s).1 ≠ none

/-- The processes are apart, and each used segment has one. -/
structure Owned (s : Proc) : Prop extends Apart s where
  owner : ∀ i : Fin 8, s.memoryMap (Int16.ofNat i.val) = USED →
    ∃ j, Live s j ∧ (s.pcb (.pcbPool j)).segment = segmentOf (Int16.ofNat i.val)
  flag : ∀ i : Fin 8, s.memoryMap (Int16.ofNat i.val) = FREE ∨ s.memoryMap (Int16.ofNat i.val) = USED

/-- `terminate` decodes the segments that are not negative. -/
theorem decode_segmentOf : ∀ i : Fin 8, 0 ≤ segmentOf (Int16.ofNat i.val) →
    segmentOf (Int16.ofNat i.val) / 0x1000 - 2 = Int16.ofNat i.val := by decide

theorem decode_inRange : ∀ i : Fin 8,
    (∃ i' : Fin 8, segmentOf (Int16.ofNat i.val) / 0x1000 - 2 = Int16.ofNat i'.val) ↔
      0 ≤ segmentOf (Int16.ofNat i.val) := by decide

/-- Eight processes are in eight segments. -/
theorem Apart.used_of_live (h : Apart s) (hall : ∀ j, Live s j) (i : Fin 8) :
    s.memoryMap (Int16.ofNat i.val) = USED := by
  choose f hf using fun j => h.loaded j (hall j)
  have hinj : Function.Injective f := by
    intro j j' he
    refine h.distinct j j' (hall j) (hall j') ?_
    rw [hf, hf, he]
  obtain ⟨j, rfl⟩ := Finite.surjective_of_injective hinj i
  exact h.used (f j) j (hall j) (hf j)

/-- Eight used segments have eight processes. -/
theorem Owned.live_of_used (h : Owned s) (hall : ∀ i : Fin 8, s.memoryMap (Int16.ofNat i.val) = USED)
    (j : Fin 8) : Live s j := by
  choose f hlive hf using fun i => h.owner i (hall i)
  have hinj : Function.Injective f := by
    intro i i' he
    refine segmentOf_injective i i' ?_
    rw [← hf, ← hf, he]
  obtain ⟨i, rfl⟩ := Finite.surjective_of_injective hinj j
  exact hlive i

theorem Owned.tracked (h : Owned s) : Tracked s where
  used i := ⟨h.owner i, fun ⟨j, hj, he⟩ => h.used i j hj he⟩
  room := by
    rintro ⟨j, hj⟩ hnone
    refine hj (h.live_of_used ?_ j)
    intro i
    rcases getFreeMemorySegment_spec s with hg | ⟨i', -, hg⟩
    · refine (h.flag i).resolve_left ?_
      intro hi
      unfold getFreeMemorySegment at hnone
      split at hnone
      · cases hnone
      · next hf => exact absurd (decide_eq_true hi) (List.find?_eq_none.1 hf i (List.mem_finRange i))
    · rw [hg] at hnone
      cases hnone

/-! ## Steps -/

theorem Booted.owned (h : Booted s s') : Owned s' where
  toApart := h.apart
  owner i hi := by
    rw [h.free i] at hi
    exact absurd hi (by decide)
  flag i := .inl (h.free i)

/-- `executeProgram` keeps no segment: when no PCB is free, no segment is. -/
theorem Owned.refused (h : Owned s) (hr : Refused s s') : s' = s := by
  rcases hr with rfl | ⟨hp, i, hi, -⟩
  · rfl
  · have hall : ∀ j, Live s j := by
      intro j hd
      have := List.find?_eq_none.1 hp j (List.mem_finRange j)
      exact this (decide_eq_true hd)
    rw [h.used_of_live hall i] at hi
    exact absurd hi (by decide)

theorem Owned.started (h : Owned s) (hs : Started name i p s s') : Owned s' := by
  refine ⟨h.toApart.started hs, ?_, ?_⟩
  · intro i' hi'
    rw [hs.memoryMap, Function.update_apply] at hi'
    split_ifs at hi' with he
    · refine ⟨p, hs.live_iff.2 (.inl rfl), ?_⟩
      rw [hs.segment, if_pos rfl, he]
    · obtain ⟨j, hj, hseg⟩ := h.owner i' hi'
      have hne : j ≠ p := fun he => hj (he ▸ hs.defunct)
      exact ⟨j, hs.live_iff.2 (.inr hj), (hs.segment_of_ne hne).trans hseg⟩
  · intro i'
    rw [hs.memoryMap, Function.update_apply]
    split_ifs
    · exact .inr rfl
    · exact h.flag i'

theorem Owned.ticked (h : Owned s) (ht : Ticked sp s s') (hh : HeadLive s) : Owned s' := by
  refine ⟨h.toApart.ticked ht hh, ?_, ?_⟩
  · intro i hi
    rw [ht.memoryMap] at hi
    obtain ⟨j, hj, hseg⟩ := h.owner i hi
    exact ⟨j, ht.keeps_live hj, (ht.segment _).trans hseg⟩
  · intro i
    rw [ht.memoryMap]
    exact h.flag i

/-- What an exit leaves: the other processes, and the memory map with one more
    free entry. -/
theorem terminate_spec (hi : s.running = .pcbPool i) :
    (∀ j, Live (terminate s) j ↔ Live s j ∧ j ≠ i) ∧
    (∀ x, ((terminate s).pcb x).segment = (s.pcb x).segment) ∧ (terminate s).running = s.running ∧
    (terminate s).memoryMap = Function.update s.memoryMap (freedIndex s) FREE := by
  have hr := releasePCB_released s.running (releaseMemorySegment (freedIndex s) s)
  rw [terminate_eq]
  refine ⟨?_, hr.segment, hr.running, hr.memoryMap⟩
  intro j
  rw [hr.live_iff, hi, ne_eq, PCBRef.pcbPool.injEq]
  rfl

theorem Owned.exit (h : Owned s) (hi : s.running = .pcbPool i) (hl : Live s i)
    (hd : 0 ≤ (s.pcb s.running).segment) : Owned (terminate s) := by
  obtain ⟨hlive, hseg, -, hmap⟩ := terminate_spec hi
  obtain ⟨n, hn⟩ := h.loaded i hl
  have hidx : freedIndex s = Int16.ofNat n.val := by
    rw [hi, hn] at hd
    rw [freedIndex, hi, hn]
    exact decode_segmentOf n hd
  have halone : Alone s (freedIndex s) s.running := by
    intro j hj hne he
    rw [hidx, ← hn] at he
    rw [hi, h.distinct j i hj hl he] at hne
    exact hne rfl
  refine ⟨h.toApart.release (releasePCB_released _ _) halone, ?_, ?_⟩
  · intro i' hi'
    rw [hmap, Function.update_apply] at hi'
    split_ifs at hi' with he
    · exact absurd hi' (by decide)
    · obtain ⟨j, hj, hs⟩ := h.owner i' hi'
      refine ⟨j, (hlive j).2 ⟨hj, ?_⟩, (hseg _).trans hs⟩
      rintro rfl
      rw [hn] at hs
      rw [hidx, segmentOf_injective _ _ hs] at he
      exact he rfl
  · intro i'
    rw [hmap, Function.update_apply]
    split_ifs
    · exact .inl rfl
    · exact h.flag i'

/-- **An exit from a negative segment** leaves it marked as used. -/
theorem Owned.exit_iff (h : Owned s) (hi : s.running = .pcbPool i) (hl : Live s i) :
    Tracked (terminate s) ↔ 0 ≤ (s.pcb s.running).segment := by
  constructor
  · intro ha
    obtain ⟨hlive, hseg, -, hmap⟩ := terminate_spec hi
    obtain ⟨n, hn⟩ := h.loaded i hl
    by_contra hd
    have hno : Int16.ofNat n.val ≠ freedIndex s := by
      intro he
      rw [freedIndex, hi, hn] at he
      rw [hi, hn] at hd
      exact hd ((decode_inRange n).1 ⟨n, he.symm⟩)
    have hu : (terminate s).memoryMap (Int16.ofNat n.val) = USED := by
      rw [hmap, Function.update_of_ne hno]
      exact h.used n i hl hn
    obtain ⟨j, hj, hs⟩ := (ha.used n).1 hu
    rw [hseg, ← hn] at hs
    exact ((hlive j).1 hj).2 (h.distinct j i ((hlive j).1 hj).1 hl hs)
  · intro hd
    exact (h.exit hi hl hd).tracked

/-! ## Runs -/

/-- `executeProgram`, with any outcome, exits, and the timer. -/
def ExitCall (m : Machine) : Call → Prop
  | .executeProgram name => m.MayCall (.executeProgram name)
  | .terminate => m.MayCall .terminate
  | .timer _ => True
  | _ => False

instance : ∀ (m : Machine) (c : Call), Decidable (ExitCall m c)
  | m, .executeProgram name => inferInstanceAs (Decidable (m.MayCall (.executeProgram name)))
  | m, .terminate => inferInstanceAs (Decidable (m.MayCall .terminate))
  | _, .timer _ => inferInstanceAs (Decidable True)
  | _, .kill _ | _, .yield | _, .sleep _ _ => inferInstanceAs (Decidable False)

/-- A process exits from a segment that is not negative as an `int`. -/
def Decodes (s : Proc) : Call → Prop
  | .terminate => 0 ≤ (s.pcb s.running).segment
  | _ => True

instance : ∀ (s : Proc) (c : Call), Decidable (Decodes s c)
  | _, .terminate => inferInstanceAs (Decidable (_ ≤ _))
  | _, .executeProgram _ | _, .kill _ | _, .yield | _, .sleep _ _ | _, .timer _ => inferInstanceAs (Decidable True)

/-- A tick finds no released PCB at the head of the queue. -/
def TicksLive (s : Proc) : Call → Prop
  | .timer _ => HeadLive s
  | _ => True

/-- The running process has not been released, unless it has just exited. -/
def RunsLive (m : Machine) : Prop := m.halted = false → ∀ i, m.kernel.running = .pcbPool i → Live m.kernel.toProc i

/-- There is a ready queue, with links that let exits find their place. -/
def Waits (s : Proc) : Prop := ∃ q, ReadyQueue DQueue s q ∧ NextOK s q

theorem RunsLive.step (h : RunsLive m) (hc : ExitCall m c) (hs : m.step c = some m') : RunsLive m' := by
  cases c with
  | executeProgram name =>
    obtain ⟨r, k', he, rfl⟩ := Machine.step_executeProgram hs
    intro hh i hi
    rcases executeProgram_cases he with ⟨-, hr⟩ | ⟨-, _, p, hst⟩
    · change Live k'.toProc i
      change k'.toProc.running = _ at hi
      rw [hr.eq] at hi ⊢
      exact h hh i hi
    · exact hst.live_iff.2 (.inr (h hh i (hst.running.symm.trans hi)))
  | terminate =>
    cases hs
    intro hh
    cases hh
  | timer sp =>
    obtain ⟨r, s', ht, rfl⟩ := Machine.step_timer hs
    have ht := (handleTimerInterrupt_ticked ht).2
    intro _ i hi
    have hst := ht.active hi
    rw [Live, hst]
    decide
  | kill => cases hc
  | yield => cases hc
  | sleep => cases hc

theorem Waits.headLive (h : Waits s) : HeadLive s := by
  obtain ⟨q, hq, -⟩ := h
  intro j hj hd
  have hno := hq.notOnQueue queueInv_dQueue (x := .pcbPool j) (by rw [hd]; decide)
  exact hno (.head hj)

theorem Waits.step (h : Waits m.kernel.toProc) (hl : RunsLive m) (hc : ExitCall m c)
    (hs : m.step c = some m') : Waits m'.kernel.toProc := by
  obtain ⟨q, hq, hn⟩ := h
  have hoff : ∀ j, (m.kernel.pcb (.pcbPool j)).state = .DEFUNCT → .pcbPool j ∉ q := fun j hd =>
    hq.notMem (by rw [hd]; decide)
  have hrun : ∀ j, m.kernel.running = .pcbPool j → .pcbPool j ∉ q := fun j hj => hj ▸ hq.notRunning
  cases c with
  | executeProgram name =>
    obtain ⟨r, k', he, rfl⟩ := Machine.step_executeProgram hs
    rcases executeProgram_cases he with ⟨-, hr⟩ | ⟨-, i, p, hst⟩
    · refine ⟨q, hq.refused queueInv_dQueue hr, ?_⟩
      change NextOK k'.toProc q
      rw [hr.eq]
      exact ⟨hn.single, hn.running, hn.free, hn.awake⟩
    · refine ⟨_, hq.started queueInv_dQueue hst fun hp => hl hc p hp hst.defunct, ?_⟩
      exact hn.start hq.queue.queue hst fun j hj => hj.elim (hoff j) (hrun j)
  | terminate =>
    cases hs
    obtain ⟨i, hi⟩ := exists_pool hc.2
    have hiq := hrun i hi
    refine ⟨q, ?_, hn.exit hq.queue hiq hi⟩
    have hrel := hq.release (hn.linksTell hq.queue.queue hiq hi) (freedIndex m.kernel.toProc)
    rw [List.erase_of_not_mem hiq] at hrel
    change ReadyQueue DQueue (terminate m.kernel.toProc) q
    rw [terminate_eq, hi]
    exact hrel
  | timer sp =>
    have hw := woken_awake hn.awake
    obtain ⟨r, s', hts, -, hq'⟩ := hq.tick queueInv_dQueue (by rw [hw]; simp) (stackSegment m.kernel.toProc) sp
    rw [Machine.step_timer_of hts] at hs
    cases hs
    rw [hw, List.append_nil] at hq'
    exact ⟨_, hq', hn.tick hq.queue.queue (fun x hx => hq.of_requeued hx) hoff hts⟩
  | kill => cases hc
  | yield => cases hc
  | sleep => cases hc

theorem Owned.step (h : Owned m.kernel.toProc) (hl : RunsLive m) (hc : ExitCall m c)
    (hd : Decodes m.kernel.toProc c) (ht : TicksLive m.kernel.toProc c) (hs : m.step c = some m') :
    Owned m'.kernel.toProc := by
  cases c with
  | executeProgram name =>
    obtain ⟨r, k', he, rfl⟩ := Machine.step_executeProgram hs
    rcases executeProgram_cases he with ⟨-, hr⟩ | ⟨-, i, p, hst⟩
    · rw [h.refused hr]
      exact h
    · exact h.started hst
  | terminate =>
    cases hs
    obtain ⟨i, hi⟩ := exists_pool hc.2
    exact h.exit hi (hl hc.1 i hi) hd
  | timer sp =>
    obtain ⟨r, s', hts, rfl⟩ := Machine.step_timer hs
    exact h.ticked (handleTimerInterrupt_ticked hts).2 ht
  | kill => cases hc
  | yield => cases hc
  | sleep => cases hc

theorem Booted.waits (h : Booted s s') (hl : NullLinks s) : Waits s' := by
  refine ⟨[], h.readyQueue (h.dQueue hl), fun x hx => (by cases hx), ?_, ?_, ?_⟩
  · intro i hi
    cases h.running.symm.trans hi
  · intro i _
    exact (h.next _).trans (hl _).1
  · intro i
    simp [h.defunct]

/-- **Segments are accounted for** in every run in which each exit is from a
    segment that is not negative: an exit frees the segment of the process if
    and only if this is so.  (Ticks find no released PCB when the links were
    `NULL` at first.) -/
theorem segments_run (h : Run Machine.step (fun m c => ExitCall m c ∧ Decodes m.kernel.toProc c ∧
      (NullLinks k.toProc ∨ TicksLive m.kernel.toProc c)) (Machine.init k) es m) :
    Tracked m.kernel.toProc ∧ (m.MayCall .terminate →
      ((∃ i : Fin 8, freedIndex m.kernel.toProc = Int16.ofNat i.val) ↔
        0 ≤ (m.kernel.pcb m.kernel.running).segment) ∧
      (Tracked (terminate m.kernel.toProc) ↔ 0 ≤ (m.kernel.pcb m.kernel.running).segment)) := by
  have hb := initializeProcStructures_booted k.toProc
  have hI : Owned m.kernel.toProc ∧ RunsLive m ∧ (NullLinks k.toProc → Waits m.kernel.toProc) := by
    refine h.invariant (I := fun m => Owned m.kernel.toProc ∧ RunsLive m ∧ (NullLinks k.toProc → Waits m.kernel.toProc))
      ?_ ⟨hb.owned, ?_, hb.waits⟩
    · rintro m c m' ⟨hO, hl, hw⟩ ⟨hc, hd, ht⟩ hs
      have ht' : TicksLive m.kernel.toProc c := by
        rcases ht with hk | ht
        · cases c with
          | timer sp => exact (hw hk).headLive
          | _ => trivial
        · exact ht
      exact ⟨hO.step hl hc hd ht' hs, hl.step hc hs, fun hk => (hw hk).step hl hc hs⟩
    · intro _ i hi
      cases hb.running.symm.trans hi
  obtain ⟨hO, hl, -⟩ := hI
  refine ⟨hO.tracked, ?_⟩
  intro hm
  obtain ⟨i, hi⟩ := exists_pool hm.2
  have hlive := hl hm.1 i hi
  refine ⟨?_, hO.exit_iff hi hlive⟩
  obtain ⟨n, hn⟩ := hO.loaded i hlive
  rw [freedIndex, hi, hn]
  exact decode_inRange n

/-- Of two processes one has exited, and the other one may. -/
theorem segments_run_two : ∃ m : Machine, Tracked m.kernel.toProc ∧ Tracked (terminate m.kernel.toProc) := by
  have h : (evalRun Machine.step (fun m c => ExitCall m c ∧ Decodes m.kernel.toProc c) (Machine.init oneFileKernel)
      [.executeProgram nameA, .executeProgram nameA, .timer 7, .terminate, .timer 8]).any
      (fun m => m.MayCall .terminate ∧ 0 ≤ (m.kernel.pcb m.kernel.running).segment) = true := by decide +kernel
  obtain ⟨m, hr, hm⟩ := Run.exists_of_evalRun h
  simp only [decide_eq_true_eq] at hm
  have hs := segments_run (hr.mono fun m c hc => ⟨hc.1, hc.2, .inl oneFileKernel_nullLinks⟩)
  exact ⟨m, hs.1, (hs.2 hm.1).2.2 hm.2⟩

/-- Seven processes are started; the seventh is in segment `0x8000`, and exits. -/
theorem segments_leak : NullLinks oneFileKernel.toProc ∧ ∃ m m',
    Run Machine.step ExitCall (Machine.init oneFileKernel)
      (List.replicate 7 (.executeProgram nameA) ++ List.replicate 7 (.timer 7)) m ∧
    m.MayCall .terminate ∧ freedIndex m.kernel.toProc = -10 ∧ m.step .terminate = some m' ∧
    ¬ Tracked m'.kernel.toProc := by
  have h : (evalRun Machine.step ExitCall (Machine.init oneFileKernel)
      (List.replicate 7 (Call.executeProgram nameA) ++ List.replicate 7 (Call.timer 7))).any
      (fun m => m.MayCall .terminate ∧ freedIndex m.kernel.toProc = -10 ∧
        (m.step .terminate).any fun m' => m'.kernel.memoryMap (Int16.ofNat 6) = USED ∧
          ¬ ∃ j, Live m'.kernel.toProc j ∧ (m'.kernel.pcb (.pcbPool j)).segment = segmentOf (Int16.ofNat 6)) =
      true := by decide +kernel
  obtain ⟨m, hr, hm⟩ := Run.exists_of_evalRun h
  simp only [decide_eq_true_eq, Option.any_eq_true] at hm
  obtain ⟨hc, hidx, m', hs, hu, hno⟩ := hm
  exact ⟨oneFileKernel_nullLinks, m, m', hr, hc, hidx, hs, fun ha => hno ((ha.used ⟨6, by decide⟩).1 hu)⟩

end TeamXtremeOS
