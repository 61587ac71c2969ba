/-
  What `kill` hits.  It takes the first PCB whose segment is that of its
  argument: one that has been released keeps its segment, and the segments of
  two arguments that differ by 16 are the same.
-/
import TeamXtremeOS.Proof.Isolation

namespace TeamXtremeOS

open Lib

variable {s s' : Proc} {k : Kernel} {m m' : Machine} {c : Call} {es : List Call} {i j p : Fin 8}
  {name : FileName} {segment sp : Int16} {x : PCBRef}

/-! ## One call -/

/-- A live process in the segment with index `segment`. -/
def InSegment (s : Proc) (segment : Int16) (i : Fin 8) : Prop :=
  Live s i ∧ (s.pcb (.pcbPool i)).segment = segmentOf segment

instance (s : Proc) (segment : Int16) (i : Fin 8) : Decidable (InSegment s segment i) :=
  inferInstanceAs (Decidable (_ ∧ _))

/-- There is a process to kill. -/
def Asked (s : Proc) (segment : Int16) : Prop := 0 ≤ segment ∧ segment ≤ 7 ∧ ∃ i, InSegment s segment i

instance (s : Proc) (segment : Int16) : Decidable (Asked s segment) :=
  inferInstanceAs (Decidable (_ ∧ _ ∧ ∃ _, _))

/-- `kill` releases the process in that segment, nobody else, and the segment;
    if there is none it does nothing. -/
structure KillsExactly (s : Proc) (segment : Int16) : Prop where
  hit : Asked s segment → (kill segment s).1 = 1 ∧
    (∀ i, InSegment s segment i → ((kill segment s).2.pcb (.pcbPool i)).state = .DEFUNCT) ∧
    (∀ x, (∀ i, InSegment s segment i → x ≠ .pcbPool i) → ((kill segment s).2.pcb x).state = (s.pcb x).state) ∧
    (kill segment s).2.memoryMap = Function.update s.memoryMap segment FREE
  miss : ¬ Asked s segment → kill segment s = (-1, s)

theorem victim_of_inSegment (h : InSegment s segment i) : ∃ j, victim segment s = some j := by
  refine Option.ne_none_iff_exists'.1 ?_
  intro hv
  have hi := List.find?_eq_none.1 hv i (List.mem_finRange i)
  rw [h.2, segmentOf, Int16.mul_comm] at hi
  simp at hi

/-- What `kill` does when it finds a PCB. -/
theorem kill_victim (hv : victim segment s = some i) : (kill segment s).1 = 1 ∧
    (∀ x, ((kill segment s).2.pcb x).state = if x = .pcbPool i then .DEFUNCT else (s.pcb x).state) ∧
    (kill segment s).2.memoryMap = Function.update s.memoryMap segment FREE := by
  rw [kill_eq hv]
  have hr := releasePCB_released (.pcbPool i) (releaseMemorySegment segment s)
  exact ⟨rfl, hr.state, hr.memoryMap⟩

theorem KillsExactly.asked (h : KillsExactly s segment) (h1 : (kill segment s).1 = 1) : Asked s segment := by
  by_contra hno
  rw [h.miss hno] at h1
  have hne : (-1 : Int16) ≠ 1 := by decide
  exact hne h1

/-- The process that is killed is the one that was found. -/
theorem KillsExactly.eq_victim (h : KillsExactly s segment) (hv : victim segment s = some i)
    (hj : InSegment s segment j) : j = i := by
  obtain ⟨h1, hst, -⟩ := kill_victim hv
  by_contra hne
  have hd := (h.hit (h.asked h1)).2.1 j hj
  rw [hst, if_neg fun he => hne (PCBRef.pcbPool.inj he)] at hd
  exact hj.1 hd

/-- **`kill` is exact** if the PCB it finds is that of a live process, alone in
    its segment, and the argument is an index of the memory map, and only then. -/
theorem killsExactly_of_alone : KillsExactly s segment ↔ ∀ i, victim segment s = some i →
    Live s i ∧ (0 ≤ segment ∧ segment ≤ 7) ∧ Alone s segment (.pcbPool i) := by
  constructor
  · intro h i hv
    obtain ⟨h0, h7, j, hj⟩ := h.asked (kill_victim hv).1
    refine ⟨h.eq_victim hv hj ▸ hj.1, ⟨h0, h7⟩, ?_⟩
    intro j' hl hne hs
    exact hne (congrArg PCBRef.pcbPool (h.eq_victim hv ⟨hl, hs⟩))
  · intro h
    constructor
    · rintro ⟨-, -, j, hj⟩
      obtain ⟨i, hv⟩ := victim_of_inSegment hj
      obtain ⟨hl, -, halone⟩ := h i hv
      obtain ⟨h1, hst, hmap⟩ := kill_victim hv
      have hin : InSegment s segment i := ⟨hl, victim_segment hv⟩
      refine ⟨h1, ?_, ?_, hmap⟩
      · intro j' hj'
        rw [hst, if_pos]
        by_contra hne
        exact halone j' hj'.1 hne hj'.2
      · intro x hx
        rw [hst, if_neg (hx i hin)]
    · intro hno
      rcases hv : victim segment s with _ | i
      · exact kill_none hv
      · obtain ⟨hl, ⟨h0, h7⟩, -⟩ := h i hv
        exact absurd ⟨h0, h7, i, hl, victim_segment hv⟩ hno

/-! ## Runs -/

/-- Processes have different segments. -/
def Distinct (s : Proc) : Prop := ∀ i j, Live s i → Live s j →
  (s.pcb (.pcbPool i)).segment = (s.pcb (.pcbPool j)).segment → i = j

/-- `executeProgram`, `kill` of any argument, and the timer. -/
def ShootCall (m : Machine) : Call → Prop
  | .executeProgram name => m.MayCall (.executeProgram name)
  | .kill segment => m.MayCall (.kill segment)
  | .timer _ => True
  | _ => False

instance : ∀ (m : Machine) (c : Call), Decidable (ShootCall m c)
  | m, .executeProgram name => inferInstanceAs (Decidable (m.MayCall (.executeProgram name)))
  | m, .kill segment => inferInstanceAs (Decidable (m.MayCall (.kill segment)))
  | _, .timer _ => inferInstanceAs (Decidable True)
  | _, .terminate | _, .yield | _, .sleep _ _ => inferInstanceAs (Decidable False)

/-- No second process comes into a segment: a new one does not get that of a
    live process, and a tick does not bring back a PCB with such a segment.
    `kill` stores into the memory map and not beside it. -/
def NoSecond (s : Proc) : Call → Prop
  | .executeProgram _ => ∀ i, (getFreeMemorySegment s).1 = some i →
    ∀ j, Live s j → (s.pcb (.pcbPool j)).segment ≠ segmentOf (Int16.ofNat i.val)
  | .timer _ => ∀ i, s.readyHead = some (.pcbPool i) → ¬ Live s i →
    ∀ j, Live s j → (s.pcb (.pcbPool j)).segment ≠ (s.pcb (.pcbPool i)).segment
  | .kill segment => ∀ i, victim segment s = some i → 0 ≤ segment ∧ segment ≤ 7
  | _ => True

instance : ∀ (s : Proc) (c : Call), Decidable (NoSecond s c)
  | s, .executeProgram _ => inferInstanceAs (Decidable (∀ i, (getFreeMemorySegment s).1 = some i →
      ∀ j, Live s j → (s.pcb (.pcbPool j)).segment ≠ segmentOf (Int16.ofNat i.val)))
  | s, .timer _ => inferInstanceAs (Decidable (∀ i, s.readyHead = some (.pcbPool i) → ¬ Live s i →
      ∀ j, Live s j → (s.pcb (.pcbPool j)).segment ≠ (s.pcb (.pcbPool i)).segment))
  | s, .kill segment =>
    inferInstanceAs (Decidable (∀ i, victim segment s = some i → 0 ≤ segment ∧ segment ≤ 7))
  | _, .terminate | _, .yield | _, .sleep _ _ => inferInstanceAs (Decidable True)

theorem Booted.distinct (h : Booted s s') : Distinct s' := fun i _ hi => absurd (h.defunct i) hi

/-- Fewer processes in the same segments. -/
theorem Distinct.mono (h : Distinct s) (hl : ∀ j, Live s' j → Live s j)
    (hs : ∀ j, (s'.pcb (.pcbPool j)).segment = (s.pcb (.pcbPool j)).segment) : Distinct s' := by
  intro i j hi hj he
  rw [hs, hs] at he
  exact h i j (hl i hi) (hl j hj) he

/-- One more process, in a segment of its own. -/
theorem Distinct.insert (h : Distinct s) (hl : ∀ j, Live s' j → j = p ∨ Live s j)
    (hs : ∀ j, j ≠ p → (s'.pcb (.pcbPool j)).segment = (s.pcb (.pcbPool j)).segment)
    (hp : ∀ j, j ≠ p → Live s j → (s.pcb (.pcbPool j)).segment ≠ (s'.pcb (.pcbPool p)).segment) :
    Distinct s' := by
  intro i j hi hj he
  by_cases hip : i = p <;> by_cases hjp : j = p
  · rw [hip, hjp]
  · rw [hip, hs j hjp] at he
    exact absurd he.symm (hp j hjp ((hl j hj).resolve_left hjp))
  · rw [hjp, hs i hip] at he
    exact absurd he (hp i hip ((hl i hi).resolve_left hip))
  · rw [hs i hip, hs j hjp] at he
    exact h i j ((hl i hi).resolve_left hip) ((hl j hj).resolve_left hjp) he

theorem Distinct.started (h : Distinct s) (hs : Started name i p s s')
    (ho : ∀ j, Live s j → (s.pcb (.pcbPool j)).segment ≠ segmentOf (Int16.ofNat i.val)) : Distinct s' := by
  refine h.insert (p := p) (fun j hj => hs.live_iff.1 hj) (fun j hne => hs.segment_of_ne hne) ?_
  intro j _ hj
  rw [hs.segment, if_pos rfl]
  exact ho j hj

theorem Distinct.ticked (h : Distinct s) (ht : Ticked sp s s')
    (ho : ∀ i, s.readyHead = some (.pcbPool i) → ¬ Live s i →
      ∀ j, Live s j → (s.pcb (.pcbPool j)).segment ≠ (s.pcb (.pcbPool i)).segment) : Distinct s' := by
  by_cases hd : ∃ i, s.readyHead = some (.pcbPool i) ∧ ¬ Live s i
  · obtain ⟨i, hi, hno⟩ := hd
    refine h.insert (p := i) ?_ (fun j _ => ht.segment _) ?_
    · intro j hj
      rcases ht.live hj with h1 | h1
      · exact .inr h1
      · rw [hi] at h1
        exact .inl (PCBRef.pcbPool.inj (Option.some.inj h1)).symm
    · intro j _ hj
      rw [ht.segment]
      exact ho i hi hno j hj
  · push Not at hd
    refine h.mono ?_ fun j => ht.segment _
    intro j hj
    rcases ht.live hj with h1 | h1
    · exact h1
    · exact hd j h1

theorem Distinct.step (h : Distinct m.kernel.toProc) (hc : ShootCall m c)
    (ho : NoSecond m.kernel.toProc c) (hs : m.step c = some m') : Distinct m'.kernel.toProc := by
  cases c with
  | executeProgram name =>
    obtain ⟨r, k', he, rfl⟩ := Machine.step_executeProgram hs
    rcases executeProgram_cases he with ⟨-, hr⟩ | ⟨-, i, p, hst⟩
    · change Distinct k'.toProc
      rw [hr.eq]
      exact h
    · exact h.started hst (ho i hst.handedOut)
  | kill segment =>
    cases hs
    change Distinct (kill segment m.kernel.toProc).2
    rcases hv : victim segment m.kernel.toProc with _ | i
    · rw [kill_none hv]
      exact h
    · rw [kill_eq hv]
      have hr := releasePCB_released (.pcbPool i) (releaseMemorySegment segment m.kernel.toProc)
      exact h.mono (fun j hj => (hr.live_iff.1 hj).1) fun j => hr.segment _
  | timer sp =>
    obtain ⟨r, s', ht, rfl⟩ := Machine.step_timer hs
    exact h.ticked (handleTimerInterrupt_ticked ht).2 ho
  | terminate => cases hc
  | yield => cases hc
  | sleep => cases hc

/-- **`kill` hits exactly the live process asked for** if the PCB it finds is
    that of a live process and the argument is an index of the memory map, and
    only then, in every run that brings no second process into a segment. -/
theorem kill_run (h : Run Machine.step (fun m c => ShootCall m c ∧ NoSecond m.kernel.toProc c)
      (Machine.init k) es m) (segment : Int16) :
    KillsExactly m.kernel.toProc segment ↔ ∀ i, victim segment m.kernel.toProc = some i →
      Live m.kernel.toProc i ∧ 0 ≤ segment ∧ segment ≤ 7 := by
  have hD : Distinct m.kernel.toProc := h.invariant (I := fun m => Distinct m.kernel.toProc)
    (fun m c m' hm hc hs => Distinct.step hm hc.1 hc.2 hs)
    (initializeProcStructures_booted k.toProc).distinct
  rw [killsExactly_of_alone]
  constructor
  · intro hk i hv
    exact ⟨(hk i hv).1, (hk i hv).2.1⟩
  · intro hk i hv
    obtain ⟨hl, hrange⟩ := hk i hv
    refine ⟨hl, hrange, fun j hj hne he => hne ?_⟩
    rw [hD j i hj hl (he.trans (victim_segment hv).symm)]

/-- The second of two processes can be killed. -/
theorem kill_run_two : ∃ m : Machine, Asked m.kernel.toProc 1 ∧ KillsExactly m.kernel.toProc 1 := by
  have h : (evalRun Machine.step (fun m c => ShootCall m c ∧ NoSecond m.kernel.toProc c)
      (Machine.init oneFileKernel) [.executeProgram nameA, .executeProgram nameA, .timer 7]).any
      (fun m => Asked m.kernel.toProc 1 ∧ ∀ i, victim 1 m.kernel.toProc = some i → Live m.kernel.toProc i) =
      true := by decide +kernel
  obtain ⟨m, hr, hm⟩ := Run.exists_of_evalRun h
  simp only [decide_eq_true_eq] at hm
  exact ⟨m, hm.1, (kill_run hr 1).2 fun i hi => ⟨hm.2 i hi, by decide, by decide⟩⟩

/-- A process is killed a second time; an argument that is too large by 16
    kills it as well; and a PCB that has never been used is found. -/
theorem kill_misses : ∃ m m', Run Machine.step ShootCall (Machine.init oneFileKernel) [.executeProgram nameA] m ∧
    m.step (.kill 0) = some m' ∧ ¬ KillsExactly m'.kernel.toProc 0 ∧ ¬ KillsExactly m.kernel.toProc 16 ∧
    ¬ KillsExactly m.kernel.toProc (-2) := by
  have h : (evalRun Machine.step ShootCall (Machine.init oneFileKernel) [.executeProgram nameA]).any
      (fun m => (m.step (.kill 0)).any (fun m' => ¬ Asked m'.kernel.toProc 0 ∧ (kill 0 m'.kernel.toProc).1 = 1) ∧
        (¬ Asked m.kernel.toProc 16 ∧ (kill 16 m.kernel.toProc).1 = 1) ∧
        ¬ Asked m.kernel.toProc (-2) ∧ (kill (-2) m.kernel.toProc).1 = 1) = true := by decide +kernel
  obtain ⟨m, hr, hm⟩ := Run.exists_of_evalRun h
  simp only [decide_eq_true_eq, Option.any_eq_true] at hm
  obtain ⟨⟨m', hs, ha', h1'⟩, ⟨ha, h1⟩, ha2, h12⟩ := hm
  exact ⟨m, m', hr, hs, fun hk => ha' (hk.asked h1'), fun hk => ha (hk.asked h1), fun hk => ha2 (hk.asked h12)⟩

end TeamXtremeOS
