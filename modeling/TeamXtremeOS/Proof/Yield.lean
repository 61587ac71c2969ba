/-
  Yielding: `yield` puts the running process on the queue, the next timer
  interrupt does so again.  A PCB that is added to a queue it is on already
  becomes the last one where it stands: what is behind it is lost.
-/
import TeamXtremeOS.Proof.Isolation
import TeamXtremeOS.Proof.ReadyQueue

namespace TeamXtremeOS

open Lib

variable {s s' : Proc} {k : Kernel} {m m' : Machine} {c : Call} {es : List Call} {i j p : Fin 8}
  {q u v : List PCBRef} {name : FileName} {sp seg : Int16} {x a : PCBRef}

/-! ## Adding a PCB once more -/

/-- The queue when `p` is added: behind the others, or where it is, as the last
    one. -/
def join (q : List PCBRef) (p : PCBRef) : List PCBRef := q.takeWhile (· ≠ p) ++ [p]

theorem takeWhile_ne (h : a ∉ u) : u.takeWhile (· ≠ a) = u := by
  rw [List.takeWhile_eq_self_iff]
  rintro x hx
  rw [decide_eq_true_eq]
  rintro rfl
  exact h hx

theorem join_of_notMem (h : a ∉ q) : join q a = q ++ [a] := by
  rw [join, takeWhile_ne h]

theorem join_of_mem (h : a ∉ u) : join (u ++ a :: v) a = u ++ [a] := by
  rw [join, List.takeWhile_append, if_pos (congrArg List.length (takeWhile_ne h)),
    List.takeWhile_cons_of_neg (by simp), List.append_nil]

theorem mem_of_mem_join (h : x ∈ join q a) : x ∈ q ∨ x = a := by
  rw [join, List.mem_append, List.mem_singleton] at h
  exact h.imp_left fun h => (List.takeWhile_sublist _).subset h

theorem head?_join : (join q a).head? = (q ++ [a]).head? := by
  cases q with
  | nil => rfl
  | cons b q =>
    by_cases hb : b = a
    · simp [join, hb]
    · simp [join, hb]

/-- **`addToReady` of any PCB**, whether it is on the queue or not. -/
theorem Queue.join (h : Queue s q) (p : PCBRef) :
    ∃ s', addToReady p s = some s' ∧ Queue s' (TeamXtremeOS.join q p) := by
  by_cases hp : p ∈ q
  · obtain ⟨u, v, rfl⟩ := List.append_of_mem hp
    have hpu : p ∉ u := fun hm => (List.nodup_append.1 h.nodup).2.2 p hm p List.mem_cons_self rfl
    rw [join_of_mem hpu]
    -- the last PCB of the queue, `p` or one behind it, is linked to `p`
    obtain ⟨w, a, hw⟩ := (List.eq_nil_or_concat (p :: v)).resolve_left (List.cons_ne_nil p v)
    rw [List.concat_eq_append] at hw
    have hau : a ∉ u := fun hm => (List.nodup_append.1 h.nodup).2.2 a hm a (hw ▸ by simp) rfl
    have h' : Queue s ((u ++ w) ++ [a]) := by
      rw [List.append_assoc, ← hw]
      exact h
    refine ⟨_, addToReady_concat h' p, ?_⟩
    refine Spells.cut h ?_
    intro x hx
    have hxa : x ≠ a := fun he => hau (he ▸ hx)
    simp [hxa]
  · rw [join_of_notMem hp]
    exact h.add hp

/-- Nobody is lost exactly if the PCB, when it is on the queue, is the last one
    there. -/
theorem Queue.subset_join (h : Queue s q) (p : PCBRef) :
    (∀ x ∈ q, x ∈ TeamXtremeOS.join q p) ↔ (OnQueue s p → s.readyTail = some p) := by
  rw [h.onQueue_iff, h.tail]
  by_cases hp : p ∈ q
  · obtain ⟨u, v, rfl⟩ := List.append_of_mem hp
    obtain ⟨-, hpv, hdis⟩ := List.nodup_append.1 h.nodup
    have hpu : p ∉ u := fun hm => hdis p hm p List.mem_cons_self rfl
    rw [join_of_mem hpu]
    rcases List.eq_nil_or_concat v with rfl | ⟨w, b, rfl⟩
    · simp
    · rw [List.concat_eq_append] at hp hpv hdis ⊢
      have hb : b ∈ w ++ [b] := by simp
      have hpb : b ≠ p := fun he => (List.nodup_cons.1 hpv).1 (he ▸ hb)
      have hbu : b ∉ u := fun hm => hdis b hm b (List.mem_cons_of_mem _ hb) rfl
      have hlast : (u ++ p :: (w ++ [b])).getLast? = some b := by
        rw [← List.cons_append, ← List.append_assoc, List.getLast?_concat]
      rw [hlast]
      constructor
      · intro hall
        have hm := hall b (by simp)
        simp [hbu, hpb] at hm
      · intro hl
        exact absurd (Option.some.inj (hl hp)) hpb
  · rw [join_of_notMem hp]
    exact ⟨fun _ hm => absurd hm hp, fun _ x hx => List.mem_append_left _ hx⟩

/-! ## Who waits -/

/-- The queue from which a tick takes the next process. -/
def lineup (s : Proc) (q : List PCBRef) : List PCBRef := if Requeued s then join q s.running else q

/-- Along a run with yields: the queue holds processes, nobody sleeps. -/
structure Yields (s : Proc) (q : List PCBRef) : Prop where
  queue : Queue s q
  live : ∀ x ∈ q, ∃ i, x = .pcbPool i ∧ Live s i
  running : ∀ i, s.running = .pcbPool i → Live s i
  awake : ∀ i, (s.pcb (.pcbPool i)).state ≠ .SLEEPING
  idleName : (s.pcb .idleProc).namedIdle = true
  all : ∀ i, Live s i → .pcbPool i ∈ q ∨ s.running = .pcbPool i

/-- Each process is once running or on the queue. -/
def EachOnce (s : Proc) : Prop :=
  ∃ q, Queue s q ∧ (s.running :: q).Nodup ∧ ∀ i, Live s i → .pcbPool i ∈ s.running :: q

namespace Yields

theorem requeued_iff (h : Yields s q) : Requeued s ↔ (s.pcb s.running).namedIdle = false := by
  constructor
  · intro hr
    exact hr.2.1
  · intro hn
    rcases hrun : s.running with _ | i
    · rw [hrun, h.idleName] at hn
      cases hn
    · rw [hrun] at hn
      rw [Requeued, hrun]
      exact ⟨h.running i hrun, hn, h.awake i⟩

theorem mem_lineup (h : Yields s q) (hx : x ∈ lineup s q) : ∃ i, x = .pcbPool i ∧ Live s i := by
  rw [lineup] at hx
  split_ifs at hx with hr
  · rcases mem_of_mem_join hx with hx | rfl
    · exact h.live x hx
    · rcases hrun : s.running with _ | i
      · rw [h.requeued_iff, hrun, h.idleName] at hr
        cases hr
      · exact ⟨i, rfl, h.running i hrun⟩
  · exact h.live x hx

theorem head?_lineup (s : Proc) (q : List PCBRef) : (lineup s q).head? = (q ++ back s).head? := by
  rw [lineup, back]
  split_ifs
  · exact head?_join
  · rw [List.append_nil]

/-- What a tick does along a run with yields. -/
theorem tick (h : Yields s q) (seg sp : Int16) : ∃ r s', handleTimerInterrupt seg sp s = some (r, s') ∧
    Ticked sp s s' ∧ Queue s' (lineup s q).tail ∧ s'.running = (lineup s q).head?.getD .idleProc ∧
    (lineup s q).Nodup := by
  obtain ⟨s₁, h1, hq1⟩ : ∃ s₁, requeueRunning (saveStack sp s) = some s₁ ∧ Queue s₁ (lineup s q) := by
    have h0 := h.queue.sameLinks (sameLinks_saveStack sp s)
    unfold requeueRunning lineup
    simp only [requeued_saveStack]
    split_ifs
    · exact (h0.sameLinks (sameLinks_setState _ _ .READY)).join _
    · exact ⟨_, rfl, h0⟩
  obtain ⟨r, s', h2, hq2⟩ := switch_of_requeue queueInv_queue h1 hq1
  have hs : handleTimerInterrupt seg sp s = some (r, s') := by
    rw [handleTimerInterrupt_eq, foldlM_awake h.awake]
    exact h2
  have ht := (handleTimerInterrupt_ticked hs).2
  refine ⟨r, s', hs, ht, hq2, ?_, hq1.nodup⟩
  have hb : back s = requeued s := (foldlM_woke (List.nodup_finRange 8) (foldlM_awake h.awake _)).back_eq
  rw [ht.running, h.queue.dispatched_eq, woken_awake h.awake, List.append_nil, head?_lineup, hb]

theorem live_iff (h : Yields s q) (ht : Ticked sp s s') : Live s' i ↔ Live s i := by
  constructor
  · intro hl
    rcases ht.live hl with h1 | h1
    · exact h1
    · rw [h.queue.head] at h1
      obtain ⟨j, hj, hlive⟩ := h.live _ (List.mem_of_mem_head? h1)
      rw [PCBRef.pcbPool.inj hj]
      exact hlive
  · exact ht.keeps_live

/-- Behind a tick everybody is where he should be exactly if he was in the
    lineup. -/
theorem eachOnce_iff (h : Yields s q) (ht : Ticked sp s s') (hq : Queue s' (lineup s q).tail)
    (hr : s'.running = (lineup s q).head?.getD .idleProc) (hnd : (lineup s q).Nodup) :
    EachOnce s' ↔ ∀ i, Live s i → .pcbPool i ∈ lineup s q := by
  have hmem : ∀ i, (.pcbPool i) ∈ s'.running :: (lineup s q).tail ↔ .pcbPool i ∈ lineup s q := by
    intro i
    rw [hr]
    cases lineup s q <;> simp
  constructor
  · rintro ⟨q', hq', -, hall⟩ i hi
    rw [← hmem, List.mem_cons, ← hq.onQueue_iff, hq'.onQueue_iff, ← List.mem_cons]
    exact hall i ((h.live_iff ht).2 hi)
  · intro hall
    refine ⟨_, hq, ?_, fun i hi => (hmem i).2 (hall i ((h.live_iff ht).1 hi))⟩
    rw [hr]
    rcases hL : lineup s q with _ | ⟨b, l⟩
    · exact List.nodup_singleton _
    · rw [hL] at hnd
      exact hnd

end Yields

/-! ## Runs -/

/-- `executeProgram`, yields of a process, and the timer. -/
def YieldCall (m : Machine) : Call → Prop
  | .executeProgram name => m.MayCall (.executeProgram name)
  | .yield => m.MayCall .yield
  | .timer _ => True
  | _ => False

instance : ∀ (m : Machine) (c : Call), Decidable (YieldCall m c)
  | m, .executeProgram name => inferInstanceAs (Decidable (m.MayCall (.executeProgram name)))
  | m, .yield => inferInstanceAs (Decidable (m.MayCall .yield))
  | _, .timer _ => inferInstanceAs (Decidable True)
  | _, .terminate | _, .kill _ | _, .sleep _ _ => inferInstanceAs (Decidable False)

/-- The running process is put on the queue when it is not on it, or when it is
    the last one there.  A process that has the name of the idle process is not
    put on it by a tick, and has to be there. -/
def Rejoins (s : Proc) : Call → Prop
  | .yield => OnQueue s s.running → s.readyTail = some s.running
  | .timer _ =>
    if (s.pcb s.running).namedIdle then s.running = .idleProc ∨ OnQueue s s.running
    else OnQueue s s.running → s.readyTail = some s.running
  | _ => True

namespace Yields

/-- Nobody is missing from the lineup exactly if the running process rejoins
    the queue. -/
theorem lineup_iff (h : Yields s q) (sp : Int16) :
    (∀ i, Live s i → .pcbPool i ∈ lineup s q) ↔ Rejoins s (.timer sp) := by
  simp only [Rejoins]
  rw [lineup]
  simp only [h.requeued_iff]
  by_cases hn : (s.pcb s.running).namedIdle = true
  · rw [if_pos hn, if_neg (by rw [hn]; decide), h.queue.onQueue_iff]
    constructor
    · intro hall
      rcases hrun : s.running with _ | i
      · exact .inl rfl
      · exact .inr (hall i (h.running i hrun))
    · intro hr i hi
      rcases h.all i hi with hq | hi'
      · exact hq
      · rw [hi'] at hr
        exact hr.resolve_left (by simp)
  · rw [if_neg hn, if_pos (by simpa using hn), ← h.queue.subset_join]
    constructor
    · intro hall x hx
      obtain ⟨i, rfl, hi⟩ := h.live x hx
      exact hall i hi
    · intro hall i hi
      rcases h.all i hi with hq | hi'
      · exact hall _ hq
      · rw [hi', join]
        simp

theorem yield (h : Yields s q) (hr : Rejoins s .yield) (hne : s.running ≠ .idleProc)
    (hs : addToReady s.running s = some s') : Yields s' (join q s.running) := by
  obtain ⟨s₁, h1, hq⟩ := h.queue.join s.running
  rw [hs] at h1
  cases h1
  have hf := addToReady_frame hs
  have hlive : ∀ i, Live s' i ↔ Live s i := by
    intro i
    rw [Live, Live, hf.state]
  refine ⟨hq, ?_, ?_, ?_, ?_, ?_⟩
  · intro x hx
    rcases mem_of_mem_join hx with hx | rfl
    · obtain ⟨i, hi, hl⟩ := h.live x hx
      exact ⟨i, hi, (hlive i).2 hl⟩
    · rcases hrun : s.running with _ | i
      · exact absurd hrun hne
      · exact ⟨i, rfl, (hlive i).2 (h.running i hrun)⟩
  · intro i hi
    rw [hf.running] at hi
    exact (hlive i).2 (h.running i hi)
  · intro i
    rw [hf.state]
    exact h.awake i
  · rw [PCB.namedIdle, hf.name]
    exact h.idleName
  · intro i hi
    rw [hf.running]
    exact (h.all i ((hlive i).1 hi)).imp_left ((h.queue.subset_join _).2 hr _)

theorem started (h : Yields s q) (hs : Started name i p s s') : Yields s' (q ++ [.pcbPool p]) := by
  have hp : .pcbPool p ∉ q := by
    intro hm
    obtain ⟨j, hj, hl⟩ := h.live _ hm
    rw [← PCBRef.pcbPool.inj hj] at hl
    exact hl hs.defunct
  have hlive : ∀ j, Live s' j ↔ j = p ∨ Live s j := fun j => hs.live_iff
  refine ⟨hs.queue queueInv_queue h.queue hp, ?_, ?_, ?_, ?_, ?_⟩
  · intro x hx
    rcases List.mem_append.1 hx with hx | hx
    · obtain ⟨j, hj, hl⟩ := h.live x hx
      exact ⟨j, hj, (hlive j).2 (.inr hl)⟩
    · exact ⟨p, List.mem_singleton.1 hx, (hlive p).2 (.inl rfl)⟩
  · intro j hj
    rw [hs.running] at hj
    exact (hlive j).2 (.inr (h.running j hj))
  · intro j
    rw [hs.state]
    split_ifs
    · decide
    · exact h.awake j
  · rw [PCB.namedIdle, hs.name _ (by simp)]
    exact h.idleName
  · intro j hj
    rw [hs.running]
    rcases (hlive j).1 hj with rfl | hl
    · exact .inl (by simp)
    · exact (h.all j hl).imp_left fun hm => List.mem_append_left _ hm

theorem ticked (h : Yields s q) (hr : Rejoins s (.timer sp)) (ht : Ticked sp s s')
    (hq : Queue s' (lineup s q).tail) (hrun : s'.running = (lineup s q).head?.getD .idleProc) :
    Yields s' (lineup s q).tail := by
  refine ⟨hq, ?_, ?_, ?_, ?_, ?_⟩
  · intro x hx
    obtain ⟨i, hi, hl⟩ := h.mem_lineup (List.mem_of_mem_tail hx)
    exact ⟨i, hi, (h.live_iff ht).2 hl⟩
  · intro i hi
    rw [hrun] at hi
    rcases hL : lineup s q with _ | ⟨b, l⟩
    · rw [hL] at hi
      cases hi
    · rw [hL] at hi
      obtain ⟨j, hj, hl⟩ := h.mem_lineup (x := b) (by rw [hL]; exact List.mem_cons_self)
      have hb : b = .pcbPool i := hi
      rw [hb] at hj
      rw [PCBRef.pcbPool.inj hj]
      exact (h.live_iff ht).2 hl
  · intro i
    rw [ht.state]
    split_ifs
    · decide
    · decide
    · exact h.awake i
  · rw [PCB.namedIdle, ht.name]
    exact h.idleName
  · intro i hi
    have hm := (h.lineup_iff sp).2 hr i ((h.live_iff ht).1 hi)
    rw [hrun]
    rcases hL : lineup s q with _ | ⟨b, l⟩
    · rw [hL] at hm
      cases hm
    · rw [hL] at hm
      rcases List.mem_cons.1 hm with rfl | hm
      · exact .inr rfl
      · exact .inl hm

end Yields

theorem Booted.yields (h : Booted s s') : Yields s' [] where
  queue := h.queue
  live x hx := by cases hx
  running i hi := by cases h.running.symm.trans hi
  awake i := by simp [h.defunct]
  idleName := h.idleName
  all i hi := absurd (h.defunct i) hi

theorem Yields.step (h : Yields m.kernel.toProc q) (hc : YieldCall m c) (hr : Rejoins m.kernel.toProc c)
    (hs : m.step c = some m') : ∃ q', Yields m'.kernel.toProc q' := by
  cases c with
  | executeProgram name =>
    obtain ⟨r, k', he, rfl⟩ := Machine.step_executeProgram hs
    rcases executeProgram_cases he with ⟨-, hx⟩ | ⟨-, i, p, hst⟩
    · refine ⟨q, ?_⟩
      change Yields k'.toProc q
      rw [hx.eq]
      exact ⟨h.queue.sameLinks ⟨rfl, rfl, fun _ => rfl, fun _ => rfl⟩, h.live, h.running, h.awake, h.idleName, h.all⟩
    · exact ⟨_, h.started hst⟩
  | yield =>
    simp only [Machine.step, Option.map_eq_some_iff] at hs
    obtain ⟨s', ha, rfl⟩ := hs
    exact ⟨_, h.yield hr hc.2 ha⟩
  | timer sp =>
    obtain ⟨r, s', hts, ht, hq, hrun, -⟩ := h.tick (stackSegment m.kernel.toProc) sp
    rw [Machine.step_timer_of hts] at hs
    cases hs
    exact ⟨_, h.ticked hr ht hq hrun⟩
  | terminate => cases hc
  | kill => cases hc
  | sleep => cases hc

/-- **`yield` loses nobody** as long as the running process rejoins the queue:
    a timer interrupt then finds each process once, running or on the queue,
    and otherwise it does not. -/
theorem yield_run (h : Run Machine.step (fun m c => YieldCall m c ∧ Rejoins m.kernel.toProc c)
      (Machine.init k) es m) (sp : Int16) : ∃ m', m.step (.timer sp) = some m' ∧
    (EachOnce m'.kernel.toProc ↔ Rejoins m.kernel.toProc (.timer sp)) := by
  obtain ⟨q, hq⟩ : ∃ q, Yields m.kernel.toProc q :=
    h.invariant (I := fun m => ∃ q, Yields m.kernel.toProc q)
      (fun m c m' hI hc hs => by
        obtain ⟨q, hq⟩ := hI
        exact hq.step hc.1 hc.2 hs)
      ⟨[], (initializeProcStructures_booted k.toProc).yields⟩
  obtain ⟨r, s', hts, ht, hq', hrun, hnd⟩ := hq.tick (stackSegment m.kernel.toProc) sp
  refine ⟨_, Machine.step_timer_of hts, ?_⟩
  exact (hq.eachOnce_iff ht hq' hrun hnd).trans (hq.lineup_iff sp)

theorem OnQueue.single (h : OnQueue s x) (hs : s.readyHead = s.readyTail) : s.readyHead = some x := by
  induction h with
  | head hx => exact hx
  | next _ ht _ ih => exact absurd (hs.symm.trans ih) ht

/-- The first of two processes yields. -/
theorem yield_run_two : ∃ m m' : Machine, m.kernel.running = .pcbPool 0 ∧ m.kernel.readyTail = some (.pcbPool 0) ∧
    m.step (.timer 8) = some m' ∧ EachOnce m'.kernel.toProc := by
  have h : (evalRun Machine.step (fun m c => YieldCall m c ∧
      ((m.kernel.pcb m.kernel.running).namedIdle = true ∧ m.kernel.running = .idleProc ∨
        (m.kernel.pcb m.kernel.running).namedIdle = false ∧ m.kernel.readyHead = m.kernel.readyTail ∧
        m.kernel.readyHead ≠ some m.kernel.running))
      (Machine.init oneFileKernel) [.executeProgram nameA, .executeProgram nameA, .timer 7, .yield]).any
      (fun m => m.kernel.running = .pcbPool 0 ∧ m.kernel.readyTail = some (.pcbPool 0) ∧
        (m.kernel.pcb (.pcbPool 0)).namedIdle = false) = true := by decide +kernel
  obtain ⟨m, hr, hm⟩ := Run.exists_of_evalRun h
  simp only [decide_eq_true_eq] at hm
  obtain ⟨hrun, htail, hname⟩ := hm
  have hr' : Run Machine.step (fun m c => YieldCall m c ∧ Rejoins m.kernel.toProc c) (Machine.init oneFileKernel) _ m :=
    hr.mono fun m c hc => by
      refine ⟨hc.1, ?_⟩
      have hno : m.kernel.readyHead = m.kernel.readyTail ∧ m.kernel.readyHead ≠ some m.kernel.running →
          (OnQueue m.kernel.toProc m.kernel.running → m.kernel.readyTail = some m.kernel.running) :=
        fun hs ho => absurd (ho.single hs.1) hs.2
      cases c with
      | yield =>
        rcases hc.2 with ⟨-, hi⟩ | ⟨-, hs⟩
        · exact absurd hi hc.1.2
        · exact hno hs
      | timer sp =>
        rcases hc.2 with ⟨hn, hi⟩ | ⟨hn, hs⟩
        · simp only [Rejoins, if_pos hn]
          exact .inl hi
        · simp only [Rejoins, hn]
          exact hno hs
      | _ => trivial
  obtain ⟨m', hs, hiff⟩ := yield_run hr' 8
  refine ⟨m, m', hrun, htail, hs, hiff.2 ?_⟩
  simp only [Rejoins, hrun, hname]
  exact fun _ => htail

/-- A process that is started behind a yield is lost at the next tick. -/
theorem yield_loses : ∃ m m', Run Machine.step YieldCall (Machine.init oneFileKernel)
      [.executeProgram nameA, .timer 7, .yield, .executeProgram nameA] m ∧
    m.step (.timer 8) = some m' ∧ ¬ EachOnce m'.kernel.toProc := by
  have h : (evalRun Machine.step YieldCall (Machine.init oneFileKernel)
      [.executeProgram nameA, .timer 7, .yield, .executeProgram nameA]).any
      (fun m => (m.step (.timer 8)).any fun m' => m'.kernel.running = .pcbPool 0 ∧ m'.kernel.readyHead = none ∧
        Live m'.kernel.toProc 1) = true := by decide +kernel
  obtain ⟨m, hr, hm⟩ := Run.exists_of_evalRun h
  simp only [decide_eq_true_eq, Option.any_eq_true] at hm
  obtain ⟨m', hs, hrun, hhead, hlive⟩ := hm
  refine ⟨m, m', hr, hs, ?_⟩
  rintro ⟨q, hq, -, hall⟩
  have hm := hall 1 hlive
  rw [hrun, Spells.nil_iff hq |>.1 hhead] at hm
  simp at hm

end TeamXtremeOS
