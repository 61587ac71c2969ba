/-
  Runs of starts, exits and ticks.  A process that exits is not on the queue:
  `releasePCB` finds no place for it there because its `prev` is `NULL` and its
  `next` is `NULL` or the head, which is what this module keeps track of.
-/
import TeamXtremeOS.Proof.Refine

namespace TeamXtremeOS

open Lib

variable {s s' : Proc} {k : Kernel} {m m' : Machine} {a : RoundRobin (Fin 8)} {c : Call}
  {es : List Call} {q : List PCBRef} {i p : Fin 8} {x : PCBRef} {name : FileName} {seg sp : Int16}

/-! ## `next` links -/

/-- The stale `next` links: the only PCB of a queue has none, that of the
    running process is the head if it is any, and free PCBs have none. -/
structure NextOK (s : Proc) (q : List PCBRef) : Prop where
  single : ∀ x, q = [x] → (s.pcb x).next = none
  running : ∀ i, s.running = .pcbPool i →
    (s.pcb (.pcbPool i)).next = none ∨ (s.pcb (.pcbPool i)).next = s.readyHead
  free : ∀ i, (s.pcb (.pcbPool i)).state = .DEFUNCT → (s.pcb (.pcbPool i)).next = none
  awake : ∀ i, (s.pcb (.pcbPool i)).state ≠ .SLEEPING

/-- Adding a PCB sets the link of the last one. -/
theorem addToReady_next (h : Queue s q) {p : PCBRef} (hs : addToReady p s = some s') (x : PCBRef) :
    (s'.pcb x).next = if q.getLast? = some x then some p else (s.pcb x).next := by
  rcases List.eq_nil_or_concat q with rfl | ⟨u, b, rfl⟩
  · rw [addToReady_nil h] at hs; cases hs
    simp
  · rw [List.concat_eq_append] at h ⊢
    rw [addToReady_concat h] at hs; cases hs
    simp only [Proc.setNext_next, Proc.setPrev_next, List.getLast?_append_of_ne_nil _
      (List.cons_ne_nil b []), List.getLast?_singleton, Option.some.injEq, eq_comm]

/-- Removing a PCB clears the link of a PCB that is left alone. -/
theorem removeFromReady_next {b : PCBRef} (h : Queue s (b :: q))
    (hs : removeFromReady s = some (some b, s')) (x : PCBRef) :
    (s'.pcb x).next = if q = [x] then none else (s.pcb x).next := by
  cases q with
  | nil =>
    rw [removeFromReady_single h] at hs; cases hs
    simp
  | cons c q =>
    obtain ⟨s₁, h1, -, -, -, hn⟩ := removeFromReady_cons h
    rw [hs] at h1; cases h1
    rw [hn]
    congr 1
    simp only [List.cons.injEq, eq_comm]

/-- Requeueing the running process sets no link of a PCB that is not on the
    queue, and sets none at all when there is nothing to requeue. -/
theorem requeueRunning_next (h : Queue s q) (hs : requeueRunning s = some s')
    (hx : x ∉ q ∨ back s = []) : (s'.pcb x).next = (s.pcb x).next := by
  unfold requeueRunning at hs
  split_ifs at hs with hr
  · have hq : x ∉ q := hx.resolve_right (by simp [back, hr])
    have hl := sameLinks_setState s s.running .READY
    have hlast : q.getLast? ≠ some x := fun he => hq (List.mem_of_mem_getLast? he)
    rw [addToReady_next (h.sameLinks hl) hs, if_neg hlast, hl.next]
  · cases hs; rfl

/-- The queue and the links behind the loop over the sleepers. -/
structure SwitchedLinks (q : List PCBRef) (s s' : Proc) : Prop where
  queue : Queue s' (q ++ back s).tail
  running : s'.running = (q ++ back s).head?.getD .idleProc
  single : ∀ x, (q ++ back s).tail = [x] → (s'.pcb x).next = none
  first : ∀ b c l, q ++ back s = b :: c :: l → (s'.pcb b).next = some c
  stale : ∀ x, x ∉ q ∨ back s = [] →
    (s'.pcb x).next = none ∨ (s'.pcb x).next = (s.pcb x).next

theorem switch_links {r : Int16 × Int16} (h : Queue s q) (hb : ∀ x ∈ back s, x ∉ q ∧ x ≠ .idleProc)
    (hs : switch sp s = some (r, s')) : SwitchedLinks q s s' := by
  unfold switch at hs
  simp only [Option.bind_eq_bind, Option.bind_eq_some_iff, Option.pure_def, Option.some.injEq,
    Prod.mk.injEq, Prod.exists] at hs
  obtain ⟨s₁, h1, d, s₂, h2, -, rfl⟩ := hs
  change requeueRunning (saveStack sp s) = some s₁ at h1
  have hq0 := h.sameLinks (sameLinks_saveStack sp s)
  obtain ⟨s₁', h1', hq1⟩ := requeueRunning_queue queueInv_queue hq0 (by rw [back_saveStack]; exact hb)
  rw [h1] at h1'; cases h1'
  rw [back_saveStack] at hq1
  obtain ⟨s₂', h2', hq2⟩ := removeFromReady_queue queueInv_queue hq1
  rw [h2] at h2'; cases h2'
  have hl := sameLinks_dispatch (q ++ back s).head? s₂
  have hn1 : ∀ x, x ∉ q ∨ back s = [] → (s₁.pcb x).next = (s.pcb x).next := fun x hx => by
    rw [requeueRunning_next hq0 h1 (by rw [back_saveStack]; exact hx), saveStack_pcb]
  have hn2 : ∀ x, (s₂.pcb x).next = if (q ++ back s).tail = [x] then none else (s₁.pcb x).next := by
    intro x
    cases hQ : q ++ back s with
    | nil =>
      rw [hQ, List.head?_nil, removeFromReady_nil (hQ ▸ hq1)] at h2
      cases h2
      simp
    | cons b l =>
      rw [hQ, List.head?_cons] at h2
      exact removeFromReady_next (hQ ▸ hq1) h2 x
  refine ⟨hq2.sameLinks hl, (dispatch_spec _ s₂).1, ?_, ?_, ?_⟩
  · intro x hx
    rw [hl.next, hn2, if_pos hx]
  · intro b c l hQ
    have hne : (q ++ back s).tail ≠ [b] := fun he => by
      rw [hQ, List.tail_cons] at he
      have hnd := (hQ ▸ hq1).nodup
      rw [he] at hnd
      simp at hnd
    rw [hl.next, hn2, if_neg hne]
    exact Spells.next_eq (u := []) (hQ ▸ hq1)
  · intro x hx
    rw [hl.next, hn2]
    split_ifs
    · exact .inl rfl
    · exact .inr (hn1 x hx)

/-- A tick keeps the stale links as they should be. -/
theorem NextOK.tick {r : Int16 × Int16} (h : Queue s q) (hn : NextOK s q)
    (hb : ∀ x ∈ requeued s, x ∉ q ∧ x ≠ .idleProc)
    (hd : ∀ i, (s.pcb (.pcbPool i)).state = .DEFUNCT → .pcbPool i ∉ q)
    (hs : handleTimerInterrupt seg sp s = some (r, s')) : NextOK s' (q ++ requeued s).tail := by
  have ht := (handleTimerInterrupt_ticked hs).2
  have hback : back s = requeued s :=
    (foldlM_woke (List.nodup_finRange 8) (foldlM_awake hn.awake _)).back_eq
  rw [handleTimerInterrupt_eq, foldlM_awake hn.awake] at hs
  rw [← hback] at hb ⊢
  have hw := switch_links h hb hs
  refine ⟨hw.single, ?_, ?_, ?_⟩
  · intro i hr
    -- the process dispatched last
    cases hQ : q ++ back s with
    | nil => rw [hw.running, hQ] at hr; cases hr
    | cons b l =>
      have hbi : b = .pcbPool i := by rw [hw.running, hQ] at hr; exact hr
      subst hbi
      cases l with
      | cons c l =>
        rw [hw.first _ _ _ hQ, hw.queue.head, hQ]
        exact .inr rfl
      | nil =>
        -- it was alone: the only one on the queue, or requeued on an empty one
        refine .inl ?_
        rcases List.append_eq_singleton_iff.1 hQ with ⟨hq, hbk⟩ | ⟨hq, hbk⟩
        · have hrun : s.running = .pcbPool i := by
            have := mem_back.1 (hbk ▸ List.mem_singleton_self (PCBRef.pcbPool i))
            exact this.2.symm
          have hh : s.readyHead = none := by rw [h.head, hq]; rfl
          have hnone : (s.pcb (.pcbPool i)).next = none := by
            rcases hn.running i hrun with h1 | h1
            · exact h1
            · rw [h1, hh]
          rcases hw.stale (.pcbPool i) (.inl (by rw [hq]; simp)) with h1 | h1
          · exact h1
          · rw [h1, hnone]
        · rcases hw.stale (.pcbPool i) (.inr hbk) with h1 | h1
          · exact h1
          · rw [h1, hn.single _ hq]
  · intro i hi
    have hi' : (s.pcb (.pcbPool i)).state = .DEFUNCT := by
      rw [ht.state] at hi
      split_ifs at hi
      exact hi
    rcases hw.stale _ (.inl (hd i hi')) with h1 | h1
    · exact h1
    · rw [h1, hn.free i hi']
  · intro i
    rw [ht.state]
    split_ifs
    · decide
    · decide
    · exact hn.awake i

theorem NextOK.start (hn : NextOK s q) (h : Queue s q) (hs : Started name i p s s')
    (hd : ∀ j, (s.pcb (.pcbPool j)).state = .DEFUNCT ∨ s.running = .pcbPool j → .pcbPool j ∉ q) :
    NextOK s' (q ++ [.pcbPool p]) := by
  obtain ⟨s₁, hl, ha⟩ := hs.added
  have hnext : ∀ x, x ∉ q → (s'.pcb x).next = (s.pcb x).next := fun x hx => by
    have hlast : q.getLast? ≠ some x := fun he => hx (List.mem_of_mem_getLast? he)
    rw [addToReady_next (h.sameLinks hl) ha, if_neg hlast, hl.next]
  have hhead : s'.readyHead = s.readyHead.or (some (.pcbPool p)) := by
    rw [addToReady_head ha, hl.readyHead]
  refine ⟨?_, ?_, ?_, ?_⟩
  · intro x hx
    rcases List.append_eq_singleton_iff.1 hx with ⟨-, hp⟩ | ⟨-, hp⟩
    · cases hp
      rw [hnext _ (hd p (.inl hs.defunct)), hn.free p hs.defunct]
    · cases hp
  · intro j hj
    rw [hs.running] at hj
    rw [hnext _ (hd j (.inr hj)), hhead]
    rcases hn.running j hj with h1 | h1
    · exact .inl h1
    · rw [h1]
      cases s.readyHead <;> simp
  · intro j hj
    rw [hs.state] at hj
    split_ifs at hj
    rw [hnext _ (hd j (.inl hj)), hn.free j hj]
  · intro j
    rw [hs.state]
    split_ifs
    · decide
    · exact hn.awake j

/-- The links of a running process tell that it is not on the queue. -/
theorem NextOK.linksTell (hn : NextOK s q) (h : Queue s q) (hi : .pcbPool i ∉ q)
    (hr : s.running = .pcbPool i) : LinksTell s (.pcbPool i) :=
  ⟨fun ho => absurd (h.onQueue_iff.1 ho) hi, fun ho => absurd (h.onQueue_iff.1 ho) hi,
    fun _ => hn.running i hr⟩

theorem NextOK.exit (hn : NextOK s q) (h : DQueue s q) (hi : .pcbPool i ∉ q)
    (hr : s.running = .pcbPool i) : NextOK (terminate s) q := by
  unfold terminate
  rw [hr]
  have hs := releasePCB_released (.pcbPool i)
    (releaseMemorySegment ((s.pcb (.pcbPool i)).segment / 0x1000 - 2) s)
  obtain ⟨hh, hnext⟩ := releasePCB_next (p := .pcbPool i)
    (s := releaseMemorySegment ((s.pcb (.pcbPool i)).segment / 0x1000 - 2) s)
    (h.off i hi) (hn.running i hr)
  refine ⟨?_, ?_, ?_, ?_⟩
  · intro x hx
    have hxi : x ≠ .pcbPool i := fun he => hi (by simp [hx, he])
    rw [hnext x hxi]
    exact hn.single x hx
  · intro j hj
    rw [hs.running] at hj
    have hij : i = j := pcbPool_injective (hr.symm.trans hj)
    rw [← hij]
    exact .inl hs.next
  · intro j hj
    rw [hs.state] at hj
    split_ifs at hj with hji
    · rw [hji]; exact hs.next
    · rw [hnext _ hji]
      exact hn.free j hj
  · intro j
    rw [hs.state]
    split_ifs
    · decide
    · exact hn.awake j

/-! ## Runs -/

/-- The calls of a run of lifetimes: successful calls of `executeProgram`,
    exits, and the timer. -/
def LifetimeCall (m : Machine) : Call → Prop
  | .executeProgram name => m.halted = false ∧ startsIdle name = false ∧ Succeeds name m.kernel
  | .terminate => m.MayCall .terminate
  | .timer _ => True
  | _ => False

instance : ∀ (m : Machine) (c : Call), Decidable (LifetimeCall m c)
  | _, .executeProgram _ => inferInstanceAs (Decidable (_ ∧ _ ∧ _))
  | m, .terminate => inferInstanceAs (Decidable (m.MayCall .terminate))
  | _, .timer _ => inferInstanceAs (Decidable True)
  | _, .sleep _ _ | _, .kill _ | _, .yield => inferInstanceAs (Decidable False)

/-- What holds along a run of lifetimes. -/
structure Lifetimes (m : Machine) (a : RoundRobin (Fin 8)) : Prop where
  refines : Refines DQueue m a
  next : NextOK m.kernel.toProc (a.queue.map .pcbPool)

theorem Lifetimes.timer (h : Lifetimes m a) (sp : Int16) :
    ∃ m', m.step (.timer sp) = some m' ∧ Lifetimes m' (a.tick poolOrder) := by
  obtain ⟨m', hs, hR⟩ := h.refines.timer queueInv_dQueue sp
  obtain ⟨r, s', ht, rfl⟩ := Machine.step_timer hs
  refine ⟨_, hs, hR, ?_⟩
  have hL := h.refines.lineup_eq h.refines.requeued_nil
  have hnd := (h.refines.lineup_nodup queueInv_dQueue).map pcbPool_injective
  rw [woken_awake h.next.awake, List.append_nil] at hL
  rw [← hL] at hnd
  have hn := h.next.tick h.refines.queue.queue (fun x hx => ?_) (fun i hd => ?_) ht
  · rw [hL, ← List.map_tail] at hn
    exact hn
  · refine ⟨fun hq => (List.nodup_append.1 hnd).2.2 x hq x hx rfl, ?_⟩
    rintro rfl
    rw [h.refines.requeued_eq h.refines.requeued_nil] at hx
    simp at hx
  · exact h.refines.notMem_queue (.inl hd)

theorem Lifetimes.exit (h : Lifetimes m a) (hm : m.MayCall .terminate) :
    ∃ m', m.step .terminate = some m' ∧ Lifetimes m' { a with running := none } := by
  obtain ⟨i, hi⟩ := h.refines.running_eq hm.1 hm.2
  have hr := h.refines.running i hi
  have hiq := h.refines.notMem_queue (.inr hr)
  have hl := h.next.linksTell h.refines.queue.queue hiq hr
  refine ⟨_, rfl, ⟨h.refines.toModels.exit hi hl, fun _ hh => (by cases hh), fun _ => ⟨rfl, i, ?_, ?_⟩⟩,
    h.next.exit h.refines.queue hiq hr⟩
  · have hs := releasePCB_released m.kernel.running
      (releaseMemorySegment ((m.kernel.pcb m.kernel.running).segment / 0x1000 - 2) m.kernel.toProc)
    exact hs.running.trans hr
  · have hs := releasePCB_released m.kernel.running
      (releaseMemorySegment ((m.kernel.pcb m.kernel.running).segment / 0x1000 - 2) m.kernel.toProc)
    have := hs.state (.pcbPool i)
    rw [if_pos hr.symm] at this
    exact this

theorem LifetimeCall.step (h : Lifetimes m a) (hc : LifetimeCall m c) (hs : m.step c = some m') :
    Lifetimes m' (a.step poolOrder (event m c)) := by
  cases c with
  | executeProgram name =>
    have hR := h.refines.executeProgram queueInv_dQueue hc.1 hc.2.1 hc.2.2 hs
    obtain ⟨-, i, p, hst⟩ := hc.2.2.started hs
    have hf : (freePCB m.kernel.toProc).getD 0 = p := by rw [hst.free]; rfl
    refine ⟨hR, ?_⟩
    have := h.next.start h.refines.queue.queue hst fun j => h.refines.notMem_queue
    simpa [event, RoundRobin.step, hf] using this
  | terminate =>
    obtain ⟨m₁, h1, h2⟩ := h.exit hc
    rw [hs] at h1; cases h1
    exact h2
  | timer sp =>
    obtain ⟨m₁, h1, h2⟩ := h.timer sp
    rw [hs] at h1; cases h1
    exact h2
  | sleep => cases hc
  | kill => cases hc
  | yield => cases hc

theorem lifetimes_init (hk : NullLinks k.toProc) :
    Lifetimes (Machine.init k) ⟨[], none, fun _ => 0⟩ := by
  have hb := initializeProcStructures_booted k.toProc
  refine ⟨.init k (hb.dQueue hk), fun x hx => (by cases hx), ?_, ?_, ?_⟩
  · intro i hi
    have := hb.running.symm.trans hi
    cases this
  · intro i _
    exact (hb.next _).trans (hk _).1
  · intro i
    exact fun hs => by have := (hb.defunct i).symm.trans hs; cases this

/-- **The scheduler refines round robin over the lifetimes of processes**, and
    never follows a `NULL` pointer: the queue is spelled by the links, it holds
    the `READY` and `STARTING` processes and not the running one. -/
theorem lifetimes_refine (hk : NullLinks k.toProc)
    (h : Run Machine.step LifetimeCall (Machine.init k) es m) :
    Refines DQueue m (roundRobin (Machine.init k) es) ∧
    ((roundRobin (Machine.init k) es).queue = [] →
      m.kernel.readyHead = none ∧ m.kernel.readyTail = none) ∧
    (∀ i ∈ (roundRobin (Machine.init k) es).queue, m.kernel.running ≠ .pcbPool i) ∧
    (∀ sp, ∃ m', m.step (.timer sp) = some m') ∧
    (∀ name, Loads name m.kernel → ∃ m', m.step (.executeProgram name) = some m') := by
  have hL : Lifetimes m (roundRobin (Machine.init k) es) :=
    h.simulate (fun _ _ _ _ hR hc hs => LifetimeCall.step hR hc hs) (lifetimes_init hk)
  refine ⟨hL.refines, ?_, ?_, ?_, ?_⟩
  · intro hq
    have hQ := hL.refines.queue.queue
    rw [hq] at hQ
    exact ⟨hQ.head, hQ.tail⟩
  · intro i hi hr
    exact hL.refines.notMem_queue (.inr hr) (List.mem_map_of_mem hi)
  · intro sp
    obtain ⟨m', hm', -⟩ := hL.timer sp
    exact ⟨m', hm'⟩
  · intro name hl
    exact hL.refines.executeProgram_loads queueInv_dQueue hl

/-- Two processes start, the first one exits. -/
theorem lifetimes_refine_exit : ∃ m, m.halted = true ∧
    m.kernel.readyHead = some (.pcbPool 1) ∧ Refines DQueue m (roundRobin (Machine.init oneFileKernel)
      [.executeProgram nameA, .executeProgram nameA, .timer 7, .terminate]) := by
  have h : (evalRun Machine.step LifetimeCall (Machine.init oneFileKernel)
      [.executeProgram nameA, .executeProgram nameA, .timer 7, .terminate]).any
      (fun m => m.halted = true ∧ m.kernel.readyHead = some (.pcbPool 1)) = true := by decide +kernel
  obtain ⟨m, hr, hm⟩ := Run.exists_of_evalRun h
  simp only [decide_eq_true_eq] at hm
  exact ⟨m, hm.1, hm.2, (lifetimes_refine oneFileKernel_nullLinks hr).1⟩

end TeamXtremeOS
