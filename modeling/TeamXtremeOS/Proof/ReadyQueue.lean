/-
  The ready queue along a run: which processes are on it, and what the calls of
  the kernel do to it.
-/
import TeamXtremeOS.Proof.Boot

namespace TeamXtremeOS

open Lib

variable {s s' : Proc} {i j p : Fin 8} {q : List PCBRef} {name : FileName} {seconds : Int16}
  {x : PCBRef} {P : Proc → List PCBRef → Prop}

theorem exists_pool (h : x ≠ .idleProc) : ∃ i, x = .pcbPool i := by
  cases x with
  | idleProc => exact absurd rfl h
  | pcbPool i => exact ⟨i, rfl⟩

theorem pcbPool_injective : Function.Injective PCBRef.pcbPool := fun _ _ h => PCBRef.pcbPool.inj h

/-- The ready queue is `q`, of processes that wait for the processor; `P` is
    what is known about the links. -/
structure ReadyQueue (P : Proc → List PCBRef → Prop) (s : Proc) (q : List PCBRef) : Prop where
  queue : P s q
  ready : ∀ x ∈ q, x ≠ .idleProc ∧ ((s.pcb x).state = .READY ∨ (s.pcb x).state = .STARTING)
  notRunning : s.running ∉ q
  idleName : (s.pcb .idleProc).namedIdle = true

namespace ReadyQueue

theorem notMem (h : ReadyQueue P s q) (hx : (s.pcb x).state ≠ .READY ∧ (s.pcb x).state ≠ .STARTING) :
    x ∉ q := fun hm => (h.ready x hm).2.elim hx.1 hx.2

theorem notOnQueue (hP : QueueInv P) (h : ReadyQueue P s q)
    (hx : (s.pcb x).state ≠ .READY ∧ (s.pcb x).state ≠ .STARTING) : ¬ OnQueue s x :=
  fun ho => h.notMem hx ((hP.queue h.queue).onQueue_iff.1 ho)

end ReadyQueue

theorem Booted.readyQueue (h : Booted s s') (hq : P s' []) : ReadyQueue P s' [] :=
  ⟨hq, fun x hx => (by cases hx), fun hx => (by cases hx), h.idleName⟩

namespace ReadyQueue

theorem congr (hP : QueueInv P) (h : ReadyQueue P s q) (hl : SameLinks s s')
    (hr : s'.running = s.running) (hst : ∀ x ∈ q, (s'.pcb x).state = (s.pcb x).state)
    (hn : (s'.pcb .idleProc).name = (s.pcb .idleProc).name) : ReadyQueue P s' q :=
  ⟨hP.congr h.queue hl, fun x hx => by rw [hst x hx]; exact h.ready x hx, hr ▸ h.notRunning,
    by rw [PCB.namedIdle, hn]; exact h.idleName⟩

theorem add (hP : QueueInv P) (h : ReadyQueue P s q) (hi : .pcbPool i ∉ q)
    (hst : (s.pcb (.pcbPool i)).state = .STARTING) (hr : s.running ≠ .pcbPool i)
    (hs : addToReady (.pcbPool i) s = some s') : ReadyQueue P s' (q ++ [.pcbPool i]) := by
  have hf := addToReady_frame hs
  refine ⟨hP.add h.queue hi hs, ?_, ?_, ?_⟩
  · intro x hx
    rw [hf.state]
    rcases List.mem_append.1 hx with hx | hx
    · exact h.ready x hx
    · rw [List.mem_singleton.1 hx]
      exact ⟨by simp, .inr hst⟩
  · rw [hf.running, List.mem_append, List.mem_singleton]
    exact fun hm => hm.elim h.notRunning hr
  · rw [PCB.namedIdle, hf.name]
    exact h.idleName

/-! ## `executeProgram` -/

theorem refused (hP : QueueInv P) (h : ReadyQueue P s q) (hr : Refused s s') :
    ReadyQueue P s' q := by
  rw [hr.eq]
  exact h.congr hP ⟨rfl, rfl, fun _ => rfl, fun _ => rfl⟩ rfl (fun _ _ => rfl) rfl

theorem started (hP : QueueInv P) (h : ReadyQueue P s q) (hs : Started name i p s s')
    (hp : s.running ≠ .pcbPool p) : ReadyQueue P s' (q ++ [.pcbPool p]) := by
  have hd := hs.defunct
  refine ⟨hs.queue hP h.queue (h.notMem (by rw [hd]; decide)), ?_, ?_, ?_⟩
  · intro x hx
    rw [hs.state]
    rcases List.mem_append.1 hx with hx | hx
    · refine ⟨(h.ready x hx).1, ?_⟩
      split_ifs
      · exact .inr rfl
      · exact (h.ready x hx).2
    · rw [List.mem_singleton] at hx
      exact ⟨by simp [hx], .inr (by rw [if_pos hx])⟩
  · rw [hs.running, List.mem_append, List.mem_singleton]
    exact fun hm => hm.elim h.notRunning hp
  · rw [PCB.namedIdle, hs.name _ (by simp)]
    exact h.idleName

/-! ## Releasing -/

/-- Releasing a PCB whose links tell where it is. -/
theorem release (h : ReadyQueue DQueue s q) (hl : LinksTell s (.pcbPool i)) (idx : Int16) :
    ReadyQueue DQueue (releasePCB (.pcbPool i) (releaseMemorySegment idx s)) (q.erase (.pcbPool i)) := by
  have hm := sameLinks_releaseMemorySegment idx s
  have hr := releasePCB_released (.pcbPool i) (releaseMemorySegment idx s)
  have hnd := h.queue.queue.nodup
  refine ⟨(queueInv_dQueue.congr h.queue hm).release (hl.sameLinks hm), ?_, ?_, ?_⟩
  · intro x hx
    rw [hnd.mem_erase_iff] at hx
    rw [hr.state, if_neg hx.1]
    exact h.ready x hx.2
  · rw [hr.running, hnd.mem_erase_iff]
    exact fun hx => h.notRunning hx.2
  · rw [PCB.namedIdle, hr.name _ (by simp)]
    exact h.idleName

/-! ## The timer -/

theorem lieDown (hP : QueueInv P) (h : ReadyQueue P s q) (hr : s.running ≠ .idleProc) :
    ReadyQueue P (lieDown seconds s) q := by
  refine h.congr hP (sameLinks_lieDown seconds s) rfl ?_ ?_
  · intro x hx
    have hx' : x ≠ s.running := fun he => h.notRunning (he ▸ hx)
    rw [lieDown_pcb, if_neg hx']
  · rw [lieDown_pcb, if_neg hr.symm]

theorem of_requeued (h : ReadyQueue P s q) (hx : x ∈ requeued s) : x ∉ q ∧ x ≠ .idleProc := by
  obtain ⟨⟨-, h2, -⟩, rfl⟩ := mem_requeued.1 hx
  refine ⟨h.notRunning, ?_⟩
  intro hi
  rw [hi, h.idleName] at h2
  cases h2

theorem notMem_woken (h : ReadyQueue P s q) (hx : x ∈ woken s) : x ∉ q :=
  h.notMem (by rw [sleeping_of_mem_woken hx]; decide)

theorem lineup_nodup (hP : QueueInv P) (h : ReadyQueue P s q) (hr : s.running ∉ woken s) :
    (q ++ woken s ++ requeued s).Nodup := by
  have hw : (woken s).Nodup := ((List.nodup_finRange 8).filter _).map pcbPool_injective
  have hq : (requeued s).Nodup := by unfold requeued; split_ifs <;> simp
  refine List.nodup_append.2 ⟨List.nodup_append.2 ⟨(hP.queue h.queue).nodup, hw, ?_⟩, hq, ?_⟩
  · rintro x hx y hy rfl
    exact h.notMem_woken hy hx
  · rintro x hx y hy rfl
    rcases List.mem_append.1 hx with hx | hx
    · exact (h.of_requeued hy).1 hx
    · rw [(mem_requeued.1 hy).2] at hx
      exact hr hx

/-- **A tick** does not fail; it puts the sleepers that wake and the running
    process on the queue, and dispatches the first of it. -/
theorem tick (hP : QueueInv P) (h : ReadyQueue P s q) (hr : s.running ∉ woken s) (seg sp : Int16) :
    ∃ r s', handleTimerInterrupt seg sp s = some (r, s') ∧ Ticked sp s s' ∧
      ReadyQueue P s' (q ++ woken s ++ requeued s).tail := by
  have hnd := h.lineup_nodup hP hr
  obtain ⟨r, s', hs, hq⟩ := tick_queue hP h.queue (fun x hx => h.notMem_woken hx)
    (fun x hx => ⟨fun hm => (List.nodup_append.1 hnd).2.2 x hm x hx rfl, (h.of_requeued hx).2⟩) seg sp
  have ht := (handleTimerInterrupt_ticked hs).2
  have hd := (hP.queue h.queue).dispatched_eq
  refine ⟨r, s', hs, ht, hq, fun x hx => ⟨?_, ?_⟩, ?_, ?_⟩
  · rintro rfl
    rcases List.mem_append.1 (List.mem_of_mem_tail hx) with hm | hm
    · rcases List.mem_append.1 hm with hm | hm
      · exact (h.ready _ hm).1 rfl
      · exact idleProc_notMem_woken hm
    · exact (h.of_requeued hm).2 rfl
  · have hne : dispatched s ≠ some x := fun he => by
      rw [hd] at he
      cases hQ : q ++ woken s ++ requeued s with
      | nil => rw [hQ] at he; cases he
      | cons b l =>
        rw [hQ] at he hx hnd
        cases he
        exact (List.nodup_cons.1 hnd).1 hx
    rw [ht.state, if_neg hne]
    split_ifs with hm
    · exact .inl rfl
    · rw [List.mem_append, not_or] at hm
      rcases List.mem_append.1 (List.mem_of_mem_tail hx) with hm' | hm'
      · exact (h.ready x ((List.mem_append.1 hm').resolve_right hm.1)).2
      · exact absurd hm' hm.2
  · rw [ht.running, hd]
    cases hQ : q ++ woken s ++ requeued s with
    | nil => simp
    | cons b l => rw [hQ] at hnd; exact (List.nodup_cons.1 hnd).1
  · rw [PCB.namedIdle, ht.name]
    exact h.idleName

end ReadyQueue

end TeamXtremeOS
