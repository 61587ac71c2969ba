/-
  Releasing a PCB: `releasePCB` removes it from the queue when its own links
  tell where it is.
-/
import TeamXtremeOS.Proof.Queue

namespace TeamXtremeOS

open Lib

variable {s s' : Proc} {p a b : PCBRef} {q u v : List PCBRef} {i : Fin 8} {A : PCBRef → Prop}

theorem unlinkPCB_frame (p : PCBRef) (s : Proc) : Frame s (unlinkPCB p s) := by
  unfold unlinkPCB
  split
  · exact (frame_setPrev s _ _).ends _ _
  · exact (frame_setPrev s _ _).trans (frame_setNext _ _ _)
  · exact (frame_setNext s _ _).ends _ _
  · exact .refl s

/-- The links of `p` tell where it is: if it is on the queue it is not alone
    there, and has no `next` if it is the last; if it is not on the queue, its
    `next` is the head or missing. -/
structure LinksTell (s : Proc) (p : PCBRef) : Prop where
  alone : OnQueue s p → s.readyHead ≠ s.readyTail
  last : OnQueue s p → s.readyTail = some p → (s.pcb p).next = none
  absent : ¬ OnQueue s p → (s.pcb p).next = none ∨ (s.pcb p).next = s.readyHead

/-- The queue after the neighbours of `p` have been relinked, `p` itself
    having lost its links. -/
structure Unlinked (s s' : Proc) (p : PCBRef) (q : List PCBRef) : Prop where
  spells : Spells (fun x => if x = p then none else (s'.pcb x).next) s'.readyHead s'.readyTail q
  back : Backed (fun x => if x = p then none else (s'.pcb x).prev) q
  off : ∀ x, x ∉ q → x ≠ p → (s'.pcb x).prev = (s.pcb x).prev

/-- The links of the head of a longer queue tell where it is. -/
theorem linksTell_head (hh : s.readyHead = some p) (ht : s.readyTail ≠ some p) : LinksTell s p :=
  ⟨fun _ he => ht (he ▸ hh), fun _ hl => absurd hl ht, fun ho => absurd (.head hh) ho⟩

theorem unlinkPCB_absent (h : LinkedQueue A s q) (hA : A p) (hp : p ∉ q) (hl : LinksTell s p) :
    Unlinked s (unlinkPCB p s) p q := by
  have hne : ∀ x ∈ q, x ≠ p := fun x hx he => hp (he ▸ hx)
  have hprev := h.off p hA hp
  have hsame : Unlinked s s p q :=
    ⟨h.queue.congr fun x hx => if_neg (hne x hx), h.back.congr fun x hx => if_neg (hne x hx),
      fun _ _ _ => rfl⟩
  unfold unlinkPCB
  rw [hprev]
  rcases hn : (s.pcb p).next with _ | n
  · exact hsame
  · -- the link is the head of the queue, which has no `prev` anyway
    have hh : s.readyHead = some n := by
      rcases hl.absent fun ho => hp (h.queue.onQueue_iff.1 ho) with he | he
      · rw [hn] at he; cases he
      · rw [← he, hn]
    have hpn : (s.pcb n).prev = none := h.back.head n (h.queue.head ▸ hh)
    have hsp : ∀ x, ((s.setPrev n none).pcb x).prev = (s.pcb x).prev := fun x => by
      simp only [Proc.setPrev_prev]
      split_ifs with hx
      · rw [hx, hpn]
      · rfl
    refine ⟨?_, ?_, fun x _ _ => hsp x⟩
    · have := hsame.spells
      simpa [hh] using this
    · exact hsame.back.congr fun x _ => by simp only [hsp]

theorem unlinkPCB_head (h : LinkedQueue A s (p :: b :: v)) : Unlinked s (unlinkPCB p s) p (b :: v) := by
  have hnd := List.nodup_cons.1 h.queue.nodup
  have hne : ∀ x ∈ b :: v, x ≠ p := fun x hx he => hnd.1 (he ▸ hx)
  have hv : ∀ x ∈ v, x ≠ b := fun x hx he => (List.nodup_cons.1 hnd.2).1 (he ▸ hx)
  have hprev : (s.pcb p).prev = none := h.back.head p rfl
  have hn : (s.pcb p).next = some b := Spells.next_eq (u := []) h.queue
  unfold unlinkPCB
  rw [hprev, hn]
  refine ⟨?_, ?_, ?_⟩
  · exact Spells.congr (Spells.pop h.queue) fun x hx => by simp [hne x hx]
  · refine Backed.pop h.back ?_ ?_
    · simp
    · intro x hx
      simp [hv x hx, hne x (by simp [hx])]
  · intro x hx _
    have : x ≠ b := fun he => hx (by simp [he])
    simp [this]

theorem unlinkPCB_last (h : LinkedQueue A s (u ++ [a, p])) (hn : (s.pcb p).next = none) :
    Unlinked s (unlinkPCB p s) p (u ++ [a]) := by
  have hnd := List.nodup_append.1 h.queue.nodup
  have hne : ∀ x ∈ u ++ [a], x ≠ p := by
    intro x hx he
    subst he
    rcases List.mem_append.1 hx with hx | hx
    · exact hnd.2.2 x hx x (by simp) rfl
    · exact (List.nodup_cons.1 hnd.2.1).1 (by simp [List.mem_singleton.1 hx])
  have hu : ∀ x ∈ u, x ≠ a := fun x hx => hnd.2.2 x hx a (by simp)
  have hprev : (s.pcb p).prev = some a := Backed.prev_eq h.back
  unfold unlinkPCB
  rw [hprev, hn]
  refine ⟨?_, ?_, fun x _ _ => by simp⟩
  · exact Spells.unlink_last h.queue fun x hx => by simp [hne x (by simp [hx]), hu x hx]
  · exact Backed.unlink_last h.back fun x hx => by
      simp only [Proc.setNext_prev]; exact if_neg (hne x hx)

theorem unlinkPCB_middle (h : LinkedQueue A s (u ++ a :: p :: b :: v)) :
    Unlinked s (unlinkPCB p s) p (u ++ a :: b :: v) := by
  have hq : Queue s ((u ++ [a]) ++ p :: b :: v) := by simpa using h.queue
  have hne : ∀ x ∈ u ++ a :: b :: v, x ≠ p := fun x hx he =>
    (List.nodup_cons.1 (List.nodup_middle.1 hq.nodup)).1 (by simpa [he] using hx)
  have hnd := List.nodup_append.1 h.queue.nodup
  have hu : ∀ x ∈ u ++ b :: v, x ≠ a := by
    intro x hx he
    subst he
    rcases List.mem_append.1 hx with hx | hx
    · exact hnd.2.2 x hx x (by simp) rfl
    · exact (List.nodup_cons.1 hnd.2.1).1 (List.mem_cons_of_mem _ hx)
  have hb : ∀ x ∈ u ++ a :: v, x ≠ b := by
    intro x hx he
    subst he
    have hbv := List.nodup_cons.1 (List.nodup_cons.1 (List.nodup_cons.1 hnd.2.1).2).2
    rcases List.mem_append.1 hx with hx | hx
    · exact hnd.2.2 x hx x (by simp) rfl
    · rcases List.mem_cons.1 hx with rfl | hx
      · exact (List.nodup_cons.1 hnd.2.1).1 (by simp)
      · exact hbv.1 hx
  have hprev : (s.pcb p).prev = some a := Backed.prev_eq h.back
  have hn : (s.pcb p).next = some b := Spells.next_eq hq
  unfold unlinkPCB
  rw [hprev, hn]
  refine ⟨?_, ?_, ?_⟩
  · refine Spells.unlink h.queue ?_ ?_
    · simp [hne a (by simp)]
    · intro x hx
      have hx' : x ≠ p := hne x (by
        rcases List.mem_append.1 hx with hx | hx
        · simp [hx]
        · exact List.mem_append_right _ (List.mem_cons_of_mem _ hx))
      simp [hx', hu x hx]
  · refine Backed.unlink h.back ?_ ?_
    · simp [hne b (by simp)]
    · intro x hx
      have hx' : x ≠ p := hne x (by
        rcases List.mem_append.1 hx with hx | hx
        · simp [hx]
        · rcases List.mem_cons.1 hx with rfl | hx
          · simp
          · simp [hx])
      simp [hx', hb x hx]
  · intro x hx _
    have : x ≠ b := fun he => hx (by simp [he])
    simp [this]

/-- The four cases of `unlinkPCB` are the positions in the queue; a block alone
    there is the case that its links do not tell. -/
theorem unlinkPCB_mem (h : LinkedQueue A s (u ++ p :: v)) (hl : LinksTell s p) :
    Unlinked s (unlinkPCB p s) p (u ++ v) := by
  have ho : OnQueue s p := h.queue.onQueue_iff.2 (by simp)
  rcases List.eq_nil_or_concat u with rfl | ⟨u, a, rfl⟩
  · cases v with
    | nil => exact absurd (h.queue.head.trans h.queue.tail.symm) (hl.alone ho)
    | cons b v => exact unlinkPCB_head h
  · rw [List.concat_eq_append, List.append_assoc, List.singleton_append] at h ⊢
    cases v with
    | nil =>
      have ht : s.readyTail = some p := by rw [h.queue.tail]; simp
      exact unlinkPCB_last h (hl.last ho ht)
    | cons b v => exact unlinkPCB_middle h

/-- **Unlinking removes exactly the given PCB**, when its links tell where it is. -/
theorem unlinkPCB_spec (h : LinkedQueue A s q) (hA : A p) (hl : LinksTell s p) :
    Unlinked s (unlinkPCB p s) p (q.erase p) := by
  by_cases hp : p ∈ q
  · obtain ⟨u, v, rfl⟩ := List.append_of_mem hp
    have hu : p ∉ u := fun hm => (List.nodup_append.1 h.queue.nodup).2.2 _ hm p (by simp) rfl
    rw [List.erase_append_right _ hu, List.erase_cons_head]
    exact unlinkPCB_mem h hl
  · rw [List.erase_of_not_mem hp]
    exact unlinkPCB_absent h hA hp hl

/-- What `releasePCB` does besides relinking the neighbours of `p`. -/
structure Released (s s' : Proc) (p : PCBRef) : Prop where
  running : s'.running = s.running
  memoryMap : s'.memoryMap = s.memoryMap
  state : ∀ x, (s'.pcb x).state = if x = p then .DEFUNCT else (s.pcb x).state
  name : ∀ x, x ≠ p → (s'.pcb x).name = (s.pcb x).name
  unnamed : (s'.pcb p).name 0 = 0
  segment : ∀ x, (s'.pcb x).segment = (s.pcb x).segment
  stackPointer : ∀ x, (s'.pcb x).stackPointer = (s.pcb x).stackPointer
  sleepCounter : ∀ x, (s'.pcb x).sleepCounter = (s.pcb x).sleepCounter
  next : (s'.pcb p).next = none
  prev : (s'.pcb p).prev = none

theorem releasePCB_eq (p : PCBRef) (s : Proc) :
    releasePCB p s = ((unlinkPCB p (retire p s)).setNext p none).setPrev p none := rfl

/-- What `retire` does to the PCBs. -/
theorem retire_pcb (p x : PCBRef) (s : Proc) : (retire p s).pcb x =
    { s.pcb x with
      state := if x = p then .DEFUNCT else (s.pcb x).state
      name := if x = p then Function.update (s.pcb x).name 0 0 else (s.pcb x).name } := by
  rw [retire, Proc.put_pcb]
  split_ifs with h
  · rw [h]
  · rfl

theorem retire_links (p : PCBRef) (s : Proc) : SameLinks s (retire p s) :=
  ⟨rfl, rfl, fun x => by rw [retire_pcb], fun x => by rw [retire_pcb]⟩

theorem releasePCB_released (p : PCBRef) (s : Proc) : Released s (releasePCB p s) p := by
  rw [releasePCB_eq]
  have hf := ((unlinkPCB_frame p (retire p s)).trans (frame_setNext _ p none)).trans
    (frame_setPrev _ p none)
  refine ⟨hf.running, hf.memoryMap, ?_, ?_, ?_, ?_, ?_, ?_, by simp, by simp⟩
  · intro x
    rw [hf.state, retire_pcb]
  · intro x hx
    rw [hf.name, retire_pcb]
    exact if_neg hx
  · rw [hf.name, retire_pcb]
    simp
  · intro x
    rw [hf.segment, retire_pcb]
  · intro x
    rw [hf.stackPointer, retire_pcb]
  · intro x
    rw [hf.sleepCounter, retire_pcb]

theorem LinksTell.sameLinks (h : LinksTell s p) (hl : SameLinks s s') : LinksTell s' p := by
  have hn : (fun x => (s'.pcb x).next) = fun x => (s.pcb x).next := funext hl.next
  have ho : OnQueue s' p ↔ OnQueue s p := by
    unfold OnQueue
    rw [hn, hl.readyHead, hl.readyTail]
  exact ⟨fun hq => by rw [hl.readyHead, hl.readyTail]; exact h.alone (ho.1 hq),
    fun hq ht => by rw [hl.next]; exact h.last (ho.1 hq) (hl.readyTail ▸ ht),
    fun hq => by rw [hl.next, hl.readyHead]; exact h.absent fun hq' => hq (ho.2 hq')⟩

/-- **Releasing a PCB removes exactly it from the queue**, when its links tell
    where it is. -/
theorem LinkedQueue.release (h : LinkedQueue A s q) (hA : A p) (hl : LinksTell s p) :
    LinkedQueue A (releasePCB p s) (q.erase p) := by
  have hs := retire_links p s
  have hu := unlinkPCB_spec (h.sameLinks hs) hA (hl.sameLinks hs)
  rw [releasePCB_eq]
  refine ⟨?_, ?_, ?_⟩
  · simpa [Queue] using hu.spells
  · simpa using hu.back
  · intro x hx hxq
    simp only [Proc.setPrev_prev, Proc.setNext_prev]
    split_ifs with hxp
    · rfl
    · rw [hu.off _ hxq hxp, hs.prev]
      exact h.off x hx fun hm => hxq ((List.mem_erase_of_ne hxp).2 hm)

theorem DQueue.release (h : DQueue s q) (hl : LinksTell s (.pcbPool i)) :
    DQueue (releasePCB (.pcbPool i) s) (q.erase (.pcbPool i)) :=
  dQueue_iff.2 ((dQueue_iff.1 h).release ⟨i, rfl⟩ hl)

/-- A PCB without `prev` whose `next` is missing or is the head leaves the
    other links alone. -/
theorem releasePCB_next (hp : (s.pcb p).prev = none)
    (hn : (s.pcb p).next = none ∨ (s.pcb p).next = s.readyHead) :
    (releasePCB p s).readyHead = s.readyHead ∧
      ∀ x, x ≠ p → ((releasePCB p s).pcb x).next = (s.pcb x).next := by
  have hs := retire_links p s
  rw [releasePCB_eq]
  unfold unlinkPCB
  rw [hs.prev, hs.next, hp]
  rcases h : (s.pcb p).next with _ | n
  · exact ⟨hs.readyHead, fun x hx => by simp [hx, hs.next]⟩
  · rw [h] at hn
    refine ⟨by simpa using hn, fun x hx => by simp [hx, hs.next]⟩

theorem sameLinks_releaseMemorySegment (seg : Int16) (s : Proc) :
    SameLinks s (releaseMemorySegment seg s) := ⟨rfl, rfl, fun _ => rfl, fun _ => rfl⟩

end TeamXtremeOS
