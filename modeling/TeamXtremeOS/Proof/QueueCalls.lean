/-
  Any sequence of calls on the ready queue, with the links its PCBs happen to
  have.
-/
import TeamXtremeOS.Lib.Fifo
import TeamXtremeOS.Lib.Run
import TeamXtremeOS.Proof.Boot

namespace TeamXtremeOS

open Lib

variable {s s' : Proc} {p n : PCBRef} {q : List PCBRef} {A : PCBRef → Prop}

/-! ## Adding and removing -/

/-- `addToReady` and `removeFromReady` as a queue. -/
def readyFifo : FifoImpl Proc PCBRef where
  add := addToReady
  remove := removeFromReady
  mem := OnQueue

theorem readyFifo_holds : readyFifo.Holds Queue where
  mem h := h.onQueue_iff
  add h hp := h.add hp
  remove {s q} h := by
    cases q with
    | nil => exact ⟨s, removeFromReady_nil h, h⟩
    | cons a q => exact h.remove

/-- **The ready queue is first-in first-out**, whatever the links are in the
    beginning. -/
theorem ready_fifo (hh : s.readyHead = none) (ht : s.readyTail = none) {ops : List (FifoOp PCBRef)}
    (hf : readyFifo.Fresh ops s) :
    ∃ s', readyFifo.run ops s = some ((fifo ops []).1, s') ∧ Queue s' (fifo ops []).2 :=
  readyFifo_holds.run_eq ⟨hh, ht, .nil, List.nodup_nil⟩ hf

/-- Links that lead in a circle. -/
def circleLinks (i j : Fin 8) : Proc where
  running := .idleProc
  readyHead := none
  readyTail := none
  pcb _ := { name := fun _ => 0, state := .DEFUNCT, segment := 0, stackPointer := 0,
             sleepCounter := 0, next := some (.pcbPool i), prev := some (.pcbPool j) }
  memoryMap _ := 0

theorem ready_fifo_circle : ∃ s', readyFifo.run [.add (.pcbPool 0), .add (.pcbPool 1), .remove,
    .add (.pcbPool 0), .remove, .remove, .remove] (circleLinks 0 1) =
      some ([some (.pcbPool 0), some (.pcbPool 1), some (.pcbPool 0), none], s') ∧ Queue s' [] :=
  ready_fifo rfl rfl ((readyFifo_holds.fresh_iff ⟨rfl, rfl, .nil, List.nodup_nil⟩).2 (by decide))

/-! ## Releasing -/

/-- A call on the queue. -/
inductive QueueCall where
  | addToReady (pcb : PCBRef)
  | removeFromReady
  | releasePCB (pcb : PCBRef)

namespace QueueCall

def step (s : Proc) : QueueCall → Option Proc
  | .addToReady p => TeamXtremeOS.addToReady p s
  | .removeFromReady => (TeamXtremeOS.removeFromReady s).map Prod.snd
  | .releasePCB p => some (TeamXtremeOS.releasePCB p s)

/-- A PCB that is added is not on the queue. -/
def Fresh (s : Proc) : QueueCall → Prop
  | .addToReady p => ¬ OnQueue s p
  | .removeFromReady => True
  | .releasePCB _ => True

/-- And the links of one that is released tell where it is. -/
def Told (s : Proc) : QueueCall → Prop
  | .addToReady p => ¬ OnQueue s p
  | .removeFromReady => True
  | .releasePCB p => LinksTell s p

theorem step_linked {c : QueueCall} (h : LinkedQueue A s q) (hA : ∀ p, A p) (hc : Told s c)
    (hs : step s c = some s') : ∃ q', LinkedQueue A s' q' := by
  cases c with
  | addToReady p => exact ⟨_, h.add (hA p) (fun hp => hc (h.queue.onQueue_iff.2 hp)) hs⟩
  | removeFromReady =>
    obtain ⟨⟨r, s₁⟩, h1, rfl⟩ := Option.map_eq_some_iff.1 hs
    cases q with
    | nil =>
      rw [removeFromReady_nil h.queue] at h1
      cases h1
      exact ⟨_, h⟩
    | cons a q =>
      have hr : r = some a := (removeFromReady_frame h1).2.trans h.queue.head
      exact ⟨q, h.remove (hr ▸ h1)⟩
  | releasePCB p =>
    cases hs
    exact ⟨_, h.release (hA p) hc⟩

end QueueCall

theorem releasePCB_head (hp : (s.pcb p).prev = none) (hn : (s.pcb p).next = some n) :
    (releasePCB p s).readyHead = some n := by
  have hs := retire_links p s
  rw [releasePCB_eq]
  unfold unlinkPCB
  rw [hs.prev, hs.next, hp, hn]
  rfl

theorem releasePCB_null (hp : (s.pcb p).prev = none) (hn : (s.pcb p).next = none) :
    (releasePCB p s).readyHead = s.readyHead := by
  have hs := retire_links p s
  rw [releasePCB_eq]
  unfold unlinkPCB
  rw [hs.prev, hs.next, hp, hn]
  rfl

theorem releasePCB_tail (hn : (s.pcb p).next = some n) : (releasePCB p s).readyTail = s.readyTail := by
  have hs := retire_links p s
  rw [releasePCB_eq]
  unfold unlinkPCB
  rw [hs.prev, hs.next, hn]
  rcases (s.pcb p).prev <;> rfl

/-- A PCB that is alone on the queue is never removed. -/
theorem LinkedQueue.not_release_single (h : LinkedQueue A s [p]) : ¬ Queue (releasePCB p s) [] := by
  intro hq
  have hh : (releasePCB p s).readyHead = none := hq.head
  have hp : (s.pcb p).prev = none := h.back.head p rfl
  rcases hn : (s.pcb p).next with _ | n
  · rw [releasePCB_null hp hn, h.queue.head] at hh
    cases hh
  · rw [releasePCB_head hp hn] at hh
    cases hh

/-- The links of a PCB tell where it is if `releasePCB` removes exactly it. -/
theorem LinkedQueue.linksTell_of_release (h : LinkedQueue A s q) (hA : A p)
    (hq : Queue (releasePCB p s) (q.erase p)) : LinksTell s p := by
  have hne : ∀ r, q = r ++ [p] → r ≠ [] := by
    rintro r rfl rfl
    rw [List.nil_append, List.erase_cons_head] at hq
    exact h.not_release_single hq
  refine ⟨?_, ?_, ?_⟩
  · intro ho he
    -- head and tail are the same: nothing else is on the queue
    have hp := h.queue.onQueue_iff.1 ho
    have hnd := h.queue.nodup
    rw [h.queue.head, h.queue.tail] at he
    cases q with
    | nil => cases hp
    | cons a q =>
      rcases List.eq_nil_or_concat q with rfl | ⟨r, b, rfl⟩
      · rw [List.mem_singleton.1 hp] at hne
        exact hne [] rfl rfl
      · rw [List.concat_eq_append] at he hnd
        rw [← List.cons_append, List.getLast?_append] at he
        simp only [List.cons_append, List.head?_cons, List.getLast?_singleton, Option.some_or,
          Option.some.injEq] at he
        exact (List.nodup_cons.1 hnd).1 (by simp [he])
  · intro ho hl
    rcases hn : (s.pcb p).next with _ | n
    · rfl
    · rw [h.queue.tail] at hl
      obtain ⟨r, rfl⟩ := List.getLast?_eq_some_iff.1 hl
      have hr := hne r rfl
      have hnd := List.nodup_append.1 h.queue.nodup
      have hpr : p ∉ r := fun hm => hnd.2.2 p hm p (by simp) rfl
      rw [List.erase_append_right _ hpr, List.erase_cons_head, List.append_nil] at hq
      have ht := hq.tail
      rw [releasePCB_tail hn, h.queue.tail, List.getLast?_append, List.getLast?_singleton,
        Option.some_or] at ht
      exact absurd (List.mem_of_mem_getLast? ht.symm) hpr
  · intro ho
    have hp : p ∉ q := fun hp => ho (h.queue.onQueue_iff.2 hp)
    rw [List.erase_of_not_mem hp] at hq
    rcases hn : (s.pcb p).next with _ | n
    · exact .inl rfl
    · refine .inr ?_
      rw [← releasePCB_head (h.off p hA hp) hn, hq.head, h.queue.head]

/-- **`releasePCB` removes exactly the given PCB** if and only if its links tell
    where it is, in every state that calls of this kind lead to. -/
theorem release_exact (hl : NullLinks s) (hh : s.readyHead = none) (ht : s.readyTail = none)
    {cs : List QueueCall} (hr : Run QueueCall.step QueueCall.Told s cs s') :
    ∃ q, Queue s' q ∧ ∀ i, Queue (releasePCB (.pcbPool i) s') (q.erase (.pcbPool i)) ↔
      LinksTell s' (.pcbPool i) := by
  have h0 : LinkedQueue (fun _ => True) s [] :=
    ⟨⟨hh, ht, .nil, List.nodup_nil⟩, ⟨fun x hx => by simp at hx, .nil⟩, fun x _ _ => (hl x).2⟩
  obtain ⟨q, h⟩ : ∃ q, LinkedQueue (fun _ => True) s' q := by
    refine hr.invariant (I := fun s => ∃ q, LinkedQueue (fun _ => True) s q) ?_ ⟨[], h0⟩
    rintro s c s' ⟨q, h⟩ hc hs
    exact QueueCall.step_linked h (fun _ => trivial) hc hs
  exact ⟨q, h.queue, fun i => ⟨h.linksTell_of_release trivial, fun hl => (h.release trivial hl).queue⟩⟩

/-- No links and no queue. -/
def nullLinks : Proc := oneFileKernel.toProc

theorem nullLinks_null : NullLinks nullLinks := oneFileKernel_nullLinks

theorem nullLinks_queue : Queue nullLinks [] := ⟨rfl, rfl, .nil, List.nodup_nil⟩

/-- The head of two PCBs is released. -/
theorem release_exact_two : ∃ s' q, Run QueueCall.step QueueCall.Told nullLinks
    [.addToReady (.pcbPool 0), .addToReady (.pcbPool 1), .releasePCB (.pcbPool 0)] s' ∧ Queue s' q ∧
    ∀ i, Queue (releasePCB (.pcbPool i) s') (q.erase (.pcbPool i)) ↔ LinksTell s' (.pcbPool i) := by
  obtain ⟨s₁, h1, hq1⟩ := nullLinks_queue.add (p := .pcbPool 0) (by simp)
  obtain ⟨s₂, h2, hq2⟩ := hq1.add (p := .pcbPool 1) (by decide)
  have hr : Run QueueCall.step QueueCall.Told nullLinks
      [.addToReady (.pcbPool 0), .addToReady (.pcbPool 1), .releasePCB (.pcbPool 0)]
      (releasePCB (.pcbPool 0) s₂) :=
    .cons (fun ho => by have := nullLinks_queue.onQueue_iff.1 ho; cases this) h1 <|
      .cons (fun ho => by have := hq1.onQueue_iff.1 ho; revert this; decide) h2 <|
      .cons (linksTell_head hq2.head (by rw [hq2.tail]; decide)) rfl .nil
  obtain ⟨q, hq, hi⟩ := release_exact nullLinks_null rfl rfl hr
  exact ⟨_, q, hr, hq, hi⟩

/-- **A PCB that is alone on the queue stays there** when it is released. -/
theorem release_single : NullLinks nullLinks ∧ nullLinks.readyHead = none ∧ nullLinks.readyTail = none ∧
    ∃ s', Run QueueCall.step QueueCall.Fresh nullLinks [.addToReady (.pcbPool 0)] s' ∧
      Queue s' [.pcbPool 0] ∧ ¬ Queue (releasePCB (.pcbPool 0) s') [] ∧
      Queue (releasePCB (.pcbPool 0) s') [.pcbPool 0] := by
  obtain ⟨s₁, h1, hq1⟩ := nullLinks_queue.add (p := .pcbPool 0) (by simp)
  have hs₁ := (addToReady_nil nullLinks_queue (.pcbPool 0)).symm.trans h1
  cases hs₁
  refine ⟨nullLinks_null, rfl, rfl, _, .single ?_ h1, hq1, ?_, ?_⟩
  · intro ho
    have := nullLinks_queue.onQueue_iff.1 ho
    cases this
  · intro hq
    have hh := hq.head
    cases hh
  · exact ⟨rfl, rfl, .singleton _, List.nodup_singleton _⟩

end TeamXtremeOS
