/-
  The ready queue: what `addToReady` and `removeFromReady` do to the links, and
  the queue they spell.
-/
import TeamXtremeOS.Lib.Linked
import TeamXtremeOS.Proc

namespace TeamXtremeOS

open Lib

variable {s s' : Proc} {p a b x : PCBRef} {q u v : List PCBRef} {A : PCBRef → Prop}

/-! ## Frames -/

/-- `s'` differs from `s` in links and in the ends of the queue only. -/
structure Frame (s s' : Proc) : Prop where
  running : s'.running = s.running
  memoryMap : s'.memoryMap = s.memoryMap
  name : ∀ x, (s'.pcb x).name = (s.pcb x).name
  state : ∀ x, (s'.pcb x).state = (s.pcb x).state
  segment : ∀ x, (s'.pcb x).segment = (s.pcb x).segment
  stackPointer : ∀ x, (s'.pcb x).stackPointer = (s.pcb x).stackPointer
  sleepCounter : ∀ x, (s'.pcb x).sleepCounter = (s.pcb x).sleepCounter

theorem Frame.refl (s : Proc) : Frame s s := by constructor <;> intros <;> rfl

theorem Frame.trans {s'' : Proc} (h : Frame s s') (h' : Frame s' s'') : Frame s s'' where
  running := h'.running.trans h.running
  memoryMap := h'.memoryMap.trans h.memoryMap
  name x := (h'.name x).trans (h.name x)
  state x := (h'.state x).trans (h.state x)
  segment x := (h'.segment x).trans (h.segment x)
  stackPointer x := (h'.stackPointer x).trans (h.stackPointer x)
  sleepCounter x := (h'.sleepCounter x).trans (h.sleepCounter x)

/-- Replacing a PCB by one with other links. -/
theorem frame_put (s : Proc) (p : PCBRef) (n m : Option PCBRef) :
    Frame s (s.put p { s.pcb p with next := n, prev := m }) := by
  constructor <;> intros <;> try rfl
  all_goals simp only [Proc.put_pcb]; split_ifs with h <;> simp [h]

theorem frame_setNext (s : Proc) (p : PCBRef) (n : Option PCBRef) : Frame s (s.setNext p n) :=
  frame_put s p n _

theorem frame_setPrev (s : Proc) (p : PCBRef) (n : Option PCBRef) : Frame s (s.setPrev p n) :=
  frame_put s p _ n

/-- The ends of the queue are no part of a PCB. -/
theorem Frame.ends (h : Frame s s') (hd tl : Option PCBRef) :
    Frame s { s' with readyHead := hd, readyTail := tl } :=
  ⟨h.running, h.memoryMap, h.name, h.state, h.segment, h.stackPointer, h.sleepCounter⟩

theorem addToReady_frame (h : addToReady p s = some s') : Frame s s' := by
  unfold addToReady at h
  split at h
  · cases h; exact (Frame.refl s).ends _ _
  · split_ifs at h
    · cases h
      exact ((frame_setNext s _ _).trans (frame_setPrev _ p _)).ends _ _
    · simp only [Option.bind_eq_bind, Option.bind_eq_some_iff] at h
      obtain ⟨tail, -, h⟩ := h
      cases h
      exact ((frame_setPrev s p _).trans (frame_setNext _ tail _)).ends _ _

/-- The head of the queue stays the head when a PCB is added. -/
theorem addToReady_head (h : addToReady p s = some s') : s'.readyHead = s.readyHead.or (some p) := by
  unfold addToReady at h
  split at h
  · next hn => cases h; simp [hn]
  · next hn =>
    split_ifs at h
    · cases h; simp [hn]
    · simp only [Option.bind_eq_bind, Option.bind_eq_some_iff] at h
      obtain ⟨tail, -, h⟩ := h
      cases h; simp [hn]

theorem removeFromReady_frame {r : Option PCBRef} (h : removeFromReady s = some (r, s')) :
    Frame s s' ∧ r = s.readyHead := by
  unfold removeFromReady at h
  split at h
  · next hn => cases h; exact ⟨.refl s, hn.symm⟩
  · next temp hn =>
    split_ifs at h with h1 h2
    · cases h; exact ⟨(Frame.refl s).ends _ _, hn.symm⟩
    · simp only [Option.bind_eq_bind, Option.bind_eq_some_iff] at h
      obtain ⟨second, -, tail, -, h⟩ := h
      cases h
      exact ⟨(((frame_setPrev s _ _).trans (frame_setPrev _ tail _)).trans
        (frame_setNext _ second _)).ends _ _, hn.symm⟩
    · simp only [Option.bind_eq_bind, Option.bind_eq_some_iff] at h
      obtain ⟨second, -, h⟩ := h
      cases h
      exact ⟨(frame_setPrev s second _).ends _ _, hn.symm⟩

/-! ## The queue -/

/-- The ready queue is `q`: following `next` from `readyHead` until
    `readyTail` spells it. -/
def Queue (s : Proc) (q : List PCBRef) : Prop :=
  Spells (fun x => (s.pcb x).next) s.readyHead s.readyTail q

/-- `p` is met when `next` is followed from `readyHead` until `readyTail`. -/
def OnQueue (s : Proc) (p : PCBRef) : Prop :=
  Met (fun x => (s.pcb x).next) s.readyHead s.readyTail p

/-- The queue is doubly linked, and the PCBs of the pool that are not on it
    have no `prev`. -/
structure DQueue (s : Proc) (q : List PCBRef) : Prop where
  queue : Queue s q
  back : Backed (fun x => (s.pcb x).prev) q
  off : ∀ i, .pcbPool i ∉ q → (s.pcb (.pcbPool i)).prev = none

/-- A doubly linked queue; the PCBs of `A` that are not on it have no `prev`. -/
structure LinkedQueue (A : PCBRef → Prop) (s : Proc) (q : List PCBRef) : Prop where
  queue : Queue s q
  back : Backed (fun x => (s.pcb x).prev) q
  off : ∀ x, A x → x ∉ q → (s.pcb x).prev = none

theorem dQueue_iff : DQueue s q ↔ LinkedQueue (fun x => ∃ i, x = .pcbPool i) s q := by
  constructor
  · rintro ⟨hq, hb, ho⟩
    refine ⟨hq, hb, ?_⟩
    rintro x ⟨i, rfl⟩ hx
    exact ho i hx
  · rintro ⟨hq, hb, ho⟩
    exact ⟨hq, hb, fun i hi => ho _ ⟨i, rfl⟩ hi⟩

theorem Queue.onQueue_iff (h : Queue s q) : OnQueue s p ↔ p ∈ q := h.met_iff

theorem Proc.setNext_setPrev (s : Proc) (a p : PCBRef) (n m : Option PCBRef) :
    (s.setNext a n).setPrev p m = (s.setPrev p m).setNext a n := by
  simp only [Proc.setNext, Proc.setPrev, Proc.put, Proc.mk.injEq, true_and, and_true]
  funext x
  by_cases hx : x = p <;> by_cases ha : x = a
  · subst hx; subst ha; simp
  · subst hx; simp [ha, Ne.symm ha]
  · subst ha; simp [hx, Ne.symm hx]
  · simp [hx, ha]

theorem addToReady_nil (h : Queue s []) (p : PCBRef) :
    addToReady p s = some { s with readyTail := some p, readyHead := some p } := by
  have hh : s.readyHead = none := h.head
  unfold addToReady
  rw [hh]

theorem addToReady_concat (h : Queue s (u ++ [a])) (p : PCBRef) : addToReady p s =
    some { (s.setPrev p (some a)).setNext a (some p) with readyTail := some p } := by
  have ht : s.readyTail = some a := by rw [h.tail]; simp
  unfold addToReady
  cases u with
  | nil =>
    have hh : s.readyHead = some a := h.head
    simp only [hh, ht, if_true, Proc.setNext_setPrev]
  | cons c u =>
    have hh : s.readyHead = some c := h.head
    have hne : c ≠ a := fun he => (List.nodup_cons.1 h.nodup).1 (by simp [he])
    simp [hh, ht, hne]

theorem removeFromReady_nil (h : Queue s []) : removeFromReady s = some (none, s) := by
  have hh : s.readyHead = none := h.head
  unfold removeFromReady
  rw [hh]

theorem removeFromReady_single (h : Queue s [a]) :
    removeFromReady s = some (some a, { s with readyHead := none, readyTail := none }) := by
  have hh : s.readyHead = some a := h.head
  have ht : s.readyTail = some a := h.tail
  unfold removeFromReady
  simp [hh, ht]

/-- The links after removing the first of at least two PCBs: the new head has
    no `prev`, and no `next` either when it is the only one left. -/
theorem removeFromReady_cons (h : Queue s (a :: b :: q)) : ∃ s', removeFromReady s = some (some a, s') ∧
    s'.readyHead = some b ∧ s'.readyTail = s.readyTail ∧
    (∀ x, (s'.pcb x).prev = if x = b then none else (s.pcb x).prev) ∧
    (∀ x, (s'.pcb x).next = if x = b ∧ q = [] then none else (s.pcb x).next) := by
  have hh : s.readyHead = some a := h.head
  have hn : (s.pcb a).next = some b := (List.isChain_cons_cons.1 h.chain).1
  have hab := (List.nodup_cons.1 h.nodup).1
  unfold removeFromReady
  cases q with
  | nil =>
    have ht : s.readyTail = some b := by rw [h.tail]; rfl
    have hne : a ≠ b := fun he => hab (by simp [he])
    refine ⟨{ ((s.setPrev b none).setPrev b none).setNext b none with readyHead := some b }, ?_, rfl,
      rfl, ?_, ?_⟩
    · simp [hh, ht, hn, hne]
    · intro x
      simp only [Proc.setNext_prev, Proc.setPrev_prev]; split_ifs <;> rfl
    · intro x
      simp
  | cons c q =>
    obtain ⟨l, hl⟩ : ∃ l, (b :: c :: q).getLast? = some l := ⟨_, List.getLast?_eq_getLast_of_ne_nil (by simp)⟩
    have ht : s.readyTail = some l := by rw [h.tail, List.getLast?_cons_cons, hl]
    have hla : a ≠ l := fun he => hab (he ▸ List.mem_of_mem_getLast? hl)
    have hlb : b ≠ l := by
      intro he
      rw [List.getLast?_cons_cons] at hl
      have := (List.nodup_cons.1 (List.nodup_cons.1 h.nodup).2).1
      exact this (he ▸ List.mem_of_mem_getLast? hl)
    refine ⟨{ s.setPrev b none with readyHead := some b }, ?_, rfl, rfl, ?_, ?_⟩
    · simp [hh, ht, hn, hla, hlb]
    · intro x
      simp
    · intro x
      simp

/-! ## Adding and removing -/

theorem Queue.add (h : Queue s q) (hp : p ∉ q) :
    ∃ s', addToReady p s = some s' ∧ Queue s' (q ++ [p]) := by
  rcases List.eq_nil_or_concat q with rfl | ⟨u, a, rfl⟩
  · exact ⟨_, addToReady_nil h p, Spells.push_nil _ p⟩
  · rw [List.concat_eq_append] at h hp ⊢
    refine ⟨_, addToReady_concat h p, ?_⟩
    refine Spells.push h hp (by simp) ?_
    intro x hx
    have hxa : x ≠ a := fun he => (List.nodup_append.1 h.nodup).2.2 x hx a (by simp) he
    simp [hxa]

theorem Queue.remove (h : Queue s (a :: q)) :
    ∃ s', removeFromReady s = some (some a, s') ∧ Queue s' q := by
  cases q with
  | nil => exact ⟨_, removeFromReady_single h, rfl, rfl, .nil, List.nodup_nil⟩
  | cons b q =>
    obtain ⟨s', hs, hh, ht, -, hn⟩ := removeFromReady_cons h
    have hq : Spells (fun x => (s.pcb x).next) s'.readyHead s'.readyTail (b :: q) := by
      rw [hh, ht]; exact Spells.pop h
    refine ⟨s', hs, ?_⟩
    cases q with
    | nil => exact hq.congr_single
    | cons c q => exact hq.congr fun x _ => by rw [hn]; simp

theorem LinkedQueue.add (h : LinkedQueue A s q) (hA : A p) (hp : p ∉ q) (hs : addToReady p s = some s') :
    LinkedQueue A s' (q ++ [p]) := by
  obtain ⟨s₁, h1, hq⟩ := h.queue.add hp
  rw [hs] at h1; cases h1
  rcases List.eq_nil_or_concat q with rfl | ⟨u, a, rfl⟩
  · rw [addToReady_nil h.queue] at hs; cases hs
    refine ⟨hq, .single (h.off p hA hp), fun x hx _ => h.off x hx (by simp)⟩
  · rw [List.concat_eq_append] at h hp hq ⊢
    rw [addToReady_concat h.queue] at hs; cases hs
    have hprev : ∀ x ∈ u ++ [a], x ≠ p := fun x hx he => hp (he ▸ hx)
    refine ⟨hq, Backed.push (h.back.congr ?_) (by simp), ?_⟩
    · intro x hx
      simp [hprev x hx]
    · intro x hx hxq
      have hxp : x ≠ p := fun he => hxq (by simp [he])
      simp only [Proc.setNext_prev, Proc.setPrev_prev, if_neg hxp]
      exact h.off x hx fun hm => hxq (List.mem_append_left _ hm)

theorem LinkedQueue.remove (h : LinkedQueue A s (a :: q)) (hs : removeFromReady s = some (some a, s')) :
    LinkedQueue A s' q := by
  obtain ⟨s₁, h1, hq⟩ := h.queue.remove
  rw [hs] at h1; cases h1
  have ha : (s.pcb a).prev = none := h.back.head _ rfl
  cases q with
  | nil =>
    rw [removeFromReady_single h.queue] at hs; cases hs
    refine ⟨hq, ⟨fun x hx => by simp at hx, .nil⟩, ?_⟩
    intro x hx _
    by_cases hxa : x = a
    · exact hxa ▸ ha
    · exact h.off x hx (by simpa using hxa)
  | cons b q =>
    obtain ⟨s₂, h2, -, -, hp, -⟩ := removeFromReady_cons h.queue
    rw [hs] at h2; cases h2
    have hb := (List.nodup_cons.1 (List.nodup_cons.1 h.queue.nodup).2).1
    refine ⟨hq, Backed.pop h.back (by simp [hp]) ?_, ?_⟩
    · intro x hx
      have : x ≠ b := fun he => hb (he ▸ hx)
      simp [hp, this]
    · intro x hx hxq
      rw [hp]
      split_ifs
      · rfl
      · by_cases hxa : x = a
        · exact hxa ▸ ha
        · exact h.off x hx (by simp only [List.mem_cons, not_or] at hxq ⊢; exact ⟨hxa, hxq⟩)

theorem DQueue.add {i : Fin 8} (h : DQueue s q) (hp : .pcbPool i ∉ q)
    (hs : addToReady (.pcbPool i) s = some s') : DQueue s' (q ++ [.pcbPool i]) :=
  dQueue_iff.2 ((dQueue_iff.1 h).add ⟨i, rfl⟩ hp hs)

theorem DQueue.remove (h : DQueue s (a :: q)) (hs : removeFromReady s = some (some a, s')) :
    DQueue s' q :=
  dQueue_iff.2 ((dQueue_iff.1 h).remove hs)

/-- The links and the ends of the queue are the same. -/
structure SameLinks (s s' : Proc) : Prop where
  readyHead : s'.readyHead = s.readyHead
  readyTail : s'.readyTail = s.readyTail
  next : ∀ x, (s'.pcb x).next = (s.pcb x).next
  prev : ∀ x, (s'.pcb x).prev = (s.pcb x).prev

/-- A property of the queue that adding and removing preserve. -/
structure QueueInv (P : Proc → List PCBRef → Prop) : Prop where
  queue : ∀ {s q}, P s q → Queue s q
  add : ∀ {s s' q i}, P s q → .pcbPool i ∉ q → addToReady (.pcbPool i) s = some s' →
    P s' (q ++ [.pcbPool i])
  remove : ∀ {s s' a q}, P s (a :: q) → removeFromReady s = some (some a, s') → P s' q
  congr : ∀ {s s' q}, P s q → SameLinks s s' → P s' q

theorem Queue.sameLinks (h : Queue s q) (hl : SameLinks s s') : Queue s' q := by
  have hs : Spells (fun x => (s'.pcb x).next) s.readyHead s.readyTail q :=
    Spells.congr h fun x _ => hl.next x
  unfold Queue
  rw [hl.readyHead, hl.readyTail]
  exact hs

theorem LinkedQueue.sameLinks (h : LinkedQueue A s q) (hl : SameLinks s s') : LinkedQueue A s' q :=
  ⟨h.queue.sameLinks hl, h.back.congr fun x _ => hl.prev x, fun x hx hxq => (hl.prev _).trans (h.off x hx hxq)⟩

theorem queueInv_queue : QueueInv Queue where
  queue h := h
  add h hp hs := by obtain ⟨_, h1, hq⟩ := h.add hp; rw [hs] at h1; cases h1; exact hq
  remove h hs := by obtain ⟨_, h1, hq⟩ := h.remove; rw [hs] at h1; cases h1; exact hq
  congr h hl := h.sameLinks hl

theorem queueInv_dQueue : QueueInv DQueue where
  queue h := h.queue
  add h hp hs := h.add hp hs
  remove h hs := h.remove hs
  congr h hl := dQueue_iff.2 ((dQueue_iff.1 h).sameLinks hl)

end TeamXtremeOS
