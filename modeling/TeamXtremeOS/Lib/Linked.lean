/-
  Linked queues whose links are stored in their elements.

  `Spells next head tail q`: following `next` from `head` until `tail` is met
  spells the list `q`.  Nothing is said about the link of the last element or
  about the links of elements outside `q`: they may be stale.
  `Backed prev q`: the back links of `q` are those of a doubly linked queue.
  `Ends next head q`: following `next` from `head` for as long as there is a
  link spells `q`.
-/
import Mathlib.Data.List.Chain
import Mathlib.Data.List.Nodup

namespace Lib

variable {α : Type*} {next next' prev prev' : α → Option α} {head tail : Option α}
  {q u v : List α} {a b p : α}

/-- Following `next` from `head` until `tail` spells `q`. -/
structure Spells (next : α → Option α) (head tail : Option α) (q : List α) : Prop where
  head : head = q.head?
  tail : tail = q.getLast?
  chain : q.IsChain fun a b => next a = some b
  nodup : q.Nodup

/-- The elements met when `next` is followed from `head` until `tail`. -/
inductive Met (next : α → Option α) (head tail : Option α) : α → Prop
  | head {x : α} : head = some x → Met next head tail x
  | next {x y : α} : Met next head tail x → tail ≠ some x → next x = some y → Met next head tail y

/-- A doubly linked queue: no element is behind the first one, and each other
    one points back to the element before it. -/
structure Backed (prev : α → Option α) (q : List α) : Prop where
  head : ∀ a ∈ q.head?, prev a = none
  chain : q.IsChain fun a b => prev b = some a

theorem Spells.next_eq (h : Spells next head tail (u ++ a :: b :: v)) : next a = some b := by
  have := h.chain.right_of_append
  exact (List.isChain_cons_cons.1 this).1

theorem Spells.nil_iff (h : Spells next head tail q) : head = none ↔ q = [] := by
  rw [h.head, List.head?_eq_none_iff]

theorem Met.nonempty (h : Met next head tail a) : head ≠ none := by
  induction h with
  | head hx => rw [hx]; exact Option.some_ne_none _
  | next _ _ _ ih => exact ih

/-- **The elements met are those of the queue.** -/
theorem Spells.met_iff (h : Spells next head tail q) : Met next head tail a ↔ a ∈ q := by
  constructor
  · intro hm
    induction hm with
    | head ha => rw [h.head] at ha; exact List.mem_of_mem_head? ha
    | @next x y _ ht hn ih =>
      obtain ⟨u, v, rfl⟩ := List.append_of_mem ih
      cases v with
      | nil => exact absurd (h.tail.trans (by simp)) ht
      | cons c v =>
        have hc := h.next_eq
        rw [hn] at hc; cases hc
        simp
  · intro ha
    obtain ⟨u, v, rfl⟩ := List.append_of_mem ha
    clear ha
    induction u using List.reverseRecOn generalizing a v with
    | nil => exact .head (by rw [h.head]; rfl)
    | append_singleton u c ih =>
      rw [List.append_assoc, List.singleton_append] at h
      refine .next (ih _ h) ?_ h.next_eq
      rw [h.tail]
      -- the last element comes after `c`, and nothing occurs twice
      have hn := (List.nodup_append.1 h.nodup).2.1
      intro hl
      have hmem : c ∈ a :: v := by
        rw [List.getLast?_append] at hl
        simp only [List.getLast?_cons_cons] at hl
        rcases hg : (a :: v).getLast? with _ | x
        · simp at hg
        · rw [hg] at hl; cases hl; exact List.mem_of_mem_getLast? hg
      exact (List.nodup_cons.1 hn).1 hmem

/-! ## Appending, removing the first, unlinking -/

theorem Spells.push_nil (next : α → Option α) (p : α) : Spells next (some p) (some p) [p] :=
  ⟨rfl, rfl, .singleton _, List.nodup_singleton _⟩

/-- The links up to an element, when those before it agree. -/
theorem isChain_cut (h : (u ++ p :: v).IsChain fun a b => next a = some b) (hu : ∀ x ∈ u, next' x = next x) :
    (u ++ [p]).IsChain fun a b => next' a = some b := by
  have hc := List.isChain_append.1 h
  rw [List.isChain_append]
  refine ⟨hc.1.imp_of_mem_imp fun x y hx _ hxy => by rw [hu x hx]; exact hxy, .singleton _, ?_⟩
  intro x hx y hy
  rw [hu x (List.mem_of_mem_getLast? hx)]
  exact hc.2.2 x hx y (by simpa using hy)

/-- Appending `p` after the last element `a`. -/
theorem Spells.push (h : Spells next head tail (u ++ [a])) (hp : p ∉ u ++ [a])
    (ha : next' a = some p) (hu : ∀ x ∈ u, next' x = next x) :
    Spells next' head (some p) (u ++ [a] ++ [p]) where
  head := by rw [h.head]; cases u <;> simp
  tail := by simp
  chain := by
    rw [List.isChain_append]
    exact ⟨isChain_cut h.chain hu, .singleton _, by simpa using ha⟩
  nodup := by
    rw [List.nodup_append]
    exact ⟨h.nodup, List.nodup_singleton _, fun x hx y hy => by
      rw [List.mem_singleton.1 hy]; exact fun he => hp (he ▸ hx)⟩

/-- A queue spelled by links that agree on its elements. -/
theorem Spells.congr (h : Spells next head tail q) (hq : ∀ x ∈ q, next' x = next x) :
    Spells next' head tail q :=
  ⟨h.head, h.tail, h.chain.imp_of_mem_imp fun x _ hx _ hxy => by rw [hq x hx]; exact hxy, h.nodup⟩

/-- A queue of one element has no link to follow. -/
theorem Spells.congr_single (h : Spells next head tail [a]) : Spells next' head tail [a] :=
  ⟨h.head, h.tail, .singleton _, h.nodup⟩

/-- Removing the first of at least two elements. -/
theorem Spells.pop (h : Spells next head tail (a :: b :: q)) : Spells next (some b) tail (b :: q) :=
  ⟨rfl, by rw [h.tail, List.getLast?_cons_cons], (List.isChain_cons_cons.1 h.chain).2,
    (List.nodup_cons.1 h.nodup).2⟩

/-- Unlinking an element between two others. -/
theorem Spells.unlink (h : Spells next head tail (u ++ a :: p :: b :: v)) (ha : next' a = some b)
    (hq : ∀ x ∈ u ++ b :: v, next' x = next x) : Spells next' head tail (u ++ a :: b :: v) where
  head := by rw [h.head]; cases u <;> simp
  tail := by
    rw [h.tail, List.getLast?_append, List.getLast?_append]
    simp only [List.getLast?_cons_cons]
  chain := by
    have hc := List.isChain_append.1 h.chain
    have hv := (List.isChain_cons_cons.1 (List.isChain_cons_cons.1 hc.2.1).2).2
    rw [List.isChain_append]
    refine ⟨hc.1.imp_of_mem_imp ?_, ?_, ?_⟩
    · intro x y hx _ hxy
      rw [hq x (List.mem_append_left _ hx)]; exact hxy
    · refine List.isChain_cons_cons.2 ⟨ha, hv.imp_of_mem_imp ?_⟩
      intro x y hx _ hxy
      rw [hq x (List.mem_append_right _ hx)]; exact hxy
    · intro x hx y hy
      rw [hq x (List.mem_append_left _ (List.mem_of_mem_getLast? hx))]
      exact hc.2.2 x hx y (by simpa using hy)
  nodup := by
    refine h.nodup.sublist ?_
    exact List.Sublist.append_left (.cons_cons _ (.cons _ (.refl _))) _

/-- The queue up to one of its elements. -/
theorem Spells.cut (h : Spells next head tail (u ++ p :: v)) (hu : ∀ x ∈ u, next' x = next x) :
    Spells next' head (some p) (u ++ [p]) where
  head := by rw [h.head]; cases u <;> simp
  tail := by simp
  chain := isChain_cut h.chain hu
  nodup := h.nodup.sublist (List.Sublist.append_left (.cons_cons _ (List.nil_sublist _)) _)

/-- Removing the last of at least two elements. -/
theorem Spells.unlink_last (h : Spells next head tail (u ++ [a, p]))
    (hu : ∀ x ∈ u, next' x = next x) : Spells next' head (some a) (u ++ [a]) := h.cut hu

/-! ## Back links -/

theorem Backed.prev_eq (h : Backed prev (u ++ a :: b :: v)) : prev b = some a :=
  (List.isChain_cons_cons.1 h.chain.right_of_append).1

theorem Backed.congr (h : Backed prev q) (hq : ∀ x ∈ q, prev' x = prev x) : Backed prev' q :=
  ⟨fun x hx => by rw [hq x (List.mem_of_mem_head? hx)]; exact h.head x hx,
    h.chain.imp_of_mem_imp fun _ y _ hy hxy => by rw [hq y hy]; exact hxy⟩

theorem Backed.single (hp : prev p = none) : Backed prev [p] :=
  ⟨fun a ha => by cases ha; exact hp, .singleton _⟩

theorem Backed.push (h : Backed prev (u ++ [a])) (hp : prev p = some a) :
    Backed prev (u ++ [a] ++ [p]) where
  head x hx := h.head x (by cases u <;> simpa using hx)
  chain := List.isChain_append.2 ⟨h.chain, .singleton _, by simpa using hp⟩

theorem Backed.pop (h : Backed prev (a :: b :: q)) (hb : prev' b = none)
    (hq : ∀ x ∈ q, prev' x = prev x) : Backed prev' (b :: q) where
  head x hx := by cases hx; exact hb
  chain := (List.isChain_cons_cons.1 h.chain).2.imp_of_mem_tail_imp fun x y _ hy hxy => by
    rw [hq y hy]; exact hxy

theorem Backed.unlink (h : Backed prev (u ++ a :: p :: b :: v)) (hb : prev' b = some a)
    (hq : ∀ x ∈ u ++ a :: v, prev' x = prev x) : Backed prev' (u ++ a :: b :: v) where
  head x hx := by
    have hx' : x ∈ (u ++ a :: p :: b :: v).head? := by cases u <;> simpa using hx
    rw [hq x (by cases u <;> simp at hx <;> simp [hx])]
    exact h.head x hx'
  chain := by
    have hc := List.isChain_append.1 h.chain
    have hv := (List.isChain_cons_cons.1 (List.isChain_cons_cons.1 hc.2.1).2).2
    refine List.isChain_append.2 ⟨?_, List.isChain_cons_cons.2 ⟨hb, ?_⟩, ?_⟩
    · exact hc.1.imp_of_mem_imp fun x y _ hy hxy => by
        rw [hq y (List.mem_append_left _ hy)]; exact hxy
    · exact hv.imp_of_mem_tail_imp fun x y _ hy hxy => by
        rw [hq y (List.mem_append_right _ (List.mem_cons_of_mem _ hy))]; exact hxy
    · intro x hx y hy
      cases hy
      rw [hq a (by simp)]
      exact hc.2.2 x hx a (by simp)

theorem Backed.unlink_last (h : Backed prev (u ++ [a, p])) (hq : ∀ x ∈ u ++ [a], prev' x = prev x) :
    Backed prev' (u ++ [a]) :=
  Backed.congr ⟨fun x hx => h.head x (by cases u <;> simpa using hx),
    h.chain.prefix ⟨[p], by simp⟩⟩ hq

/-! ## Following links to the end -/

/-- Following `next` from `head` until there is no link spells `q`. -/
def Ends (next : α → Option α) : Option α → List α → Prop
  | head, [] => head = none
  | head, a :: q => head = some a ∧ Ends next (next a) q

theorem Ends.unique (h : Ends next head u) (h' : Ends next head v) : u = v := by
  induction u generalizing head v with
  | nil =>
    cases v with
    | nil => rfl
    | cons b v => cases h.symm.trans h'.1
  | cons a u ih =>
    cases v with
    | nil => cases h.1.symm.trans h'
    | cons b v =>
      cases h.1.symm.trans h'.1
      rw [ih h.2 h'.2]

theorem Ends.of_append (h : Ends next head (u ++ v)) : ∃ head', Ends next head' v := by
  induction u generalizing head with
  | nil => exact ⟨head, h⟩
  | cons a u ih => exact ih h.2

/-- An element that is met again would be met for ever. -/
theorem Ends.nodup (h : Ends next head q) : q.Nodup := by
  induction q generalizing head with
  | nil => exact List.nodup_nil
  | cons a q ih =>
    refine List.nodup_cons.2 ⟨?_, ih h.2⟩
    intro ha
    obtain ⟨u, v, hq⟩ := List.append_of_mem ha
    have h2 := h.2
    rw [hq] at h2
    obtain ⟨head', h'⟩ := h2.of_append
    have hlen := congrArg List.length (h2.unique h'.2)
    rw [List.length_append, List.length_cons] at hlen
    omega

/-- The links go through the queue and on from its last element. -/
theorem Spells.ends_iff (h : Spells next head (some p) q) :
    Ends next head u ↔ ∃ v, u = q ++ v ∧ Ends next (next p) v := by
  induction q generalizing head u with
  | nil => cases h.tail
  | cons a q ih =>
    have hhead : head = some a := h.head
    cases q with
    | nil =>
      obtain rfl : p = a := Option.some.inj h.tail
      constructor
      · intro hu
        cases u with
        | nil => cases hhead.symm.trans hu
        | cons b v =>
          cases hhead.symm.trans hu.1
          exact ⟨v, rfl, hu.2⟩
      · rintro ⟨v, rfl, hv⟩
        exact ⟨hhead, hv⟩
    | cons b q =>
      have hab : next a = some b := (List.isChain_cons_cons.1 h.chain).1
      have ih := ih (u := u.tail) h.pop
      constructor
      · intro hu
        cases u with
        | nil => cases hhead.symm.trans hu
        | cons c u =>
          cases hhead.symm.trans hu.1
          obtain ⟨v, hv, he⟩ := ih.1 (hab ▸ hu.2)
          exact ⟨v, by rw [List.cons_append, ← hv, List.tail_cons], he⟩
      · rintro ⟨v, rfl, he⟩
        exact ⟨hhead, hab ▸ ih.2 ⟨v, rfl, he⟩⟩

end Lib
