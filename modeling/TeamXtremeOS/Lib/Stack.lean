/-
  Stacks of words in a memory of 64 KB: what a sequence of pushes leaves behind,
  and what the pops find.

  A word is two bytes, the low one first; the stack grows down, and addresses
  wrap around.
-/
import Mathlib.Logic.Function.Basic
import Mathlib.Data.List.Basic

namespace Lib

variable {ω β : Type*}

/-- How a word is made of two bytes. -/
structure Halves (ω β : Type*) where
  lo : ω → β
  hi : ω → β
  join : β → β → ω
  join_halves : ∀ w, join (lo w) (hi w) = w

namespace Halves
variable (H : Halves ω β) {m : UInt16 → β} {a b sp : UInt16} {w : ω} {ws : List ω} {i n : ℕ}

/-- The word at an address. -/
def load (a : UInt16) (m : UInt16 → β) : ω := H.join (m a) (m (a + 1))

/-- Store a word at an address. -/
def store (a : UInt16) (w : ω) (m : UInt16 → β) : UInt16 → β :=
  Function.update (Function.update m a (H.lo w)) (a + 1) (H.hi w)

/-- The memory when words have been pushed, the first one of the list first. -/
def pushes : List ω → UInt16 → (UInt16 → β) → UInt16 → β
  | [], _, m => m
  | w :: ws, sp, m => pushes ws (sp - 2) (H.store (sp - 2) w m)

/-- The first `n` words of the stack. -/
def frame (n : ℕ) (sp : UInt16) (m : UInt16 → β) : List ω :=
  (List.range n).map fun i => H.load (sp + UInt16.ofNat (2 * i)) m

theorem store_apply : H.store a w m b = if b = a + 1 then H.hi w else if b = a then H.lo w else m b := by
  simp only [store, Function.update_apply]

theorem load_store : H.load a (H.store a w m) = w := by
  have hne : a ≠ a + 1 := by
    intro h
    have h1 := congrArg UInt16.toNat h
    rw [UInt16.toNat_add] at h1
    have := a.toNat_lt
    simp at h1
    omega
  rw [load, store_apply, store_apply, if_neg hne, if_pos rfl, if_pos rfl, H.join_halves]

/-! ## Pushing -/

/-- How far a byte is below a stack pointer: 0 for the one next to it. -/
def depth (sp b : UInt16) : ℕ := (sp - 1 - b).toNat

theorem depth_eq_zero : depth sp b = 0 ↔ b = sp - 2 + 1 := by
  rw [depth, ← UInt16.toNat_inj, UInt16.toNat_sub, UInt16.toNat_add]
  simp only [UInt16.toNat_sub]
  have := b.toNat_lt
  have := sp.toNat_lt
  simp
  omega

theorem depth_eq_one : depth sp b = 1 ↔ b = sp - 2 := by
  rw [depth, ← UInt16.toNat_inj, UInt16.toNat_sub]
  simp only [UInt16.toNat_sub]
  have := b.toNat_lt
  have := sp.toNat_lt
  simp
  omega

theorem depth_sub : depth (sp - 2) b = (depth sp b + 65534) % 65536 := by
  simp only [depth, UInt16.toNat_sub]
  have := b.toNat_lt
  have := sp.toNat_lt
  simp
  omega

theorem depth_lt (sp b : UInt16) : depth sp b < 65536 := UInt16.toNat_lt _

/-- **What the pushes leave behind**: the words, from the stack pointer down, and
    nothing else. -/
theorem pushes_apply (h : 2 * ws.length ≤ 65536) : H.pushes ws sp m b = (ws[depth sp b / 2]?).elim (m b)
    fun w => if depth sp b % 2 = 0 then H.hi w else H.lo w := by
  induction ws generalizing sp m with
  | nil => rfl
  | cons w ws ih =>
    rw [List.length_cons] at h
    have hlt := depth_lt sp b
    rw [pushes, ih (by omega), depth_sub, store_apply]
    simp only [← depth_eq_zero, ← depth_eq_one]
    rcases Nat.lt_or_ge (depth sp b) 2 with h2 | h2
    · have hlast : ws.length ≤ (depth sp b + 65534) % 65536 / 2 := by omega
      have h0 : depth sp b / 2 = 0 := by omega
      rw [List.getElem?_eq_none hlast, h0, Option.elim_none, List.getElem?_cons_zero, Option.elim_some]
      rcases (show depth sp b = 0 ∨ depth sp b = 1 by omega) with hd | hd
      · rw [if_pos hd, if_pos (by omega)]
      · rw [if_neg (by omega), if_pos hd, if_neg (by omega)]
    · have hd : (depth sp b + 65534) % 65536 = depth sp b - 2 := by omega
      have hi : depth sp b / 2 = (depth sp b - 2) / 2 + 1 := by omega
      rw [hd, hi, List.getElem?_cons_succ, if_neg (by omega), if_neg (by omega)]
      simp only [show (depth sp b - 2) % 2 = depth sp b % 2 by omega]

theorem pushes_append (ws' : List ω) : H.pushes (ws ++ ws') sp m =
    H.pushes ws' (sp - UInt16.ofNat (2 * ws.length)) (H.pushes ws sp m) := by
  induction ws generalizing sp m with
  | nil => simp [pushes]
  | cons w ws ih =>
    have hsp : sp - 2 - UInt16.ofNat (2 * ws.length) = sp - UInt16.ofNat (2 * (ws.length + 1)) := by
      rw [← UInt16.toNat_inj]
      simp only [UInt16.toNat_sub, UInt16.toNat_ofNat']
      have := sp.toNat_lt
      simp
      omega
    rw [List.cons_append, pushes, ih, hsp]
    rfl

theorem pushes_outside (h : 2 * ws.length ≤ 65536) (hb : 2 * ws.length ≤ depth sp b) :
    H.pushes ws sp m b = m b := by
  rw [H.pushes_apply h, List.getElem?_eq_none (by omega), Option.elim_none]

/-- What is above the stack pointer stays. -/
theorem load_above (h : 2 * ws.length + 2 * i + 2 ≤ 65536) :
    H.load (sp + UInt16.ofNat (2 * i)) (H.pushes ws sp m) = H.load (sp + UInt16.ofNat (2 * i)) m := by
  have hlo : depth sp (sp + UInt16.ofNat (2 * i)) = 65535 - 2 * i := by
    simp only [depth, UInt16.toNat_sub, UInt16.toNat_add, UInt16.toNat_ofNat']
    have := sp.toNat_lt
    simp
    omega
  have hhi : depth sp (sp + UInt16.ofNat (2 * i) + 1) = 65534 - 2 * i := by
    simp only [depth, UInt16.toNat_sub, UInt16.toNat_add, UInt16.toNat_ofNat']
    have := sp.toNat_lt
    simp
    omega
  rw [load, load, H.pushes_outside (by omega) (by omega), H.pushes_outside (by omega) (by omega)]

/-- A stack that reads like the words has been pushed, as far as it goes. -/
theorem load_pushes (h : 2 * ws.length ≤ 65536) (hi : ws[i]? = some w) :
    H.load (sp - UInt16.ofNat (2 * (i + 1))) (H.pushes ws sp m) = w := by
  obtain ⟨hlt, -⟩ := List.getElem?_eq_some_iff.1 hi
  have hlo : depth sp (sp - UInt16.ofNat (2 * (i + 1))) = 2 * i + 1 := by
    simp only [depth, UInt16.toNat_sub, UInt16.toNat_ofNat']
    have := sp.toNat_lt
    simp
    omega
  have hhi : depth sp (sp - UInt16.ofNat (2 * (i + 1)) + 1) = 2 * i := by
    simp only [depth, UInt16.toNat_sub, UInt16.toNat_add, UInt16.toNat_ofNat']
    have := sp.toNat_lt
    simp
    omega
  rw [load, H.pushes_apply h, H.pushes_apply h, hlo, hhi, show (2 * i + 1) / 2 = i by omega,
    show 2 * i / 2 = i by omega, hi, Option.elim_some, Option.elim_some, if_neg (by omega), if_pos (by omega),
    H.join_halves]

/-- **Pops find what has been pushed**, the last word first. -/
theorem frame_pushes (h : 2 * ws.length ≤ 65536) :
    H.frame ws.length (sp - UInt16.ofNat (2 * ws.length)) (H.pushes ws sp m) = ws.reverse := by
  refine List.ext_getElem (by simp [frame]) ?_
  intro i hi hi'
  rw [List.length_reverse] at hi'
  have haddr : sp - UInt16.ofNat (2 * ws.length) + UInt16.ofNat (2 * i) =
      sp - UInt16.ofNat (2 * (ws.length - 1 - i + 1)) := by
    rw [← UInt16.toNat_inj]
    simp only [UInt16.toNat_sub, UInt16.toNat_add, UInt16.toNat_ofNat']
    have := sp.toNat_lt
    simp
    omega
  simp only [frame, List.getElem_map, List.getElem_range, List.getElem_reverse]
  rw [haddr, H.load_pushes h (List.getElem?_eq_getElem (by omega))]

/-! ## Popping -/

theorem frame_add (n k : ℕ) :
    H.frame (n + k) sp m = H.frame n sp m ++ H.frame k (sp + UInt16.ofNat (2 * n)) m := by
  have haddr : ∀ i, sp + UInt16.ofNat (2 * (n + i)) = sp + UInt16.ofNat (2 * n) + UInt16.ofNat (2 * i) := by
    intro i
    rw [Nat.mul_add, UInt16.ofNat_add, UInt16.add_assoc]
  simp only [frame, List.range_add, List.map_append, List.map_map, Function.comp_def, haddr]

theorem length_frame (n : ℕ) : (H.frame n sp m).length = n := by simp [frame]

theorem frame_eq (hn : ws.length = n) (h : ∀ i w, ws[i]? = some w → H.load (sp + UInt16.ofNat (2 * i)) m = w) :
    H.frame n sp m = ws := by
  refine List.ext_getElem (by rw [H.length_frame, hn]) ?_
  intro i hi hi'
  simp only [frame, List.getElem_map, List.getElem_range]
  exact h i _ (List.getElem?_eq_getElem hi')

/-- The first words that are popped. -/
theorem frame_take (h : 2 * ws.length ≤ 65536) (hn : n ≤ ws.length) :
    H.frame n (sp - UInt16.ofNat (2 * ws.length)) (H.pushes ws sp m) = ws.reverse.take n := by
  obtain ⟨k, hk⟩ := Nat.exists_eq_add_of_le hn
  have hall : H.frame ws.length (sp - UInt16.ofNat (2 * ws.length)) (H.pushes ws sp m) = ws.reverse := H.frame_pushes h
  rw [hk, H.frame_add, ← hk] at hall
  rw [← hall, List.take_left' (H.length_frame n)]

/-- A byte that is not on the stack may change. -/
theorem frame_update {v : β} (hb : ∀ i < 2 * n, sp + UInt16.ofNat i ≠ b) :
    H.frame n sp (Function.update m b v) = H.frame n sp m := by
  refine List.map_congr_left ?_
  intro i hi
  rw [List.mem_range] at hi
  have h1 : sp + UInt16.ofNat (2 * i) + 1 = sp + UInt16.ofNat (2 * i + 1) := by
    rw [UInt16.ofNat_add, ← UInt16.add_assoc]
    rfl
  rw [load, Function.update_of_ne (hb _ (by omega)), h1, Function.update_of_ne (hb _ (by omega)), load, h1]

theorem frame_succ (n : ℕ) : H.frame (n + 1) sp m = H.load sp m :: H.frame n (sp + 2) m := by
  rw [Nat.add_comm, H.frame_add]
  simp [frame]

end Halves

/-- Registers that are given one value after the other. -/
def assign {κ : Type*} [DecidableEq κ] : List κ → List ω → (κ → ω) → κ → ω
  | r :: rs, w :: ws, f => assign rs ws (Function.update f r w)
  | _, _, f => f

/-- Registers that are given the values of `f` have the values of `f`. -/
theorem assign_map {κ : Type*} [DecidableEq κ] (rs : List κ) (f g : κ → ω) (r : κ) :
    assign rs (rs.map f) g r = if r ∈ rs then f r else g r := by
  induction rs generalizing g with
  | nil => rfl
  | cons r' rs ih =>
    rw [List.map_cons, assign, ih, Function.update_apply]
    by_cases hr : r ∈ rs <;> by_cases he : r = r' <;> simp [hr, he]

end Lib
