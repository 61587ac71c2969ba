/-
  A line of a screen: cells, and a cursor that writing moves on and that can be
  moved back.

  A text that is shown from some place on grows by a character that is written,
  and loses its last one by moving back, writing a blank and moving back again.
-/
import Mathlib.Data.List.GetD
import Mathlib.Logic.Function.Basic
import Mathlib.Order.Nat

namespace Lib

variable {α : Type*}

structure ScreenLine (α : Type*) where
  cells : ℕ → α
  cursor : ℕ

namespace ScreenLine
variable {blank c : α} {t : List α} {start s : ScreenLine α}

/-- A character overwrites the cell at the cursor. -/
def put (c : α) (s : ScreenLine α) : ScreenLine α where
  cells := Function.update s.cells s.cursor c
  cursor := s.cursor + 1

/-- The cursor is moved left, the cells stay. -/
def left (s : ScreenLine α) : ScreenLine α := { s with cursor := s.cursor - 1 }

@[simp] theorem put_cells : (s.put c).cells = Function.update s.cells s.cursor c := rfl
@[simp] theorem put_cursor : (s.put c).cursor = s.cursor + 1 := rfl
@[simp] theorem left_cells : s.left.cells = s.cells := rfl
@[simp] theorem left_cursor : s.left.cursor = s.cursor - 1 := rfl

/-- The line shows `t` where the cursor has been at the start, and blanks behind
    it; the cursor is after `t`. -/
structure Shows (blank : α) (start : ScreenLine α) (t : List α) (s : ScreenLine α) : Prop where
  cursor : s.cursor = start.cursor + t.length
  before : ∀ i < start.cursor, s.cells i = start.cells i
  shown : ∀ i, s.cells (start.cursor + i) = t.getD i blank

theorem shows_nil (h : ∀ i, start.cells (start.cursor + i) = blank) : Shows blank start [] start :=
  ⟨rfl, fun _ _ => rfl, h⟩

theorem Shows.put (h : Shows blank start t s) (c : α) : Shows blank start (t ++ [c]) (s.put c) := by
  have hcur := h.cursor
  constructor
  · rw [put_cursor, hcur, List.length_append, List.length_singleton, Nat.add_assoc]
  · intro i hi
    rw [put_cells, Function.update_of_ne (by omega), h.before i hi]
  · intro i
    rw [put_cells, hcur, Function.update_apply, h.shown]
    rcases lt_trichotomy i t.length with hlt | rfl | hgt
    · rw [if_neg (by omega), List.getD_append _ _ _ _ hlt]
    · rw [if_pos rfl, List.getD_append_right _ _ _ _ le_rfl, Nat.sub_self, List.getD_cons_zero]
    · rw [if_neg (by omega), List.getD_eq_default _ _ (by omega),
        List.getD_eq_default _ _ (by rw [List.length_append, List.length_singleton]; omega)]

/-- Back, a blank, and back again. -/
theorem Shows.erase (h : Shows blank start t s) (ht : t ≠ []) :
    Shows blank start t.dropLast (s.left.put blank).left := by
  have hpos := List.length_pos_iff.2 ht
  have hcur := h.cursor
  constructor
  · rw [left_cursor, put_cursor, left_cursor, List.length_dropLast]
    omega
  · intro i hi
    rw [left_cells, put_cells, left_cells, left_cursor, Function.update_of_ne (by omega), h.before i hi]
  · intro i
    rw [left_cells, put_cells, left_cells, left_cursor, Function.update_apply, h.shown]
    rcases lt_trichotomy (i + 1) t.length with hlt | heq | hgt
    · rw [if_neg (by omega), List.getD_eq_getElem _ _ (by omega),
        List.getD_eq_getElem _ _ (by rw [List.length_dropLast]; omega), List.getElem_dropLast]
    · rw [if_pos (by omega), List.getD_eq_default _ _ (by rw [List.length_dropLast]; omega)]
    · rw [if_neg (by omega), List.getD_eq_default _ _ (by omega),
        List.getD_eq_default _ _ (by rw [List.length_dropLast]; omega)]

end ScreenLine

end Lib
