/-
  `readString` edits a line: the buffer, the index and the screen agree on the
  text after every key.
-/
import TeamXtremeOS.Lib.ScreenLine
import TeamXtremeOS.Proof.Shell

namespace TeamXtremeOS

open Lib

variable {keys : List UInt8} {t : List UInt8} {start s : ScreenLine UInt8} {n : ℕ}

/-! ## The text -/

theorem reach_le (keys : List UInt8) : reach keys ≤ keys.length := by
  have h : ∀ s : List UInt8 × ℕ, s.1.length ≤ s.2 → (keys.foldl edit s).2 ≤ s.2 + keys.length := by
    induction keys with
    | nil => exact fun s _ => le_rfl
    | cons key keys ih =>
      intro s hs
      have hle := ih (edit s key) (length_edit_le hs)
      have hone : (edit s key).2 ≤ s.2 + 1 := by
        rw [edit]
        split_ifs
        · exact Nat.le_succ _
        · exact max_le (Nat.le_succ _) (Nat.succ_le_succ hs)
      rw [List.foldl_cons, List.length_cons]
      omega
  simpa [reach] using h ([], 0) le_rfl

theorem typed_concat (keys : List UInt8) (key : UInt8) :
    typed (keys ++ [key]) = if key = 0x08 then (typed keys).dropLast else typed keys ++ [key] := by
  rw [typed, List.foldl_append, List.foldl_cons, List.foldl_nil, edit]
  split_ifs <;> rfl

theorem reach_concat (keys : List UInt8) (key : UInt8) :
    reach (keys ++ [key]) = max (reach keys) (typed (keys ++ [key])).length := by
  have hlen := length_typed_le keys
  rw [typed_concat, reach, List.foldl_append, List.foldl_cons, List.foldl_nil, edit]
  split_ifs
  · refine (max_eq_left ?_).symm
    rw [List.length_dropLast]
    exact (Nat.sub_le _ _).trans hlen
  · rw [List.length_append, List.length_singleton]
    rfl

/-- `reach` is the greatest length of the text after some of the keys. -/
theorem reach_isGreatest (keys : List UInt8) :
    IsGreatest {n | ∃ pre, pre <+: keys ∧ (typed pre).length = n} (reach keys) := by
  induction keys using List.reverseRecOn with
  | nil =>
    refine ⟨⟨[], List.prefix_rfl, rfl⟩, ?_⟩
    rintro n ⟨pre, hpre, rfl⟩
    rw [List.prefix_nil.1 hpre]
    exact le_rfl
  | append_singleton keys key ih =>
    rw [reach_concat]
    constructor
    · rcases max_choice (reach keys) (typed (keys ++ [key])).length with h | h <;> rw [h]
      · obtain ⟨pre, hpre, heq⟩ := ih.1
        exact ⟨pre, hpre.trans (List.prefix_append _ _), heq⟩
      · exact ⟨_, List.prefix_rfl, rfl⟩
    · rintro n ⟨pre, hpre, rfl⟩
      rcases List.prefix_concat_iff.1 hpre with rfl | hpre
      · exact le_max_right _ _
      · exact le_max_of_le_left (ih.2 ⟨pre, hpre, rfl⟩)

/-! ## The screen -/

/-- A key that shows as a character. -/
def Printable (key : UInt8) : Prop := 0x20 ≤ key ∧ key ≤ 0x7E

instance (key : UInt8) : Decidable (Printable key) := inferInstanceAs (Decidable (_ ∧ _))

/-- What a teletype character does to the line of the screen. -/
def teletype (s : ScreenLine UInt8) (al : UInt8) : ScreenLine UInt8 :=
  if al = 0x08 then s.left else if Printable al then s.put al else s

/-- The screen follows the text, key by key. -/
theorem shows_echoed {m : ℕ} (hk : ∀ key ∈ keys, key ≠ 0x08 → Printable key)
    (h : ScreenLine.Shows 0x20 start t s) :
    ScreenLine.Shows 0x20 start (keys.foldl edit (t, m)).1 ((echoed t keys).foldl teletype s) := by
  induction keys generalizing t s m with
  | nil => exact h
  | cons key keys ih =>
    have hk' : ∀ key ∈ keys, key ≠ 0x08 → Printable key := fun key hmem => hk key (List.mem_cons_of_mem _ hmem)
    rw [echoed, List.foldl_append, List.foldl_cons]
    by_cases h8 : key = 0x08
    · rw [if_pos h8, show edit (t, m) key = (t.dropLast, m) from if_pos h8,
        show edit (t, 0) key = (t.dropLast, 0) from if_pos h8]
      by_cases h0 : t = []
      · rw [if_pos h0]
        refine ih hk' ?_
        rw [h0] at h ⊢
        exact h
      · rw [if_neg h0]
        exact ih hk' (h.erase h0)
    · rw [if_neg h8, show edit (t, m) key = (t ++ [key], max m (t.length + 1)) from if_neg h8,
        show edit (t, 0) key = (t ++ [key], max 0 (t.length + 1)) from if_neg h8]
      refine ih hk' ?_
      have hput : teletype s key = s.put key := by
        rw [teletype, if_neg h8, if_pos (hk key List.mem_cons_self h8)]
      rw [List.foldl_cons, List.foldl_nil, hput]
      exact h.put key

/-- What `readString` has done when the enter key is pressed. -/
structure Edited (keys : List UInt8) (old : Buffer) (len : Int16) (buf : Buffer) (out : List UInt8) : Prop where
  length : len.toInt = (typed keys).length
  text : ∀ o (h : o < (typed keys).length), buf o = (typed keys)[o]
  terminator : buf (typed keys).length = 0
  erased : ∀ o, (typed keys).length ≤ o → o < reach keys → buf o = 0
  beyond : ∀ o, max (typed keys).length (reach keys - 1) < o → buf o = old o
  screen : (∀ key ∈ keys, key ≠ 0x08 → Printable key) → ∀ start : ScreenLine UInt8,
    (∀ i, start.cells (start.cursor + i) = 0x20) →
      ScreenLine.Shows 0x20 start (typed keys) (out.foldl teletype start)

/-- **`readString` edits a line**, in the buffer and on the screen. -/
theorem readString_edits (keys : List UInt8) (hk : ∀ key ∈ keys, key ≠ 0x0D) (hlen : keys.length < 32767)
    (old : Buffer) : ∃ len buf out,
      readString (keys ++ [0x0D]) old = some (len, buf, out) ∧ Edited keys old len buf out := by
  have hr := reach_le keys
  have ht := length_typed_le keys
  refine ⟨_, _, _, readString_spec hk (by omega) old, ?_⟩
  constructor
  case length => rw [Int16.toInt_ofNat_of_lt (by omega)]
  case text =>
    intro o ho
    rw [stored, if_pos (.inl (by omega)), List.getD_eq_getElem _ _ ho]
  case terminator => rw [stored, if_pos (.inr rfl), List.getD_eq_default _ _ le_rfl]
  case erased =>
    intro o ho hreach
    rw [stored, if_pos (.inl hreach), List.getD_eq_default _ _ ho]
  case beyond =>
    intro o ho
    rw [max_lt_iff] at ho
    exact if_neg (by omega)
  case screen =>
    intro hp start hblank
    exact shows_echoed hp (ScreenLine.shows_nil hblank)

/-- Two characters are taken back and one is typed again. -/
theorem readString_edits_back : ∃ len buf out,
    readString ([0x61, 0x62, 0x63, 0x08, 0x08, 0x64] ++ [0x0D]) (fun _ => 0xFF) = some (len, buf, out) ∧
      Edited [0x61, 0x62, 0x63, 0x08, 0x08, 0x64] (fun _ => 0xFF) len buf out :=
  readString_edits [0x61, 0x62, 0x63, 0x08, 0x08, 0x64] (by simp) (by simp) (fun _ => 0xFF)

end TeamXtremeOS
