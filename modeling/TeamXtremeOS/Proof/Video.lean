/-
  `putStr` fills consecutive cells of the screen, from one row to the next.
-/
import TeamXtremeOS.Video
import TeamXtremeOS.Proof.Shell

namespace TeamXtremeOS

open Lib

variable {str : Buffer} {color row col : Int16} {c x : UInt8} {cs : List UInt8} {i m n p r k fuel : ℕ}
  {w : (Int16 × UInt16) × UInt8}

/-! ## Cells -/

/-- The stores of a text from cell `p` on: each character, and its colour. -/
def cellWrites (color : UInt8) : ℕ → List UInt8 → List ((Int16 × UInt16) × UInt8)
  | _, [] => []
  | p, c :: cs => ((0xB800, UInt16.ofNat (2 * p)), c) :: ((0xB800, UInt16.ofNat (2 * p + 1)), color) ::
      cellWrites color (p + 1) cs

/-- The places are the bytes from that of the first cell on. -/
theorem cellWrites_places (x : UInt8) (p : ℕ) (cs : List UInt8) : (cellWrites x p cs).map Prod.fst =
    (List.range' (2 * p) (2 * cs.length)).map fun o => (0xB800, UInt16.ofNat o) := by
  induction cs generalizing p with
  | nil => rfl
  | cons c cs ih =>
    have hlen : 2 * (c :: cs).length = 2 * cs.length + 1 + 1 := rfl
    rw [cellWrites, List.map_cons, List.map_cons, ih, hlen, List.range'_succ, List.range'_succ]
    rfl

/-- **No place is written twice.** -/
theorem cellWrites_nodup (h : 2 * (p + cs.length) ≤ 65536) : ((cellWrites x p cs).map Prod.fst).Nodup := by
  rw [cellWrites_places]
  refine List.Nodup.map_on ?_ List.nodup_range'
  intro a ha b hb hab
  obtain ⟨ha, ha'⟩ := List.mem_range'_1.1 ha
  obtain ⟨hb, hb'⟩ := List.mem_range'_1.1 hb
  have hval := congrArg (fun q : Int16 × UInt16 => q.2.toNat) hab
  simp only [UInt16.toNat_ofNat'] at hval
  omega

theorem mem_cellWrites : w ∈ cellWrites x p cs ↔ ∃ i c, cs[i]? = some c ∧
    (w = ((0xB800, UInt16.ofNat (2 * (p + i))), c) ∨ w = ((0xB800, UInt16.ofNat (2 * (p + i) + 1)), x)) := by
  induction cs generalizing p with
  | nil => simp [cellWrites]
  | cons c cs ih =>
    rw [cellWrites, List.mem_cons, List.mem_cons, ih]
    constructor
    · rintro (h | h | ⟨i, c', hi, h⟩)
      · exact ⟨0, c, rfl, .inl h⟩
      · exact ⟨0, c, rfl, .inr h⟩
      · refine ⟨i + 1, c', by rwa [List.getElem?_cons_succ], ?_⟩
        rwa [← Nat.add_assoc, Nat.add_right_comm]
    · rintro ⟨_ | i, c', hi, h⟩
      · rw [List.getElem?_cons_zero, Option.some.injEq] at hi
        subst hi
        rcases h with h | h
        · exact .inl h
        · exact .inr (.inl h)
      · rw [List.getElem?_cons_succ] at hi
        rw [← Nat.add_assoc, Nat.add_right_comm] at h
        exact .inr (.inr ⟨i, c', hi, h⟩)

/-! ## The loop -/

/-- The cell of a row and a column. -/
def cellOf (r k : ℕ) : ℕ := 80 * (r - 1) + k

theorem putChar_eq (hr : 1 ≤ r) (f : MemProg Unit) :
    (putChar c (Int16.ofNat r) (Int16.ofNat k) color >>= fun _ => f) =
      .write (0xB800, UInt16.ofNat (2 * cellOf r k)) c
        (.write (0xB800, UInt16.ofNat (2 * cellOf r k + 1)) (toChar color) f) := by
  have hrow : Int16.ofNat r - 1 = Int16.ofNat (r - 1) := by
    rw [Int16.ofNat_sub _ _ hr]
    rfl
  have hoff : 80 * (Int16.ofNat r - 1) * 2 + Int16.ofNat k * 2 = Int16.ofNat (2 * cellOf r k) := by
    rw [hrow, cellOf]
    simp only [Int16.ofNat_add, Int16.ofNat_mul]
    grind
  simp only [putChar, putInMemory, hoff, ofNat_succ, Prog.write_bind, Prog.ret_bind, Int16.toUInt16_ofNat']

/-- **The loop goes on in the next cell**, across the end of a row as within
    one. -/
theorem putStrLoop_eq (hr : 1 ≤ r) (hk : k ≤ 81) (hf : m < fuel) (hi : i + m = n) (hn : n < 65536)
    (hne : ∀ j < n, str j ≠ 0) (hz : str n = 0) :
    putStrLoop str color fuel (Int16.ofNat i) (Int16.ofNat r) (Int16.ofNat k) =
      Prog.writes (cellWrites (toChar color) (cellOf r k) ((List.range' i m).map str)) (.ret ()) := by
  induction m generalizing fuel i r k with
  | zero =>
    obtain ⟨fuel, rfl⟩ : ∃ n, fuel = n + 1 := ⟨fuel - 1, by omega⟩
    obtain rfl : i = n := hi
    rw [putStrLoop, offset_ofNat hn, if_pos hz]
    rfl
  | succ m ih =>
    obtain ⟨fuel, rfl⟩ : ∃ n, fuel = n + 1 := ⟨fuel - 1, by omega⟩
    have hcell : ∀ r' k', 1 ≤ r' → k' ≤ 80 → cellOf r' k' = cellOf r k →
        (putChar (str i) (Int16.ofNat r') (Int16.ofNat k') color >>= fun _ =>
          putStrLoop str color fuel (Int16.ofNat i + 1) (Int16.ofNat r') (Int16.ofNat k' + 1)) =
        Prog.writes (cellWrites (toChar color) (cellOf r k) ((List.range' i (m + 1)).map str)) (.ret ()) := by
      intro r' k' hr' hk' hsame
      have hnext : cellOf r' (k' + 1) = cellOf r k + 1 := by rw [← hsame, cellOf, cellOf, Nat.add_assoc]
      rw [putChar_eq hr', ofNat_succ, ofNat_succ, ih hr' (by omega) (by omega) (by omega), hnext, hsame,
        List.range'_succ, List.map_cons, cellWrites, Prog.writes_cons, Prog.writes_cons]
    have h80 : Int16.ofNat k > 80 ↔ 80 < k := ofNat_lt_ofNat (m := 80) (by omega) (by omega)
    rw [putStrLoop, offset_ofNat (by omega), if_neg (hne i (by omega))]
    split_ifs with hwrap
    · -- the first cell of the next row follows the last one of this row
      rw [ofNat_succ]
      refine hcell (r + 1) 1 (by omega) (by omega) ?_
      rw [h80] at hwrap
      simp only [cellOf]
      omega
    · rw [h80] at hwrap
      exact hcell r k hr (by omega) rfl

/-! ## The string -/

theorem getElem?_string : ((List.range' 0 n).map str)[i]? = some c ↔ i < n ∧ str i = c := by
  rw [← List.range_eq_range', List.getElem?_eq_some_iff]
  simp only [List.length_map, List.length_range, List.getElem_map, List.getElem_range, exists_prop]

theorem eq_ofNat_iff {off : UInt16} (hn : n < 65536) : off = UInt16.ofNat n ↔ off.toNat = n := by
  rw [← UInt16.toNat_inj, UInt16.toNat_ofNat', Nat.mod_eq_of_lt hn]

/-- **`putStr` fills consecutive cells**: character `i` goes to the cell `i`
    places behind the first one, each byte is stored once, and no other is. -/
theorem putStr_cells (hne : ∀ i < n, str i ≠ 0) (hz : str n = 0) (hrow : 1 ≤ row.toInt)
    (hcol : 0 ≤ col.toInt ∧ col.toInt ≤ 80) (hfit : 2 * (80 * (row.toInt - 1) + col.toInt + n) ≤ 32767)
    (color : Int16) : ∃ ws, putStr str row col color = Prog.writes ws (.ret ()) ∧ (ws.map Prod.fst).Nodup ∧
      ∀ seg off x, ((seg, off), x) ∈ ws ↔ seg = 0xB800 ∧ ∃ i < n,
        (off.toNat = 2 * (80 * (row.toInt - 1) + col.toInt + i) ∧ x = str i ∨
          off.toNat = 2 * (80 * (row.toInt - 1) + col.toInt + i) + 1 ∧ x = toChar color) := by
  obtain ⟨r, hr⟩ := Int.eq_ofNat_of_zero_le (show 0 ≤ row.toInt by omega)
  obtain ⟨k, hk⟩ := Int.eq_ofNat_of_zero_le hcol.1
  have hr' : Int16.ofNat r = row := by
    rw [← Int16.toInt_inj, hr, Int16.toInt_ofNat_of_lt (by omega)]
  have hk' : Int16.ofNat k = col := by
    rw [← Int16.toInt_inj, hk, Int16.toInt_ofNat_of_lt (by omega)]
  have hcell : 80 * (row.toInt - 1) + col.toInt = cellOf r k := by
    rw [cellOf]
    omega
  rw [hcell] at hfit ⊢
  refine ⟨cellWrites (toChar color) (cellOf r k) ((List.range' 0 n).map str), ?_, ?_, ?_⟩
  · rw [putStr, ← hr', ← hk']
    exact putStrLoop_eq (by omega) (by omega) (by omega) (Nat.zero_add n) (by omega) hne hz
  · refine cellWrites_nodup ?_
    rw [List.length_map, List.length_range']
    omega
  · intro seg off x
    have hplace : ∀ i < n, (((seg, off), x) = ((0xB800, UInt16.ofNat (2 * (cellOf r k + i))), str i) ∨
        ((seg, off), x) = ((0xB800, UInt16.ofNat (2 * (cellOf r k + i) + 1)), toChar color)) ↔ seg = 0xB800 ∧
          ((off.toNat : ℤ) = 2 * ((cellOf r k : ℤ) + i) ∧ x = str i ∨
            (off.toNat : ℤ) = 2 * ((cellOf r k : ℤ) + i) + 1 ∧ x = toChar color) := by
      intro i hi
      simp only [Prod.mk.injEq, eq_ofNat_iff (show 2 * (cellOf r k + i) < 65536 by omega),
        eq_ofNat_iff (show 2 * (cellOf r k + i) + 1 < 65536 by omega), and_assoc, ← and_or_left]
      norm_cast
    rw [mem_cellWrites]
    constructor
    · rintro ⟨i, c, hi, h⟩
      obtain ⟨hlt, rfl⟩ := getElem?_string.1 hi
      obtain ⟨hseg, h⟩ := (hplace i hlt).1 h
      exact ⟨hseg, i, hlt, h⟩
    · rintro ⟨hseg, i, hlt, h⟩
      exact ⟨i, str i, getElem?_string.2 ⟨hlt, rfl⟩, (hplace i hlt).2 ⟨hseg, h⟩⟩

/-- A string of two characters. -/
def twoChars : Buffer := fun j => if j < 2 then 0x41 else 0

/-- One character at the end of a row, and one on the next row. -/
theorem putStr_cells_two : ∃ ws, putStr twoChars 1 80 7 = Prog.writes ws (.ret ()) ∧ (ws.map Prod.fst).Nodup ∧
    ∀ seg off x, ((seg, off), x) ∈ ws ↔ seg = 0xB800 ∧ ∃ i < 2,
      (off.toNat = 2 * (80 * ((1 : Int16).toInt - 1) + (80 : Int16).toInt + (i : ℕ)) ∧ x = twoChars i ∨
        off.toNat = 2 * (80 * ((1 : Int16).toInt - 1) + (80 : Int16).toInt + i) + 1 ∧ x = toChar 7) :=
  @putStr_cells twoChars 1 80 2 (by decide) (by decide) (by decide) (by decide) (by decide) 7

end TeamXtremeOS
