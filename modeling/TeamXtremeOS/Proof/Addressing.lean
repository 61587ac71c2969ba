/-
  Where `readSector` and `writeSector` turn to, and what is read from a sector of
  the floppy after any number of writes.
-/
import TeamXtremeOS.Proof.Modulo

namespace TeamXtremeOS

open Lib

/-! ## The registers -/

theorem toChar_ofNat (n : ℕ) : toChar (Int16.ofNat n) = UInt8.ofNat n := by
  apply UInt8.toNat_inj.1
  simp [toChar]

theorem highByte_ofNat {n : ℕ} (h : n < 65536) : highByte (Int16.ofNat n) = UInt8.ofNat (n / 256) := by
  apply UInt8.toNat_inj.1
  simp [highByte, Nat.shiftRight_eq_div_pow, Nat.mod_eq_of_lt h]

theorem ofChar_ofNat {n : ℕ} (h : n < 256) : ofChar (UInt8.ofNat n) = Int16.ofNat n := by
  simp [ofChar, Nat.mod_eq_of_lt h]

theorem sectorRegisters_ofNat {n : ℕ} (h : n < 2880) : sectorRegisters (Int16.ofNat n) =
    some (Int16.ofNat (n / 36 * 256 + (n % 18 + 1)), Int16.ofNat (n / 18 % 2 * 256)) := by
  have h18 : mod (Int16.ofNat n) 18 = some (Int16.ofNat (n % 18)) :=
    mod_ofNat (m := 18) (by omega) (by omega)
  have hd18 : Int16.ofNat n / 18 = Int16.ofNat (n / 18) := div_ofNat (m := 18) (by omega) (by omega)
  have hd36 : Int16.ofNat n / 36 = Int16.ofNat (n / 36) := div_ofNat (m := 36) (by omega) (by omega)
  have h2 : mod (Int16.ofNat (n / 18)) 2 = some (Int16.ofNat (n / 18 % 2)) :=
    mod_ofNat (m := 2) (by omega) (by omega)
  simp only [sectorRegisters, h18, hd18, hd36, h2, ofNat_succ, toChar_ofNat, Option.bind_eq_bind,
    Option.bind_some, Option.pure_def]
  rw [ofChar_ofNat (by omega), ofChar_ofNat (by omega), ofChar_ofNat (by omega)]
  simp [Int16.ofNat_add, Int16.ofNat_mul]

/-- **Sector addressing is the identity** on the sectors of the floppy. -/
theorem linearSector_registers {n : ℕ} (h : n < 2880) :
    linearSector (highByte (Int16.ofNat (n / 36 * 256 + (n % 18 + 1))))
      (highByte (Int16.ofNat (n / 18 % 2 * 256)))
      (toChar (Int16.ofNat (n / 36 * 256 + (n % 18 + 1)))) = some n := by
  rw [highByte_ofNat (by omega), highByte_ofNat (by omega), toChar_ofNat, linearSector, if_pos]
  · simp only [UInt8.toNat_ofNat', Option.some.injEq]; omega
  · simp only [UInt8.le_iff_toNat_le, UInt8.toNat_ofNat', UInt8.toNat_ofNat]; omega

theorem readSector_ofNat {n : ℕ} (h : n < 2880) (buf : Sector) :
    readSector buf (Int16.ofNat n) = .read n .ret := by
  simp only [readSector, sectorRegisters_ofNat h, Prog.ofOption, Prog.ret_bind, int13,
    linearSector_registers h]
  rfl

theorem writeSector_ofNat {n : ℕ} (h : n < 2880) (buffer : Sector) :
    writeSector buffer (Int16.ofNat n) = .write n buffer (.ret ()) := by
  simp only [writeSector, sectorRegisters_ofNat h, Prog.ofOption, Prog.ret_bind, int13,
    linearSector_registers h]
  rfl

/-! ## Reading back -/

/-- The sectors of the floppy: the numbers from 0 to 2879, each an `int`. -/
abbrev FloppySector := {sector : Int16 // 0 ≤ sector.toInt ∧ sector.toInt < 2880}

/-- The place of a sector on the disk. -/
def FloppySector.linear (s : FloppySector) : ℕ := s.val.toInt.toNat

/-- Calls of `writeSector`, one after the other. -/
def writeSectors : List (FloppySector × Sector) → DiskProg Unit
  | [] => return ()
  | (s, b) :: ws => do
    writeSector b s.val
    writeSectors ws

/-- What the calls leave in a sector: the buffer of the last one for it, or what
    was in it before. -/
def lastWritten (ws : List (FloppySector × Sector)) (t : FloppySector) (old : Sector) : Sector :=
  ((ws.reverse.find? fun w => w.1 = t).map Prod.snd).getD old

variable {s t : FloppySector} {b : Sector} {d : Disk} {ws : List (FloppySector × Sector)}

namespace FloppySector

theorem linear_lt (s : FloppySector) : s.linear < 2880 := by
  have := s.property
  rw [linear]
  omega

theorem ofNat_linear (s : FloppySector) : Int16.ofNat s.linear = s.val :=
  Int16.ofNat_toNatClampNeg s.val (Int16.le_iff_toInt_le.2 s.property.1)

/-- Two sectors have two places. -/
theorem linear_inj : s.linear = t.linear ↔ s = t := by
  constructor
  · intro h
    ext
    rw [← s.ofNat_linear, h, t.ofNat_linear]
  · intro h
    rw [h]

theorem readSector_eq (t : FloppySector) (buf : Sector) : readSector buf t.val = .read t.linear .ret := by
  rw [← t.ofNat_linear]
  exact readSector_ofNat t.linear_lt buf

theorem writeSector_eq (s : FloppySector) (b : Sector) : writeSector b s.val = .write s.linear b (.ret ()) := by
  rw [← s.ofNat_linear]
  exact writeSector_ofNat s.linear_lt b

end FloppySector

/-- The calls write each buffer to its place. -/
theorem writeSectors_eq (ws : List (FloppySector × Sector)) :
    writeSectors ws = Prog.writes (ws.map fun w => (w.1.linear, w.2)) (.ret ()) := by
  induction ws with
  | nil => rfl
  | cons w ws ih =>
    rw [writeSectors, w.1.writeSector_eq, ih]
    rfl

theorem store_linear : Prog.store (ws.map fun w => (w.1.linear, w.2)) d t.linear = lastWritten ws t (d t.linear) := by
  rw [Prog.store_apply, lastWritten, ← List.map_reverse, List.find?_map, Option.map_map]
  simp only [Function.comp_def, FloppySector.linear_inj]

/-- **Sector addressing is faithful**: a sector is read as it was written last,
    and a write changes no other sector. -/
theorem readSector_written (d : Disk) (t : FloppySector) (buf : Sector) :
    (∀ b s, (writeSector b s.val >>= fun _ => readSector buf t.val).exec d =
      some (if s = t then b else d t.linear, Function.update d s.linear b)) ∧
    ∀ ws, (writeSectors ws >>= fun _ => readSector buf t.val).exec d =
      some (lastWritten ws t (d t.linear), Prog.store (ws.map fun w => (w.1.linear, w.2)) d) := by
  constructor
  · intro b s
    rw [s.writeSector_eq, t.readSector_eq, Prog.write_bind, Prog.ret_bind]
    simp only [Prog.exec, Function.update_apply, FloppySector.linear_inj, eq_comm (a := t)]
  · intro ws
    rw [writeSectors_eq, t.readSector_eq, Prog.writes_bind, Prog.exec_writes, Prog.ret_bind]
    simp only [Prog.exec, store_linear]

end TeamXtremeOS
