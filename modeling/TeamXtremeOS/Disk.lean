/-
  The floppy disk: `mod`, `readSector` and `writeSector` of `kernel.c`, on top
  of the BIOS disk service (`int 0x13`).

  `int` is a 16-bit two's complement number and `char` an unsigned byte, as
  the compiler has them.
-/
import Mathlib
import TeamXtremeOS.Lib.Request

namespace TeamXtremeOS

open Lib

/-- The 512 bytes of a sector, or of a buffer of that size. -/
abbrev Sector := Fin 512 → UInt8

/-- The sectors of a disk, by linear sector number. -/
abbrev Disk := ℕ → Sector

/-- Code that issues requests to the disk. -/
abbrev DiskProg := Prog ℕ Sector

/-- Conversion of an `int` to a `char`. -/
def toChar (x : Int16) : UInt8 := x.toUInt16.toUInt8

/-- Promotion of a `char` to an `int`. -/
def ofChar (c : UInt8) : Int16 := Int16.ofNat c.toNat

/-! ## The BIOS -/

/-- The upper half of a 16-bit register. -/
def highByte (x : Int16) : UInt8 := (x.toUInt16 >>> 8).toUInt8

/-- The linear number of the sector at cylinder `ch`, head `dh`, sector `cl`
    of a 1.44 MB floppy. -/
def linearSector (ch dh cl : UInt8) : Option ℕ :=
  if 1 ≤ cl ∧ cl ≤ 18 ∧ dh ≤ 1 ∧ ch ≤ 79 then
    some ((ch.toNat * 2 + dh.toNat) * 18 + cl.toNat - 1)
  else none

/-- `int 0x13` on drive 0 with one sector: `AX = 0x0201` reads it into the
    buffer, `AX = 0x0301` writes the buffer to it.  The result is the buffer
    afterwards; a position that is not on the disk moves no data. -/
def int13 (ax cx dx : Int16) (buf : Sector) : DiskProg Sector :=
  match linearSector (highByte cx) (highByte dx) (toChar cx) with
  | none => .ret buf
  | some n =>
    if ax = 0x0201 then .read n .ret
    else if ax = 0x0301 then .write n buf (.ret buf)
    else .ret buf

/-! ## The kernel's side -/

/-- The loop of `mod`. -/
def modLoop (number div : Int16) : ℕ → Int16 → Int16 → Option Int16
  | 0, _, _ => none
  | fuel + 1, modulo, temp =>
    if modulo ≤ number then modLoop number div fuel (modulo + div) (temp - div) else some temp

/-- `mod`, `none` when its loop does not end: whether it goes on depends on
    `modulo` alone, which takes at most `2 ^ 16` values. -/
def mod (number modulo : Int16) : Option Int16 :=
  modLoop number modulo 65536 modulo number

/-- The registers `cx` and `dx` both sector functions compute. -/
def sectorRegisters (sector : Int16) : Option (Int16 × Int16) := do
  let r ← mod sector 18
  let relSector := toChar (r + 1)
  let h ← mod (sector / 18) 2
  let head := toChar h
  let track := toChar (sector / 36)
  return (ofChar track * 256 + ofChar relSector, ofChar head * 256 + 0x00)

/-- `readSector`: the 512 bytes at `buf` afterwards. -/
def readSector (buf : Sector) (absSector : Int16) : DiskProg Sector := do
  let (cx, dx) ← Prog.ofOption (sectorRegisters absSector)
  int13 (0x02 * 256 + 0x01) cx dx buf

/-- `writeSector` of the 512 bytes at `buffer`. -/
def writeSector (buffer : Sector) (sector : Int16) : DiskProg Unit := do
  let (cx, dx) ← Prog.ofOption (sectorRegisters sector)
  let _ ← int13 (0x03 * 256 + 0x01) cx dx buffer
  return ()

end TeamXtremeOS
