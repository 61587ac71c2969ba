/-
  The video memory: `putChar` and `putStr` of `kernel.c`.

  A character of the screen is two bytes of the segment `0xB800`, the character
  and its colour.  The string is not in that segment.
-/
import TeamXtremeOS.Shell

namespace TeamXtremeOS

open Lib

/-- Code that stores bytes in the memory, by segment and offset. -/
abbrev MemProg := Prog (Int16 × UInt16) UInt8

def putInMemory (segment address : Int16) (character : UInt8) : MemProg Unit :=
  .write (segment, address.toUInt16) character (.ret ())

def putChar (toBePrinted : UInt8) (row col color : Int16) : MemProg Unit := do
  let offset := (80 * (row - 1)) * 2 + (col * 2)
  putInMemory 0xB800 offset toBePrinted
  putInMemory 0xB800 (offset + 1) (toChar color)

/-- The loop of `putStr`. -/
def putStrLoop (strToBePrinted : Buffer) (color : Int16) : ℕ → Int16 → Int16 → Int16 → MemProg Unit
  | 0, _, _, _ => .fail
  | fuel + 1, i, currentRow, currentCol =>
    if strToBePrinted (offset i) = 0 then return ()
    else do
      let (currentRow, currentCol) :=
        if currentCol > 80 then (currentRow + 1, 1) else (currentRow, currentCol)
      putChar (strToBePrinted (offset i)) currentRow currentCol color
      putStrLoop strToBePrinted color fuel (i + 1) currentRow (currentCol + 1)

/-- `putStr`, without a result when its loop does not end: after `2 ^ 16` turns
    the index is the first one again. -/
def putStr (strToBePrinted : Buffer) (row col color : Int16) : MemProg Unit :=
  putStrLoop strToBePrinted color 65536 0 row col

end TeamXtremeOS
