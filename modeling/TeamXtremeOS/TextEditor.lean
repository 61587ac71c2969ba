/-
  The line editor of `texted.c`, up to its call of `writeFile`.
-/
import TeamXtremeOS.Shell

namespace TeamXtremeOS

/-- The keys that are typed before an enter key. -/
structure Line where
  keys : List UInt8
  noEnter : ∀ key ∈ keys, key ≠ 0x0D

/-- The memory behind `buf+i`. -/
def behind (buf : Buffer) (i : Int16) : Buffer := fun o => buf ((offset i + o) % 65536)

/-- The memory behind `buf` when the memory behind `buf+i` is `mem`. -/
def putBehind (buf : Buffer) (i : Int16) (mem : Buffer) : Buffer := fun o =>
  if o < 65536 then mem ((o + 65536 - offset i) % 65536) else buf o

/-- `readString(buf+i)`, with the next line from the keyboard. -/
def readLine (line : Line) (buf : Buffer) (i : Int16) : Option (Int16 × Buffer × List UInt8) :=
  (readString (line.keys ++ [0x0D]) (behind buf i)).map fun (n, mem, out) => (n, putBehind buf i mem, out)

/-- The arguments of `writeFile`, the characters that have been sent to the
    screen, and the lines that have not been read. -/
structure Saving where
  fname : FileName
  buffer : Buffer
  sectors : Int16
  screen : List UInt8
  rest : List Line

/-- Characters on the screen before the others. -/
def Saving.shown (out : List UInt8) (s : Saving) : Saving := { s with screen := out ++ s.screen }

/-- The loop of `main`, and what follows it; `none` when it waits for one more
    line. -/
def editLoop (filename : Buffer) (lines : List Line) (tracker : Int16) (file : Buffer) : Option Saving :=
  if file (offset (tracker - 1)) = 0x04 then
    some { fname := window 0 filename
           buffer := Function.update file (offset (tracker - 1)) 0x00
           sectors := (tracker + 511) / 512
           screen := []
           rest := lines }
  else match lines with
    | [] => none
    | line :: lines =>
      (readLine line file tracker).bind fun (tracker, file, out) =>
        (editLoop filename lines tracker file).map (Saving.shown out)

/-- `main`; the last two arguments are what its arrays hold at the start, each
    with the memory behind it. -/
def texted (lines : List Line) (filename file : Buffer) : Option Saving :=
  match lines with
  | name :: line :: lines =>
    (readLine name filename 0).bind fun (_, filename, out) =>
      (readLine line file 0).bind fun (tracker, file, out') =>
        (editLoop filename lines tracker file).map (Saving.shown
          (text "Enter filename into which the entered text will be stored: " ++ out ++ text "\n\r" ++
            text "Start typing. Press CTRL+D to break text and Return to save & exit.\n\r" ++ out'))
  | _ => none

end TeamXtremeOS
