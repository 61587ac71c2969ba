/-
  The loop of `shell.c`, with all its commands.

  `Command` has those that name files; the others are here.  `executeProgram`
  prints a text of the kernel when there is no PCB, but with the data segment of
  the shell: what comes on the screen then is not known.
-/
import TeamXtremeOS.Shell

namespace TeamXtremeOS

open Lib

/-- The arrays of the shell that live from one command to the next, and the
    kernel. -/
structure Shell where
  line : Buffer
  buffer : Buffer
  kernel : Kernel

/-- What is typed before the next enter key, and what the local array
    `unusedSectors` of `writeFile` holds. -/
structure Entry where
  keys : List UInt8
  unusedSectors : ℕ → Int16

/-! ## The commands that name files -/

/-- `buffer` behind a `readFile`. -/
def readInto (name : FileName) (buffer : Buffer) (d : Disk) : Buffer :=
  ((readFile name buffer).exec d).elim buffer fun r => r.1.2

/-- `buffer` behind a command: `type` reads the file twice. -/
def Command.fills (line buffer : Buffer) (d : Disk) : Command → Buffer
  | type => readInto (window 5 line) (readInto (window 5 line) buffer d) d
  | execute => buffer
  | delete => buffer
  | copy => readInto (window 5 line) buffer d

/-- `executeProgram` has a segment for the file, but no PCB. -/
def NoPCB (name : FileName) (k : Kernel) : Prop :=
  (executeProgram name k).map Prod.fst = some (-2) ∧ (getFreeMemorySegment k.toProc).1 ≠ none

instance (name : FileName) (k : Kernel) : Decidable (NoPCB name k) := inferInstanceAs (Decidable (_ ∧ _))

/-- The shell behind a command, and what is printed. -/
def Shell.file (sh : Shell) (unusedSectors : ℕ → Int16) (c : Command) : Option (Shell × List UInt8) :=
  if c = .execute ∧ NoPCB (window 8 sh.line) sh.kernel then none
  else (c.run unusedSectors sh.line sh.buffer sh.kernel).result.map fun (k, out) =>
    ({ sh with buffer := c.fills sh.line sh.buffer sh.kernel.disk, kernel := k }, out)

/-! ## The other commands -/

/-- The loop of `dir` over the entries in `dirBuffer`: it prints each name with a
    zero behind it. -/
def dirLoop : List (Fin 16) → Sector → Option (List UInt8)
  | [], _ => some []
  | j :: js, dir =>
    if nameByte dir j 0 ≠ 0x00 then do
      let dir := Function.update dir (entryByte j 6) 0x00
      let name ← terminated 0 ((List.ofFn dir).drop (32 * j.val))
      (dirLoop js dir).map fun out => name ++ text "\n\r" ++ out
    else dirLoop js dir

/-- The commands that do not name files. -/
inductive Builtin where
  | dir
  | ps
  | kill
  | help
  deriving DecidableEq, Repr

namespace Builtin

/-- The word a command starts with. -/
def word : Builtin → List UInt8
  | dir => text "dir"
  | ps => text "ps"
  | kill => text "kill"
  | help => text "help"

def startsLine (line : Buffer) (b : Builtin) : Bool :=
  stringMatch (fun i : Fin b.word.length => line i.val) fun i => b.word.get i

def ofLine (line : Buffer) : Option Builtin := [dir, ps, kill, help].find? (startsLine line)

end Builtin

def helpText : List UInt8 :=
  text "\n\n\rTo see the current files on disk, enter 'dir',\r" ++
  text "\n\rTo view the contents of the file, enter 'type'\r" ++
  text "\n\rTo execute a program, enter 'execute <filename>'\r" ++
  text "\n\rOne such file is a text editor. To use the text editor, enter 'execute texted'\r" ++
  text "\n\rTo copy a file's contents to a new file, enter 'copy <filename> <newfilename>'\r" ++
  text "\n\rTo delete a file, enter 'delete <filename>'\r" ++
  text "\n\rTo show the currently running processes, enter 'ps'\r" ++
  text "\n\rTo stop a currently running process, enter 'kill <filename>'\r" ++
  text "\n\r"

namespace Shell

/-- `kill(name)` passes the address of the array `name`. -/
def builtin (sh : Shell) (name : Int16) : Builtin → Option (Shell × List UInt8)
  | .dir =>
    match (readSector (fun _ => 0) 2).exec sh.kernel.disk with
    | none => none
    | some (dirBuffer, _) => (dirLoop (List.finRange 16) dirBuffer).map fun out => (sh, text "\n\r" ++ out)
  | .ps => (showProcesses sh.kernel.toProc).map fun out => (sh, text "\n\r" ++ out.flatten ++ text "\n\r")
  | .kill =>
    let (returner, s) := TeamXtremeOS.kill name sh.kernel.toProc
    some ({ sh with kernel := { sh.kernel with toProc := s } },
      if returner = -1 then text "\n\rProgram was not killed" else text "\n\rProgram was killed")
  | .help => some (sh, helpText)

/-- What `main` does with the line. -/
def obey (sh : Shell) (name : Int16) (unusedSectors : ℕ → Int16) : Option (Shell × List UInt8) :=
  match Command.ofLine sh.line with
  | some c => sh.file unusedSectors c
  | none =>
    match Builtin.ofLine sh.line with
    | some b => sh.builtin name b
    | none => some (sh, text "\n\rUnrecognized Command")

/-- One turn of the loop of `main`: the shell afterwards, and what has come on
    the screen. -/
def turn (sh : Shell) (name : Int16) (t : Entry) : Option (Shell × List UInt8) := do
  let (_, line, echo) ← readString (t.keys ++ [0x0D]) sh.line
  let (sh, out) ← { sh with line := line }.obey name t.unusedSectors
  return (sh, text "\n\rShell>" ++ echo ++ out)

def step (name : Int16) (sh : Shell) (t : Entry) : Option Shell := (sh.turn name t).map Prod.fst

end Shell

end TeamXtremeOS
