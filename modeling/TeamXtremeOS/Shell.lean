/-
  The console of the kernel, `readString`, `printString` and `showProcesses` of
  `kernel.c`, and the commands of `shell.c` that name files; the loop of the
  shell is in `Session`.

  A wrapper of `userlib.c` hands back in `AX` what the function of the kernel
  has returned.
-/
import TeamXtremeOS.Kernel
import TeamXtremeOS.Lib.Terminated

namespace TeamXtremeOS

open Lib

/-! ## The console -/

/-- How far an `int` moves a pointer. -/
def offset (i : Int16) : ℕ := i.toUInt16.toNat

/-- The loop of `readString` over the keys that are typed: its value, the buffer
    afterwards, and the characters sent to the screen.  It does not end before
    the enter key. -/
def readKeys : List UInt8 → Int16 → Buffer → Option (Int16 × Buffer × List UInt8)
  | [], _, _ => none
  | key :: keys, i, buf =>
    if key = 0x0D then some (i, Function.update buf (offset i) 0x00, [])
    else if key = 0x08 then
      if i ≠ 0 then
        (readKeys keys (i - 1) (Function.update buf (offset (i - 1)) 0x0)).map
          fun (n, buf, out) => (n, buf, [0x08, 0x20, 0x08] ++ out)
      else readKeys keys i buf
    else
      (readKeys keys (i + 1) (Function.update buf (offset i) key)).map
        fun (n, buf, out) => (n, buf, key :: out)

def readString (keys : List UInt8) (buf : Buffer) : Option (Int16 × Buffer × List UInt8) :=
  readKeys keys 0 buf

/-- The loop of `printString`: the characters sent to the screen. -/
def printLoop (str : Buffer) : ℕ → Int16 → Option (List UInt8)
  | 0, _ => none
  | fuel + 1, i =>
    let al := str (offset i)
    if al = 0 then some [] else (printLoop str fuel (i + 1)).map (al :: ·)

/-- `printString`, `none` when its loop does not end: after `2 ^ 16` turns the
    index is the first one again. -/
def printString (str : Buffer) : Option (List UInt8) := printLoop str 65536 0

/-- The characters of a string literal. -/
def text (s : String) : List UInt8 := s.toList.map fun c => UInt8.ofNat c.toNat

/-- What `printString(pcb->name)` sends to the screen; without a zero among its
    seven bytes it runs on behind the name. -/
def PCB.printed (b : PCB) : Option (List UInt8) := terminated 0 (List.ofFn b.name)

/-- The loop of `showProcesses`: the strings it prints, `none` when it follows a
    `NULL` pointer or has no turn left. -/
def showLoop (s : Proc) : ℕ → PCBRef → Option (List (List UInt8))
  | 0, _ => none
  | fuel + 1, pcb => do
    let name ← (s.pcb s.running).printed
    let pcb ← (s.pcb pcb).next
    let second ← (s.pcb pcb).next
    match (s.pcb second).next with
    | some _ => (showLoop s fuel pcb).map (name :: ·)
    | none => return [name]

/-- `showProcesses`: the strings it prints.  There are nine PCBs: after as many
    turns the loop is at one of them again. -/
def showProcesses (s : Proc) : Option (List (List UInt8)) := do
  let pcb ← s.readyHead
  (showLoop s 9 pcb).map (text "\n\rCurrent Processes:\n\r" :: ·)

/-! ## The commands -/

/-- The loop `name[i] = line[i+o]`. -/
def window (o : ℕ) (line : Buffer) : FileName := fun i => line (i.val + o)

/-- What comes of a command: the names it passes to the kernel; the kernel
    afterwards and what is printed, if the command comes to an end. -/
structure Answer where
  names : List FileName
  result : Option (Kernel × List UInt8)

/-- `type`.  There is room for 26 sectors in `buffer`. -/
def typeFile (line buffer : Buffer) (k : Kernel) : Answer :=
  let name := window 5 line
  { names := [name]
    result :=
      match (readFile name buffer).exec k.disk with
      | none => none
      | some ((found, buffer), _) =>
        if found = -1 then some (k, text "\n\rfile not found")
        else if 26 < found then none
        else match (readFile name buffer).exec k.disk with
          | none => none
          | some ((_, buffer), _) => (printString buffer).map fun out => (k, text "\n\r" ++ out) }

def executeFile (line : Buffer) (k : Kernel) : Answer :=
  let name := window 8 line
  { names := [name]
    result := (executeProgram name k).map fun (r, k) =>
      (k, text "\n\r" ++ if r = -1 then text "program not found" else []) }

def removeFile (line : Buffer) (k : Kernel) : Answer :=
  let name := window 7 line
  { names := [name]
    result := ((deleteFile name).exec k.disk).map fun (r, disk) =>
      ({ k with disk := disk }, text "\r" ++ if r = -1 then text "\nfile not found" else []) }

/-- `copy`; a file that is not found has `-1` sectors, and is written. -/
def copyFile (unusedSectors : ℕ → Int16) (line buffer : Buffer) (k : Kernel) : Answer :=
  let name := window 5 line
  let name2 := window 12 line
  { names := [name, name2]
    result :=
      match (readFile name buffer).exec k.disk with
      | none => none
      | some ((numSectors, buffer), _) =>
        if 26 < numSectors then none
        else ((writeFile name2 buffer numSectors unusedSectors).exec k.disk).map fun (returner, disk) =>
          ({ k with disk := disk },
            text "\n\r" ++ (if numSectors = -1 then text "program not found" else []) ++
              if returner = -2 then text "Disk is full"
              else if returner = -1 then text "Disk Directory is full" else []) }

/-- The commands that name files. -/
inductive Command where
  | type
  | execute
  | delete
  | copy
  deriving DecidableEq, Repr

namespace Command

/-- The word a command starts with. -/
def word : Command → List UInt8
  | type => text "type"
  | execute => text "execute"
  | delete => text "delete"
  | copy => text "copy"

/-- `stringMatch(line, …)` with the word of the command. -/
def startsLine (line : Buffer) (c : Command) : Bool :=
  stringMatch (fun i : Fin c.word.length => line i.val) fun i => c.word.get i

/-- The command in the line: the first one that matches. -/
def ofLine (line : Buffer) : Option Command :=
  [type, execute, delete, copy].find? (startsLine line)

def run (unusedSectors : ℕ → Int16) (line buffer : Buffer) (k : Kernel) : Command → Answer
  | type => typeFile line buffer k
  | execute => executeFile line k
  | delete => removeFile line k
  | copy => copyFile unusedSectors line buffer k

end Command

/-- One turn of the shell's loop: a line is read and its command is run. -/
def shellTurn (keys : List UInt8) (unusedSectors : ℕ → Int16) (line buffer : Buffer) (k : Kernel) :
    Option Answer := do
  let (_, line, _) ← readString keys line
  let c ← Command.ofLine line
  return c.run unusedSectors line buffer k

end TeamXtremeOS
