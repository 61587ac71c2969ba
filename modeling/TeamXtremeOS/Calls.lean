/-
  The calls between C and the routines of `kernel.asm` and `lib.asm`: `putInMemory`
  from the loops of the kernel, and the way of a system call from a function of
  `userlib.c` to `handleInterrupt21` and back.
-/
import TeamXtremeOS.Cpu
import TeamXtremeOS.Video

namespace TeamXtremeOS

open Lib

namespace Cpu
variable (c : Cpu)

/-- What C pushes for a call: the arguments, the last one first, and the return
    address. -/
def enter (args : List Int16) (ret : Int16) : Cpu := (args.reverse ++ [ret]).foldl push c

/-- The caller removes the arguments. -/
def drop (args : List Int16) : Cpu := c.set .sp (c.reg .sp + Int16.ofNat (2 * args.length))

/-- A call of a routine. -/
def call (code : List Instr) (args : List Int16) (ret : Int16) : Cpu := ((c.enter args ret).run code).drop args

end Cpu

/-! ## Stores in other segments -/

/-- A program of stores on the processor: each one is a call of `putInMemory`. -/
def Cpu.obey {R : Type} (ret : Int16) : MemProg R → Cpu → Option (R × Cpu)
  | .ret r, c => some (r, c)
  | .fail, _ => none
  | .read a p, c => obey ret (p (c.mem a.1 a.2)) c
  | .write a b p, c => obey ret p (c.call Asm.putInMemory [a.1, a.2.toInt16, ofChar b] ret)

/-- The loop of `executeProgram` over the bytes it has read. -/
def loadProgram (segment : Int16) (buf : Buffer) : ℕ → MemProg Unit
  | 0 => return ()
  | i + 1 => do
    loadProgram segment buf i
    putInMemory segment (Int16.ofNat i) (buf i)

/-! ## System calls -/

/-- What `handleInterrupt21` calls. -/
inductive Service where
  | printString (str : Int16)
  /-- The character is stored at `dest`. -/
  | readChar (dest : Int16)
  | readString (buf : Int16)
  | readFile (filename buf : Int16)
  | executeProgram (name : Int16)
  | terminate
  | deleteFile (fname : Int16)
  | writeFile (fname buffer sectors : Int16)
  | readSector (buf absSector : Int16)
  | yield
  | showProcesses
  | kill (segment : Int16)
  | sleep (seconds : Int16)
  deriving DecidableEq, Repr

/-- `handleInterrupt21`, up to the call it makes; it returns -1 if there is none. -/
def handleInterrupt21 (ax bx cx dx : Int16) : Option Service :=
  if ax = 0x00 then some (.printString bx)
  else if ax = 0x11 then some (.readChar bx)
  else if ax = 0x01 then some (.readString bx)
  else if ax = 0x03 then some (.readFile bx cx)
  else if ax = 0x04 then some (.executeProgram bx)
  else if ax = 0x05 then some .terminate
  else if ax = 0x07 then some (.deleteFile bx)
  else if ax = 0x08 then some (.writeFile bx cx dx)
  else if ax = 0x98 then some (.readSector bx cx)
  else if ax = 0x09 then some .yield
  else if ax = 0x0A then some .showProcesses
  else if ax = 0x0B then some (.kill bx)
  else if ax = 0xA1 then some (.sleep bx)
  else none

/-- What `handleInterrupt21` returns, if the function it has called returns `left`:
    where it has no `return` of its own, that stays in `AX`. -/
def returned (left : Int16) : Option Service → Int16
  | some (.printString _) | some (.readChar _) | some .yield | some .showProcesses | some (.sleep _) => 1
  | none => -1
  | _ => left

/-- The functions of `userlib.c`. -/
inductive UserCall where
  | printString (toBePrinted : Int16)
  | readChar
  | readString (input : Int16)
  | readFile (fileName buffer : Int16)
  | executeFile (fileName : Int16)
  | terminate
  | deleteFile (fname : Int16)
  | writeFile (fname buffer sectors : Int16)
  | readSector (buf absSector : Int16)
  | yield
  | showProcesses
  | kill (segment : Int16)
  | sleep (seconds : Int16)

/-- The arguments they give to `interrupt`: `readSector` gives it four. -/
def UserCall.args : UserCall → List Int16
  | .printString toBePrinted => [0x21, 0x00, toBePrinted, 0, 0]
  | .readChar => [0x21, 0x11, 0, 0, 0]
  | .readString input => [0x21, 0x01, input, 0, 0]
  | .readFile fileName buffer => [0x21, 0x03, fileName, buffer, 0]
  | .executeFile fileName => [0x21, 0x04, fileName, 0, 0]
  | .terminate => [0x21, 0x05, 0, 0, 0]
  | .deleteFile fname => [0x21, 0x07, fname, 0, 0]
  | .writeFile fname buffer sectors => [0x21, 0x08, fname, buffer, sectors]
  | .readSector buf absSector => [0x21, 0x98, buf, absSector]
  | .yield => [0x21, 0x09, 0, 0, 0]
  | .showProcesses => [0x21, 0x0A, 0, 0, 0]
  | .kill segment => [0x21, 0x0B, segment, 0, 0]
  | .sleep seconds => [0x21, 0xA1, seconds, 0, 0]

namespace Cpu
variable (c : Cpu) (intr : Int16)

/-- The processor at the first instruction of `interrupt21ServiceRoutine`, if the
    vector leads there: a program has called its `interrupt`, whose `int` is at
    `intr`. -/
def trap (args : List Int16) (ret : Int16) : Cpu :=
  let c := (c.enter args ret).run (Asm.interrupt intr)
  (c.set .ip (intr + 2)).int (c.mem (c.reg .cs) (intr + 1).toUInt16)

/-- The processor at the first instruction of `handleInterrupt21`, which has been
    called from `back`. -/
def serve (args : List Int16) (ret back : Int16) : Cpu :=
  ((c.trap intr args ret).run Asm.interrupt21ServiceRoutine).push back

/-- The way back, when `handleInterrupt21` has returned. -/
def leaveKernel (args : List Int16) : Cpu := ((c.run Asm.interrupt21Return).run Asm.interruptReturn).drop args

/-- Argument `k` of a C function that has just been entered. -/
def arg (k : ℕ) : Int16 := c.word (c.reg .ss) (c.reg .sp + Int16.ofNat (2 * (k + 1)))

end Cpu

end TeamXtremeOS
