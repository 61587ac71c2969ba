/-
  The kernel of `kernel.c`: loading a program, the system calls on processes,
  and the timer handler; the machine as a sequence of such steps.
-/
import TeamXtremeOS.FileSystem
import TeamXtremeOS.Proc

namespace TeamXtremeOS

open Lib

/-- The variables of the kernel, the disk, and the memory of the program
    segments, by segment and offset. -/
structure Kernel extends Proc where
  disk : Disk
  mem : Int16 → UInt16 → UInt8

/-- `stringMatch` on the first `length` bytes of its arguments. -/
def stringMatch {length : ℕ} (command input : Fin length → UInt8) : Bool :=
  (List.finRange length).all fun i => command i = input i

/-- `stringMatch(pcb->name, "IDLE\0", 5)`. -/
def PCB.namedIdle (b : PCB) : Bool :=
  stringMatch (fun i : Fin 5 => b.name (i.castLE (by omega))) IDLE

/-- `kStrCopy(src, dest, 6)`: it stops behind the first zero byte. -/
def kStrCopy (src : FileName) : List (Fin 6) → (Fin 7 → UInt8) → Fin 7 → UInt8
  | [], dest => dest
  | i :: is, dest =>
    let dest := Function.update dest i.castSucc (src i)
    if src i = 0x00 then dest else kStrCopy src is dest

/-! ## Starting a program -/

/-- The segment of the memory with index `i`. -/
def segmentOf (i : Int16) : Int16 := 0x1000 * (i + 2)

/-- Load the `found` sectors in `buf` into a segment. -/
def putProgram (segment found : Int16) (buf : Buffer) (mem : Int16 → UInt16 → UInt8) :
    Int16 → UInt16 → UInt8 := fun seg off =>
  if seg = segment ∧ off.toNat < (found * 512).toNatClampNeg then buf off.toNat else mem seg off

/-- The words `initializeProgram` pushes, from the last one at `0xff00` up:
    `es`, `ds`, the seven general registers, the flags, `CS` and `IP`. -/
def stackImage (segment : Int16) : List Int16 :=
  [segment, segment, 0, 0, 0, 0, 0, 0, 0, 0, segment, 0]

def initializeProgram (segment : Int16) (mem : Int16 → UInt16 → UInt8) :
    Int16 → UInt16 → UInt8 := fun seg off =>
  if seg = segment ∧ 0xff00 ≤ off ∧ off < 0xff18 then
    let w := (stackImage segment).getD ((off.toNat - 0xff00) / 2) 0
    if off.toNat % 2 = 0 then toChar w else highByte w
  else mem seg off

/-- Initialize the PCB of a new process. -/
def fillPCB (p : PCBRef) (name : FileName) (segment : Int16) (s : Proc) : Proc :=
  let b := s.pcb p
  s.put p { b with
    name := kStrCopy name (List.finRange 6) b.name
    state := .STARTING, segment := segment, stackPointer := 0xFF00 }

/-- `executeProgram`: its value and the kernel afterwards.  The buffer on the
    stack has room for 26 sectors. -/
def executeProgram (name : FileName) (k : Kernel) : Option (Int16 × Kernel) :=
  match (readFile name fun _ => 0).exec k.disk with
  | none => none
  | some ((found, buf), _) =>
    if found = -1 then some (-1, k)
    else if 26 < found then none
    else match getFreeMemorySegment k.toProc with
      | (none, _) => some (-2, k)
      | (some i, s) =>
        let segment := segmentOf (Int16.ofNat i.val)
        let k := { k with toProc := s, mem := putProgram segment found buf k.mem }
        match getFreePCB k.toProc with
        | (none, _) => some (-2, k)
        | (some p, s) =>
          match addToReady (.pcbPool p) (fillPCB (.pcbPool p) name segment s) with
          | none => none
          | some s => some (1, { k with toProc := s, mem := initializeProgram segment k.mem })

/-! ## System calls on processes -/

/-- `terminate`, up to its endless loop. -/
def terminate (s : Proc) : Proc :=
  releasePCB s.running
    (releaseMemorySegment ((s.pcb s.running).segment / 0x1000 - 2) s)

def yield (s : Proc) : Option Proc := addToReady s.running s

/-- The PCB that `kill` finds. -/
def victim (segment : Int16) (s : Proc) : Option (Fin 8) :=
  (List.finRange 8).find? fun i => (s.pcb (.pcbPool i)).segment = (segment + 2) * 0x1000

def kill (segment : Int16) (s : Proc) : Int16 × Proc :=
  match victim segment s with
  | some i =>
    (1, (releasePCB (.pcbPool i) (releaseMemorySegment segment s)).setState (.pcbPool i) .DEFUNCT)
  | none => (-1, s)

/-! ## The timer -/

/-- One turn of the loop over the sleepers. -/
def updateSleeper (s : Proc) (i : Fin 8) : Option Proc :=
  let b := s.pcb (.pcbPool i)
  if b.state = .SLEEPING then
    let s := s.put (.pcbPool i) { b with sleepCounter := b.sleepCounter - 1 }
    if b.sleepCounter - 1 ≤ 0 then addToReady (.pcbPool i) (s.setState (.pcbPool i) .READY)
    else some s
  else some s

/-- Is the running process put back on the ready queue? -/
def Requeued (s : Proc) : Prop :=
  (s.pcb s.running).state ≠ .DEFUNCT ∧ (s.pcb s.running).namedIdle = false ∧
    (s.pcb s.running).state ≠ .SLEEPING

instance (s : Proc) : Decidable (Requeued s) := inferInstanceAs (Decidable (_ ∧ _))

def requeueRunning (s : Proc) : Option Proc :=
  if Requeued s then addToReady s.running (s.setState s.running .READY) else some s

def dispatch (process : Option PCBRef) (s : Proc) : Proc :=
  match process with
  | none => { s with running := .idleProc }
  | some p => { s.setState p .RUNNING with running := p }

/-- `handleTimerInterrupt`: the arguments of `returnFromTimer`, which does not
    come back, and the variables then.  The parameter `segment` is not used. -/
def handleTimerInterrupt (_segment stackPointer : Int16) (s : Proc) :
    Option ((Int16 × Int16) × Proc) := do
  let s ← (List.finRange 8).foldlM updateSleeper s
  let s := s.put s.running { s.pcb s.running with stackPointer := stackPointer }
  let s ← requeueRunning s
  let (process, s) ← removeFromReady s
  let s := dispatch process s
  return (((s.pcb s.running).segment, (s.pcb s.running).stackPointer), s)

/-- `sleep`, up to the interrupt it raises. -/
def lieDown (seconds : Int16) (s : Proc) : Proc :=
  s.put s.running { s.pcb s.running with state := .SLEEPING, sleepCounter := seconds * 125 }

/-- `sleep`: it raises the timer interrupt itself, on the stack of the caller. -/
def sleep (seconds segment stackPointer : Int16) (s : Proc) : Option ((Int16 × Int16) × Proc) :=
  handleTimerInterrupt segment stackPointer (lieDown seconds s)

/-! ## The machine -/

/-- The kernel, and whether the running process has reached the endless loop
    of `terminate`. -/
structure Machine where
  kernel : Kernel
  halted : Bool

/-- What happens: the running process makes a system call, or the timer
    interrupts it when its stack pointer is `sp`. -/
inductive Call where
  | executeProgram (name : FileName)
  | terminate
  | kill (segment : Int16)
  | yield
  | sleep (seconds sp : Int16)
  | timer (sp : Int16)

/-- The stack segment of the running process: the main loop of the kernel is
    the idle process, on the stack `bootload.asm` sets up. -/
def stackSegment (s : Proc) : Int16 :=
  match s.running with
  | .idleProc => 0x1000
  | .pcbPool i => (s.pcb (.pcbPool i)).segment

namespace Machine

/-- Calls come from a process that has not terminated; the idle process does
    not terminate, yield or sleep. -/
def MayCall (m : Machine) : Call → Prop
  | .timer _ => True
  | .executeProgram _ => m.halted = false
  | .kill _ => m.halted = false
  | .terminate => m.halted = false ∧ m.kernel.running ≠ .idleProc
  | .yield => m.halted = false ∧ m.kernel.running ≠ .idleProc
  | .sleep _ _ => m.halted = false ∧ m.kernel.running ≠ .idleProc

instance : ∀ (m : Machine) (c : Call), Decidable (m.MayCall c)
  | _, .timer _ => inferInstanceAs (Decidable True)
  | m, .executeProgram _ | m, .kill _ => inferInstanceAs (Decidable (m.halted = false))
  | _, .terminate | _, .yield | _, .sleep _ _ => inferInstanceAs (Decidable (_ ∧ _))

/-- The pair handed to `returnFromTimer` and the variables of the kernel after
    a call that goes through the timer handler. -/
def resume (m : Machine) : Call → Option ((Int16 × Int16) × Proc)
  | .timer sp => handleTimerInterrupt (stackSegment m.kernel.toProc) sp m.kernel.toProc
  | .sleep seconds sp => TeamXtremeOS.sleep seconds (stackSegment m.kernel.toProc) sp m.kernel.toProc
  | _ => none

/-- One step of the machine; none when the kernel follows a `NULL` pointer. -/
def step (m : Machine) (c : Call) : Option Machine :=
  match c with
  | .executeProgram name =>
    (TeamXtremeOS.executeProgram name m.kernel).map fun r => { m with kernel := r.2 }
  | .terminate =>
    some { kernel := { m.kernel with toProc := TeamXtremeOS.terminate m.kernel.toProc }, halted := true }
  | .kill segment =>
    some { m with kernel := { m.kernel with toProc := (TeamXtremeOS.kill segment m.kernel.toProc).2 } }
  | .yield =>
    (TeamXtremeOS.yield m.kernel.toProc).map fun s => { m with kernel := { m.kernel with toProc := s } }
  | .sleep seconds sp =>
    (m.resume (.sleep seconds sp)).map fun r => { kernel := { m.kernel with toProc := r.2 }, halted := false }
  | .timer sp =>
    (m.resume (.timer sp)).map fun r => { kernel := { m.kernel with toProc := r.2 }, halted := false }

/-- The machine when `main` has called `initializeProcStructures`. -/
def init (k : Kernel) : Machine :=
  { kernel := { k with toProc := initializeProcStructures k.toProc }, halted := false }

end Machine

end TeamXtremeOS
