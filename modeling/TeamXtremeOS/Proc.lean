/-
  The process structures of the kernel: `proc.h` and `proc.c`.

  Pointers to a `struct PCB` point to `idleProc` or to an entry of `pcbPool`;
  `NULL` is `none`.  A function that follows a `NULL` pointer has no result
  (`none`): on the machine it would go on with whatever bytes the kernel
  segment holds at offset 0.
-/
import Mathlib

namespace TeamXtremeOS

/-- The states of a process. -/
inductive PState where
  | DEFUNCT
  | RUNNING
  | READY
  | BLOCKED
  | STARTING
  | SLEEPING
  deriving DecidableEq, Repr

/-- The objects a `struct PCB *` points to. -/
inductive PCBRef where
  | idleProc
  | pcbPool (i : Fin 8)
  deriving DecidableEq, Repr

/-- `struct PCB`. -/
structure PCB where
  name : Fin 7 → UInt8
  state : PState
  segment : Int16
  stackPointer : Int16
  sleepCounter : Int16
  next : Option PCBRef
  prev : Option PCBRef

def FREE : Int16 := 0
def USED : Int16 := 1

/-- The global variables of `proc.h`.  `pcb` holds `idleProc` and the entries
    of `pcbPool`.  `memoryMap i` is the word the C expression `memoryMap[i]`
    denotes: the array itself for `i` in `0..7`, and otherwise a word of the
    kernel segment before or behind it, which is kept apart from the other
    variables. -/
structure Proc where
  running : PCBRef
  readyHead : Option PCBRef
  readyTail : Option PCBRef
  pcb : PCBRef → PCB
  memoryMap : Int16 → Int16

namespace Proc
variable (s : Proc) (p : PCBRef)

/-- Replace the PCB at `p`. -/
def put (b : PCB) : Proc := { s with pcb := Function.update s.pcb p b }

def setNext (n : Option PCBRef) : Proc := s.put p { s.pcb p with next := n }
def setPrev (n : Option PCBRef) : Proc := s.put p { s.pcb p with prev := n }
def setState (st : PState) : Proc := s.put p { s.pcb p with state := st }

variable {s p} {q : PCBRef} {b : PCB} {n : Option PCBRef} {st : PState}

@[simp] theorem put_pcb : (s.put p b).pcb q = if q = p then b else s.pcb q :=
  Function.update_apply ..
@[simp] theorem put_running : (s.put p b).running = s.running := rfl
@[simp] theorem put_readyHead : (s.put p b).readyHead = s.readyHead := rfl
@[simp] theorem put_readyTail : (s.put p b).readyTail = s.readyTail := rfl
@[simp] theorem put_memoryMap : (s.put p b).memoryMap = s.memoryMap := rfl

@[simp] theorem setNext_running : (s.setNext p n).running = s.running := rfl
@[simp] theorem setNext_readyHead : (s.setNext p n).readyHead = s.readyHead := rfl
@[simp] theorem setNext_readyTail : (s.setNext p n).readyTail = s.readyTail := rfl
@[simp] theorem setNext_memoryMap : (s.setNext p n).memoryMap = s.memoryMap := rfl
@[simp] theorem setNext_next : ((s.setNext p n).pcb q).next = if q = p then n else (s.pcb q).next := by
  simp only [setNext, put_pcb]; split_ifs <;> rfl
@[simp] theorem setNext_prev : ((s.setNext p n).pcb q).prev = (s.pcb q).prev := by
  simp only [setNext, put_pcb]; split_ifs with h <;> simp [h]

@[simp] theorem setPrev_running : (s.setPrev p n).running = s.running := rfl
@[simp] theorem setPrev_readyHead : (s.setPrev p n).readyHead = s.readyHead := rfl
@[simp] theorem setPrev_readyTail : (s.setPrev p n).readyTail = s.readyTail := rfl
@[simp] theorem setPrev_memoryMap : (s.setPrev p n).memoryMap = s.memoryMap := rfl
@[simp] theorem setPrev_next : ((s.setPrev p n).pcb q).next = (s.pcb q).next := by
  simp only [setPrev, put_pcb]; split_ifs with h <;> simp [h]
@[simp] theorem setPrev_prev : ((s.setPrev p n).pcb q).prev = if q = p then n else (s.pcb q).prev := by
  simp only [setPrev, put_pcb]; split_ifs <;> rfl

end Proc

/-- The bytes `I`, `D`, `L`, `E`, `0`. -/
def IDLE : Fin 5 → UInt8 := ![0x49, 0x44, 0x4C, 0x45, 0x00]

/-- One turn of the loop of `initializeProcStructures`. -/
def initEntry (s : Proc) (i : Fin 8) : Proc :=
  let b := s.pcb (.pcbPool i)
  { s.put (.pcbPool i) { b with
      name := Function.update b.name 0 0, state := .DEFUNCT, segment := 0, stackPointer := 0 } with
    memoryMap := Function.update s.memoryMap (Int16.ofNat i.val) FREE }

def initializeProcStructures (s : Proc) : Proc :=
  let s := (List.finRange 8).foldl initEntry s
  let b := s.pcb .idleProc
  { s.put .idleProc { b with
      name := fun l => if h : l.val < 5 then IDLE ⟨l, h⟩ else b.name l
      state := .READY, segment := 0, stackPointer := 0 } with
    running := .idleProc, readyHead := none, readyTail := none }

/-- The first free memory segment, now marked as used; `none` is the `-1` of
    the source. -/
def getFreeMemorySegment (s : Proc) : Option (Fin 8) × Proc :=
  match (List.finRange 8).find? fun i => s.memoryMap (Int16.ofNat i.val) = FREE with
  | some i => (some i, { s with memoryMap := Function.update s.memoryMap (Int16.ofNat i.val) USED })
  | none => (none, s)

def releaseMemorySegment (seg : Int16) (s : Proc) : Proc :=
  { s with memoryMap := Function.update s.memoryMap seg FREE }

/-- The first `DEFUNCT` PCB of the pool. -/
def freePCB (s : Proc) : Option (Fin 8) :=
  (List.finRange 8).find? fun i => (s.pcb (.pcbPool i)).state = .DEFUNCT

def getFreePCB (s : Proc) : Option (Fin 8) × Proc :=
  match freePCB s with
  | some i => (some i, s.setState (.pcbPool i) .STARTING)
  | none => (none, s)

/-- The links of the neighbours of a released PCB: its place in the queue is
    inferred from its own links. -/
def unlinkPCB (pcb : PCBRef) (s : Proc) : Proc :=
  match (s.pcb pcb).prev, (s.pcb pcb).next with
  | none, some next =>                       -- if the pcb is at the head
    { s.setPrev next none with readyHead := some next }
  | some prev, some next =>                  -- if the pcb is in the middle
    (s.setPrev next (some prev)).setNext prev (some next)
  | some prev, none =>                       -- if the pcb is at the tail
    { s.setNext prev none with readyTail := some prev }
  | none, none => s

/-- The part of `releasePCB` before the neighbours are relinked. -/
def retire (p : PCBRef) (s : Proc) : Proc :=
  s.put p { s.pcb p with state := .DEFUNCT, name := Function.update (s.pcb p).name 0 0 }

def releasePCB (pcb : PCBRef) (s : Proc) : Proc :=
  let s := unlinkPCB pcb (retire pcb s)
  (s.setNext pcb none).setPrev pcb none

/-- Add the provided PCB to the tail of the ready queue. -/
def addToReady (pcb : PCBRef) (s : Proc) : Option Proc :=
  match s.readyHead with
  | none => some { s with readyTail := some pcb, readyHead := some pcb }
  | some head =>
    if s.readyHead = s.readyTail then      -- if there is only one element
      some { (s.setNext head (some pcb)).setPrev pcb (some head) with readyTail := some pcb }
    else do                                -- if there is two or more elements
      let tail ← s.readyTail
      some { (s.setPrev pcb (some tail)).setNext tail (some pcb) with readyTail := some pcb }

/-- Remove the PCB at the head of the ready queue and return a pointer to it. -/
def removeFromReady (s : Proc) : Option (Option PCBRef × Proc) :=
  match s.readyHead with
  | none => some (none, s)
  | some temp =>
    if s.readyHead = s.readyTail then
      some (some temp, { s with readyHead := none, readyTail := none })
    else if (s.pcb temp).next = s.readyTail then do   -- if the queue has two elements
      let second ← (s.pcb temp).next
      let s := s.setPrev second none
      let tail ← s.readyTail
      let s := s.setPrev tail none
      some (some temp, { s.setNext second none with readyHead := some second })
    else do
      let second ← (s.pcb temp).next
      some (some temp, { s.setPrev second none with readyHead := some second })

end TeamXtremeOS
