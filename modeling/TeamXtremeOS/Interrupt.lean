/-
  Processes in `interrupt`, one instruction at a time.

  `interrupt21ServiceRoutine` enables interrupts for the kernel as well: the timer
  may come between any two of these instructions.  A process has its stack in a
  segment of its own, and there is the code of its `lib.asm`; that of `kernel.asm`
  is in the segment `0x1000`, for all of them.
-/
import TeamXtremeOS.Cpu

namespace TeamXtremeOS

open Lib

/-- The registers of a process, and what is left of `interrupt` before the
    instruction at `intr`, if the process is there. -/
structure Caller where
  reg : Regs
  left : Option (List Instr)

/-- The processes, by the segments of their stacks, and the memory. -/
structure Callers where
  caller : Int16 → Caller
  mem : Int16 → UInt16 → UInt8

/-- What a process does: it has computed something and calls `interrupt`, with
    its arguments on the stack; it executes the next instruction; it raises the
    interrupt. -/
inductive Deed where
  | call (seg : Int16) (reg : Regs) (bytes : UInt16 → UInt8)
  | exec (seg : Int16)
  | raise (seg : Int16)

namespace Callers
variable (intr : Int16 → Int16) (m : Callers)

/-- The processor when it is the turn of the process of a segment. -/
def cpu (seg : Int16) : Cpu := ⟨(m.caller seg).reg, m.mem⟩

/-- The number of the interrupt at `intr`, for the process of a segment; `intr`
    gives the place of that instruction in a code segment. -/
def number (seg : Int16) : UInt8 :=
  m.mem ((m.caller seg).reg .cs) (intr ((m.caller seg).reg .cs) + 1).toUInt16

def step (m : Callers) : Deed → Option Callers
  | .call seg reg bytes =>
    some { caller := Function.update m.caller seg ⟨reg, some (Asm.interrupt (intr (reg .cs)))⟩
           mem := Function.update m.mem seg bytes }
  | .exec seg =>
    match (m.caller seg).left with
    | some (i :: left) =>
      let c := (m.cpu seg).exec i
      some { caller := Function.update m.caller seg ⟨c.reg, some left⟩, mem := c.mem }
    | _ => none
  | .raise seg =>
    match (m.caller seg).left with
    | some [] => some { m with caller := Function.update m.caller seg { m.caller seg with left := none } }
    | _ => none

/-- The 16 bytes from the two words that `interrupt` pushes to its last argument
    are not the byte it changes. -/
def Clear (reg : Regs) : Prop :=
  ∀ i < 16, (reg .sp - 4).toUInt16 + UInt16.ofNat i ≠ (intr (reg .cs) + 1).toUInt16

instance (reg : Regs) : Decidable (Clear intr reg) := inferInstanceAs (Decidable (∀ _ < _, _))

/-- A process calls the `interrupt` of its own program or that of the kernel. -/
def Calls (seg : Int16) (reg : Regs) : Prop :=
  seg ≠ 0x1000 ∧ reg .ss = seg ∧ (reg .cs = seg ∧ Clear intr reg ∨ reg .cs = 0x1000)

instance (seg : Int16) (reg : Regs) : Decidable (Calls intr seg reg) := inferInstanceAs (Decidable (_ ∧ _))

def MayHappen (m : Callers) : Deed → Prop
  | .call seg reg _ => (m.caller seg).left = none ∧ Calls intr seg reg
  | .exec _ | .raise _ => True

instance : ∀ (m : Callers) (e : Deed), Decidable (m.MayHappen intr e)
  | _, .call _ _ _ => inferInstanceAs (Decidable (_ ∧ _))
  | _, .exec _ | _, .raise _ => inferInstanceAs (Decidable True)

end Callers

end TeamXtremeOS
