/-
  The whole computer: the kernel, and the processor, which computes for the
  running process between its calls and is taken away from it by the timer.

  A call into the kernel is one step; the registers of its caller afterwards are
  those of the next step in which the process computes.
-/
import TeamXtremeOS.Cpu
import TeamXtremeOS.Proof.Files

namespace TeamXtremeOS

open Lib

/-- The kernel, and the registers of the processor. -/
structure Computer where
  machine : Machine
  reg : Regs

/-- What happens.  A process computes: its registers and the bytes of its stack
    segment change.  It calls the kernel.  The timer interrupts it, or it sleeps
    and raises that interrupt itself; `reg` and `bytes` are the registers and
    the segment of the kernel when `handleTimerInterrupt` calls
    `returnFromTimer`. -/
inductive Happening where
  | compute (reg : Regs) (bytes : UInt16 → UInt8)
  | fileCall (c : FileCall)
  | call (c : Call)
  | timer (reg : Regs) (bytes : UInt16 → UInt8)
  | sleep (seconds : Int16) (reg : Regs) (bytes : UInt16 → UInt8)

namespace Computer

def proc (m : Computer) : Proc := m.machine.kernel.toProc

def cpu (m : Computer) : Cpu := ⟨m.reg, m.machine.kernel.mem⟩

/-- The processor when `timer_ISR` calls `handleTimerInterrupt`. -/
def entered (m : Computer) : Cpu := (m.cpu.int 8).run Asm.timer_ISR

/-- The call of `returnFromTimer`, up to its end; of the return address it only
    matters that it is there. -/
def leave (segment stackPointer : Int16) (c : Cpu) : Cpu :=
  (((c.push stackPointer).push segment).push (c.reg .ip)).run Asm.returnFromTimer

/-- The timer interrupt, when the handler finds the variables `s`. -/
def interrupt (m : Computer) (s : Proc) (reg : Regs) (bytes : UInt16 → UInt8) : Option Computer :=
  (handleTimerInterrupt (m.entered.word 0x1000 0xdfec) (m.entered.word 0x1000 0xdfee) s).map
    fun ((segment, stackPointer), s) =>
      let c := leave segment stackPointer
        ⟨Function.update reg .ss 0x1000, Function.update m.entered.mem 0x1000 bytes⟩
      { machine := { kernel := { m.machine.kernel with toProc := s, mem := c.mem }, halted := false }
        reg := c.reg }

def step (m : Computer) : Happening → Option Computer
  | .compute reg bytes =>
    let k := m.machine.kernel
    some { machine := { m.machine with kernel := { k with mem := Function.update k.mem (m.reg .ss) bytes } }
           reg := reg }
  | .fileCall c =>
    (c.step m.machine.kernel.disk).map fun disk =>
      { m with machine := { m.machine with kernel := { m.machine.kernel with disk := disk } } }
  | .call c => (m.machine.step c).map fun machine => { m with machine := machine }
  | .timer reg bytes => m.interrupt m.proc reg bytes
  | .sleep seconds reg bytes => m.interrupt (lieDown seconds m.proc) reg bytes

/-- The computer when `main` has called `initializeProcStructures`, on the stack
    `bootload.asm` has set up. -/
def init (k : Kernel) (reg : Regs) : Computer := ⟨Machine.init k, Function.update reg .ss 0x1000⟩

/-- The name that `main` starts. -/
def shellName : FileName := ![0x73, 0x68, 0x65, 0x6C, 0x6C, 0x00]

/-- `main`, up to its endless loop. -/
def main (k : Kernel) (reg : Regs) : Option Computer := (init k reg).step (.call (.executeProgram shellName))

end Computer

end TeamXtremeOS
