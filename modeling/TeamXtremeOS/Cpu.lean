/-
  The processor, as far as `kernel.asm` and `lib.asm` use it.

  The segments in use are multiples of `0x1000` and do not overlap: the memory is
  that of `Kernel`, by segment and offset.  The instructions are not in this
  memory; only the byte that `interrupt` patches is.
-/
import TeamXtremeOS.Kernel
import TeamXtremeOS.Lib.Stack

namespace TeamXtremeOS

open Lib

/-- The registers. -/
inductive Reg where
  | ax
  | bx
  | cx
  | dx
  | si
  | di
  | bp
  | sp
  | ip
  | cs
  | ds
  | es
  | ss
  | flags
  deriving DecidableEq, Repr

instance : Fintype Reg where
  elems := {.ax, .bx, .cx, .dx, .si, .di, .bp, .sp, .ip, .cs, .ds, .es, .ss, .flags}
  complete r := by cases r <;> decide

/-- The contents of the registers. -/
abbrev Regs := Reg → Int16

/-- The registers and the memory. -/
structure Cpu where
  reg : Regs
  mem : Int16 → UInt16 → UInt8

/-- The word of two bytes. -/
def ofBytes (lo hi : UInt8) : Int16 := Int16.ofNat (lo.toNat + 256 * hi.toNat)

theorem ofBytes_halves (w : Int16) : ofBytes (toChar w) (highByte w) = w := by
  have hlt := w.toUInt16.toNat_lt
  have hlo : (toChar w).toNat = w.toUInt16.toNat % 256 := by simp [toChar]
  have hhi : (highByte w).toNat = w.toUInt16.toNat / 256 := by
    simp [highByte, Nat.shiftRight_eq_div_pow]
    omega
  rw [ofBytes, hlo, hhi, Nat.mod_add_div]
  change (UInt16.ofNat w.toUInt16.toNat).toInt16 = w
  rw [UInt16.ofNat_toNat]
  rfl

/-- Words in memory. -/
def words : Halves Int16 UInt8 := ⟨toChar, highByte, ofBytes, ofBytes_halves⟩

namespace Cpu
variable (c : Cpu)

def set (r : Reg) (w : Int16) : Cpu := { c with reg := Function.update c.reg r w }

/-- The word at an address of a segment. -/
def word (seg off : Int16) : Int16 := words.load off.toUInt16 (c.mem seg)

def setWord (seg off w : Int16) : Cpu :=
  { c with mem := Function.update c.mem seg (words.store off.toUInt16 w (c.mem seg)) }

def setByte (seg off : Int16) (b : UInt8) : Cpu :=
  { c with mem := Function.update c.mem seg (Function.update (c.mem seg) off.toUInt16 b) }

def push (w : Int16) : Cpu := (c.set .sp (c.reg .sp - 2)).setWord (c.reg .ss) (c.reg .sp - 2) w

/-- Pop a word into a register. -/
def pop (r : Reg) : Cpu := (c.set .sp (c.reg .sp + 2)).set r (c.word (c.reg .ss) (c.reg .sp))

end Cpu

/-- The interrupt flag. -/
def IF : Int16 := 0x200

/-- The instructions. -/
inductive Instr where
  | push (r : Reg)
  | pop (r : Reg)
  | mov (dst src : Reg)
  /-- `mov dst,#w`. -/
  | movi (dst : Reg) (w : Int16)
  /-- `mov al,#b`, for the low half of a register. -/
  | movb (dst : Reg) (b : UInt8)
  /-- `mov dst,[bp+o]`. -/
  | arg (dst : Reg) (o : Int16)
  /-- `mov cl,[bp+o]`, for the low half of a register. -/
  | argb (dst : Reg) (o : Int16)
  /-- `mov [si+o],src`. -/
  | store (o : Int16) (src : Reg)
  /-- `mov [si+o],al`, for the low half of a register. -/
  | storeb (o : Int16) (src : Reg)
  /-- `out #port,al`: the devices are not part of the model. -/
  | out (port : UInt8)
  | cli
  | sti
  | ret
  | iret

/-- A register with another low half. -/
def withLow (w : Int16) (b : UInt8) : Int16 := ofBytes b (highByte w)

def Cpu.exec (c : Cpu) : Instr → Cpu
  | .push r => c.push (c.reg r)
  | .pop r => c.pop r
  | .mov dst src => c.set dst (c.reg src)
  | .movi dst w => c.set dst w
  | .movb dst b => c.set dst (withLow (c.reg dst) b)
  | .arg dst o => c.set dst (c.word (c.reg .ss) (c.reg .bp + o))
  | .argb dst o => c.set dst (withLow (c.reg dst) (c.mem (c.reg .ss) (c.reg .bp + o).toUInt16))
  | .store o src => c.setWord (c.reg .ds) (c.reg .si + o) (c.reg src)
  | .storeb o src => c.setByte (c.reg .ds) (c.reg .si + o) (toChar (c.reg src))
  | .out _ => c
  | .cli => c.set .flags (c.reg .flags &&& ~~~IF)
  | .sti => c.set .flags (c.reg .flags ||| IF)
  | .ret => c.pop .ip
  | .iret => ((c.pop .ip).pop .cs).pop .flags

/-- One instruction after the other. -/
def Cpu.run (c : Cpu) (code : List Instr) : Cpu := code.foldl Cpu.exec c

/-- Interrupt `n`: where it goes on stands at `4 * n` in segment 0. -/
def Cpu.int (c : Cpu) (n : UInt8) : Cpu :=
  let c := ((c.push (c.reg .flags)).push (c.reg .cs)).push (c.reg .ip)
  ((c.set .flags (c.reg .flags &&& ~~~IF)).set .cs (c.word 0 (ofChar n * 4 + 2))).set .ip
    (c.word 0 (ofChar n * 4))

/-! ## The routines -/

namespace Asm

/-- `putInMemory (int segment, int address, char character)`. -/
def putInMemory : List Instr :=
  [.push .bp, .mov .bp .sp, .push .ds, .arg .ax 4, .arg .si 6, .argb .cx 8, .mov .ds .ax, .storeb 0 .cx,
    .pop .ds, .pop .bp, .ret]

/-- `interrupt (int number, int AX, int BX, int CX, int DX)` up to the
    instruction at `intr`, whose second byte it changes. -/
def interrupt (intr : Int16) : List Instr :=
  [.push .bp, .mov .bp .sp, .arg .ax 4, .push .ds, .mov .bx .cs, .mov .ds .bx, .movi .si intr, .storeb 1 .ax,
    .pop .ds, .arg .ax 6, .arg .bx 8, .arg .cx 10, .arg .dx 12]

/-- `interrupt` behind that instruction. -/
def interruptReturn : List Instr := [.pop .bp, .ret]

/-- `makeInterrupt21`, with the address of the service routine. -/
def makeInterrupt21 (interrupt21ServiceRoutine : Int16) : List Instr :=
  [.movi .dx interrupt21ServiceRoutine, .push .ds, .movi .ax 0, .mov .ds .ax, .movi .si 0x84, .mov .ax .cs,
    .store 2 .ax, .store 0 .dx, .pop .ds, .ret]

/-- `interrupt21ServiceRoutine` up to its call of `handleInterrupt21`. -/
def interrupt21ServiceRoutine : List Instr := [.push .dx, .push .cx, .push .bx, .push .ax, .sti]

/-- `interrupt21ServiceRoutine` behind its call. -/
def interrupt21Return : List Instr := [.pop .bx, .pop .bx, .pop .cx, .pop .dx, .iret]

/-- `timer_ISR` up to its call of `handleTimerInterrupt`. -/
def timer_ISR : List Instr :=
  [.cli, .push .bx, .push .cx, .push .dx, .push .si, .push .di, .push .bp, .push .ax, .push .ds, .push .es,
    .movb .ax 0x20, .out 0x20, .mov .bx .ss, .mov .cx .sp,
    .movi .ax 0x1000, .mov .ds .ax, .mov .es .ax, .mov .ss .ax, .movi .ax 0xdff0, .mov .sp .ax, .mov .bp .ax,
    .movi .ax 0, .push .cx, .push .bx]

/-- `returnFromTimer(int segment, int sp)`. -/
def returnFromTimer : List Instr :=
  [.pop .ax, .pop .bx, .pop .cx,
    .pop .ax, .pop .ax, .pop .ax, .pop .ax, .pop .ax, .pop .ax, .pop .ax, .mov .sp .cx, .mov .ss .bx,
    .pop .es, .pop .ds, .pop .ax, .pop .bp, .pop .di, .pop .si, .pop .dx, .pop .cx, .pop .bx, .sti, .iret]

/-- `initializeProgram(int segment)`. -/
def initializeProgram : List Instr :=
  [.push .bp, .mov .bp .sp, .arg .bx 4, .mov .cx .sp, .mov .dx .ss, .movi .ax 0xff18, .mov .sp .ax, .mov .ss .bx,
    .movi .ax 0, .push .ax, .mov .ax .bx, .push .ax, .movi .ax 0, .push .ax,
    .movi .ax 0, .push .ax, .push .ax, .push .ax, .push .ax, .push .ax, .push .ax, .push .ax,
    .mov .ax .bx, .push .ax, .push .ax, .mov .sp .cx, .mov .ss .dx, .pop .bp, .ret]

end Asm

end TeamXtremeOS
