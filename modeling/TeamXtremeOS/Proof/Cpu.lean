/-
  The routines of `kernel.asm`, instruction by instruction: what an interrupt
  saves of the registers is what `returnFromTimer` brings back.
-/
import TeamXtremeOS.Cpu

namespace TeamXtremeOS

open Lib

variable {c : Cpu} {rs : List Reg} {r : Reg} {R : Regs} {w seg off : Int16} {code : List Instr}

/-! ## Instructions -/

namespace Cpu

@[simp] theorem set_reg : (c.set r w).reg = Function.update c.reg r w := rfl
@[simp] theorem set_mem : (c.set r w).mem = c.mem := rfl
@[simp] theorem setWord_reg : (c.setWord seg off w).reg = c.reg := rfl
@[simp] theorem setWord_mem : (c.setWord seg off w).mem =
    Function.update c.mem seg (words.store off.toUInt16 w (c.mem seg)) := rfl
@[simp] theorem push_reg : (c.push w).reg = Function.update c.reg .sp (c.reg .sp - 2) := rfl
@[simp] theorem push_mem : (c.push w).mem = Function.update c.mem (c.reg .ss)
    (words.store ((c.reg .sp).toUInt16 - 2) w (c.mem (c.reg .ss))) := rfl
@[simp] theorem pop_reg : (c.pop r).reg =
    Function.update (Function.update c.reg .sp (c.reg .sp + 2)) r (c.word (c.reg .ss) (c.reg .sp)) := rfl
@[simp] theorem pop_mem : (c.pop r).mem = c.mem := rfl

theorem run_append (code' : List Instr) : c.run (code ++ code') = (c.run code).run code' := List.foldl_append

/-- Words pushed one after the other. -/
theorem foldl_push (ws : List Int16) : ws.foldl push c =
    { reg := Function.update c.reg .sp (c.reg .sp - Int16.ofNat (2 * ws.length))
      mem := Function.update c.mem (c.reg .ss)
        (words.pushes ws (c.reg .sp).toUInt16 (c.mem (c.reg .ss))) } := by
  induction ws generalizing c with
  | nil => simp [Halves.pushes]
  | cons w ws ih =>
    have hss : (c.push w).reg .ss = c.reg .ss := rfl
    have hsp : c.reg .sp - 2 - Int16.ofNat (2 * ws.length) = c.reg .sp - Int16.ofNat (2 * (ws.length + 1)) := by
      rw [Nat.mul_add, Nat.add_comm, Int16.ofNat_add, ← Int16.sub_sub]
      rfl
    rw [List.foldl_cons, ih, hss]
    simp only [push_reg, push_mem, Function.update_self, Function.update_idem, List.length_cons, Halves.pushes, hsp]
    rfl

theorem run_pushes (hsp : .sp ∉ rs) : c.run (rs.map .push) = (rs.map c.reg).foldl push c := by
  induction rs generalizing c with
  | nil => rfl
  | cons r rs ih =>
    rw [List.mem_cons, not_or] at hsp
    have hmap : rs.map (c.push (c.reg r)).reg = rs.map c.reg := by
      refine List.map_congr_left ?_
      intro x hx
      exact Function.update_of_ne (ne_of_mem_of_not_mem hx hsp.2) ..
    have hcons : c.run ((r :: rs).map .push) = (c.push (c.reg r)).run (rs.map .push) := rfl
    rw [hcons, ih hsp.2, hmap, List.map_cons, List.foldl_cons]

/-- Registers popped one after the other. -/
theorem run_pops (hsp : .sp ∉ rs) (hss : .ss ∉ rs) : c.run (rs.map .pop) =
    { reg := assign rs (words.frame rs.length (c.reg .sp).toUInt16 (c.mem (c.reg .ss)))
        (Function.update c.reg .sp (c.reg .sp + Int16.ofNat (2 * rs.length)))
      mem := c.mem } := by
  induction rs generalizing c with
  | nil => simp [run, assign]
  | cons r rs ih =>
    rw [List.mem_cons, not_or] at hsp hss
    have hcons : c.run ((r :: rs).map .pop) = (c.pop r).run (rs.map .pop) := rfl
    have hss' : (c.pop r).reg .ss = c.reg .ss := by
      rw [pop_reg, Function.update_of_ne hss.1, Function.update_of_ne (by decide)]
    have hsp₁ : (c.pop r).reg .sp = c.reg .sp + 2 := by
      rw [pop_reg, Function.update_of_ne hsp.1, Function.update_self]
    have hsp' : c.reg .sp + 2 + Int16.ofNat (2 * rs.length) = c.reg .sp + Int16.ofNat (2 * (rs.length + 1)) := by
      rw [Nat.mul_add, Nat.add_comm, Int16.ofNat_add, ← Int16.add_assoc]
      rfl
    rw [hcons, ih hsp.2 hss.2, hss', hsp₁, pop_mem, pop_reg, List.length_cons, Halves.frame_succ, assign,
      Function.update_comm hsp.1, Function.update_idem, Function.update_comm (Ne.symm hsp.1), hsp']
    rfl

/-- Popping words that are the values of `R`. -/
theorem run_pops_of (hsp : .sp ∉ rs) (hss : .ss ∉ rs)
    (hf : words.frame rs.length (c.reg .sp).toUInt16 (c.mem (c.reg .ss)) = rs.map R) :
    (c.run (rs.map .pop)).mem = c.mem ∧ ∀ r, (c.run (rs.map .pop)).reg r =
      if r ∈ rs then R r else if r = .sp then c.reg .sp + Int16.ofNat (2 * rs.length) else c.reg r := by
  rw [run_pops hsp hss, hf]
  refine ⟨rfl, ?_⟩
  intro r
  dsimp only
  rw [assign_map, Function.update_apply]

end Cpu

/-! ## Saving and restoring -/

/-- The registers in the order in which an interrupt and `timer_ISR` push them. -/
def saved : List Reg := [.flags, .cs, .ip, .bx, .cx, .dx, .si, .di, .bp, .ax, .ds, .es]

/-- The memory of a segment when the registers have been saved on a stack in it. -/
def saveOn (R : Regs) (bytes : UInt16 → UInt8) : UInt16 → UInt8 :=
  words.pushes (saved.map R) (R .sp).toUInt16 bytes

/-- What interrupt `n` pushes, and what it does to the registers. -/
theorem int_spec (c : Cpu) (n : UInt8) :
    (c.int n).mem = Function.update c.mem (c.reg .ss)
      (words.pushes ([.flags, .cs, .ip].map c.reg) (c.reg .sp).toUInt16 (c.mem (c.reg .ss))) ∧
    (c.int n).reg .sp = c.reg .sp - 6 ∧ ∀ r, r ∉ [Reg.flags, .cs, .ip, .sp] → (c.int n).reg r = c.reg r := by
  have hp := (@Cpu.run_pushes c [.flags, .cs, .ip] (by decide)).trans (Cpu.foldl_push _)
  refine ⟨(congrArg Cpu.mem hp :), ?_, ?_⟩
  · exact congrFun (congrArg Cpu.reg hp) .sp
  · intro r hr
    simp only [List.mem_cons, List.not_mem_nil, or_false, not_or] at hr
    simp [Cpu.int, hr]

/-- Behind the pushes of `timer_ISR`. -/
theorem timer_ISR_pushes (c : Cpu) :
    ((c.int 8).run (Asm.timer_ISR.take 10)).mem =
      Function.update c.mem (c.reg .ss) (saveOn c.reg (c.mem (c.reg .ss))) ∧
    ((c.int 8).run (Asm.timer_ISR.take 10)).reg .sp = c.reg .sp - 24 ∧
    ((c.int 8).run (Asm.timer_ISR.take 10)).reg .ss = c.reg .ss := by
  obtain ⟨hmem, hsp, hreg⟩ := int_spec c 8
  generalize c.int 8 = c₁ at hmem hsp hreg ⊢
  have hcut : Asm.timer_ISR.take 10 =
      ([.cli] : List Instr) ++ [Reg.bx, .cx, .dx, .si, .di, .bp, .ax, .ds, .es].map Instr.push := rfl
  have hcli : c₁.run [.cli] = c₁.set .flags (c₁.reg .flags &&& ~~~IF) := rfl
  have hmap : [Reg.bx, .cx, .dx, .si, .di, .bp, .ax, .ds, .es].map (c₁.run [.cli]).reg =
      [Reg.bx, .cx, .dx, .si, .di, .bp, .ax, .ds, .es].map c.reg := by
    refine List.map_congr_left ?_
    intro r hr
    rw [← hreg r (by revert hr; revert r; decide), hcli, Cpu.set_reg, Function.update_of_ne]
    rintro rfl
    simp at hr
  have hall : saved.map c.reg = [Reg.flags, .cs, .ip].map c.reg ++
      [Reg.bx, .cx, .dx, .si, .di, .bp, .ax, .ds, .es].map c.reg := rfl
  rw [hcut, Cpu.run_append, Cpu.run_pushes (by decide), hmap, hcli, Cpu.foldl_push]
  simp only [Cpu.set_reg, Cpu.set_mem, Function.update_of_ne (show Reg.sp ≠ .flags by decide),
    Function.update_of_ne (show Reg.ss ≠ .flags by decide), Function.update_of_ne (show Reg.ss ≠ .sp by decide),
    Function.update_self, hmem, hsp, hreg .ss (by decide), Function.update_idem]
  refine ⟨?_, ?_, trivial⟩
  · rw [saveOn, hall, words.pushes_append]
    rfl
  · rw [Int16.sub_sub]
    rfl

/-- The part of `timer_ISR` that goes over to the stack of the kernel. -/
def toKernel : List Instr :=
  [.movb .ax 0x20, .out 0x20, .mov .bx .ss, .mov .cx .sp,
    .movi .ax 0x1000, .mov .ds .ax, .mov .es .ax, .mov .ss .ax, .movi .ax 0xdff0, .mov .sp .ax, .mov .bp .ax,
    .movi .ax 0]

theorem toKernel_spec (c : Cpu) : (c.run toKernel).mem = c.mem ∧ (c.run toKernel).reg .bx = c.reg .ss ∧
    (c.run toKernel).reg .cx = c.reg .sp ∧ (c.run toKernel).reg .ss = 0x1000 ∧
    (c.run toKernel).reg .sp = 0xdff0 := by
  refine ⟨?_, ?_, ?_, ?_, ?_⟩ <;>
    simp [Cpu.run, toKernel, Cpu.exec]

/-- **What `timer_ISR` has done when it calls `handleTimerInterrupt`**: the
    registers are on the stack of the interrupted process, the arguments are its
    stack segment and stack pointer, and the kernel is on its own stack. -/
theorem timer_ISR_saves (c : Cpu) :
    ((c.int 8).run Asm.timer_ISR).word 0x1000 0xdfec = c.reg .ss ∧
    ((c.int 8).run Asm.timer_ISR).word 0x1000 0xdfee = c.reg .sp - 24 ∧
    ((c.int 8).run Asm.timer_ISR).reg .sp = 0xdfec ∧ ((c.int 8).run Asm.timer_ISR).reg .ss = 0x1000 ∧
    ∀ seg ≠ 0x1000, ((c.int 8).run Asm.timer_ISR).mem seg =
      if seg = c.reg .ss then saveOn c.reg (c.mem seg) else c.mem seg := by
  obtain ⟨hmem, hsp, hss⟩ := timer_ISR_pushes c
  have hcut : Asm.timer_ISR = Asm.timer_ISR.take 10 ++ (toKernel ++ [Reg.cx, .bx].map Instr.push) := rfl
  rw [hcut, Cpu.run_append, Cpu.run_append]
  generalize (c.int 8).run (Asm.timer_ISR.take 10) = c₁ at hmem hsp hss ⊢
  obtain ⟨hmem₂, hbx, hcx, hss₂, hsp₂⟩ := toKernel_spec c₁
  rw [hmem] at hmem₂
  rw [hss] at hbx
  rw [hsp] at hcx
  generalize c₁.run toKernel = c₂ at hmem₂ hbx hcx hss₂ hsp₂ ⊢
  rw [Cpu.run_pushes (by decide), Cpu.foldl_push]
  simp only [Cpu.word, hss₂, hsp₂, Function.update_self, List.map_cons, List.map_nil, hbx, hcx]
  have h0 : (0xdfee : Int16).toUInt16 = (0xdff0 : Int16).toUInt16 - UInt16.ofNat (2 * (0 + 1)) := by decide
  have h1 : (0xdfec : Int16).toUInt16 = (0xdff0 : Int16).toUInt16 - UInt16.ofNat (2 * (1 + 1)) := by decide
  have h2 : (0xdff0 : Int16) - Int16.ofNat (2 * [c.reg .sp - 24, c.reg .ss].length) = 0xdfec := by
    simp only [List.length_cons, List.length_nil]
    decide
  rw [h0, h1, h2, words.load_pushes (by simp) rfl, words.load_pushes (by simp) rfl]
  refine ⟨rfl, rfl, rfl, (Function.update_of_ne (by decide) ..).trans hss₂, ?_⟩
  intro seg hseg
  rw [Function.update_of_ne hseg, hmem₂, Function.update_apply]
  split_ifs with h
  · rw [h]
  · rfl

/-- The part of `returnFromTimer` on the stack of the kernel. -/
def fromKernel : List Instr :=
  [.pop .ax, .pop .bx, .pop .cx,
    .pop .ax, .pop .ax, .pop .ax, .pop .ax, .pop .ax, .pop .ax, .pop .ax, .mov .sp .cx, .mov .ss .bx]

theorem fromKernel_spec (c : Cpu) : (c.run fromKernel).mem = c.mem ∧
    (c.run fromKernel).reg .ss = c.word (c.reg .ss) (c.reg .sp + 2) ∧
    (c.run fromKernel).reg .sp = c.word (c.reg .ss) (c.reg .sp + 4) := by
  have h4 : c.reg .sp + 2 + 2 = c.reg .sp + 4 := by
    rw [Int16.add_assoc]
    rfl
  refine ⟨?_, ?_, ?_⟩
  · simp [Cpu.run, fromKernel, Cpu.exec]
  · simp [Cpu.run, fromKernel, Cpu.exec, Cpu.word]
  · simp [Cpu.run, fromKernel, Cpu.exec, Cpu.word, h4]

/-- The registers that `returnFromTimer` pops before it enables interrupts. -/
def general : List Reg := [.es, .ds, .ax, .bp, .di, .si, .dx, .cx, .bx]

/-- The end of `returnFromTimer`, when the other registers are back. -/
theorem iret_restores (hreg : ∀ r, r ∉ [Reg.ip, .cs, .flags, .sp] → c.reg r = R r)
    (hsp : c.reg .sp + Int16.ofNat (2 * 3) = R .sp)
    (hf : words.frame 3 (c.reg .sp).toUInt16 (c.mem (c.reg .ss)) = [Reg.ip, .cs, .flags].map R) :
    c.run [.sti, .iret] = ⟨R, c.mem⟩ := by
  have hrun : c.run [.sti, .iret] =
      (c.set .flags (c.reg .flags ||| IF)).run ([Reg.ip, .cs, .flags].map .pop) := by
    simp only [Cpu.run, List.foldl_cons, List.foldl_nil, List.map_cons, List.map_nil, Cpu.exec]
  obtain ⟨hm, hr⟩ := @Cpu.run_pops_of (c.set .flags (c.reg .flags ||| IF)) [.ip, .cs, .flags] R
    (by decide) (by decide) hf
  rw [hrun]
  generalize (c.set .flags (c.reg .flags ||| IF)).run _ = c' at hm hr ⊢
  obtain ⟨reg, mem⟩ := c'
  rw [Cpu.mk.injEq]
  refine ⟨?_, hm⟩
  ext r
  rw [show reg r = _ from hr r]
  split_ifs with h1 h2
  · rfl
  · rw [h2]
    exact hsp
  · have hne : r ∉ [Reg.ip, .cs, .flags, .sp] := by
      simp only [List.mem_cons, List.not_mem_nil, or_false, not_or] at h1 ⊢
      exact ⟨h1.1, h1.2.1, h1.2.2, h2⟩
    rw [Cpu.set_reg, Function.update_of_ne (by rintro rfl; simp at h1), hreg r hne]

/-- **`returnFromTimer` brings back the registers** that have been saved on the
    stack it is given. -/
theorem returnFromTimer_restores {bytes : UInt16 → UInt8} (hseg : c.word (c.reg .ss) (c.reg .sp + 2) = R .ss)
    (hst : c.word (c.reg .ss) (c.reg .sp + 4) = R .sp - 24) (hmem : c.mem (R .ss) = saveOn R bytes) :
    c.run Asm.returnFromTimer = ⟨R, c.mem⟩ := by
  obtain ⟨hmem₁, hss₁, hsp₁⟩ := fromKernel_spec c
  rw [hseg] at hss₁
  rw [hst] at hsp₁
  have hcut : Asm.returnFromTimer = fromKernel ++ (general.map Instr.pop ++ ([.sti, .iret] : List Instr)) := rfl
  rw [hcut, Cpu.run_append, Cpu.run_append]
  generalize c.run fromKernel = c₁ at hmem₁ hss₁ hsp₁ ⊢
  -- the twelve words under the stack pointer
  have hframe : words.frame (9 + 3) (R .sp - 24).toUInt16 (c.mem (R .ss)) =
      general.map R ++ [Reg.ip, .cs, .flags].map R := by
    rw [hmem, saveOn]
    have hlen : 2 * (saved.map R).length ≤ 65536 := by simp [saved]
    exact @Halves.frame_pushes _ _ words _ _ (saved.map R) hlen
  rw [words.frame_add] at hframe
  obtain ⟨h9, h3⟩ := List.append_inj hframe (by simp [Halves.frame, general])
  rw [← hss₁, ← hsp₁, ← hmem₁] at h9
  obtain ⟨hmem₂, hreg₂⟩ := @Cpu.run_pops_of c₁ general R (by decide) (by decide) h9
  generalize c₁.run (general.map .pop) = c₂ at hmem₂ hreg₂ ⊢
  have hsp₂ : c₂.reg .sp = R .sp - 24 + Int16.ofNat (2 * 9) := by
    rw [hreg₂, if_neg (by decide), if_pos rfl, hsp₁]
    rfl
  have hss₂ : c₂.reg .ss = R .ss := by rw [hreg₂, if_neg (by decide), if_neg (by decide), hss₁]
  rw [← hmem₁, ← hmem₂]
  refine iret_restores ?_ ?_ ?_
  · intro r hr
    rw [hreg₂]
    split_ifs with hg hs
    · rfl
    · rw [hs] at hr
      simp at hr
    · have : r = .ss := by revert r; decide
      rw [this, hss₁]
  · rw [hsp₂, Int16.add_assoc]
    exact Int16.sub_add_cancel ..
  · rw [hss₂, hsp₂, hmem₂, hmem₁]
    exact h3

/-! ## A new program -/

/-- The registers a program starts with. -/
def initial (segment : Int16) : Regs
  | .cs | .ds | .es | .ss => segment
  | .sp => 0xff18
  | _ => 0

theorem saved_initial (segment : Int16) : saved.map (initial segment) = (stackImage segment).reverse := rfl

/-- The words that `initializeProgram` pushes are the initial registers. -/
theorem saveOn_initial (segment : Int16) (mem : Int16 → UInt16 → UInt8) :
    saveOn (initial segment) (mem segment) = initializeProgram segment mem segment := by
  ext off : 1
  have hlt := off.toNat_lt
  have hd : Halves.depth 0xff18 off = (65303 + 65536 - off.toNat) % 65536 := by
    simp only [Halves.depth, UInt16.toNat_sub]
    simp
    omega
  have hiff : (segment = segment ∧ 0xff00 ≤ off ∧ off < 0xff18) ↔ 65280 ≤ off.toNat ∧ off.toNat < 65304 := by
    rw [eq_self_iff_true, true_and, UInt16.le_iff_toNat_le, UInt16.lt_iff_toNat_lt]
    rfl
  change words.pushes (saved.map (initial segment)) 0xff18 (mem segment) off = _
  rw [saved_initial, words.pushes_apply (by simp [stackImage]), hd, initializeProgram]
  by_cases hin : 65280 ≤ off.toNat ∧ off.toNat < 65304
  · have hi : (65303 + 65536 - off.toNat) % 65536 / 2 = 11 - (off.toNat - 65280) / 2 := by omega
    have hw : (stackImage segment).reverse[11 - (off.toNat - 65280) / 2]? =
        some ((stackImage segment).getD ((off.toNat - 65280) / 2) 0) := by
      have hj : (off.toNat - 65280) / 2 < 12 := by omega
      have hj' : 11 - (11 - (off.toNat - 65280) / 2) = (off.toNat - 65280) / 2 := by omega
      rw [List.getElem?_reverse (by simp only [stackImage, List.length_cons, List.length_nil]; omega)]
      simp only [stackImage, List.length_cons, List.length_nil, Nat.zero_add, Nat.reduceAdd, Nat.add_one_sub_one, hj']
      rw [List.getD_eq_getElem?_getD, List.getElem?_eq_getElem hj, Option.getD_some]
    rw [if_pos (hiff.2 hin), hi, hw, Option.elim_some]
    rcases Nat.mod_two_eq_zero_or_one off.toNat with h2 | h2
    · rw [if_neg (by omega), if_pos h2]
      rfl
    · rw [if_pos (by omega), if_neg (by omega)]
      rfl
  · rw [if_neg (fun h => hin (hiff.1 h)), List.getElem?_eq_none, Option.elim_none]
    simp only [stackImage, List.length_reverse, List.length_cons, List.length_nil]
    omega

/-- The part of `initializeProgram` that goes over to the stack of the program. -/
def toProgram : List Instr :=
  [.push .bp, .mov .bp .sp, .arg .bx 4, .mov .cx .sp, .mov .dx .ss, .movi .ax 0xff18, .mov .sp .ax, .mov .ss .bx,
    .movi .ax 0]

/-- The part of `initializeProgram` that makes the stack image. -/
def makeImage : List Instr :=
  [.push .ax, .mov .ax .bx, .push .ax, .movi .ax 0, .push .ax,
    .movi .ax 0, .push .ax, .push .ax, .push .ax, .push .ax, .push .ax, .push .ax, .push .ax,
    .mov .ax .bx, .push .ax, .push .ax]

theorem makeImage_spec (hax : c.reg .ax = 0) :
    (c.run makeImage).mem = Function.update c.mem (c.reg .ss)
      (words.pushes (stackImage (c.reg .bx)).reverse (c.reg .sp).toUInt16 (c.mem (c.reg .ss))) ∧
    ∀ r, r ∉ [Reg.ax, .sp] → (c.run makeImage).reg r = c.reg r := by
  constructor
  · simp only [Cpu.run, makeImage, List.foldl_cons, List.foldl_nil, Cpu.exec]
    simp [stackImage, Halves.pushes, hax]
    rfl
  · intro r hr
    simp only [List.mem_cons, List.not_mem_nil, or_false, not_or] at hr
    simp [Cpu.run, makeImage, Cpu.exec, hr]

/-- The words above the stack pointer when a word has been pushed. -/
theorem push_above (c : Cpu) (w : Int16) {i : ℕ} (hi : i < 100) :
    (c.push w).word (c.reg .ss) (c.reg .sp + Int16.ofNat (2 * i)) =
      c.word (c.reg .ss) (c.reg .sp + Int16.ofNat (2 * i)) := by
  have := @Halves.load_above _ _ words (c.mem (c.reg .ss)) (c.reg .sp).toUInt16 [w] i
    (by simp only [List.length_singleton]; omega)
  rw [Cpu.word, Cpu.push_mem, Function.update_self]
  exact this

theorem toProgram_spec (c : Cpu) : (c.run toProgram).mem = (c.push (c.reg .bp)).mem ∧
    (c.run toProgram).reg .ax = 0 ∧ (c.run toProgram).reg .bx = c.word (c.reg .ss) (c.reg .sp + 2) ∧
    (c.run toProgram).reg .cx = c.reg .sp - 2 ∧ (c.run toProgram).reg .dx = c.reg .ss ∧
    (c.run toProgram).reg .sp = 0xff18 ∧
    (c.run toProgram).reg .ss = c.word (c.reg .ss) (c.reg .sp + 2) ∧
    ∀ r ∈ [Reg.si, .di, .ds, .es, .cs, .flags], (c.run toProgram).reg r = c.reg r := by
  have harg : (c.push (c.reg .bp)).word (c.reg .ss) (c.reg .sp - 2 + 4) = c.word (c.reg .ss) (c.reg .sp + 2) := by
    have hsp : c.reg .sp - 2 + 4 = c.reg .sp + Int16.ofNat (2 * 1) := by
      rw [show (4 : Int16) = 2 + 2 from rfl, ← Int16.add_assoc, Int16.sub_add_cancel]
      rfl
    rw [hsp, push_above c _ (by omega)]
    rfl
  simp only [Cpu.run, toProgram, List.foldl_cons, List.foldl_nil, Cpu.exec]
  refine ⟨?_, ?_, ?_, ?_, ?_, ?_, ?_, ?_⟩
  · simp
  · simp
  · simpa [Cpu.word] using harg
  · simp
  · simp
  · simp
  · simpa [Cpu.word] using harg
  · intro r hr
    revert r
    simp

/-- **`initializeProgram` builds the stack image**: it stores the twelve words in
    the segment it is given, and one word under the stack pointer of its caller,
    whose segment, stack and base pointers it keeps. -/
theorem initializeProgram_builds (hne : c.word (c.reg .ss) (c.reg .sp + 2) ≠ c.reg .ss) :
    (c.run Asm.initializeProgram).mem =
      initializeProgram (c.word (c.reg .ss) (c.reg .sp + 2)) (c.push (c.reg .bp)).mem ∧
    (c.run Asm.initializeProgram).reg .ip = c.word (c.reg .ss) (c.reg .sp) ∧
    (c.run Asm.initializeProgram).reg .sp = c.reg .sp + 2 ∧
    ∀ r ∈ [Reg.bp, .si, .di, .cs, .ds, .es, .ss, .flags], (c.run Asm.initializeProgram).reg r = c.reg r := by
  have hcut : Asm.initializeProgram =
      toProgram ++ (makeImage ++ ([.mov .sp .cx, .mov .ss .dx, .pop .bp, .ret] : List Instr)) := rfl
  obtain ⟨hmem, hax, hbx, hcx, hdx, hsp, hss, hkeep⟩ := toProgram_spec c
  rw [hcut, Cpu.run_append, Cpu.run_append]
  generalize c.run toProgram = c₁ at hmem hax hbx hcx hdx hsp hss hkeep ⊢
  obtain ⟨hmem₂, hreg₂⟩ := makeImage_spec hax
  generalize c₁.run makeImage = c₂ at hmem₂ hreg₂ ⊢
  rw [hss, hsp, hbx, hmem] at hmem₂
  have hseg : c₂.mem (c.reg .ss) = (c.push (c.reg .bp)).mem (c.reg .ss) := by
    rw [hmem₂, Function.update_of_ne (Ne.symm hne)]
  have hword : ∀ off, c₂.word (c.reg .ss) off = (c.push (c.reg .bp)).word (c.reg .ss) off := fun off => by
    rw [Cpu.word, hseg, Cpu.word]
  have hbp : c₂.word (c.reg .ss) (c.reg .sp - 2) = c.reg .bp := by
    rw [hword, Cpu.word, Cpu.push_mem, Function.update_self]
    exact words.load_store
  have hret : c₂.word (c.reg .ss) (c.reg .sp) = c.word (c.reg .ss) (c.reg .sp) := by
    rw [hword, ← Int16.add_zero (c.reg .sp)]
    exact push_above c (c.reg .bp) (i := 0) (by omega)
  have hcx₂ : c₂.reg .cx = c.reg .sp - 2 := (hreg₂ .cx (by decide)).trans hcx
  have hdx₂ : c₂.reg .dx = c.reg .ss := (hreg₂ .dx (by decide)).trans hdx
  have hend : c₂.run [.mov .sp .cx, .mov .ss .dx, .pop .bp, .ret] =
      (((c₂.set .sp (c.reg .sp - 2)).set .ss (c.reg .ss)).pop .bp).pop .ip := by
    simp [Cpu.run, Cpu.exec, hcx₂, hdx₂]
  rw [hend]
  refine ⟨?_, ?_, ?_, ?_⟩
  · ext seg' off : 2
    change c₂.mem seg' off = _
    rw [hmem₂, Function.update_apply]
    split_ifs with he
    · rw [he, ← saveOn_initial]
      rfl
    · rw [initializeProgram, if_neg fun h => he h.1]
  · simp [Cpu.word] at hret ⊢
    exact hret
  · simp
  · intro r hr
    simp only [List.mem_cons, List.not_mem_nil, or_false] at hr
    rcases hr with rfl | rfl | rfl | rfl | rfl | rfl | rfl | rfl
    · simpa [Cpu.word] using hbp
    all_goals simp [hreg₂, hkeep]

end TeamXtremeOS
