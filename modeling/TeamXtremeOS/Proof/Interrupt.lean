/-
  `interrupt` changes its own code.  The registers it hands over are those of its
  caller, however processes are interleaved; the number of the interrupt is,
  in the kernel, that of the process which has come last.
-/
import TeamXtremeOS.Interrupt
import TeamXtremeOS.Proof.Cpu
import TeamXtremeOS.Lib.Run

namespace TeamXtremeOS

open Lib

variable {c c' : Cpu} {i : Instr} {code : List Instr} {r : Reg} {seg seg' : Int16} {intr : Int16 → Int16}
  {m m' : Callers} {e : Deed} {es : List Deed} {n : ℕ}

/-! ## What an instruction reads and changes -/

/-- The registers an instruction changes. -/
def Instr.changes : Instr → List Reg
  | .push _ => [.sp]
  | .pop r => [.sp, r]
  | .mov r _ | .movi r _ | .movb r _ | .arg r _ | .argb r _ => [r]
  | .store _ _ | .storeb _ _ | .out _ => []
  | .cli | .sti => [.flags]
  | .ret => [.sp, .ip]
  | .iret => [.sp, .ip, .cs, .flags]

theorem exec_keeps (hr : r ∉ i.changes) : (c.exec i).reg r = c.reg r := by
  cases i <;> simp_all [Instr.changes, Cpu.exec, Cpu.setByte]

theorem run_keeps (hr : r ∉ code.flatMap Instr.changes) : (c.run code).reg r = c.reg r := by
  induction code generalizing c with
  | nil => rfl
  | cons i code ih =>
    rw [List.flatMap_cons, List.mem_append, not_or] at hr
    exact (ih hr.2).trans (exec_keeps hr.1)

/-- Only a store changes something outside of the stack. -/
def Instr.stores : Instr → Bool
  | .store _ _ | .storeb _ _ => true
  | _ => false

theorem exec_outside (hs : seg ≠ c.reg .ss) (hd : i.stores = true → seg ≠ c.reg .ds) :
    (c.exec i).mem seg = c.mem seg := by
  cases i <;> simp_all [Instr.stores, Cpu.exec, Cpu.setByte]

/-- **An instruction sees no segment but that of the stack.** -/
theorem exec_local (hreg : c.reg = c'.reg) (hmem : c.mem (c.reg .ss) = c'.mem (c.reg .ss)) :
    (c.exec i).reg = (c'.exec i).reg ∧ (c.exec i).mem (c.reg .ss) = (c'.exec i).mem (c.reg .ss) := by
  obtain ⟨reg, mem⟩ := c
  obtain ⟨reg', mem'⟩ := c'
  dsimp only at hreg hmem ⊢
  subst hreg
  by_cases hds : reg .ds = reg .ss
  · cases i <;> simp_all [Cpu.exec, Cpu.word, Cpu.setByte]
  · have hds' : reg .ss ≠ reg .ds := Ne.symm hds
    cases i <;> simp_all [Cpu.exec, Cpu.word, Cpu.setByte]

/-! ## The instructions of `interrupt` -/

theorem Asm.interrupt_changes (o : Int16) : (Asm.interrupt o).flatMap Instr.changes =
    [.sp, .bp, .ax, .sp, .bx, .ds, .si, .sp, .ds, .ax, .bx, .cx, .dx] := rfl

/-- The byte of the number is changed by the eighth instruction. -/
theorem Asm.interrupt_stores (o : Int16) (h : (Asm.interrupt o)[n]? = some i) :
    (i.stores = true ↔ n = 7) ∧ (n = 7 → i = .storeb 1 .ax) := by
  have hn : n < 13 := (List.getElem?_eq_some_iff.1 h).1
  interval_cases n <;> cases h <;> simp [Instr.stores]

/-- Before `interrupt` changes its code: two words are on the stack. -/
theorem interrupt_pushes (c : Cpu) (o : Int16) : (c.run ((Asm.interrupt o).take 7)).reg .ds = c.reg .cs ∧
    (c.run ((Asm.interrupt o).take 7)).reg .si = o ∧
    (c.run ((Asm.interrupt o).take 7)).reg .ax = c.word (c.reg .ss) (c.reg .sp + 2) ∧
    (c.run ((Asm.interrupt o).take 7)).reg .sp = c.reg .sp - 4 ∧
    (c.run ((Asm.interrupt o).take 7)).reg .bp = c.reg .sp - 2 ∧
    (c.run ((Asm.interrupt o).take 7)).mem = Function.update c.mem (c.reg .ss)
      (words.pushes [c.reg .bp, c.reg .ds] (c.reg .sp).toUInt16 (c.mem (c.reg .ss))) := by
  have h4 : c.reg .sp - 2 + 4 = c.reg .sp + Int16.ofNat (2 * 1) := by
    rw [show (4 : Int16) = 2 + 2 from rfl, ← Int16.add_assoc, Int16.sub_add_cancel]
    rfl
  have harg : (c.push (c.reg .bp)).word (c.reg .ss) (c.reg .sp - 2 + 4) = c.word (c.reg .ss) (c.reg .sp + 2) := by
    rw [h4, push_above c _ (by omega)]
    rfl
  have hsp : c.reg .sp - 2 - 2 = c.reg .sp - 4 := by
    rw [Int16.sub_sub]
    rfl
  simp only [Cpu.run, Asm.interrupt, List.take_succ_cons, List.take_zero, List.foldl_cons, List.foldl_nil, Cpu.exec]
  refine ⟨?_, ?_, ?_, ?_, ?_, ?_⟩
  · simp
  · simp
  · simpa [Cpu.word] using harg
  · simpa using hsp
  · simp
  · simp [Halves.pushes]
    rfl

/-- The end of `interrupt`, from its pushes on. -/
def handOver : List Instr := [.pop .ds, .arg .ax 6, .arg .bx 8, .arg .cx 10, .arg .dx 12]

theorem handOver_spec (c : Cpu) : (c.run handOver).mem = c.mem ∧
    (c.run handOver).reg .ds = c.word (c.reg .ss) (c.reg .sp) ∧
    (c.run handOver).reg .ax = c.word (c.reg .ss) (c.reg .bp + 6) ∧
    (c.run handOver).reg .bx = c.word (c.reg .ss) (c.reg .bp + 8) ∧
    (c.run handOver).reg .cx = c.word (c.reg .ss) (c.reg .bp + 10) ∧
    (c.run handOver).reg .dx = c.word (c.reg .ss) (c.reg .bp + 12) ∧
    (c.run handOver).reg .sp = c.reg .sp + 2 := by
  simp only [Cpu.run, handOver, List.foldl_cons, List.foldl_nil, Cpu.exec]
  refine ⟨?_, ?_, ?_, ?_, ?_, ?_, ?_⟩ <;> simp [Cpu.word]

/-- The addresses of the arguments, from the stack pointer and from what is
    pushed. -/
theorem arg_address (sp : Int16) (k : ℕ) :
    (sp - 2 + Int16.ofNat (k + 2)).toUInt16 = (sp - 4).toUInt16 + UInt16.ofNat (k + 4) ∧
    (sp - 2 + Int16.ofNat (k + 2)).toUInt16 = sp.toUInt16 + UInt16.ofNat k := by
  have h2 : (sp - 2 + Int16.ofNat (k + 2)).toUInt16 = sp.toUInt16 - 2 + UInt16.ofNat (k + 2) := rfl
  have h4 : (sp - 4).toUInt16 = sp.toUInt16 - 4 := rfl
  have hlt := sp.toUInt16.toNat_lt
  rw [h2, h4, ← UInt16.toNat_inj, ← UInt16.toNat_inj]
  simp only [UInt16.toNat_add, UInt16.toNat_sub, UInt16.toNat_ofNat']
  simp
  omega

theorem Cpu.setByte_apply {off : UInt16} (s a : Int16) (b : UInt8) :
    (c.setByte s a b).mem seg off = if seg = s ∧ off = a.toUInt16 then b else c.mem seg off := by
  rw [Cpu.setByte]
  dsimp only
  rw [Function.update_apply]
  by_cases hs : seg = s
  · simp only [hs, if_pos, true_and, Function.update_apply]
  · rw [if_neg hs, if_neg fun h => hs h.1]

/-- The memory when `interrupt` is at its `int`: two words more on the stack, and
    the number in the code. -/
theorem interrupt_mem (c : Cpu) (o seg : Int16) (off : UInt16) : (c.run (Asm.interrupt o)).mem seg off =
    if seg = c.reg .cs ∧ off = (o + 1).toUInt16 then toChar (c.word (c.reg .ss) (c.reg .sp + 2))
    else Function.update c.mem (c.reg .ss)
      (words.pushes [c.reg .bp, c.reg .ds] (c.reg .sp).toUInt16 (c.mem (c.reg .ss))) seg off := by
  have hcut : Asm.interrupt o = (Asm.interrupt o).take 7 ++ (([.storeb 1 .ax] : List Instr) ++ handOver) := rfl
  obtain ⟨hds, hsi, hax, -, -, hmem⟩ := interrupt_pushes c o
  rw [hcut, Cpu.run_append, Cpu.run_append, (handOver_spec _).1]
  generalize c.run ((Asm.interrupt o).take 7) = c₁ at hds hsi hax hmem ⊢
  have hstore : c₁.run ([.storeb 1 .ax] : List Instr) =
      c₁.setByte (c.reg .cs) (o + 1) (toChar (c.word (c.reg .ss) (c.reg .sp + 2))) := by
    simp only [Cpu.run, List.foldl_cons, List.foldl_nil, Cpu.exec, hds, hsi, hax]
  rw [hstore, Cpu.setByte_apply, hmem]

/-- The words on the stack, from the last one pushed up: the code is not there. -/
theorem interrupt_word {o : Int16} (hclear : c.reg .cs = c.reg .ss →
      ∀ i < 16, (c.reg .sp - 4).toUInt16 + UInt16.ofNat i ≠ (o + 1).toUInt16) (hn : n < 15) :
    words.load ((c.reg .sp - 4).toUInt16 + UInt16.ofNat n) ((c.run (Asm.interrupt o)).mem (c.reg .ss)) =
      words.load ((c.reg .sp - 4).toUInt16 + UInt16.ofNat n)
        (words.pushes [c.reg .bp, c.reg .ds] (c.reg .sp).toUInt16 (c.mem (c.reg .ss))) := by
  have h1 : (c.reg .sp - 4).toUInt16 + UInt16.ofNat n + 1 = (c.reg .sp - 4).toUInt16 + UInt16.ofNat (n + 1) := by
    rw [UInt16.add_assoc, UInt16.ofNat_add]
    rfl
  have hbyte : ∀ i < 16, (c.run (Asm.interrupt o)).mem (c.reg .ss) ((c.reg .sp - 4).toUInt16 + UInt16.ofNat i) =
      words.pushes [c.reg .bp, c.reg .ds] (c.reg .sp).toUInt16 (c.mem (c.reg .ss))
        ((c.reg .sp - 4).toUInt16 + UInt16.ofNat i) := by
    intro i hi
    rw [interrupt_mem, if_neg fun h => hclear h.1.symm i hi h.2, Function.update_self]
  rw [Halves.load, Halves.load, h1, hbyte n (by omega), hbyte (n + 1) (by omega)]

/-- **What `interrupt` has done at `intr`**, when nobody else has come: the
    registers are the arguments, the byte is the number, and the data segment
    and the stack are those of the caller. -/
theorem interrupt_arrives (c : Cpu) (o : Int16) (hclear : c.reg .cs = c.reg .ss →
      ∀ i < 16, (c.reg .sp - 4).toUInt16 + UInt16.ofNat i ≠ (o + 1).toUInt16) :
    (c.run (Asm.interrupt o)).reg .ds = c.reg .ds ∧
    (c.run (Asm.interrupt o)).reg .ax = c.word (c.reg .ss) (c.reg .sp + 4) ∧
    (c.run (Asm.interrupt o)).reg .bx = c.word (c.reg .ss) (c.reg .sp + 6) ∧
    (c.run (Asm.interrupt o)).reg .cx = c.word (c.reg .ss) (c.reg .sp + 8) ∧
    (c.run (Asm.interrupt o)).reg .dx = c.word (c.reg .ss) (c.reg .sp + 10) ∧
    (c.run (Asm.interrupt o)).reg .sp = c.reg .sp - 2 ∧
    (c.run (Asm.interrupt o)).mem (c.reg .cs) (o + 1).toUInt16 = toChar (c.word (c.reg .ss) (c.reg .sp + 2)) := by
  have hcut : Asm.interrupt o = ((Asm.interrupt o).take 8) ++ handOver := rfl
  obtain ⟨-, -, -, hsp, hbp, -⟩ := interrupt_pushes c o
  have hlast : c.run ((Asm.interrupt o).take 8) =
      (c.run ((Asm.interrupt o).take 7)).run ([.storeb 1 .ax] : List Instr) := rfl
  have hstore : ∀ r, (c.run ((Asm.interrupt o).take 8)).reg r = (c.run ((Asm.interrupt o).take 7)).reg r := by
    intro r
    rw [hlast]
    exact run_keeps (by simp [Instr.changes])
  have hss : (c.run ((Asm.interrupt o).take 8)).reg .ss = c.reg .ss :=
    run_keeps (by simp [Asm.interrupt, Instr.changes])
  rw [← hstore] at hsp hbp
  have hseen := fun n hn => @interrupt_word c n o hclear hn
  have hnum := interrupt_mem c o (c.reg .cs) (o + 1).toUInt16
  rw [hcut, Cpu.run_append] at hseen hnum ⊢
  obtain ⟨hm, h1, h2, h3, h4, h5, h6⟩ := handOver_spec (c.run ((Asm.interrupt o).take 8))
  rw [hm] at hseen hnum
  rw [h1, h2, h3, h4, h5, h6, hm, hss, hsp, hbp]
  generalize c.run ((Asm.interrupt o).take 8) = c₂ at hseen hnum ⊢
  have harg : ∀ k : ℕ, 2 * k < 11 → c₂.word (c.reg .ss) (c.reg .sp - 2 + Int16.ofNat (2 * k + 2)) =
      c.word (c.reg .ss) (c.reg .sp + Int16.ofNat (2 * k)) := by
    intro k hk
    obtain ⟨ha, hb⟩ := arg_address (c.reg .sp) (2 * k)
    rw [Cpu.word, ha, hseen _ (by omega), ← ha, hb, words.load_above (by simp; omega)]
    rfl
  refine ⟨?_, harg 2 (by omega), harg 3 (by omega), harg 4 (by omega), harg 5 (by omega), ?_, ?_⟩
  · have h0 := hseen 0 (by omega)
    rw [show (c.reg .sp - 4).toUInt16 + UInt16.ofNat 0 = (c.reg .sp).toUInt16 - UInt16.ofNat (2 * (1 + 1)) from
      UInt16.add_zero _, words.load_pushes (by simp) rfl] at h0
    exact h0
  · rw [show (4 : Int16) = 2 + 2 from rfl, ← Int16.sub_sub, Int16.sub_add_cancel]
  · rw [hnum, if_pos ⟨rfl, rfl⟩]

/-! ## Any interleaving -/

/-- What the processes have asked for: their registers and stacks when they have
    called `interrupt`, how far they are, and the number that the instruction in
    the kernel has been given last. -/
structure Wishes where
  reg : Int16 → Regs
  bytes : Int16 → UInt16 → UInt8
  done : Int16 → ℕ
  slot : UInt8

namespace Wishes
variable (w : Wishes)

/-- The processor when a process has called `interrupt`. -/
def entry (seg : Int16) : Cpu := ⟨w.reg seg, fun _ => w.bytes seg⟩

/-- Argument `k`: the number is 0, the registers are 1 to 4. -/
def arg (seg : Int16) (k : ℕ) : Int16 :=
  (w.entry seg).word (w.reg seg .ss) (w.reg seg .sp + Int16.ofNat (2 * (k + 1)))

def next (w : Wishes) : Deed → Wishes
  | .call seg reg bytes =>
    { w with
      reg := Function.update w.reg seg reg
      bytes := Function.update w.bytes seg bytes
      done := Function.update w.done seg 0 }
  | .exec seg =>
    { w with
      done := Function.update w.done seg (w.done seg + 1)
      slot := if w.done seg = 7 ∧ w.reg seg .cs = 0x1000 then toChar (w.arg seg 0) else w.slot }
  | .raise _ => w

/-- Nobody has asked for anything. -/
def start (intr : Int16 → Int16) (m : Callers) : Wishes :=
  ⟨fun _ _ => 0, fun _ _ => 0, fun _ => 0, m.mem 0x1000 (intr 0x1000 + 1).toUInt16⟩

/-- Where a process would be if it were alone. -/
def alone (intr : Int16 → Int16) (seg : Int16) : Cpu :=
  (w.entry seg).run ((Asm.interrupt (intr (w.reg seg .cs))).take (w.done seg))

variable {w}

theorem alone_reg (hr : r ∉ [Reg.sp, .bp, .ax, .bx, .ds, .si, .cx, .dx]) : (w.alone intr seg).reg r = w.reg seg r := by
  refine run_keeps fun hmem => hr ?_
  obtain ⟨i, hi, hri⟩ := List.mem_flatMap.1 hmem
  have hall : r ∈ (Asm.interrupt (intr (w.reg seg .cs))).flatMap Instr.changes :=
    List.mem_flatMap.2 ⟨i, List.mem_of_mem_take hi, hri⟩
  rw [Asm.interrupt_changes] at hall
  simp only [List.mem_cons, List.not_mem_nil, or_false] at hall ⊢
  tauto

end Wishes

/-- A process in `interrupt` is where it would be if it were alone. -/
structure Inside (intr : Int16 → Int16) (m : Callers) (w : Wishes) (seg : Int16) (code : List Instr) : Prop where
  calls : Callers.Calls intr seg (w.reg seg)
  code : code = (Asm.interrupt (intr (w.reg seg .cs))).drop (w.done seg)
  reg : (m.caller seg).reg = (w.alone intr seg).reg
  mem : m.mem seg = (w.alone intr seg).mem seg

/-- Every process in `interrupt` is, and the instruction in the kernel has the
    number it has been given last. -/
structure Follows (intr : Int16 → Int16) (m : Callers) (w : Wishes) : Prop where
  inside : ∀ seg code, (m.caller seg).left = some code → Inside intr m w seg code
  slot : m.mem 0x1000 (intr 0x1000 + 1).toUInt16 = w.slot

theorem Inside.congr {w w' : Wishes} (h : Inside intr m w seg code) (hc : m'.caller seg = m.caller seg)
    (hm : m'.mem seg = m.mem seg) (hr : w'.reg seg = w.reg seg) (hb : w'.bytes seg = w.bytes seg)
    (hd : w'.done seg = w.done seg) : Inside intr m' w' seg code := by
  have ha : w'.alone intr seg = w.alone intr seg := by
    simp only [Wishes.alone, Wishes.entry, hr, hb, hd]
  exact ⟨hr ▸ h.calls, by rw [hr, hd]; exact h.code, by rw [hc, ha, h.reg], by rw [hm, ha, h.mem]⟩

theorem Follows.call {w : Wishes} {reg : Regs} {bytes : UInt16 → UInt8} (h : Follows intr m w)
    (hok : m.MayHappen intr (.call seg reg bytes)) (hs : m.step intr (.call seg reg bytes) = some m') :
    Follows intr m' (w.next (.call seg reg bytes)) := by
  obtain ⟨-, hcalls⟩ := hok
  cases hs
  refine ⟨?_, ?_⟩
  · intro seg' code hl
    by_cases he : seg' = seg
    · subst he
      simp only [Function.update_self, Option.some.injEq] at hl
      subst hl
      refine ⟨?_, ?_, ?_, ?_⟩
      · simpa [Wishes.next] using hcalls
      · simp [Wishes.next]
      · simp [Wishes.next, Wishes.alone, Wishes.entry, Cpu.run]
      · simp [Wishes.next, Wishes.alone, Wishes.entry, Cpu.run]
    · simp only [Function.update_of_ne he] at hl
      refine (h.inside seg' code hl).congr ?_ ?_ ?_ ?_ ?_ <;> exact Function.update_of_ne he ..
  · exact (congrFun (Function.update_of_ne (Ne.symm hcalls.1) ..) _).trans h.slot

/-- The next instruction of a process: it stays inside, the others see nothing,
    and the kernel may have a new number. -/
theorem Inside.exec {w : Wishes} {left : List Instr} (h : Inside intr m w seg (i :: left))
    (hc : c' = (m.cpu seg).exec i) :
    Inside intr ⟨Function.update m.caller seg ⟨c'.reg, some left⟩, c'.mem⟩ (w.next (.exec seg)) seg left ∧
    (∀ seg' ≠ seg, seg' ≠ 0x1000 → c'.mem seg' = m.mem seg') ∧
    (m.mem 0x1000 (intr 0x1000 + 1).toUInt16 = w.slot →
      c'.mem 0x1000 (intr 0x1000 + 1).toUInt16 = (w.next (.exec seg)).slot) := by
  obtain ⟨⟨hkernel, hss, hcs⟩, hcode, hreg, hmem⟩ := h
  have hi : (Asm.interrupt (intr (w.reg seg .cs)))[w.done seg]? = some i := by
    rw [← Nat.add_zero (w.done seg), ← List.getElem?_drop, ← hcode]
    rfl
  obtain ⟨hstores, hseven⟩ := Asm.interrupt_stores _ hi
  have hreg' : (m.cpu seg).reg = (w.alone intr seg).reg := hreg
  have hmem' : (m.cpu seg).mem = m.mem := rfl
  have hss' : (m.cpu seg).reg .ss = seg := by rw [hreg', Wishes.alone_reg (by decide), hss]
  -- the registers at the instruction that changes the code
  have hat : w.done seg = 7 → (m.cpu seg).reg .ds = w.reg seg .cs ∧
      (m.cpu seg).reg .si = intr (w.reg seg .cs) ∧ (m.cpu seg).reg .ax = w.arg seg 0 := by
    intro h7
    obtain ⟨hds, hsi, hax, -⟩ := interrupt_pushes (w.entry seg) (intr (w.reg seg .cs))
    rw [hreg', Wishes.alone, h7]
    exact ⟨hds, hsi, hax⟩
  have htake : (Asm.interrupt (intr (w.reg seg .cs))).take (w.done seg + 1) =
      (Asm.interrupt (intr (w.reg seg .cs))).take (w.done seg) ++ [i] := by
    rw [List.take_add_one, hi]
    rfl
  have halone : (w.next (.exec seg)).alone intr seg = (w.alone intr seg).exec i := by
    simp only [Wishes.alone, Wishes.next, Wishes.entry, Function.update_self, htake, Cpu.run_append]
    rfl
  rw [← hmem'] at hmem ⊢
  generalize m.cpu seg = c at hc hreg' hmem hss' hat ⊢
  subst hc
  refine ⟨?_, ?_, ?_⟩
  · obtain ⟨h1, h2⟩ := exec_local (i := i) hreg' (hss'.symm ▸ hmem)
    rw [hss'] at h2
    refine ⟨⟨hkernel, hss, hcs⟩, ?_, ?_, ?_⟩
    · simp only [Wishes.next, Function.update_self]
      rw [← List.drop_drop, ← hcode]
      rfl
    · simp only [Function.update_self, halone, h1]
    · rw [halone]
      exact h2
  · intro seg' hne hk
    refine exec_outside (by rwa [hss']) ?_
    intro hst
    rw [(hat (hstores.1 hst)).1]
    rcases hcs with ⟨hcs, -⟩ | hcs
    · rwa [hcs]
    · rwa [hcs]
  · intro hslot
    by_cases h7 : w.done seg = 7
    · obtain ⟨hds, hsi, hax⟩ := hat h7
      rw [hseven h7, Cpu.exec, hds, hsi, hax]
      rcases hcs with ⟨hcs, -⟩ | hcs
      · have hne : w.reg seg .cs ≠ 0x1000 := by rwa [hcs]
        have hif : ¬ (w.done seg = 7 ∧ w.reg seg .cs = 0x1000) := fun hx => hne hx.2
        simp only [Cpu.setByte, Wishes.next, Function.update_of_ne (Ne.symm hne), if_neg hif]
        exact hslot
      · simp only [Cpu.setByte, Wishes.next, hcs, Function.update_self, if_pos (And.intro h7 trivial)]
    · rw [exec_outside (by rw [hss']; exact Ne.symm hkernel) (fun hst => absurd (hstores.1 hst) h7), Wishes.next,
        if_neg fun hx => h7 hx.1]
      exact hslot

theorem Follows.exec {w : Wishes} (h : Follows intr m w) (hs : m.step intr (.exec seg) = some m') :
    Follows intr m' (w.next (.exec seg)) := by
  rw [Callers.step] at hs
  split at hs
  case h_2 => cases hs
  case h_1 i left hl =>
    obtain ⟨hin, hother, hslot⟩ := (h.inside seg _ hl).exec rfl
    cases hs
    refine ⟨?_, hslot h.slot⟩
    intro seg' code hl'
    by_cases he : seg' = seg
    · subst he
      simp only [Function.update_self, Option.some.injEq] at hl'
      exact hl' ▸ hin
    · simp only [Function.update_of_ne he] at hl'
      have hin' := h.inside seg' code hl'
      refine hin'.congr ?_ ?_ rfl rfl ?_
      · exact Function.update_of_ne he ..
      · exact hother seg' he hin'.calls.1
      · exact Function.update_of_ne he ..

theorem Follows.step {w : Wishes} (h : Follows intr m w) (hok : m.MayHappen intr e) (hs : m.step intr e = some m') :
    Follows intr m' (w.next e) := by
  cases e with
  | call seg reg bytes => exact h.call hok hs
  | exec seg => exact h.exec hs
  | raise seg =>
    rw [Callers.step] at hs
    split at hs
    · cases hs
      refine ⟨?_, h.slot⟩
      intro seg' code hl
      by_cases he : seg' = seg
      · subst he
        simp at hl
      · simp only [Function.update_of_ne he] at hl
        exact (h.inside seg' code hl).congr (Function.update_of_ne he ..) rfl rfl rfl rfl
    · cases hs

theorem Follows.start (h0 : ∀ seg, (m.caller seg).left = none) : Follows intr m (.start intr m) := by
  refine ⟨?_, rfl⟩
  intro seg code hl
  rw [h0] at hl
  cases hl

/-- **The interrupt that is raised.**  In every run, however the processes are
    interleaved, a process at `intr` has the registers it has asked for; the
    number is its own if the code is in its own segment, and in the kernel it is
    the number of the process that has changed the instruction last. -/
theorem raised_run (h : Run (Callers.step intr) (Callers.MayHappen intr) m es m')
    (h0 : ∀ seg, (m.caller seg).left = none) (hat : (m'.caller seg).left = some []) {w : Wishes}
    (hw : w = es.foldl Wishes.next (.start intr m)) :
    (m'.caller seg).reg .ax = w.arg seg 1 ∧ (m'.caller seg).reg .bx = w.arg seg 2 ∧
    (m'.caller seg).reg .cx = w.arg seg 3 ∧ (m'.caller seg).reg .dx = w.arg seg 4 ∧
    (m'.caller seg).reg .ds = w.reg seg .ds ∧
    m'.number intr seg = if w.reg seg .cs = 0x1000 then w.slot else toChar (w.arg seg 0) := by
  have hf : Follows intr m' w := by
    have hsim := @Run.simulate _ _ _ _ (Callers.step intr) (Callers.MayHappen intr) _ _ _ (Follows intr)
      Wishes.next (fun _ e => e) (fun _ _ _ _ hR hok hs => hR.step hok hs) h _ (Follows.start h0)
    rw [h.labels_id, ← hw] at hsim
    exact hsim
  obtain ⟨⟨hkernel, hss, hcs⟩, hcode, hreg, hmem⟩ := hf.inside seg [] hat
  have hall : w.alone intr seg = (w.entry seg).run (Asm.interrupt (intr (w.reg seg .cs))) := by
    rw [Wishes.alone, List.take_of_length_le (List.drop_eq_nil_iff.1 hcode.symm)]
  obtain ⟨hds, hax, hbx, hcx, hdx, -, hnum⟩ := interrupt_arrives (w.entry seg) (intr (w.reg seg .cs)) (by
    intro he
    rcases hcs with ⟨-, hclear⟩ | hcs
    · exact hclear
    · exact absurd (hss.symm.trans (he.symm.trans hcs)) hkernel)
  rw [← hall] at hds hax hbx hcx hdx hnum
  rw [hreg, Callers.number, hreg, Wishes.alone_reg (r := .cs) (by decide)]
  refine ⟨hax, hbx, hcx, hdx, hds, ?_⟩
  rcases hcs with ⟨hcs, -⟩ | hcs
  · rw [if_neg (by rwa [hcs]), hcs, hmem]
    rw [show (w.entry seg).reg .cs = seg from hcs, hcs] at hnum
    exact hnum
  · rw [if_pos hcs, hcs]
    exact hf.slot

/-- The registers of a process that calls the `interrupt` of the kernel. -/
def inKernel (seg : Int16) : Regs
  | .cs => 0x1000
  | .ss => seg
  | .sp => 0xff00
  | _ => 0

/-- Its stack, with the number of an interrupt above the return address. -/
def asking (number : UInt8) : UInt16 → UInt8 := fun off => if off = 0xff02 then number else 0

/-- The processes before they have called `interrupt`. -/
def quiet : Callers := ⟨fun _ => ⟨fun _ => 0, none⟩, fun _ _ => 0⟩

/-- A process asks for the screen; before it is at `intr`, another one asks for
    the disk. -/
def overtaken : List Deed :=
  [.call 0x2000 (inKernel 0x2000) (asking 0x10)] ++ List.replicate 10 (.exec 0x2000) ++
    [.call 0x3000 (inKernel 0x3000) (asking 0x13)] ++ List.replicate 13 (.exec 0x3000) ++ [.raise 0x3000] ++
    List.replicate 3 (.exec 0x2000)

/-- **It gets the disk.** -/
theorem raised_run_other : ∃ m : Callers,
    (overtaken.foldl Wishes.next (.start (fun _ => 0x100) quiet)).arg 0x2000 0 = 0x10 ∧
    (m.caller 0x2000).left = some [] ∧ m.number (fun _ => 0x100) 0x2000 = 0x13 := by
  have h : (evalRun (Callers.step fun _ => 0x100) (Callers.MayHappen fun _ => 0x100) quiet overtaken).any
      (fun m => (m.caller 0x2000).left.any List.isEmpty) = true := by decide +kernel
  obtain ⟨m, hr, hm⟩ := Run.exists_of_evalRun h
  have hat : (m.caller 0x2000).left = some [] := by
    rcases hl : (m.caller 0x2000).left with _ | code
    · simp [hl] at hm
    · simpa [hl] using hm
  obtain ⟨-, -, -, -, -, hnum⟩ := raised_run hr (fun _ => rfl) hat rfl
  exact ⟨m, by decide +kernel, hat, hnum.trans (by decide +kernel)⟩

end TeamXtremeOS
