/-
  Routines called from C.  A loop of calls of `putInMemory` stores what the loop
  says, on whatever stack it is run; so `executeProgram` loads the program.
-/
import TeamXtremeOS.Calls
import TeamXtremeOS.Proof.Interrupt
import TeamXtremeOS.Proof.Switch
import TeamXtremeOS.Proof.Video

namespace TeamXtremeOS

open Lib

variable {c c' : Cpu} {r : Reg} {args : List Int16} {ret segment address character : Int16} {seg : Int16}
  {off : UInt16} {n : ℕ}

/-! ## Calls -/

namespace Cpu

/-- The `n` bytes under the stack pointer. -/
def Below (c : Cpu) (n : ℕ) (seg : Int16) (off : UInt16) : Prop :=
  seg = c.reg .ss ∧ Halves.depth (c.reg .sp).toUInt16 off < n

/-- Pushes leave what is not below alone. -/
theorem pushes_not_below {ws : List Int16} (hn : ¬ c.Below n seg off) (hws : 2 * ws.length ≤ n) (h : n ≤ 65536) :
    Function.update c.mem (c.reg .ss) (words.pushes ws (c.reg .sp).toUInt16 (c.mem (c.reg .ss))) seg off =
      c.mem seg off := by
  rw [Function.update_apply]
  split_ifs with hs
  · rw [words.pushes_outside (by omega) (by by_contra hd; exact hn ⟨hs, by omega⟩), hs]
  · rfl

end Cpu

theorem toChar_ofBytes (lo hi : UInt8) : toChar (ofBytes lo hi) = lo := by
  have hlo := lo.toNat_lt
  have hhi := hi.toNat_lt
  have h : (toChar (ofBytes lo hi)).toNat = (lo.toNat + 256 * hi.toNat) % 65536 % 256 := by
    change (UInt16.ofNat (lo.toNat + 256 * hi.toNat)).toUInt8.toNat = _
    simp
  rw [← UInt8.toNat_inj, h]
  omega

theorem toChar_ofChar (b : UInt8) : toChar (ofChar b) = b := by
  have := b.toNat_lt
  rw [← UInt8.toNat_inj]
  simp [toChar, ofChar]

theorem toChar_withLow (w : Int16) (b : UInt8) : toChar (withLow w b) = b := toChar_ofBytes ..

/-- The byte under a stack pointer, from the other end of the words pushed. -/
theorem depth_up (sp : Int16) {k n : ℕ} (hk : n < k) (h : k < 65536) :
    Halves.depth sp.toUInt16 ((sp - Int16.ofNat k).toUInt16 + UInt16.ofNat n) = k - 1 - n := by
  have he : (sp - Int16.ofNat k).toUInt16 = sp.toUInt16 - UInt16.ofNat k := rfl
  have hlt := sp.toUInt16.toNat_lt
  rw [he, Halves.depth]
  simp only [UInt16.toNat_sub, UInt16.toNat_add, UInt16.toNat_ofNat']
  simp
  omega

/-! ## `putInMemory` -/

/-- The entry of `putInMemory`: six words are on the stack. -/
theorem putInMemory_enters (c : Cpu) (segment address character ret : Int16) :
    (c.enter [segment, address, character] ret).run [.push .bp, .mov .bp .sp, .push .ds] =
      { reg := Function.update (Function.update c.reg .bp (c.reg .sp - 10)) .sp (c.reg .sp - 12)
        mem := Function.update c.mem (c.reg .ss) (words.pushes
          [character, address, segment, ret, c.reg .bp, c.reg .ds] (c.reg .sp).toUInt16 (c.mem (c.reg .ss))) } := by
  have h10 : c.reg .sp - 2 - 2 - 2 - 2 - 2 = c.reg .sp - 10 := by grind
  have h12 : c.reg .sp - 10 - 2 = c.reg .sp - 12 := by grind
  rw [Cpu.mk.injEq]
  constructor
  · simp [Cpu.enter, Cpu.run, Cpu.exec, h10, h12]
    rw [Function.update_comm (show Reg.sp ≠ .bp by decide), Function.update_idem]
  · simp [Cpu.enter, Cpu.run, Cpu.exec, Halves.pushes]
    rfl

/-- The part of `putInMemory` between its pushes and its pops. -/
def storeByte : List Instr := [.arg .ax 4, .arg .si 6, .argb .cx 8, .mov .ds .ax, .storeb 0 .cx]

theorem putInMemory_stores (hax : c.word (c.reg .ss) (c.reg .bp + 4) = segment)
    (hsi : c.word (c.reg .ss) (c.reg .bp + 6) = address)
    (hcl : c.mem (c.reg .ss) (c.reg .bp + 8).toUInt16 = toChar character) :
    (c.run storeByte).mem = (c.setByte segment address (toChar character)).mem ∧
    ∀ r, r ∉ [Reg.ax, .si, .cx, .ds] → (c.run storeByte).reg r = c.reg r := by
  constructor
  · simp [Cpu.run, storeByte, Cpu.exec, Cpu.setByte, Cpu.word, toChar_withLow] at hax hsi hcl ⊢
    rw [hax, hsi, hcl]
  · intro r hr
    rw [run_keeps]
    simpa [storeByte, Instr.changes] using hr

/-- The words on the stack of `putInMemory`, by their addresses from its `bp`. -/
theorem putInMemory_word (c : Cpu) {ws : List Int16} {w : Int16} {i : ℕ} {k : Int16} (hws : 2 * ws.length ≤ 65536)
    (hi : ws[i]? = some w) (hk : c.reg .sp - 10 + k = c.reg .sp - Int16.ofNat (2 * (i + 1))) :
    words.load (c.reg .sp - 10 + k).toUInt16 (words.pushes ws (c.reg .sp).toUInt16 (c.mem (c.reg .ss))) = w := by
  rw [hk]
  exact words.load_pushes hws hi

/-- The byte is not among the words that are popped. -/
theorem putInMemory_frame {ws : List Int16} {b : UInt8} (hws : ws.length = 6)
    (hstack : c'.mem (c.reg .ss) = words.pushes ws (c.reg .sp).toUInt16 (c.mem (c.reg .ss)))
    (hout : ¬ c.Below 12 segment address.toUInt16) :
    words.frame 3 (c.reg .sp - 12).toUInt16 ((c'.setByte segment address b).mem (c.reg .ss)) =
      ws.reverse.take 3 := by
  have htake := @Halves.frame_take _ _ words (c.mem (c.reg .ss)) (c.reg .sp).toUInt16 ws 3 (by omega) (by omega)
  have hsix : (c.reg .sp - 12).toUInt16 = (c.reg .sp).toUInt16 - UInt16.ofNat (2 * ws.length) := by
    rw [hws]
    rfl
  rw [← hsix, ← hstack] at htake
  rw [← htake, Cpu.setByte]
  dsimp only
  rw [Function.update_apply]
  split_ifs with hseg
  · rw [← hseg, words.frame_update]
    intro i hi he
    have hdepth := depth_up (c.reg .sp) (show i < 12 by omega) (by omega)
    rw [show Int16.ofNat 12 = 12 from rfl, he] at hdepth
    exact hout ⟨hseg.symm, by omega⟩
  · rfl

/-- **`putInMemory` stores the byte**, and twelve bytes under the stack pointer of
    its caller. -/
theorem putInMemory_spec (hout : ¬ c.Below 12 segment address.toUInt16) :
    (∀ seg off, ¬ c.Below 12 seg off → (c.call Asm.putInMemory [segment, address, character] ret).mem seg off =
      (c.setByte segment address (toChar character)).mem seg off) ∧
    ∀ r, r ∉ [Reg.ax, .si, .cx, .ip] →
      (c.call Asm.putInMemory [segment, address, character] ret).reg r = c.reg r := by
  have hcut : Asm.putInMemory = ([.push .bp, .mov .bp .sp, .push .ds] : List Instr) ++
      (storeByte ++ ([.pop .ds, .pop .bp, .ret] : List Instr)) := rfl
  rw [Cpu.call, hcut, Cpu.run_append, Cpu.run_append, putInMemory_enters]
  generalize hws : [character, address, segment, ret, c.reg .bp, c.reg .ds] = ws
  have hlen : 2 * ws.length ≤ 65536 := by simp [← hws]
  generalize hc₁ : Cpu.mk _ _ = c₁
  have hreg₁ : c₁.reg = Function.update (Function.update c.reg .bp (c.reg .sp - 10)) .sp (c.reg .sp - 12) := by
    rw [← hc₁]
  have hmem₁ : c₁.mem = Function.update c.mem (c.reg .ss)
      (words.pushes ws (c.reg .sp).toUInt16 (c.mem (c.reg .ss))) := by
    rw [← hc₁]
  have hss₁ : c₁.reg .ss = c.reg .ss := by simp [hreg₁]
  have hbp₁ : c₁.reg .bp = c.reg .sp - 10 := by simp [hreg₁]
  have hstack₁ : c₁.mem (c.reg .ss) = words.pushes ws (c.reg .sp).toUInt16 (c.mem (c.reg .ss)) := by
    rw [hmem₁, Function.update_self]
  have hax : c₁.word (c₁.reg .ss) (c₁.reg .bp + 4) = segment := by
    rw [Cpu.word, hss₁, hbp₁, hstack₁]
    exact putInMemory_word c hlen (i := 2) (by rw [← hws]; rfl) (by grind)
  have hsi : c₁.word (c₁.reg .ss) (c₁.reg .bp + 6) = address := by
    rw [Cpu.word, hss₁, hbp₁, hstack₁]
    exact putInMemory_word c hlen (i := 1) (by rw [← hws]; rfl) (by grind)
  have hcl : c₁.mem (c₁.reg .ss) (c₁.reg .bp + 8).toUInt16 = toChar character := by
    have hw := putInMemory_word c hlen (i := 0) (k := 8) (w := character) (by rw [← hws]; rfl) (by grind)
    rw [hss₁, hbp₁, hstack₁, ← hw, Halves.load]
    exact (toChar_ofBytes ..).symm
  obtain ⟨hmem₂, hreg₂⟩ := putInMemory_stores hax hsi hcl
  generalize c₁.run storeByte = c₂ at hmem₂ hreg₂ ⊢
  have hss₂ : c₂.reg .ss = c.reg .ss := (hreg₂ _ (by decide)).trans hss₁
  have hsp₂ : c₂.reg .sp = c.reg .sp - 12 := by
    rw [hreg₂ _ (by decide), hreg₁, Function.update_self]
  have hframe : words.frame 3 (c₂.reg .sp).toUInt16 (c₂.mem (c₂.reg .ss)) =
      [Reg.ds, .bp, .ip].map (Function.update c.reg .ip ret) := by
    rw [hss₂, hsp₂, hmem₂, putInMemory_frame (by rw [← hws]; rfl) hstack₁ hout, ← hws]
    simp
  have hpop : c₂.run [.pop .ds, .pop .bp, .ret] = c₂.run ([Reg.ds, .bp, .ip].map .pop) := rfl
  obtain ⟨hmem₃, hreg₃⟩ := @Cpu.run_pops_of c₂ [.ds, .bp, .ip] _ (by decide) (by decide) hframe
  rw [hpop]
  generalize c₂.run ([Reg.ds, .bp, .ip].map .pop) = c₃ at hmem₃ hreg₃ ⊢
  constructor
  · intro seg off hn
    have hkeep : c₁.mem seg off = c.mem seg off := by
      rw [hmem₁]
      exact Cpu.pushes_not_below hn (by simp [← hws]) (by omega)
    change c₃.mem seg off = _
    rw [hmem₃, hmem₂, Cpu.setByte_apply, Cpu.setByte_apply, hkeep]
  · intro r hr
    simp only [List.mem_cons, List.not_mem_nil, or_false, not_or] at hr
    rw [Cpu.drop, Cpu.set_reg, Function.update_apply]
    split_ifs with hsp
    · rw [hsp, hreg₃, if_neg (by decide), if_pos rfl, hsp₂]
      change c.reg .sp - 12 + 6 + 6 = c.reg .sp
      grind
    · rw [hreg₃, if_neg hsp]
      split_ifs with hm
      · exact Function.update_of_ne hr.2.2.2 ..
      · simp only [List.mem_cons, List.not_mem_nil, or_false, not_or] at hm
        rw [hreg₂ r (by simp [hr, hm]), hreg₁, Function.update_of_ne hsp, Function.update_of_ne hm.2.1]

/-! ## Programs of stores -/

theorem Cpu.below_congr (hss : c'.reg .ss = c.reg .ss) (hsp : c'.reg .sp = c.reg .sp) :
    c'.Below n seg off ↔ c.Below n seg off := by
  rw [Below, Below, hss, hsp]

/-- **On the processor, stores are stores.**  A program of stores that does not
    touch the twelve bytes under the stack pointer leaves the memory that it
    should leave, but for these; and it comes back with the stack, the segments
    and `BP` of its caller. -/
theorem obey_spec {R : Type} {p : MemProg R} {x : R} {d d' : Int16 × UInt16 → UInt8}
    (hp : p.Only fun a => ¬ c.Below 12 a.1 a.2) (hd : ∀ seg off, ¬ c.Below 12 seg off → c.mem seg off = d (seg, off))
    (h : p.exec d = some (x, d')) : ∃ c', Cpu.obey ret p c = some (x, c') ∧
      (∀ seg off, ¬ c.Below 12 seg off → c'.mem seg off = d' (seg, off)) ∧
      ∀ r, r ∉ [Reg.ax, .si, .cx, .ip] → c'.reg r = c.reg r := by
  induction p generalizing c d with
  | ret y =>
    cases h
    exact ⟨c, rfl, hd, fun _ _ => rfl⟩
  | fail => cases h
  | read a p ih =>
    rw [Prog.exec, ← hd _ _ hp.1] at h
    exact ih _ (hp.2 _) hd h
  | write a b p ih =>
    obtain ⟨hmem, hreg⟩ := @putInMemory_spec c ret a.1 a.2.toInt16 (ofChar b) hp.1
    have hbelow : ∀ seg off, (c.call Asm.putInMemory [a.1, a.2.toInt16, ofChar b] ret).Below 12 seg off ↔
        c.Below 12 seg off := fun seg off => Cpu.below_congr (hreg _ (by decide)) (hreg _ (by decide))
    rw [Cpu.obey]
    generalize c.call Asm.putInMemory [a.1, a.2.toInt16, ofChar b] ret = c₁ at hmem hreg hbelow ⊢
    have hp₁ : p.Only fun a => ¬ c₁.Below 12 a.1 a.2 := hp.2.mono fun k hk hb => hk ((hbelow _ _).1 hb)
    have hd₁ : ∀ seg off, ¬ c₁.Below 12 seg off → c₁.mem seg off = Function.update d a b (seg, off) := by
      intro seg off hn
      rw [hbelow] at hn
      rw [hmem _ _ hn, Cpu.setByte_apply, hd _ _ hn, Function.update_apply, toChar_ofChar]
      simp only [Prod.ext_iff, UInt16.toUInt16_toInt16]
    obtain ⟨c', ho, hmem', hreg'⟩ := ih hp₁ hd₁ h
    refine ⟨c', ho, ?_, ?_⟩
    · intro seg off hn
      exact hmem' seg off fun hb => hn ((hbelow seg off).1 hb)
    · intro r hr
      exact (hreg' r hr).trans (hreg r hr)

/-! ## Loading a program -/

theorem loadProgram_only (segment : Int16) (buf : Buffer) (n : ℕ) :
    (loadProgram segment buf n).Only fun a => a.1 = segment := by
  induction n with
  | zero => trivial
  | succ i ih => exact ih.bind fun _ => ⟨rfl, trivial⟩

theorem loadProgram_exec {buf : Buffer} {d : Int16 × UInt16 → UInt8} (hn : n ≤ 65536) :
    (loadProgram segment buf n).exec d =
      some ((), fun a => if a.1 = segment ∧ a.2.toNat < n then buf a.2.toNat else d a) := by
  induction n with
  | zero => simp [loadProgram, Prog.exec]
  | succ i ih =>
    rw [loadProgram, Prog.exec_bind, ih (by omega), Option.bind_some, putInMemory, Prog.exec, Prog.exec,
      Option.some.injEq, Prod.mk.injEq]
    refine ⟨rfl, ?_⟩
    ext a : 1
    have hlast : a = (segment, (Int16.ofNat i).toUInt16) ↔ a.1 = segment ∧ a.2.toNat = i := by
      have hi : (Int16.ofNat i).toUInt16.toNat = i := by
        rw [Int16.toUInt16_ofNat', UInt16.toNat_ofNat', Nat.mod_eq_of_lt (by omega)]
      rw [Prod.ext_iff, ← UInt16.toNat_inj, hi]
    have hsucc : a.1 = segment ∧ a.2.toNat < i + 1 ↔
        a.1 = segment ∧ a.2.toNat = i ∨ a.1 = segment ∧ a.2.toNat < i := by
      rw [← and_or_left, Nat.lt_succ_iff_lt_or_eq, or_comm]
    simp only [Function.update_apply, hlast, hsucc]
    by_cases ha : a.1 = segment ∧ a.2.toNat = i
    · rw [if_pos ha, if_pos (.inl ha), ha.2]
    · simp only [ha, false_or, if_false]

theorem initializeProgram_congr {mem mem' : Int16 → UInt16 → UInt8} (h : mem seg off = mem' seg off) :
    initializeProgram segment mem seg off = initializeProgram segment mem' seg off := by
  rw [initializeProgram, initializeProgram, h]

/-- A call of `initializeProgram`. -/
theorem initializeProgram_call (hne : segment ≠ c.reg .ss) :
    (∀ seg off, ¬ c.Below 12 seg off → (c.call Asm.initializeProgram [segment] ret).mem seg off =
      initializeProgram segment c.mem seg off) ∧
    ∀ r ∈ [Reg.bp, .sp, .si, .di, .cs, .ds, .es, .ss, .flags],
      (c.call Asm.initializeProgram [segment] ret).reg r = c.reg r := by
  generalize he : c.enter [segment] ret = e
  have hpush : e = [segment, ret].foldl Cpu.push c := he.symm
  rw [Cpu.foldl_push] at hpush
  have hss : e.reg .ss = c.reg .ss := by simp [hpush]
  have hsp : e.reg .sp = c.reg .sp - 4 := by simp [hpush]
  have harg : e.word (e.reg .ss) (e.reg .sp + 2) = segment := by
    have h2 : c.reg .sp - 4 + 2 = c.reg .sp - Int16.ofNat (2 * (0 + 1)) := by grind
    rw [hss, hsp, h2, Cpu.word, hpush]
    dsimp only
    rw [Function.update_self]
    exact words.load_pushes (by simp) rfl
  obtain ⟨hmem, -, hsp', hkeep⟩ := initializeProgram_builds (c := e) (by rwa [harg, hss])
  rw [harg] at hmem
  have hframe : (e.push (e.reg .bp)).mem = Function.update c.mem (c.reg .ss)
      (words.pushes [segment, ret, c.reg .bp] (c.reg .sp).toUInt16 (c.mem (c.reg .ss))) := by
    have h3 : e.push (e.reg .bp) = [segment, ret, c.reg .bp].foldl Cpu.push c := by
      simp [← he, Cpu.enter]
    rw [h3, Cpu.foldl_push]
  constructor
  · intro seg off hn
    rw [Cpu.call, he]
    change (e.run Asm.initializeProgram).mem seg off = _
    rw [hmem, hframe]
    exact initializeProgram_congr (Cpu.pushes_not_below hn (by simp) (by omega))
  · intro r hr
    rw [Cpu.call, he, Cpu.drop, Cpu.set_reg, Function.update_apply]
    split_ifs with h
    · rw [h, hsp', hsp]
      change c.reg .sp - 4 + 2 + 2 = c.reg .sp
      grind
    · rw [hkeep r (by simp_all), hpush]
      exact Function.update_of_ne h ..

/-- **What `executeProgram` does to the memory, instruction by instruction.**  In
    every run, if the program is started, then its loop of calls of
    `putInMemory` and its call of `initializeProgram`, on the stack of the
    process that asks for it, leave the memory that the kernel then has, but for
    twelve bytes under the stack pointer; and they come back. -/
theorem load_calls {k k' : Kernel} {reg : Regs} {es : List Happening} {m : Computer} {name : FileName} (ret' : Int16)
    (h : Run Computer.step Computer.MayHappen (.init k reg) es m)
    (hok : m.MayHappen (.call (.executeProgram name))) (he : executeProgram name m.machine.kernel = some (1, k'))
    (hss : c.reg .ss = m.reg .ss) (hmem : c.mem = m.machine.kernel.mem) :
    ∃ p found buf d c₁ c₂, freePCB m.proc = some p ∧
      (readFile name fun _ => 0).exec m.machine.kernel.disk = some ((found, buf), d) ∧
      Cpu.obey ret (loadProgram (k'.pcb (.pcbPool p)).segment buf (found * 512).toNatClampNeg) c = some ((), c₁) ∧
      c₂ = c₁.call Asm.initializeProgram [(k'.pcb (.pcbPool p)).segment] ret' ∧
      (∀ seg off, ¬ c.Below 12 seg off → c₂.mem seg off = k'.mem seg off) ∧
      ∀ r ∈ [Reg.bp, .sp, .di, .cs, .ds, .es, .ss, .flags], c₂.reg r = c.reg r := by
  obtain ⟨i, p, found, buf, d, hst, hread, -, -, hput⟩ := executeProgram_started he
  obtain ⟨-, -, hl, -⟩ := hok
  have hseg : (k'.pcb (.pcbPool p)).segment = segmentOf (Int16.ofNat i.val) := by rw [hst.segment, if_pos rfl]
  have hne : segmentOf (Int16.ofNat i.val) ≠ c.reg .ss := by
    rw [hss]
    exact ((Virtual.run h).stack_ne hl hst.segmentFree).symm
  have honly := (loadProgram_only (segmentOf (Int16.ofNat i.val)) buf (found * 512).toNatClampNeg).mono
    (Q := fun a => ¬ c.Below 12 a.1 a.2) fun a ha hb => hne (ha.symm.trans hb.1)
  have hlen : (found * 512).toNatClampNeg ≤ 65536 := by
    have := (found * 512).toNatClampNeg_lt
    omega
  obtain ⟨c₁, ho, hmem₁, hreg₁⟩ := @obey_spec c ret _ _ _ (fun a => c.mem a.1 a.2) _ honly (fun _ _ _ => rfl)
    (loadProgram_exec hlen)
  have hss₁ : c₁.reg .ss = c.reg .ss := hreg₁ _ (by decide)
  have hsp₁ : c₁.reg .sp = c.reg .sp := hreg₁ _ (by decide)
  obtain ⟨hmem₂, hreg₂⟩ := @initializeProgram_call c₁ ret' (segmentOf (Int16.ofNat i.val)) (by rwa [hss₁])
  refine ⟨p, found, buf, d, c₁, _, hst.free, hread, by rw [hseg, ho], rfl, ?_, ?_⟩
  · intro seg off hn
    have hn₁ : ¬ c₁.Below 12 seg off := by rwa [Cpu.below_congr hss₁ hsp₁]
    rw [hseg, hmem₂ seg off hn₁, hput, ← hmem]
    exact initializeProgram_congr (hmem₁ seg off hn)
  · intro r hr
    rw [hseg, hreg₂ r (by revert r; decide)]
    exact hreg₁ r (by revert r; decide)

/-- `main` starts a program, on the stack of the kernel. -/
theorem load_calls_one : ∃ segment n buf c₁ k',
    executeProgram nameA (Machine.init oneFileKernel).kernel = some (1, k') ∧
    Cpu.obey 0 (loadProgram segment buf n) (Computer.init oneFileKernel (initial 0)).cpu = some ((), c₁) ∧
    ∀ seg off, ¬ (Computer.init oneFileKernel (initial 0)).cpu.Below 12 seg off →
      (c₁.call Asm.initializeProgram [segment] 0).mem seg off = k'.mem seg off := by
  have h : Succeeds nameA (Machine.init oneFileKernel).kernel := by decide +kernel
  obtain ⟨⟨x, k'⟩, he, hx⟩ := Option.map_eq_some_iff.1 h
  obtain rfl : x = 1 := hx
  obtain ⟨p, found, buf, -, c₁, c₂, -, -, ho, rfl, hmem, -⟩ :=
    @load_calls (Computer.init oneFileKernel (initial 0)).cpu 0 _ k' (initial 0) _
      (Computer.init oneFileKernel (initial 0)) nameA 0 .nil (by decide +kernel) he rfl rfl
  exact ⟨_, _, buf, c₁, k', he, ho, hmem⟩

end TeamXtremeOS
