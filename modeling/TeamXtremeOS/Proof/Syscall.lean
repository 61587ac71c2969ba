/-
  System calls: a function of `userlib.c` reaches the function of the kernel with
  its own arguments, and its value comes back to the program.
-/
import TeamXtremeOS.Proof.Calls

namespace TeamXtremeOS

open Lib

variable {c c' e : Cpu} {args : List Int16} {ret back intr left w number : Int16} {k : ℕ} {u : UserCall}

/-! ## What is asked for -/

/-- The function of the kernel that a function of `userlib.c` is for.  `readChar`
    gives it the address 0, where the program starts. -/
def UserCall.service : UserCall → Service
  | .printString toBePrinted => .printString toBePrinted
  | .readChar => .readChar 0
  | .readString input => .readString input
  | .readFile fileName buffer => .readFile fileName buffer
  | .executeFile fileName => .executeProgram fileName
  | .terminate => .terminate
  | .deleteFile fname => .deleteFile fname
  | .writeFile fname buffer sectors => .writeFile fname buffer sectors
  | .readSector buf absSector => .readSector buf absSector
  | .yield => .yield
  | .showProcesses => .showProcesses
  | .kill segment => .kill segment
  | .sleep seconds => .sleep seconds

/-- What `interrupt` finds is the service, also where its last argument is missing. -/
theorem handleInterrupt21_service {ax bx cx dx : Int16} (hax : u.args[1]? = some ax) (hbx : u.args[2]? = some bx)
    (hcx : u.args[3]? = some cx) (hdx : ∀ w, u.args[4]? = some w → dx = w) :
    handleInterrupt21 ax bx cx dx = some u.service := by
  cases u
  case writeFile =>
    cases hax
    cases hbx
    cases hcx
    rw [hdx _ rfl]
    rfl
  all_goals
    cases hax
    cases hbx
    cases hcx
    rfl

/-! ## The way in -/

/-- Behind the pushes of a call. -/
theorem enter_spec (c : Cpu) (args : List Int16) (ret : Int16) :
    (c.enter args ret).reg = Function.update c.reg .sp (c.reg .sp - Int16.ofNat (2 * (args.length + 1))) ∧
    (c.enter args ret).mem = Function.update c.mem (c.reg .ss)
      (words.pushes (args.reverse ++ [ret]) (c.reg .sp).toUInt16 (c.mem (c.reg .ss))) := by
  rw [Cpu.enter, Cpu.foldl_push]
  simp

/-- A routine finds its arguments. -/
theorem enter_arg (h : args.length < 100) (hk : args[k]? = some w) (he : e = c.enter args ret) :
    e.word (e.reg .ss) (e.reg .sp + Int16.ofNat (2 * (k + 1))) = w := by
  obtain ⟨hreg, hmem⟩ := enter_spec c args ret
  have hlt : k < args.length := (List.getElem?_eq_some_iff.1 hk).1
  obtain ⟨i, hi⟩ := Nat.exists_eq_add_of_lt hlt
  have haddr : c.reg .sp - Int16.ofNat (2 * (args.length + 1)) + Int16.ofNat (2 * (k + 1)) =
      c.reg .sp - Int16.ofNat (2 * (i + 1)) := by
    rw [hi]
    simp only [Int16.ofNat_add, Int16.ofNat_mul]
    grind
  have hget : (args.reverse ++ [ret])[i]? = some w := by
    rw [List.getElem?_append_left (by rw [List.length_reverse]; omega), List.getElem?_reverse (by omega),
      show args.length - 1 - i = k by omega, hk]
  rw [he, Cpu.word, hreg, hmem]
  simp only [Function.update_self, Function.update_of_ne (show Reg.ss ≠ .sp by decide)]
  rw [haddr]
  exact words.load_pushes (by simp; omega) hget

/-- It finds its return address. -/
theorem enter_ret (h : args.length < 100) (he : e = c.enter args ret) : e.word (e.reg .ss) (e.reg .sp) = ret := by
  obtain ⟨hreg, hmem⟩ := enter_spec c args ret
  rw [he, Cpu.word, hreg, hmem]
  simp only [Function.update_self, Function.update_of_ne (show Reg.ss ≠ .sp by decide)]
  refine words.load_pushes (i := args.length) (by simp; omega) ?_
  rw [List.getElem?_append_right (by simp)]
  simp

/-- At its `int`, `interrupt` has the base pointer of its caller on the stack, and
    above it its return address. -/
theorem interrupt_kept {o : Int16} (hclear : c.reg .cs = c.reg .ss →
      ∀ i < 16, (c.reg .sp - 4).toUInt16 + UInt16.ofNat i ≠ (o + 1).toUInt16) :
    (c.run (Asm.interrupt o)).word (c.reg .ss) (c.reg .sp - 2) = c.reg .bp ∧
    (c.run (Asm.interrupt o)).word (c.reg .ss) (c.reg .sp) = c.word (c.reg .ss) (c.reg .sp) := by
  have h2 : (c.reg .sp - 2).toUInt16 = (c.reg .sp - 4).toUInt16 + UInt16.ofNat 2 := by
    change (c.reg .sp).toUInt16 - 2 = (c.reg .sp).toUInt16 - 4 + 2
    grind
  have h4 : (c.reg .sp).toUInt16 = (c.reg .sp - 4).toUInt16 + UInt16.ofNat 4 := by
    change (c.reg .sp).toUInt16 = (c.reg .sp).toUInt16 - 4 + 4
    grind
  rw [Cpu.word, Cpu.word, Cpu.word]
  constructor
  · rw [h2, interrupt_word hclear (by omega), ← h2]
    exact words.load_pushes (i := 0) (by simp) rfl
  · nth_rewrite 1 [h4]
    rw [interrupt_word hclear (by omega), ← h4]
    have habove := @Halves.load_above _ _ words (c.mem (c.reg .ss)) (c.reg .sp).toUInt16
      [c.reg .bp, c.reg .ds] 0 (by simp)
    rwa [show UInt16.ofNat (2 * 0) = 0 from rfl, UInt16.add_zero] at habove

/-- Where an interrupt goes on, if the stack is not that of the vectors. -/
theorem int_goes (n : UInt8) (hss : c.reg .ss ≠ 0) : (c.int n).reg .ip = c.word 0 (ofChar n * 4) ∧
    (c.int n).reg .cs = c.word 0 (ofChar n * 4 + 2) ∧ (c.int n).reg .flags = c.reg .flags &&& ~~~IF := by
  refine ⟨?_, ?_, ?_⟩
  · simp [Cpu.int, Cpu.word, Function.update_of_ne (Ne.symm hss)]
  · simp [Cpu.int, Cpu.word, Function.update_of_ne (Ne.symm hss)]
  · simp [Cpu.int]

/-- The part of the service routine that saves the registers. -/
def arguments : List Reg := [.dx, .cx, .bx, .ax]

/-- From the `int` to the first instruction of `handleInterrupt21`. -/
theorem service_pushes (c : Cpu) (n : UInt8) (back : Int16) {s : Cpu}
    (hs : s = ((c.int n).run Asm.interrupt21ServiceRoutine).push back) :
    s.mem = Function.update c.mem (c.reg .ss) (words.pushes
      [c.reg .flags, c.reg .cs, c.reg .ip, c.reg .dx, c.reg .cx, c.reg .bx, c.reg .ax, back]
      (c.reg .sp).toUInt16 (c.mem (c.reg .ss))) ∧
    s.reg .sp = c.reg .sp - 16 ∧ s.reg .ss = c.reg .ss ∧ s.reg .ds = c.reg .ds ∧
    s.reg .cs = (c.int n).reg .cs ∧ s.reg .flags = (c.int n).reg .flags ||| IF := by
  obtain ⟨hmem, hsp, hreg⟩ := int_spec c n
  have hcut : Asm.interrupt21ServiceRoutine = arguments.map Instr.push ++ ([.sti] : List Instr) := rfl
  have hmap : arguments.map (c.int n).reg = [c.reg .dx, c.reg .cx, c.reg .bx, c.reg .ax] := by
    simp only [arguments, List.map_cons, List.map_nil, hreg .dx (by decide), hreg .cx (by decide),
      hreg .bx (by decide), hreg .ax (by decide)]
  rw [hcut, Cpu.run_append, Cpu.run_pushes (by decide), hmap, Cpu.foldl_push] at hs
  have hss : (c.int n).reg .ss = c.reg .ss := hreg .ss (by decide)
  have hds : (c.int n).reg .ds = c.reg .ds := hreg .ds (by decide)
  generalize c.int n = t at hmem hsp hs hss hds ⊢
  have h16 : c.reg .sp - 6 - 8 - 2 = c.reg .sp - 16 := by grind
  subst hs
  refine ⟨?_, ?_, ?_, ?_, ?_, ?_⟩
  · have hsti : ∀ x : Cpu, x.run [.sti] = x.set .flags (x.reg .flags ||| IF) := fun _ => rfl
    have hsplit : [c.reg .flags, c.reg .cs, c.reg .ip, c.reg .dx, c.reg .cx, c.reg .bx, c.reg .ax, back] =
        [c.reg .flags, c.reg .cs, c.reg .ip] ++ ([c.reg .dx, c.reg .cx, c.reg .bx, c.reg .ax] ++ [back]) := rfl
    have h6 : (c.reg .sp - 6).toUInt16 = (c.reg .sp).toUInt16 - UInt16.ofNat (2 * 3) := rfl
    have h8 : (c.reg .sp - 6 - Int16.ofNat (2 * 4)).toUInt16 = (c.reg .sp - 6).toUInt16 - UInt16.ofNat (2 * 4) := rfl
    have hback : ∀ sp m, words.pushes [back] sp m = words.store (sp - 2) back m := fun _ _ => rfl
    rw [hsti, Cpu.push_mem, hsplit, words.pushes_append, words.pushes_append, hback]
    simp only [Cpu.set_mem, Cpu.set_reg, Function.update_of_ne (show Reg.ss ≠ .flags by decide),
      Function.update_of_ne (show Reg.ss ≠ .sp by decide), Function.update_of_ne (show Reg.sp ≠ .flags by decide),
      Function.update_self, hss, hmem, hsp, Function.update_idem, List.length_cons, List.length_nil, Nat.zero_add,
      Nat.reduceAdd, h8, h6, List.map_cons, List.map_nil]
  · simp [Cpu.run, Cpu.exec, hsp, h16]
  · simp [Cpu.run, Cpu.exec, hss]
  · simp [Cpu.run, Cpu.exec, hds]
  · simp [Cpu.run, Cpu.exec]
  · simp [Cpu.run, Cpu.exec]

/-- What is further down than a stack pointer is further down than one above it. -/
theorem not_below {n k : ℕ} {seg : Int16} {off : UInt16} (hn : ¬ c.Below (n + k) seg off)
    (hss : c'.reg .ss = c.reg .ss) (hsp : c'.reg .sp = c.reg .sp - Int16.ofNat k) (hk : n + k ≤ 65536) :
    ¬ c'.Below n seg off := by
  rintro ⟨h1, h2⟩
  refine absurd (And.intro (h1.trans hss) ?_) hn
  have he : (c.reg .sp - Int16.ofNat k).toUInt16 = (c.reg .sp).toUInt16 - UInt16.ofNat k := rfl
  rw [hsp, he] at h2
  have hlt := (c.reg .sp).toUInt16.toNat_lt
  have hoff := off.toNat_lt
  generalize (c.reg .sp).toUInt16 = sp at h2 hlt ⊢
  simp only [Halves.depth, UInt16.toNat_sub, UInt16.toNat_ofNat'] at h2 ⊢
  simp at h2 ⊢
  omega

/-! ## The way out -/

/-- `handleInterrupt21` has returned: as compiled C does, it has taken its return
    address from the stack and kept the segments and what is above its
    arguments, and its value is in `AX`; `left` is that of the function it has
    called. -/
structure Served (s c : Cpu) (left : Int16) : Prop where
  sp : c.reg .sp = s.reg .sp + 2
  kept : ∀ r ∈ [Reg.ss, .ds], c.reg r = s.reg r
  ax : c.reg .ax = returned left (handleInterrupt21 (s.arg 0) (s.arg 1) (s.arg 2) (s.arg 3))
  stack : ∀ i < 5, c.word (s.reg .ss) (s.reg .sp + Int16.ofNat (2 * (i + 5))) =
    s.word (s.reg .ss) (s.reg .sp + Int16.ofNat (2 * (i + 5)))

/-- The way out, when the five words behind the arguments are known. -/
theorem leaveKernel_spec {ip cs flags bp : Int16}
    (hf : words.frame 5 (c.reg .sp + 8).toUInt16 (c.mem (c.reg .ss)) = [ip, cs, flags, bp, ret]) :
    (c.run Asm.interrupt21Return).reg .ip = ip ∧ (c.run Asm.interrupt21Return).reg .cs = cs ∧
    (c.leaveKernel args).reg .ip = ret ∧ (c.leaveKernel args).reg .cs = cs ∧ (c.leaveKernel args).reg .flags = flags ∧
    (c.leaveKernel args).reg .bp = bp ∧
    (c.leaveKernel args).reg .sp = c.reg .sp + 18 + Int16.ofNat (2 * args.length) ∧
    ∀ r ∈ [Reg.ax, .ds, .ss], (c.leaveKernel args).reg r = c.reg r := by
  have hret : c.run Asm.interrupt21Return = c.run ([Reg.bx, .bx, .cx, .dx, .ip, .cs, .flags].map .pop) := by
    simp only [Asm.interrupt21Return, Cpu.run, List.map_cons, List.map_nil, List.foldl_cons, List.foldl_nil, Cpu.exec]
  have hall : (c.run Asm.interrupt21Return).run Asm.interruptReturn =
      c.run ([Reg.bx, .bx, .cx, .dx, .ip, .cs, .flags, .bp, .ip].map .pop) := by
    simp only [Asm.interrupt21Return, Asm.interruptReturn, Cpu.run, List.map_cons, List.map_nil, List.foldl_cons,
      List.foldl_nil, Cpu.exec]
  have h8 : (c.reg .sp).toUInt16 + UInt16.ofNat (2 * 4) = (c.reg .sp + 8).toUInt16 := rfl
  -- the arguments are dropped
  obtain ⟨w₀, w₁, w₂, w₃, hfour⟩ : ∃ w₀ w₁ w₂ w₃,
      words.frame 4 (c.reg .sp).toUInt16 (c.mem (c.reg .ss)) = [w₀, w₁, w₂, w₃] := by
    simp [Halves.frame, List.range_succ]
  have hnine : words.frame 9 (c.reg .sp).toUInt16 (c.mem (c.reg .ss)) =
      [w₀, w₁, w₂, w₃, ip, cs, flags, bp, ret] := by
    have hadd := @Halves.frame_add _ _ words (c.mem (c.reg .ss)) (c.reg .sp).toUInt16 4 5
    rw [h8, hf, hfour] at hadd
    exact hadd
  have hseven : words.frame 7 (c.reg .sp).toUInt16 (c.mem (c.reg .ss)) = [w₀, w₁, w₂, w₃, ip, cs, flags] := by
    have hadd := @Halves.frame_add _ _ words (c.mem (c.reg .ss)) (c.reg .sp).toUInt16 7 2
    rw [hnine] at hadd
    exact ((List.append_inj hadd (by simp [Halves.frame])).1).symm
  have h7 := @Cpu.run_pops c [.bx, .bx, .cx, .dx, .ip, .cs, .flags] (by decide) (by decide)
  have h9 := @Cpu.run_pops c [.bx, .bx, .cx, .dx, .ip, .cs, .flags, .bp, .ip] (by decide) (by decide)
  simp only [List.length_cons, List.length_nil, Nat.zero_add, Nat.reduceAdd, hnine, assign] at h9
  simp only [List.length_cons, List.length_nil, Nat.zero_add, Nat.reduceAdd, hseven, assign] at h7
  have hreg9 := congrArg Cpu.reg (hall.trans h9)
  have hreg7 := congrArg Cpu.reg (hret.trans h7)
  rw [Cpu.leaveKernel, Cpu.drop, Cpu.set_reg, hreg9, hreg7]
  clear hreg9 hreg7 h7 h9 hall hret
  refine ⟨?_, ?_, ?_, ?_, ?_, ?_, ?_, ?_⟩ <;> simp

/-! ## There and back -/

/-- The processor at the `int` of a system call. -/
structure AtInt (c c₀ : Cpu) (u : UserCall) (intr ret : Int16) : Prop where
  reg : ∀ r ∈ [Reg.ss, .cs, .ds, .flags], c₀.reg r = c.reg r
  sp : c₀.reg .sp = c.reg .sp - Int16.ofNat (2 * u.args.length + 4)
  ip : c₀.reg .ip = intr + 2
  arguments : handleInterrupt21 (c₀.reg .ax) (c₀.reg .bx) (c₀.reg .cx) (c₀.reg .dx) = some u.service
  number : c₀.mem (c.reg .cs) (intr + 1).toUInt16 = 0x21
  bp : c₀.word (c.reg .ss) (c₀.reg .sp) = c.reg .bp
  ret : c₀.word (c.reg .ss) (c₀.reg .sp + 2) = ret
  mem : ∀ seg off, ¬ c.Below 16 seg off → (seg ≠ c.reg .cs ∨ off ≠ (intr + 1).toUInt16) →
    c₀.mem seg off = c.mem seg off

theorem UserCall.length_args (u : UserCall) : 4 ≤ u.args.length ∧ u.args.length ≤ 5 := by
  cases u <;> simp [args]

theorem UserCall.exists_args (u : UserCall) : ∃ ax bx cx, u.args[0]? = some 0x21 ∧ u.args[1]? = some ax ∧
    u.args[2]? = some bx ∧ u.args[3]? = some cx := by
  cases u <;> exact ⟨_, _, _, rfl, rfl, rfl, rfl⟩

theorem atInt (he : e = c.enter u.args ret) (hclear : e.reg .cs = e.reg .ss →
      ∀ i < 16, (e.reg .sp - 4).toUInt16 + UInt16.ofNat i ≠ (intr + 1).toUInt16) :
    AtInt c ((e.run (Asm.interrupt intr)).set .ip (intr + 2)) u intr ret := by
  obtain ⟨h4, h5⟩ := u.length_args
  obtain ⟨ax, bx, cx, hnum, hax, hbx, hcx⟩ := u.exists_args
  obtain ⟨hreg, hmem⟩ := enter_spec c u.args ret
  rw [← he] at hreg hmem
  have hsp : e.reg .sp = c.reg .sp - Int16.ofNat (2 * (u.args.length + 1)) := by rw [hreg, Function.update_self]
  have hsp2 : e.reg .sp - 2 = c.reg .sp - Int16.ofNat (2 * u.args.length + 4) := by
    rw [hsp]
    simp only [Int16.ofNat_add, Int16.ofNat_mul]
    grind
  have hsame : ∀ r, r ≠ .sp → e.reg r = c.reg r := by
    intro r hr
    rw [hreg, Function.update_of_ne hr]
  obtain ⟨hds₀, hax₀, hbx₀, hcx₀, hdx₀, hsp₀, hnum₀⟩ := interrupt_arrives e intr hclear
  obtain ⟨hbp₀, hret₀⟩ := interrupt_kept hclear
  have hall : ∀ r ∈ [Reg.ss, .cs, .flags], (e.run (Asm.interrupt intr)).reg r = e.reg r := by
    intro r hr
    refine run_keeps ?_
    rw [Asm.interrupt_changes]
    revert r
    decide
  have hword : ∀ k w, u.args[k]? = some w → e.word (e.reg .ss) (e.reg .sp + Int16.ofNat (2 * (k + 1))) = w :=
    fun k w hk => enter_arg (by omega) hk he
  have hcs := hsame .cs (by decide)
  have hss := hsame .ss (by decide)
  have hmem₀ := interrupt_mem e intr
  generalize e.run (Asm.interrupt intr) = a at hds₀ hax₀ hbx₀ hcx₀ hdx₀ hsp₀ hnum₀ hbp₀ hret₀ hall hmem₀ ⊢
  have hset : ∀ r, r ≠ .ip → (a.set .ip (intr + 2)).reg r = a.reg r := by
    intro r hr
    rw [Cpu.set_reg, Function.update_of_ne hr]
  have hsetw : ∀ seg off, (a.set .ip (intr + 2)).word seg off = a.word seg off := by
    intro seg off
    rw [Cpu.word, Cpu.word, Cpu.set_mem]
  refine ⟨?_, ?_, ?_, ?_, ?_, ?_, ?_, ?_⟩
  · intro r hr
    have hip : r ≠ .ip := by rintro rfl; simp at hr
    have hsp' : r ≠ .sp := by rintro rfl; simp at hr
    rw [hset r hip, ← hsame r hsp']
    by_cases hd : r = .ds
    · rw [hd, hds₀]
    · exact hall r (by simp_all)
  · rw [hset .sp (by decide), hsp₀, hsp2]
  · simp
  · rw [hset .ax (by decide), hset .bx (by decide), hset .cx (by decide), hset .dx (by decide),
      hax₀, hbx₀, hcx₀, hdx₀]
    exact handleInterrupt21_service (hax.trans (congrArg some (hword 1 ax hax).symm))
      (hbx.trans (congrArg some (hword 2 bx hbx).symm)) (hcx.trans (congrArg some (hword 3 cx hcx).symm))
      fun w hw => hword 4 w hw
  · rw [Cpu.set_mem, ← hcs, hnum₀, show (2 : Int16) = Int16.ofNat (2 * (0 + 1)) from rfl, hword 0 _ hnum]
    rfl
  · rw [hsetw, hset .sp (by decide), hsp₀, ← hss, hbp₀, hsame .bp (by decide)]
  · rw [hsetw, hset .sp (by decide), hsp₀, Int16.sub_add_cancel, ← hss, hret₀]
    exact enter_ret (by omega) he
  · intro seg off hn hcode
    have hn' : ¬ e.Below 4 seg off := by
      refine not_below (fun hb => hn ⟨hb.1, ?_⟩) hss hsp (by omega)
      have := hb.2
      omega
    rw [Cpu.set_mem, hmem₀, hcs, if_neg fun h => hcode.elim (fun h1 => h1 h.1) fun h2 => h2 h.2,
      Cpu.pushes_not_below hn' (by simp) (by omega), hmem]
    exact Cpu.pushes_not_below hn (by simp; omega) (by omega)

theorem frame_word {n j : ℕ} {ws : List Int16} (h : words.frame n (c.reg .sp).toUInt16 (c.mem (c.reg .ss)) = ws)
    (hj : ws[j]? = some w) : c.word (c.reg .ss) (c.reg .sp + Int16.ofNat (2 * j)) = w := by
  rw [← h, Halves.frame, List.getElem?_map, Option.map_eq_some_iff] at hj
  obtain ⟨i, hi, hw⟩ := hj
  obtain ⟨hlt, rfl⟩ := List.getElem?_eq_some_iff.1 hi
  rw [List.getElem_range] at hw
  exact hw

/-- The stack of the kernel in `handleInterrupt21`. -/
theorem AtInt.frame {c₀ s : Cpu} (h : AtInt c c₀ u intr ret)
    (hs : s = ((c₀.int 0x21).run Asm.interrupt21ServiceRoutine).push back) :
    words.frame 10 (s.reg .sp).toUInt16 (s.mem (s.reg .ss)) = [back, c₀.reg .ax, c₀.reg .bx, c₀.reg .cx, c₀.reg .dx,
      intr + 2, c.reg .cs, c.reg .flags, c.reg .bp, ret] := by
  obtain ⟨hmem, hsp, hss, -⟩ := service_pushes c₀ 0x21 back hs
  have hcs := h.reg .cs (by simp)
  have hflags := h.reg .flags (by simp)
  have hstack : s.mem (s.reg .ss) = words.pushes [c.reg .flags, c.reg .cs, intr + 2, c₀.reg .dx, c₀.reg .cx,
      c₀.reg .bx, c₀.reg .ax, back] (c₀.reg .sp).toUInt16 (c₀.mem (c₀.reg .ss)) := by
    rw [hss, hmem, Function.update_self, hcs, hflags, h.ip]
  have haddr : (s.reg .sp).toUInt16 = (c₀.reg .sp).toUInt16 - UInt16.ofNat (2 * 8) := by
    rw [hsp]
    rfl
  have hback : (s.reg .sp).toUInt16 + UInt16.ofNat (2 * 8) = (c₀.reg .sp).toUInt16 := by
    rw [haddr, UInt16.sub_add_cancel]
  -- the eight words that are pushed, and the two above
  have hpushed : words.frame 8 (s.reg .sp).toUInt16 (s.mem (s.reg .ss)) =
      [back, c₀.reg .ax, c₀.reg .bx, c₀.reg .cx, c₀.reg .dx, intr + 2, c.reg .cs, c.reg .flags] := by
    rw [hstack, haddr]
    exact @Halves.frame_pushes _ _ words _ _ [c.reg .flags, c.reg .cs, intr + 2, c₀.reg .dx, c₀.reg .cx,
      c₀.reg .bx, c₀.reg .ax, back] (by simp)
  have habove : words.frame 2 (c₀.reg .sp).toUInt16 (s.mem (s.reg .ss)) = [c.reg .bp, ret] := by
    have hload : ∀ i < 100, words.load ((c₀.reg .sp).toUInt16 + UInt16.ofNat (2 * i)) (s.mem (s.reg .ss)) =
        words.load ((c₀.reg .sp).toUInt16 + UInt16.ofNat (2 * i)) (c₀.mem (c₀.reg .ss)) := by
      intro i hi
      rw [hstack]
      exact words.load_above (by simp; omega)
    have hss₀ := h.reg .ss (by simp)
    have h0 := hload 0 (by omega)
    have h1 := hload 1 (by omega)
    rw [show UInt16.ofNat (2 * 0) = 0 from rfl, UInt16.add_zero, hss₀] at h0
    rw [show UInt16.ofNat (2 * 1) = 2 from rfl, hss₀] at h1
    rw [words.frame_succ, words.frame_succ, h0.trans h.bp, h1.trans h.ret]
    rfl
  have hadd := @Halves.frame_add _ _ words (s.mem (s.reg .ss)) (s.reg .sp).toUInt16 8 2
  rw [hpushed, hback, habove] at hadd
  exact hadd

/-- What the kernel finds in `handleInterrupt21`. -/
theorem AtInt.arrives {c₀ s : Cpu} (h : AtInt c c₀ u intr ret) (hss : c.reg .ss ≠ 0)
    (hs : s = ((c₀.int 0x21).run Asm.interrupt21ServiceRoutine).push back) :
    handleInterrupt21 (s.arg 0) (s.arg 1) (s.arg 2) (s.arg 3) = some u.service ∧ s.reg .ds = c.reg .ds ∧
    s.reg .flags = (c.reg .flags &&& ~~~IF) ||| IF ∧ s.word (s.reg .ss) (s.reg .sp) = back ∧
    ∀ seg off, ¬ c.Below 30 seg off → (seg ≠ c.reg .cs ∨ off ≠ (intr + 1).toUInt16) →
      s.mem seg off = c.mem seg off := by
  obtain ⟨h4, h5⟩ := u.length_args
  have hframe := h.frame hs
  have hss₀ := h.reg .ss (by simp)
  obtain ⟨hmem, -, -, hds, -, hflags⟩ := service_pushes c₀ 0x21 back hs
  obtain ⟨-, -, hmasked⟩ := int_goes (c := c₀) 0x21 (by rwa [hss₀])
  have harg : ∀ k, s.arg k = s.word (s.reg .ss) (s.reg .sp + Int16.ofNat (2 * (k + 1))) := fun _ => rfl
  refine ⟨?_, ?_, ?_, ?_, ?_⟩
  · rw [harg, harg, harg, harg, frame_word hframe rfl, frame_word hframe rfl, frame_word hframe rfl,
      frame_word hframe rfl]
    exact h.arguments
  · rw [hds, h.reg .ds (by simp)]
  · rw [hflags, hmasked, h.reg .flags (by simp)]
  · have h0 := frame_word hframe (j := 0) rfl
    rwa [show Int16.ofNat (2 * 0) = 0 from rfl, Int16.add_zero] at h0
  · intro seg off hn hcode
    -- 14 bytes for the call and `interrupt`, 16 more from the `int` on
    have hn₀ : ¬ c₀.Below 16 seg off := by
      refine not_below (fun hb => hn ⟨hb.1, ?_⟩) hss₀ h.sp (by omega)
      have := hb.2
      omega
    have hn₁ : ¬ c.Below 16 seg off := fun hb => hn ⟨hb.1, by have := hb.2; omega⟩
    rw [hmem, Cpu.pushes_not_below hn₀ (by simp) (by omega)]
    exact h.mem seg off hn₁ hcode

/-- Where the program goes on. -/
theorem AtInt.returns {c₀ s : Cpu} (h : AtInt c c₀ u intr ret)
    (hs : s = ((c₀.int 0x21).run Asm.interrupt21ServiceRoutine).push back) (hv : Served s c' left) :
    (c'.run Asm.interrupt21Return).reg .ip = intr + 2 ∧ (c'.run Asm.interrupt21Return).reg .cs = c.reg .cs ∧
    (c'.leaveKernel u.args).reg .ip = ret ∧ (c'.leaveKernel u.args).reg .ax = c'.reg .ax ∧
    ∀ r ∈ [Reg.bp, .sp, .cs, .ds, .ss, .flags], (c'.leaveKernel u.args).reg r = c.reg r := by
  have hframe := h.frame hs
  obtain ⟨-, hsp, hss, hds, -, -⟩ := service_pushes c₀ 0x21 back hs
  -- behind the return address and the arguments, what the processor and `interrupt` have pushed
  have hframe' : words.frame 5 (c'.reg .sp + 8).toUInt16 (c'.mem (c'.reg .ss)) =
      [intr + 2, c.reg .cs, c.reg .flags, c.reg .bp, ret] := by
    refine words.frame_eq rfl ?_
    intro i w hw
    have hi : i < 5 := (List.getElem?_eq_some_iff.1 hw).1
    have haddr : (c'.reg .sp + 8).toUInt16 + UInt16.ofNat (2 * i) =
        (s.reg .sp + Int16.ofNat (2 * (i + 5))).toUInt16 := by
      rw [hv.sp]
      change (s.reg .sp).toUInt16 + 2 + 8 + UInt16.ofNat (2 * i) = (s.reg .sp).toUInt16 + UInt16.ofNat (2 * (i + 5))
      rw [Nat.mul_add, UInt16.ofNat_add]
      grind
    rw [haddr, hv.kept .ss (by simp)]
    exact (hv.stack i hi).trans (frame_word hframe (j := i + 5) hw)
  obtain ⟨h1, h2, h3, h4, h5, h6, h7, h8⟩ := @leaveKernel_spec c' u.args _ _ _ _ _ hframe'
  refine ⟨h1, h2, h3, h8 .ax (by simp), ?_⟩
  intro r hr
  simp only [List.mem_cons, List.not_mem_nil, or_false] at hr
  rcases hr with rfl | rfl | rfl | rfl | rfl | rfl
  · exact h6
  · rw [h7, hv.sp, hsp, h.sp]
    simp only [Int16.ofNat_add]
    grind
  · exact h4
  · rw [h8 .ds (by simp), hv.kept .ds (by simp), hds, h.reg .ds (by simp)]
  · rw [h8 .ss (by simp), hv.kept .ss (by simp), hss, h.reg .ss (by simp)]
  · exact h5

/-- **A system call, there and back.**  If the vector has been set, then every
    function of `userlib.c` reaches `handleInterrupt21` with the arguments of its
    service, with the data segment of the program and with interrupts enabled;
    nothing of the program's memory has changed but for 30 bytes under its stack
    pointer and the number in its code.  Whatever the service does, when
    `handleInterrupt21` returns the program goes on behind its call, with its
    stack, its segments and its flags, and has the value in `AX`. -/
theorem system_call (u : UserCall) {routine : Int16} {s : Cpu} (hss : c.reg .ss ≠ 0) (hcs : c.reg .cs ≠ 0)
    (hclear : ∀ i < 16, ((c.enter u.args ret).reg .sp - 4).toUInt16 + UInt16.ofNat i ≠ (intr + 1).toUInt16)
    (hip : c.word 0 0x84 = routine) (hseg : c.word 0 0x86 = 0x1000) (hs : s = c.serve intr u.args ret back) :
    ((c.trap intr u.args ret).reg .ip = routine ∧ (c.trap intr u.args ret).reg .cs = 0x1000) ∧
    (handleInterrupt21 (s.arg 0) (s.arg 1) (s.arg 2) (s.arg 3) = some u.service ∧ s.reg .ds = c.reg .ds ∧
      s.reg .flags = (c.reg .flags &&& ~~~IF) ||| IF ∧ s.word (s.reg .ss) (s.reg .sp) = back ∧
      ∀ seg off, ¬ c.Below 30 seg off → (seg ≠ c.reg .cs ∨ off ≠ (intr + 1).toUInt16) →
        s.mem seg off = c.mem seg off) ∧
    ∀ c' left, Served s c' left → (c'.run Asm.interrupt21Return).reg .ip = intr + 2 ∧
      (c'.run Asm.interrupt21Return).reg .cs = c.reg .cs ∧ (c'.leaveKernel u.args).reg .ip = ret ∧
      (c'.leaveKernel u.args).reg .ax = returned left (some u.service) ∧
      ∀ r ∈ [Reg.bp, .sp, .cs, .ds, .ss, .flags], (c'.leaveKernel u.args).reg r = c.reg r := by
  have hat := atInt (c := c) rfl fun _ => hclear
  generalize hc₀ : ((c.enter u.args ret).run (Asm.interrupt intr)).set .ip (intr + 2) = c₀ at hat
  have hss₀ := hat.reg .ss (by simp)
  have htrap : c.trap intr u.args ret = c₀.int 0x21 := by
    have hcode : ((c.enter u.args ret).run (Asm.interrupt intr)).reg .cs = c.reg .cs := by
      rw [← hat.reg .cs (by simp), ← hc₀, Cpu.set_reg, Function.update_of_ne (by decide)]
    have hmem : ((c.enter u.args ret).run (Asm.interrupt intr)).mem = c₀.mem := by rw [← hc₀, Cpu.set_mem]
    rw [Cpu.trap, hcode, hmem, hat.number, hc₀]
  have hpush : s = ((c₀.int 0x21).run Asm.interrupt21ServiceRoutine).push back := by rw [hs, Cpu.serve, htrap]
  obtain ⟨hip', hcs', -⟩ := int_goes (c := c₀) 0x21 (by rwa [hss₀])
  -- the vectors are not in the segments of the program
  have hzero : c₀.mem 0 = c.mem 0 := by
    ext off : 1
    exact hat.mem 0 off (fun hb => hss hb.1.symm) (.inl (Ne.symm hcs))
  have hvector : ∀ off, c₀.word 0 off = c.word 0 off := by
    intro off
    rw [Cpu.word, hzero, Cpu.word]
  have hin := hat.arrives hss hpush
  refine ⟨⟨?_, ?_⟩, hin, ?_⟩
  · rw [htrap, hip', hvector, ← hip, show ofChar 0x21 * 4 = 0x84 by decide]
  · rw [htrap, hcs', hvector, ← hseg, show ofChar 0x21 * 4 + 2 = 0x86 by decide]
  · intro c' left hv
    obtain ⟨h1, h2, h3, hax, hkept⟩ := hat.returns hpush hv
    exact ⟨h1, h2, h3, by rw [hax, hv.ax, hin.1], hkept⟩

/-- `makeInterrupt21` sets the vector, to the code segment it is called in. -/
theorem makeInterrupt21_sets (c : Cpu) (routine : Int16) :
    (c.run (Asm.makeInterrupt21 routine)).word 0 0x84 = routine ∧
    (c.run (Asm.makeInterrupt21 routine)).word 0 0x86 = c.reg .cs := by
  obtain ⟨m, hm⟩ : ∃ m, (c.run (Asm.makeInterrupt21 routine)).mem 0 =
      words.store (0x84 : Int16).toUInt16 routine (words.store (0x86 : Int16).toUInt16 (c.reg .cs) m) := by
    simp [Cpu.run, Asm.makeInterrupt21, Cpu.exec]
    exact ⟨_, rfl⟩
  rw [Cpu.word, Cpu.word, hm]
  refine ⟨words.load_store, ?_⟩
  have hother : ∀ b : UInt16, b ≠ (0x84 : Int16).toUInt16 + 1 → b ≠ (0x84 : Int16).toUInt16 → ∀ m,
      words.store (0x84 : Int16).toUInt16 routine m b = m b := by
    intro b h1 h2 m
    rw [words.store_apply, if_neg h1, if_neg h2]
  rw [Halves.load, hother _ (by decide) (by decide), hother _ (by decide) (by decide)]
  exact words.load_store

/-- A program, when the kernel has called `makeInterrupt21`. -/
def vectored : Cpu := ⟨initial 0x2000, (Cpu.run ⟨initial 0x1000, fun _ _ => 0⟩ (Asm.makeInterrupt21 0x500)).mem⟩

/-- It sleeps, and the kernel comes back. -/
theorem system_call_sleep : ∃ s c' : Cpu, handleInterrupt21 (s.arg 0) (s.arg 1) (s.arg 2) (s.arg 3) = some (.sleep 2) ∧
    Served s c' 0 ∧ (c'.leaveKernel (UserCall.sleep 2).args).reg .ip = 0x300 ∧
    (c'.leaveKernel (UserCall.sleep 2).args).reg .ax = 1 := by
  obtain ⟨hip, hseg⟩ := makeInterrupt21_sets ⟨initial 0x1000, fun _ _ => 0⟩ 0x500
  have hword : ∀ off, vectored.word 0 off =
      (Cpu.run ⟨initial 0x1000, fun _ _ => 0⟩ (Asm.makeInterrupt21 0x500)).word 0 off := by
    intro off
    rw [Cpu.word, Cpu.word, vectored]
  rw [← hword] at hip hseg
  obtain ⟨s, hs⟩ : ∃ s, s = vectored.serve 0x100 (UserCall.sleep 2).args 0x300 0x400 := ⟨_, rfl⟩
  obtain ⟨-, ⟨h1, -⟩, h2⟩ := system_call (.sleep 2) (by decide) (by decide) (by decide +kernel) hip hseg hs
  have hv : Served s ((s.set .sp (s.reg .sp + 2)).set .ax 1) 0 := by
    refine ⟨?_, ?_, ?_, fun _ _ => rfl⟩
    · rw [Cpu.set_reg, Function.update_of_ne (by decide), Cpu.set_reg, Function.update_self]
    · intro r hr
      have h1 : r ≠ .ax := by rintro rfl; simp at hr
      have h2 : r ≠ .sp := by rintro rfl; simp at hr
      rw [Cpu.set_reg, Function.update_of_ne h1, Cpu.set_reg, Function.update_of_ne h2]
    · have hone : returned 0 (some (UserCall.sleep 2).service) = 1 := rfl
      rw [← h1] at hone
      rw [hone, Cpu.set_reg, Function.update_self]
  obtain ⟨-, -, h3, h4, -⟩ := h2 _ _ hv
  exact ⟨s, _, h1, hv, h3, h4⟩

end TeamXtremeOS
