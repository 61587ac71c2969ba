/-
  Switching: every process computes as if it had a processor and a segment of its
  own, whatever the others and the timer do in between.
-/
import TeamXtremeOS.Computer
import TeamXtremeOS.Proof.Cpu
import TeamXtremeOS.Proof.Isolation
import TeamXtremeOS.Proof.Sleepers

namespace TeamXtremeOS

open Lib

variable {s s' : Proc} {k k' : Kernel} {m m' : Computer} {e : Happening} {es : List Happening} {i j p : Fin 8}
  {name : FileName} {r seg sp seconds : Int16} {reg R : Regs} {bytes : UInt16 → UInt8} {x : PCBRef} {c : Cpu}

/-! ## Views -/

/-- What a process sees: its registers and its stack segment. -/
structure View where
  reg : Regs
  bytes : UInt16 → UInt8

/-- The views differ at most in the 24 bytes under the stack pointer. -/
def View.Agrees (v w : View) : Prop :=
  w.reg = v.reg ∧ ∀ off, 24 ≤ Halves.depth (v.reg .sp).toUInt16 off → w.bytes off = v.bytes off

/-- The process that a successful `executeProgram` makes, and its first view. -/
def born (name : FileName) (k : Kernel) : Option (PCBRef × View) :=
  match executeProgram name k, freePCB k.toProc with
  | some (r, k'), some p =>
    let segment := (k'.pcb (.pcbPool p)).segment
    if r = 1 then some (.pcbPool p, ⟨initial segment, k'.mem segment⟩) else none
  | _, _ => none

namespace Computer

/-- What the running process sees. -/
def view (m : Computer) : View := ⟨m.reg, m.machine.kernel.mem (m.reg .ss)⟩

/-- The views of the processes, if each had its own processor: only what it
    computes changes the view of a process. -/
def noted (m : Computer) (e : Happening) (v : PCBRef → View) : PCBRef → View :=
  match e with
  | .compute reg bytes => Function.update v m.proc.running ⟨reg, bytes⟩
  | .call (.executeProgram name) =>
    match born name m.machine.kernel with
    | some (x, w) => Function.update v x w
    | none => v
  | _ => v

/-- The views along a run. -/
def views (m : Computer) (es : List Happening) (v : PCBRef → View) : PCBRef → View :=
  (labels step noted m es).foldl (fun v f => f v) v

end Computer

/-! ## What may happen -/

/-- The running process has not been released. -/
def RunsAlive (s : Proc) : Prop := ∀ i, s.running = .pcbPool i → Live s i

/-- The handler finds a process of the pool. -/
def Finds (s : Proc) : Prop := ∃ p, dispatched s = some (.pcbPool p)

instance (s : Proc) : Decidable (RunsAlive s) := inferInstanceAs (Decidable (∀ i, s.running = .pcbPool i → Live s i))

instance (s : Proc) : Decidable (Finds s) := inferInstanceAs (Decidable (∃ p, dispatched s = some (.pcbPool p)))

namespace Computer

/-- A process that has been released does nothing any more, nothing that has been
    released comes back, and a tick finds a process to dispatch.  A process
    keeps its stack in its segment, and `kill` is given a segment of the memory
    map. -/
def MayHappen (m : Computer) : Happening → Prop
  | .compute reg _ => m.machine.halted = false ∧ RunsAlive m.proc ∧ reg .ss = m.reg .ss
  | .fileCall _ => m.machine.halted = false ∧ RunsAlive m.proc
  | .call c => c.ticks = 0 ∧ InRange m.machine c ∧ RunsAlive m.proc ∧ ReleasesForGood m.proc c
  | .timer _ _ => HeadLive m.proc ∧ Finds m.proc
  | .sleep seconds _ _ => m.machine.MayCall (.sleep seconds 0) ∧ ReleasesForGood m.proc (.sleep seconds 0) ∧
      Finds (lieDown seconds m.proc)

instance : ∀ (m : Computer) (e : Happening), Decidable (m.MayHappen e)
  | _, .compute _ _ => inferInstanceAs (Decidable (_ ∧ _ ∧ _))
  | _, .fileCall _ => inferInstanceAs (Decidable (_ ∧ _))
  | _, .call _ => inferInstanceAs (Decidable (_ ∧ _ ∧ _ ∧ _))
  | _, .timer _ _ => inferInstanceAs (Decidable (_ ∧ _))
  | _, .sleep _ _ _ => inferInstanceAs (Decidable (_ ∧ _ ∧ _))

end Computer

/-! ## Saved views -/

theorem View.Agrees.refl (v : View) : v.Agrees v := ⟨rfl, fun _ _ => rfl⟩

/-- Saving the registers overwrites the bytes in which the views differ. -/
theorem View.Agrees.saveOn {v w : View} (h : v.Agrees w) : saveOn w.reg w.bytes = saveOn v.reg v.bytes := by
  have hlen : 2 * (saved.map v.reg).length ≤ 65536 := by simp [saved]
  ext off : 1
  rw [TeamXtremeOS.saveOn, TeamXtremeOS.saveOn, h.1, words.pushes_apply hlen, words.pushes_apply hlen]
  by_cases hd : 24 ≤ Halves.depth (v.reg .sp).toUInt16 off
  · rw [h.2 off hd]
  · have hlt : Halves.depth (v.reg .sp).toUInt16 off / 2 < (saved.map v.reg).length := by
      simp only [saved, List.length_map, List.length_cons, List.length_nil]
      omega
    rw [List.getElem?_eq_getElem hlt, Option.elim_some, Option.elim_some]

theorem View.agrees_saveOn (v : View) : v.Agrees ⟨v.reg, TeamXtremeOS.saveOn v.reg v.bytes⟩ := by
  refine ⟨rfl, ?_⟩
  intro off hd
  exact words.pushes_outside (by simp [saved]) (by simpa [saved] using hd)

/-- A process that waits: its registers are on its stack, and its PCB says
    where. -/
structure Parked (mem : Int16 → UInt16 → UInt8) (b : PCB) (v : View) : Prop where
  segment : v.reg .ss = b.segment
  stackPointer : b.stackPointer = v.reg .sp - 24
  frame : mem b.segment = saveOn v.reg v.bytes

/-- The registers of the processes that wait are on their stacks, nobody else
    has his stack there, and the running process sees its view. -/
structure Virtual (m : Computer) (v : PCBRef → View) : Prop where
  apart : Apart m.proc
  seen : (v m.proc.running).Agrees m.view
  stack : m.reg .ss = stackSegment m.proc
  own : ∀ j, Live m.proc j → .pcbPool j ≠ m.proc.running → (m.proc.pcb (.pcbPool j)).segment ≠ m.reg .ss
  parked : ∀ j, Live m.proc j → .pcbPool j ≠ m.proc.running →
    Parked m.machine.kernel.mem (m.proc.pcb (.pcbPool j)) (v (.pcbPool j))

theorem segmentOf_ne_kernel : ∀ i : Fin 8, segmentOf (Int16.ofNat i.val) ≠ 0x1000 := by decide

theorem Apart.ne_kernel (h : Apart s) (hj : Live s j) : (s.pcb (.pcbPool j)).segment ≠ 0x1000 := by
  obtain ⟨i, hi⟩ := h.loaded j hj
  rw [hi]
  exact segmentOf_ne_kernel i

/-! ## Calls -/

/-- A step that starts nobody, and leaves the segments of the processes alone. -/
theorem Virtual.keep {v : PCBRef → View} (h : Virtual m v) (hreg : m'.reg = m.reg) (hA : Apart m'.proc)
    (hrun : m'.proc.running = m.proc.running) (hlive : ∀ j, Live m'.proc j → Live m.proc j)
    (hseg : ∀ x, (m'.proc.pcb x).segment = (m.proc.pcb x).segment)
    (hsp : ∀ x, (m'.proc.pcb x).stackPointer = (m.proc.pcb x).stackPointer)
    (hss : m'.machine.kernel.mem (m.reg .ss) = m.machine.kernel.mem (m.reg .ss))
    (hmem : ∀ j, Live m.proc j → m'.machine.kernel.mem (m.proc.pcb (.pcbPool j)).segment =
      m.machine.kernel.mem (m.proc.pcb (.pcbPool j)).segment) : Virtual m' v := by
  have hview : m'.view = m.view := by rw [Computer.view, hreg, hss, Computer.view]
  refine ⟨hA, ?_, ?_, ?_, ?_⟩
  · rw [hrun, hview]
    exact h.seen
  · rw [hreg, h.stack, stackSegment, stackSegment, hrun]
    split
    · rfl
    · exact (hseg _).symm
  · intro j hj hne
    rw [hseg, hreg]
    exact h.own j (hlive j hj) (hrun ▸ hne)
  · intro j hj hne
    obtain ⟨h1, h2, h3⟩ := h.parked j (hlive j hj) (hrun ▸ hne)
    exact ⟨h1.trans (hseg _).symm, (hsp _).trans h2, by rw [hseg, hmem j (hlive j hj), h3]⟩

theorem Released.live (hr : Released s s' x) (hj : Live s' j) : Live s j := (hr.live_iff.1 hj).1

/-- The stack of the running process is not in a free segment. -/
theorem Virtual.stack_ne {v : PCBRef → View} (h : Virtual m v) (hl : RunsAlive m.proc)
    (hi : m.proc.memoryMap (Int16.ofNat i.val) = FREE) : m.reg .ss ≠ segmentOf (Int16.ofNat i.val) := by
  rw [h.stack, stackSegment]
  split
  · exact (segmentOf_ne_kernel i).symm
  · next j hj => exact h.apart.free hi (hl j hj)

theorem executeProgram_keeps (he : executeProgram name k = some (r, k'))
    (hseg : ∀ i : Fin 8, k.memoryMap (Int16.ofNat i.val) = FREE → seg ≠ segmentOf (Int16.ofNat i.val)) :
    k'.mem seg = k.mem seg := by
  ext off : 1
  exact executeProgram_mem he hseg off

/-- What a successful `executeProgram` has put into the memory. -/
theorem executeProgram_started (he : executeProgram name k = some (1, k')) :
    ∃ i p found buf d, Started name i p k.toProc k'.toProc ∧
      (readFile name fun _ => 0).exec k.disk = some ((found, buf), d) ∧ found ≠ -1 ∧ k'.disk = k.disk ∧
      k'.mem = initializeProgram (segmentOf (Int16.ofNat i.val))
        (putProgram (segmentOf (Int16.ofNat i.val)) found buf k.mem) := by
  obtain ⟨found, buf, d, hf, h26⟩ := executeProgram_loads he
  by_cases hc : found = -1 ∨ (getFreeMemorySegment k.toProc).1 = none ∨ freePCB k.toProc = none
  · obtain ⟨r, k'', he', hr, -⟩ := executeProgram_refused hf h26 hc
    rw [he] at he'
    cases he'
    exact absurd hr (by decide)
  · simp only [not_or] at hc
    obtain ⟨h1, h2, h3⟩ := hc
    obtain ⟨p, hp⟩ := Option.ne_none_iff_exists'.1 h3
    rcases getFreeMemorySegment_spec k.toProc with hg | ⟨i, hi, hg⟩
    · exact absurd (by rw [hg]) h2
    · rw [executeProgram_eq hf h1 h26 hg hp, Option.map_eq_some_iff] at he
      obtain ⟨s', ha, he⟩ := he
      cases he
      exact ⟨i, p, found, buf, d, prepared_started (by rw [hg]) hi hp ha, hf, h1, rfl, rfl⟩

theorem initializeProgram_idem (segment : Int16) (mem : Int16 → UInt16 → UInt8) :
    initializeProgram segment (initializeProgram segment mem) = initializeProgram segment mem := by
  ext seg off : 2
  simp only [initializeProgram]
  split_ifs <;> rfl

theorem born_none (he : executeProgram name k = some (r, k')) (hr : r ≠ 1) : born name k = none := by
  rw [born, he]
  rcases freePCB k.toProc with _ | p
  · rfl
  · exact if_neg hr

theorem Started.born (hst : Started name i p k.toProc k'.toProc) (he : executeProgram name k = some (1, k')) :
    born name k = some (.pcbPool p, ⟨initial (segmentOf (Int16.ofNat i.val)), k'.mem (segmentOf (Int16.ofNat i.val))⟩) := by
  have hseg : (k'.pcb (.pcbPool p)).segment = segmentOf (Int16.ofNat i.val) := by rw [hst.segment, if_pos rfl]
  rw [TeamXtremeOS.born, he, hst.free, ← hseg]
  exact if_pos rfl

/-- A program that is refused has not been seen. -/
theorem Virtual.refused {v : PCBRef → View} (h : Virtual m v) (hr : Refused m.proc k'.toProc)
    (hss : k'.mem (m.reg .ss) = m.machine.kernel.mem (m.reg .ss))
    (hmem : ∀ j, Live m.proc j → k'.mem (m.proc.pcb (.pcbPool j)).segment =
      m.machine.kernel.mem (m.proc.pcb (.pcbPool j)).segment) :
    Virtual { m with machine := { m.machine with kernel := k' } } v := by
  have hpcb : k'.pcb = m.proc.pcb := by
    have := congrArg Proc.pcb hr.eq
    exact this
  have hrun : k'.running = m.proc.running := by
    have := congrArg Proc.running hr.eq
    exact this
  refine h.keep rfl (h.apart.refused hr) hrun ?_ ?_ ?_ hss hmem
  · intro j hj
    change (k'.pcb _).state ≠ _ at hj
    rw [hpcb] at hj
    exact hj
  · intro x
    change (k'.pcb x).segment = _
    rw [hpcb]
  · intro x
    change (k'.pcb x).stackPointer = _
    rw [hpcb]

/-- A new process waits with its first view. -/
theorem Virtual.started {v : PCBRef → View} (h : Virtual m v) (hl : RunsAlive m.proc)
    (hst : Started name i p m.proc k'.toProc)
    (hput : ∃ mem, k'.mem = initializeProgram (segmentOf (Int16.ofNat i.val)) mem)
    (hss : k'.mem (m.reg .ss) = m.machine.kernel.mem (m.reg .ss))
    (hmem : ∀ j, Live m.proc j → k'.mem (m.proc.pcb (.pcbPool j)).segment =
      m.machine.kernel.mem (m.proc.pcb (.pcbPool j)).segment) :
    Virtual { m with machine := { m.machine with kernel := k' } } (Function.update v (.pcbPool p)
      ⟨initial (segmentOf (Int16.ofNat i.val)), k'.mem (segmentOf (Int16.ofNat i.val))⟩) := by
  have hsegp : (k'.pcb (.pcbPool p)).segment = segmentOf (Int16.ofNat i.val) := by rw [hst.segment, if_pos rfl]
  have hp : ∀ j, Live m.proc j → j ≠ p := by
    rintro j hj rfl
    exact hj hst.defunct
  have hrun : m.proc.running ≠ .pcbPool p := fun hx => hp p (hl p hx) rfl
  refine ⟨h.apart.started hst, ?_, ?_, ?_, ?_⟩
  · change (Function.update v _ _ k'.running).Agrees ⟨m.reg, k'.mem (m.reg .ss)⟩
    rw [hst.running, Function.update_of_ne hrun, hss]
    exact h.seen
  · have hstack : stackSegment k'.toProc = stackSegment m.proc := by
      rw [stackSegment, stackSegment, hst.running]
      rcases hx : m.proc.running with _ | j
      · rfl
      · exact hst.segment_of_ne (hp j (hl j hx))
    exact h.stack.trans hstack.symm
  · intro j hj hne
    change (k'.pcb _).segment ≠ m.reg .ss
    rcases hst.live_iff.1 hj with rfl | hj'
    · rw [hsegp]
      exact (h.stack_ne hl hst.segmentFree).symm
    · rw [hst.segment_of_ne (hp j hj')]
      exact h.own j hj' fun hx => hne (hx.trans hst.running.symm)
  · intro j hj hne
    change Parked k'.mem (k'.pcb (.pcbPool j)) _
    rcases hst.live_iff.1 hj with rfl | hj'
    · obtain ⟨mem, hput⟩ := hput
      have hidem : k'.mem = initializeProgram (segmentOf (Int16.ofNat i.val)) k'.mem := by
        rw [hput, initializeProgram_idem]
      rw [Function.update_self]
      refine ⟨?_, ?_, ?_⟩
      · rw [hsegp]
        rfl
      · rw [hst.stackPointer, if_pos rfl]
        exact (show (0xFF00 : Int16) = 0xff18 - 24 by decide)
      · rw [hsegp, saveOn_initial]
        exact congrFun hidem _
    · have hne' : PCBRef.pcbPool j ≠ .pcbPool p := fun hx => hp j hj' (PCBRef.pcbPool.inj hx)
      have hsame := hst.segment_of_ne (hp j hj')
      obtain ⟨h1, h2, h3⟩ := h.parked j hj' fun hx => hne (hx.trans hst.running.symm)
      rw [Function.update_of_ne hne']
      refine ⟨h1.trans hsame.symm, ?_, ?_⟩
      · rw [hst.stackPointer, if_neg hne']
        exact h2
      · rw [hsame]
        exact (hmem j hj').trans h3

theorem Virtual.executeProgram {v : PCBRef → View} (h : Virtual m v) (hl : RunsAlive m.proc)
    (he : executeProgram name m.machine.kernel = some (r, k')) :
    Virtual { m with machine := { m.machine with kernel := k' } } (m.noted (.call (.executeProgram name)) v) := by
  have hss : k'.mem (m.reg .ss) = m.machine.kernel.mem (m.reg .ss) :=
    executeProgram_keeps he fun i hi => h.stack_ne hl hi
  have hmem : ∀ j, Live m.proc j → k'.mem (m.proc.pcb (.pcbPool j)).segment =
      m.machine.kernel.mem (m.proc.pcb (.pcbPool j)).segment :=
    fun j hj => executeProgram_keeps he fun i hi => h.apart.free hi hj
  rcases executeProgram_cases he with ⟨hr, href⟩ | ⟨rfl, -⟩
  · have hr1 : r ≠ 1 := by
      rintro rfl
      revert hr
      decide
    rw [Computer.noted, born_none he hr1]
    exact h.refused href hss hmem
  · obtain ⟨i, p, found, buf, d, hst, -, -, -, hput⟩ := executeProgram_started he
    rw [Computer.noted, hst.born he]
    exact h.started hl hst ⟨_, hput⟩ hss hmem

/-! ## The interrupt -/

theorem push_top (c : Cpu) (w : Int16) : (c.push w).word (c.reg .ss) (c.reg .sp - 2) = w := by
  rw [Cpu.word, Cpu.push_mem, Function.update_self]
  exact words.load_store

/-- What `returnFromTimer` finds of its arguments. -/
theorem call_args (c : Cpu) (w₁ w₂ w₃ : Int16) {c' : Cpu} (hc : c' = ((c.push w₁).push w₂).push w₃) :
    c'.word (c'.reg .ss) (c'.reg .sp + 2) = w₂ ∧ c'.word (c'.reg .ss) (c'.reg .sp + 4) = w₁ := by
  have h2 : c'.reg .sp + 2 = (c.push w₁).reg .sp - 2 + Int16.ofNat (2 * 0) := by
    rw [hc, Cpu.push_reg, Function.update_self, Int16.sub_add_cancel]
    exact (Int16.add_zero _).symm
  have h4 : c'.reg .sp + 4 = (c.push w₁).reg .sp - 2 + Int16.ofNat (2 * 1) := by
    rw [hc, Cpu.push_reg, Function.update_self, show (4 : Int16) = 2 + 2 from rfl, ← Int16.add_assoc,
      Int16.sub_add_cancel]
    rfl
  have hlast : ∀ i < 100, c'.word (c.reg .ss) ((c.push w₁).reg .sp - 2 + Int16.ofNat (2 * i)) =
      ((c.push w₁).push w₂).word (c.reg .ss) ((c.push w₁).reg .sp - 2 + Int16.ofNat (2 * i)) := by
    intro i hi
    rw [hc]
    exact push_above ((c.push w₁).push w₂) w₃ hi
  have hss : c'.reg .ss = c.reg .ss := by rw [hc]; rfl
  rw [hss, h2, h4, hlast 0 (by omega), hlast 1 (by omega)]
  constructor
  · rw [show Int16.ofNat (2 * 0) = 0 from rfl, Int16.add_zero]
    exact push_top (c.push w₁) w₂
  · rw [show Int16.ofNat (2 * 1) = 2 from rfl, Int16.sub_add_cancel, ← Int16.add_zero ((c.push w₁).reg .sp)]
    exact (push_above (c.push w₁) w₂ (i := 0) (by omega)).trans
      ((congrArg _ (Int16.add_zero _)).trans (push_top c w₁))

/-- **`returnFromTimer`, called for a process that waits**, resumes it, and
    changes nothing outside of the segment of the kernel. -/
theorem leave_restores (hne : R .ss ≠ c.reg .ss) (hmem : c.mem (R .ss) = saveOn R bytes) :
    (Computer.leave (R .ss) (R .sp - 24) c).reg = R ∧
    ∀ seg ≠ c.reg .ss, (Computer.leave (R .ss) (R .sp - 24) c).mem seg = c.mem seg := by
  obtain ⟨hseg, hsp⟩ := call_args c (R .sp - 24) (R .ss) (c.reg .ip) rfl
  have hkeep : ∀ seg ≠ c.reg .ss,
      (((c.push (R .sp - 24)).push (R .ss)).push (c.reg .ip)).mem seg = c.mem seg := by
    intro seg hseg
    simp [hseg]
  rw [← hkeep _ hne] at hmem
  rw [Computer.leave, returnFromTimer_restores hseg hsp hmem]
  exact ⟨rfl, hkeep⟩

/-- When the handler has run, every process waits. -/
theorem Virtual.parks {v : PCBRef → View} (h : Virtual m v) (hrun : s.running = m.proc.running)
    (hlive : ∀ j, Live s j → Live m.proc j) (hseg : ∀ x, (s.pcb x).segment = (m.proc.pcb x).segment)
    (hsp : ∀ x, (s.pcb x).stackPointer = (m.proc.pcb x).stackPointer) (hh : HeadLive s)
    (ht : Ticked (m.reg .sp - 24) s s') (hj : Live s' j) :
    Parked m.entered.mem (s'.pcb (.pcbPool j)) (v (.pcbPool j)) := by
  obtain ⟨-, -, -, -, hmem⟩ := timer_ISR_saves m.cpu
  have hjs : Live m.proc j := hlive j ((ht.live hj).elim id fun h => hh j h)
  have hseg' : (s'.pcb (.pcbPool j)).segment = (m.proc.pcb (.pcbPool j)).segment := (ht.segment _).trans (hseg _)
  have hmemj := hmem _ (h.apart.ne_kernel hjs)
  by_cases hr : .pcbPool j = m.proc.running
  · have hss : m.reg .ss = (m.proc.pcb (.pcbPool j)).segment := by rw [h.stack, stackSegment, ← hr]
    have hseen := h.seen
    rw [← hr] at hseen
    refine ⟨?_, ?_, ?_⟩
    · rw [hseg', ← hss, ← hseen.1]
      rfl
    · rw [ht.stackPointer, if_pos (hr.trans hrun.symm), ← hseen.1]
      rfl
    · rw [hseg', ← hseen.saveOn]
      refine hmemj.trans ((if_pos hss.symm).trans ?_)
      rw [← hss]
      rfl
  · obtain ⟨h1, h2, h3⟩ := h.parked j hjs hr
    refine ⟨h1.trans hseg'.symm, ?_, ?_⟩
    · rw [ht.stackPointer, if_neg (hrun ▸ hr), hsp, h2]
    · rw [hseg']
      exact hmemj.trans ((if_neg (h.own j hjs hr)).trans h3)

/-- An interrupt that succeeds, one part after the other. -/
theorem interrupt_split (h : m.interrupt s reg bytes = some m') : ∃ segment stackPointer c,
    handleTimerInterrupt (m.entered.word 0x1000 0xdfec) (m.entered.word 0x1000 0xdfee) s =
      some ((segment, stackPointer), m'.proc) ∧
    c = Computer.leave segment stackPointer
      ⟨Function.update reg .ss 0x1000, Function.update m.entered.mem 0x1000 bytes⟩ ∧
    m'.reg = c.reg ∧ m'.machine.kernel.mem = c.mem := by
  rw [Computer.interrupt] at h
  rcases ht : handleTimerInterrupt (m.entered.word 0x1000 0xdfec) (m.entered.word 0x1000 0xdfee) s with
    _ | ⟨⟨segment, stackPointer⟩, s'⟩
  · rw [ht] at h
    cases h
  · simp only [ht, Option.map_some, Option.some.injEq] at h
    generalize hc : Computer.leave segment stackPointer _ = c at h
    subst h
    exact ⟨segment, stackPointer, c, rfl, hc.symm, rfl, rfl⟩

/-- **The interrupt keeps the views**: the process that is resumed sees its
    own. -/
theorem Virtual.interrupt {v : PCBRef → View} (h : Virtual m v) (hA : Apart s)
    (hrun : s.running = m.proc.running) (hlive : ∀ j, Live s j → Live m.proc j)
    (hseg : ∀ x, (s.pcb x).segment = (m.proc.pcb x).segment)
    (hsp : ∀ x, (s.pcb x).stackPointer = (m.proc.pcb x).stackPointer) (hh : HeadLive s) (hf : Finds s)
    (hi : m.interrupt s reg bytes = some m') : Virtual m' v := by
  obtain ⟨-, hsp₀, -⟩ := timer_ISR_saves m.cpu
  obtain ⟨segment, stackPointer, c, htick, hc, hreg', hmem'⟩ := interrupt_split hi
  obtain ⟨hpair, ht⟩ := handleTimerInterrupt_ticked htick
  rw [show m.entered.word 0x1000 0xdfee = m.reg .sp - 24 from hsp₀] at ht
  obtain ⟨p, hp⟩ := hf
  have hp' := ht.running_iff.2 hp
  rw [hp', Prod.mk.injEq] at hpair
  have hA' := hA.ticked ht hh
  have hlp : Live m'.proc p := by
    rw [Live, ht.active hp']
    decide
  have hpark : ∀ j, Live m'.proc j → Parked m.entered.mem (m'.proc.pcb (.pcbPool j)) (v (.pcbPool j)) :=
    fun j hj => h.parks hrun hlive hseg hsp hh ht hj
  obtain ⟨h1, h2, h3⟩ := hpark p hlp
  have hne : (v (.pcbPool p)).reg .ss ≠ 0x1000 := h1 ▸ hA'.ne_kernel hlp
  -- the stack of the kernel is not in the segment of the process
  have hsaved : Function.update m.entered.mem 0x1000 bytes ((v (.pcbPool p)).reg .ss) =
      saveOn (v (.pcbPool p)).reg (v (.pcbPool p)).bytes := by
    rw [Function.update_of_ne hne, h1, h3]
  rw [hpair.1, hpair.2, h2, ← h1] at hc
  obtain ⟨hreg, hmem⟩ := leave_restores
    (c := ⟨Function.update reg .ss 0x1000, Function.update m.entered.mem 0x1000 bytes⟩) hne hsaved
  rw [← hc] at hreg hmem
  have hkeep : ∀ seg ≠ 0x1000, m'.machine.kernel.mem seg = m.entered.mem seg := by
    intro seg hseg
    rw [hmem', hmem seg hseg]
    exact Function.update_of_ne hseg ..
  have hss : m'.reg .ss = (m'.proc.pcb (.pcbPool p)).segment := by rw [hreg', hreg, h1]
  refine ⟨hA', ?_, ?_, ?_, ?_⟩
  · rw [hp', Computer.view, hss, hkeep _ (hA'.ne_kernel hlp), h3, hreg', hreg]
    exact (v (.pcbPool p)).agrees_saveOn
  · rw [hss, stackSegment, hp']
  · intro j hj hne
    rw [hss]
    exact fun he => hne ((congrArg _ (hA'.distinct j p hj hlp he)).trans hp'.symm)
  · intro j hj _
    obtain ⟨h1, h2, h3⟩ := hpark j hj
    exact ⟨h1, h2, (hkeep _ (hA'.ne_kernel hj)).trans h3⟩

/-! ## Runs -/

theorem Virtual.call {v : PCBRef → View} {c : Call} {k' : Machine} (h : Virtual m v) (hc : m.MayHappen (.call c))
    (hs : m.machine.step c = some k') : Virtual { m with machine := k' } (m.noted (.call c) v) := by
  obtain ⟨hticks, -, hl, hrel⟩ := hc
  have hA := h.apart.step (m := m.machine) hrel hs
  cases c with
  | executeProgram name =>
    obtain ⟨r, k', he, rfl⟩ := Machine.step_executeProgram hs
    exact h.executeProgram hl he
  | terminate =>
    cases hs
    have hr := releasePCB_released m.proc.running (releaseMemorySegment (freedIndex m.proc) m.proc)
    exact h.keep rfl hA hr.running (fun j hj => hr.live hj) hr.segment hr.stackPointer rfl fun _ _ => rfl
  | kill segment =>
    cases hs
    rcases hv : victim segment m.proc with _ | i
    · have hk : (kill segment m.proc).2 = m.proc := by rw [kill_none hv]
      exact h.keep rfl hA (congrArg Proc.running hk) (fun j hj => (congrArg (Live · j) hk).mp hj)
        (fun x => congrArg (fun s => (Proc.pcb s x).segment) hk)
        (fun x => congrArg (fun s => (Proc.pcb s x).stackPointer) hk) rfl fun _ _ => rfl
    · have hr := releasePCB_released (.pcbPool i) (releaseMemorySegment segment m.proc)
      have hk : (kill segment m.proc).2 = releasePCB (.pcbPool i) (releaseMemorySegment segment m.proc) := by
        rw [kill_eq hv]
      rw [← hk] at hr
      exact h.keep rfl hA hr.running (fun j hj => hr.live hj) hr.segment hr.stackPointer rfl fun _ _ => rfl
  | yield =>
    simp only [Machine.step, Option.map_eq_some_iff] at hs
    obtain ⟨s', ha, rfl⟩ := hs
    have hf := addToReady_frame ha
    refine h.keep rfl hA hf.running ?_ hf.segment hf.stackPointer rfl fun _ _ => rfl
    exact fun j hj => (hf.state _).symm.trans_ne hj
  | sleep seconds sp => cases hticks
  | timer sp => cases hticks

theorem Virtual.step {v : PCBRef → View} (h : Virtual m v) (hok : m.MayHappen e) (hs : m.step e = some m') :
    Virtual m' (m.noted e v) := by
  cases e with
  | compute reg bytes =>
    cases hs
    obtain ⟨-, -, hss⟩ := hok
    refine ⟨h.apart, ?_, hss.trans h.stack, ?_, ?_⟩
    · have hview : (⟨reg, Function.update m.machine.kernel.mem (m.reg .ss) bytes (reg .ss)⟩ : View) =
          m.noted (.compute reg bytes) v m.proc.running := by
        rw [Computer.noted, hss, Function.update_self, Function.update_self]
      exact hview ▸ .refl _
    · intro j hj hne
      change _ ≠ reg .ss
      rw [hss]
      exact h.own j hj hne
    · intro j hj hne
      have hv : m.noted (.compute reg bytes) v (.pcbPool j) = v (.pcbPool j) := Function.update_of_ne hne ..
      rw [hv]
      obtain ⟨h1, h2, h3⟩ := h.parked j hj hne
      exact ⟨h1, h2, (Function.update_of_ne (h.own j hj hne) ..).trans h3⟩
  | fileCall c =>
    simp only [Computer.step, Option.map_eq_some_iff] at hs
    obtain ⟨d, -, rfl⟩ := hs
    exact h.keep rfl h.apart rfl (fun _ hj => hj) (fun _ => rfl) (fun _ => rfl) rfl fun _ _ => rfl
  | call c =>
    simp only [Computer.step, Option.map_eq_some_iff] at hs
    obtain ⟨k', hk, rfl⟩ := hs
    exact h.call hok hk
  | timer reg bytes =>
    exact h.interrupt h.apart rfl (fun _ hj => hj) (fun _ => rfl) (fun _ => rfl) hok.1 hok.2 hs
  | sleep seconds reg bytes =>
    obtain ⟨-, ⟨hh, hd⟩, hf⟩ := hok
    have hl := lieDown_pcb seconds m.proc
    have hlive : ∀ j, Live (lieDown seconds m.proc) j ↔ Live m.proc j := by
      intro j
      unfold Live
      rw [hl]
      split_ifs with hj
      · rw [← hj] at hd
        simp [hd]
      · rfl
    have hseg : ∀ x, ((lieDown seconds m.proc).pcb x).segment = (m.proc.pcb x).segment := by
      intro x
      rw [hl]
      split_ifs <;> rfl
    have hsp : ∀ x, ((lieDown seconds m.proc).pcb x).stackPointer = (m.proc.pcb x).stackPointer := by
      intro x
      rw [hl]
      split_ifs <;> rfl
    exact h.interrupt (h.apart.mono (fun j hj => (hlive j).1 hj) (fun j => hseg _) fun _ _ _ _ hu => hu) rfl
      (fun j hj => (hlive j).1 hj) hseg hsp (fun j hj => (hlive j).2 (hh j hj)) hf hs

theorem Virtual.init (k : Kernel) (reg : Regs) : Virtual (.init k reg) fun _ => (Computer.init k reg).view := by
  have hb := initializeProcStructures_booted k.toProc
  have hdead : ∀ j, ¬ Live (Computer.init k reg).proc j := fun j hj => hj (hb.defunct j)
  refine ⟨hb.apart, .refl _, ?_, fun j hj => absurd hj (hdead j), fun j hj => absurd hj (hdead j)⟩
  change Function.update reg .ss 0x1000 .ss = stackSegment (initializeProcStructures k.toProc)
  rw [Function.update_self, stackSegment, hb.running]

/-- In every run, the views are what the processes see. -/
theorem Virtual.run (h : Run Computer.step Computer.MayHappen (.init k reg) es m) :
    Virtual m (Computer.views (.init k reg) es fun _ => (Computer.init k reg).view) :=
  @Run.simulate _ _ _ _ Computer.step Computer.MayHappen _ _ _ Virtual
    (fun (v : PCBRef → View) (f : (PCBRef → View) → PCBRef → View) => f v) Computer.noted
    (fun _ _ _ _ hR hok hs => hR.step hok hs) h _ (Virtual.init k reg)

/-- **Every process has a processor of its own.**  In every run, whatever the
    other processes, the timer and the kernel have done, the running process has
    the registers and the bytes it has computed last (or with which it has been
    loaded), but for the 24 bytes under its stack pointer; and so it will be,
    when they are resumed, for all that wait. -/
theorem switch_run (h : Run Computer.step Computer.MayHappen (.init k reg) es m) :
    (Computer.views (.init k reg) es (fun _ => (Computer.init k reg).view) m.proc.running).Agrees m.view ∧
    ∀ j, Live m.proc j → .pcbPool j ≠ m.proc.running →
      Parked m.machine.kernel.mem (m.proc.pcb (.pcbPool j))
        (Computer.views (.init k reg) es (fun _ => (Computer.init k reg).view) (.pcbPool j)) :=
  ⟨(Virtual.run h).seen, (Virtual.run h).parked⟩

/-- Two processes: the first one is resumed with the 7 it has computed. -/
theorem switch_run_two : ∃ (es : List Happening) (m : Computer), (m.proc.running = .pcbPool 0 ∧ m.reg .ax = 7) ∧
    (Computer.views (.init oneFileKernel (initial 0)) es (fun _ => (Computer.init oneFileKernel (initial 0)).view)
      m.proc.running).Agrees m.view := by
  have h : (evalRun Computer.step Computer.MayHappen (.init oneFileKernel (initial 0))
      [.call (.executeProgram nameA), .call (.executeProgram nameA), .timer (initial 0) (fun _ => 0),
        .compute (Function.update (initial 0x2000) .ax 7) (fun _ => 0), .timer (initial 0) (fun _ => 0),
        .compute (Function.update (initial 0x3000) .ax 9) (fun _ => 0), .timer (initial 0) (fun _ => 0)]).any
      (fun m => m.proc.running = .pcbPool 0 ∧ m.reg .ax = 7) = true := by decide +kernel
  obtain ⟨m, hr, hm⟩ := Run.exists_of_evalRun h
  simp only [decide_eq_true_eq] at hm
  exact ⟨_, m, hm, (switch_run hr).1⟩

end TeamXtremeOS
