/-
  The machine behind `initializeProcStructures`, and what a step of the
  machine is in terms of the functions of the kernel.
-/
import TeamXtremeOS.Proof.Release
import TeamXtremeOS.Proof.Tick
import TeamXtremeOS.Proof.Start

namespace TeamXtremeOS

open Lib

variable {s s' : Proc} {k : Kernel} {m m' : Machine} {l : List (Fin 8)} {i : Fin 8}

/-! ## `initializeProcStructures` -/

theorem initEntry_pcb (s : Proc) (i : Fin 8) : (initEntry s i).pcb = Function.update s.pcb (.pcbPool i)
    { s.pcb (.pcbPool i) with
      name := Function.update (s.pcb (.pcbPool i)).name 0 0
      state := .DEFUNCT, segment := 0, stackPointer := 0 } := rfl

theorem foldl_initEntry_pcb (l : List (Fin 8)) (s : Proc) (x : PCBRef) :
    ((l.foldl initEntry s).pcb x).next = (s.pcb x).next ∧
    ((l.foldl initEntry s).pcb x).prev = (s.pcb x).prev ∧
    (∀ i, x = .pcbPool i → i ∈ l ∨ (s.pcb x).state = .DEFUNCT ∧ (s.pcb x).segment = 0 →
      ((l.foldl initEntry s).pcb x).state = .DEFUNCT ∧ ((l.foldl initEntry s).pcb x).segment = 0) := by
  induction l generalizing s with
  | nil => exact ⟨rfl, rfl, fun i _ h => by simpa using h⟩
  | cons j l ih =>
    obtain ⟨h1, h2, h3⟩ := ih (initEntry s j)
    have hx : (initEntry s j).pcb x = if x = .pcbPool j then { s.pcb x with
        name := Function.update (s.pcb x).name 0 0
        state := .DEFUNCT, segment := 0, stackPointer := 0 } else s.pcb x := by
      rw [initEntry_pcb, Function.update_apply]
      split_ifs with h <;> simp [h]
    refine ⟨h1.trans ?_, h2.trans ?_, fun i hi h => h3 i hi ?_⟩
    · rw [hx]; split_ifs <;> rfl
    · rw [hx]; split_ifs <;> rfl
    · rw [hx]
      split_ifs with hj
      · exact .inr ⟨rfl, rfl⟩
      · rcases h with h | h
        · rcases List.mem_cons.1 h with rfl | h
          · exact absurd hi hj
          · exact .inl h
        · exact .inr h

theorem foldl_initEntry_free (l : List (Fin 8)) (s : Proc) :
    ∀ i : Fin 8, i ∈ l ∨ s.memoryMap (Int16.ofNat i.val) = FREE →
      (l.foldl initEntry s).memoryMap (Int16.ofNat i.val) = FREE := by
  induction l generalizing s with
  | nil => intro i h; simpa using h
  | cons j l ih =>
    intro i h
    refine ih (initEntry s j) i ?_
    change _ ∨ Function.update s.memoryMap (Int16.ofNat j.val) FREE _ = FREE
    rw [Function.update_apply]
    split_ifs with hj
    · exact .inr rfl
    · rcases h with h | h
      · rcases List.mem_cons.1 h with rfl | h
        · exact absurd rfl hj
        · exact .inl h
      · exact .inr h

/-- The variables behind `initializeProcStructures`: no process, no used
    segment, and an empty queue; the links are what they were. -/
structure Booted (s s' : Proc) : Prop where
  running : s'.running = .idleProc
  readyHead : s'.readyHead = none
  readyTail : s'.readyTail = none
  defunct : ∀ i, (s'.pcb (.pcbPool i)).state = .DEFUNCT
  segment : ∀ i, (s'.pcb (.pcbPool i)).segment = 0
  idleSegment : (s'.pcb .idleProc).segment = 0
  idleState : (s'.pcb .idleProc).state = .READY
  idleName : (s'.pcb .idleProc).namedIdle = true
  free : ∀ i : Fin 8, s'.memoryMap (Int16.ofNat i.val) = FREE
  next : ∀ x, (s'.pcb x).next = (s.pcb x).next
  prev : ∀ x, (s'.pcb x).prev = (s.pcb x).prev

theorem initializeProcStructures_booted (s : Proc) : Booted s (initializeProcStructures s) := by
  have hf := foldl_initEntry_pcb (List.finRange 8) s
  have hx : ∀ i, (initializeProcStructures s).pcb (.pcbPool i) =
      ((List.finRange 8).foldl initEntry s).pcb (.pcbPool i) := fun i => by
    simp [initializeProcStructures]
  refine ⟨rfl, rfl, rfl, ?_, ?_, ?_, ?_, ?_, ?_, ?_, ?_⟩
  · intro i
    rw [hx]; exact ((hf _).2.2 i rfl (.inl (List.mem_finRange i))).1
  · intro i
    rw [hx]; exact ((hf _).2.2 i rfl (.inl (List.mem_finRange i))).2
  · simp [initializeProcStructures]
  · simp [initializeProcStructures]
  · rw [namedIdle_iff]
    intro j _
    simp [initializeProcStructures]
  · intro i
    exact foldl_initEntry_free _ s i (.inl (List.mem_finRange i))
  · intro x
    rcases x with _ | i
    · simpa [initializeProcStructures] using (hf .idleProc).1
    · rw [hx]; exact (hf _).1
  · intro x
    rcases x with _ | i
    · simpa [initializeProcStructures] using (hf .idleProc).2.1
    · rw [hx]; exact (hf _).2.1

/-- All `next` and `prev` links are `NULL`. -/
def NullLinks (s : Proc) : Prop := ∀ x, (s.pcb x).next = none ∧ (s.pcb x).prev = none

theorem Booted.queue (h : Booted s s') : Queue s' [] :=
  ⟨h.readyHead, h.readyTail, .nil, List.nodup_nil⟩

theorem Booted.dQueue (h : Booted s s') (hl : NullLinks s) : DQueue s' [] :=
  ⟨h.queue, ⟨fun x hx => by simp at hx, .nil⟩, fun i _ => by rw [h.prev]; exact (hl _).2⟩

/-- A disk with one file, `A`, in sector 3. -/
def oneFileDisk : Disk := fun n =>
  if n = 1 then fun j => if j.val < 4 then 0xFF else 0
  else if n = 2 then fun j => if j.val = 0 then 0x41 else if j.val = 6 then 3 else 0
  else fun _ => 0

/-- The name `A`. -/
def nameA : FileName := letter 0x41

/-- A kernel with that disk, before it is initialized. -/
def oneFileKernel : Kernel where
  running := .idleProc
  readyHead := none
  readyTail := none
  pcb _ := { name := fun _ => 0, state := .DEFUNCT, segment := 0, stackPointer := 0,
             sleepCounter := 0, next := none, prev := none }
  memoryMap _ := 0
  disk := oneFileDisk
  mem _ _ := 0

/-- The same with another name for the file. -/
def namedKernel (f : FileName) : Kernel :=
  { oneFileKernel with disk := Function.update oneFileDisk 2 (setName 0 f (oneFileDisk 2)) }

theorem oneFileKernel_nullLinks : NullLinks oneFileKernel.toProc := fun _ => ⟨rfl, rfl⟩

/-! ## `kill` -/

theorem setState_self {p : PCBRef} {st : PState} (h : (s.pcb p).state = st) : s.setState p st = s := by
  subst h
  have : ({ s.pcb p with state := (s.pcb p).state } : PCB) = s.pcb p := rfl
  simp only [Proc.setState, Proc.put, this, Function.update_eq_self]

/-- The last store of `kill` finds the PCB released already. -/
theorem kill_eq {segment : Int16} (h : victim segment s = some i) :
    kill segment s = (1, releasePCB (.pcbPool i) (releaseMemorySegment segment s)) := by
  have hd := (releasePCB_released (.pcbPool i) (releaseMemorySegment segment s)).state (.pcbPool i)
  rw [if_pos rfl] at hd
  unfold kill
  rw [h]
  simp only [setState_self hd]

theorem kill_none {segment : Int16} (h : victim segment s = none) : kill segment s = (-1, s) := by
  unfold kill
  rw [h]

theorem victim_segment {segment : Int16} (h : victim segment s = some i) :
    (s.pcb (.pcbPool i)).segment = segmentOf segment := by
  have := List.find?_some h
  simp only [decide_eq_true_eq] at this
  rw [this, segmentOf, Int16.mul_comm]

/-! ## The steps of the machine -/

namespace Machine
variable {name : FileName} {seconds sp segment : Int16}

theorem step_executeProgram (h : m.step (.executeProgram name) = some m') :
    ∃ r k', TeamXtremeOS.executeProgram name m.kernel = some (r, k') ∧
      m' = { m with kernel := k' } := by
  simp only [step, Option.map_eq_some_iff] at h
  obtain ⟨⟨r, k'⟩, h, rfl⟩ := h
  exact ⟨r, k', h, rfl⟩

theorem step_timer (h : m.step (.timer sp) = some m') : ∃ r s',
    handleTimerInterrupt (stackSegment m.kernel.toProc) sp m.kernel.toProc = some (r, s') ∧
      m' = { kernel := { m.kernel with toProc := s' }, halted := false } := by
  simp only [step, resume, Option.map_eq_some_iff] at h
  obtain ⟨⟨r, s'⟩, h, rfl⟩ := h
  exact ⟨r, s', h, rfl⟩

theorem step_sleep (h : m.step (.sleep seconds sp) = some m') : ∃ r s',
    handleTimerInterrupt (stackSegment m.kernel.toProc) sp (lieDown seconds m.kernel.toProc) =
      some (r, s') ∧ m' = { kernel := { m.kernel with toProc := s' }, halted := false } := by
  simp only [step, resume, TeamXtremeOS.sleep, Option.map_eq_some_iff] at h
  obtain ⟨⟨r, s'⟩, h, rfl⟩ := h
  exact ⟨r, s', h, rfl⟩

theorem step_timer_of {r : Int16 × Int16} (h : handleTimerInterrupt
    (stackSegment m.kernel.toProc) sp m.kernel.toProc = some (r, s')) :
    m.step (.timer sp) = some { kernel := { m.kernel with toProc := s' }, halted := false } := by
  simp [step, resume, h]

theorem step_sleep_of {r : Int16 × Int16} (h : handleTimerInterrupt
    (stackSegment m.kernel.toProc) sp (lieDown seconds m.kernel.toProc) = some (r, s')) :
    m.step (.sleep seconds sp) =
      some { kernel := { m.kernel with toProc := s' }, halted := false } := by
  simp [step, resume, TeamXtremeOS.sleep, h]

end Machine

theorem Succeeds.started {name : FileName} (h : Succeeds name m.kernel)
    (hs : m.step (.executeProgram name) = some m') :
    m'.halted = m.halted ∧ ∃ i p, Started name i p m.kernel.toProc m'.kernel.toProc := by
  obtain ⟨r, k', he, rfl⟩ := Machine.step_executeProgram hs
  refine ⟨rfl, ?_⟩
  rw [Succeeds, he] at h
  cases h
  rcases executeProgram_cases he with ⟨hr, -⟩ | ⟨-, hst⟩
  · exact absurd hr (by decide)
  · exact hst

end TeamXtremeOS
