/-
  `handleTimerInterrupt`: what a tick does to the variables of the kernel, in
  any state, and to the ready queue, when there is one.
-/
import TeamXtremeOS.Kernel
import TeamXtremeOS.Proof.Queue

namespace TeamXtremeOS

open Lib

variable {s s' s₁ : Proc} {p x : PCBRef} {q : List PCBRef} {i : Fin 8} {l : List (Fin 8)}
  {seg sp : Int16} {P : Proc → List PCBRef → Prop}

/-! ## The sleepers -/

/-- Sleeper `i` wakes at the next tick. -/
def Wakes (s : Proc) (i : Fin 8) : Prop :=
  (s.pcb (.pcbPool i)).state = .SLEEPING ∧ (s.pcb (.pcbPool i)).sleepCounter - 1 ≤ 0

instance (s : Proc) (i : Fin 8) : Decidable (Wakes s i) := inferInstanceAs (Decidable (_ ∧ _))

/-- The sleepers among `l` that wake at the next tick. -/
def wokenOf (s : Proc) (l : List (Fin 8)) : List PCBRef :=
  (l.filter fun i => Wakes s i).map .pcbPool

/-- The sleepers that wake at the next tick, in the order of the pool. -/
def woken (s : Proc) : List PCBRef := wokenOf s (List.finRange 8)

theorem mem_wokenOf : .pcbPool i ∈ wokenOf s l ↔ i ∈ l ∧ Wakes s i := by
  simp [wokenOf]

theorem mem_woken : .pcbPool i ∈ woken s ↔ Wakes s i := by simp [woken, mem_wokenOf]

theorem pool_of_mem_wokenOf (h : x ∈ wokenOf s l) : ∃ i, x = .pcbPool i := by
  simp only [wokenOf, List.mem_map] at h
  obtain ⟨i, -, rfl⟩ := h
  exact ⟨i, rfl⟩

theorem idleProc_notMem_woken : .idleProc ∉ woken s := fun h => by
  obtain ⟨i, hi⟩ := pool_of_mem_wokenOf h
  cases hi

theorem sleeping_of_mem_woken (h : x ∈ woken s) : (s.pcb x).state = .SLEEPING := by
  obtain ⟨i, rfl⟩ := pool_of_mem_wokenOf h
  exact (mem_woken.1 h).1

/-- Without sleepers nobody wakes. -/
theorem woken_awake (h : ∀ i, (s.pcb (.pcbPool i)).state ≠ .SLEEPING) : woken s = [] := by
  simp only [woken, wokenOf, List.map_eq_nil_iff, List.filter_eq_nil_iff]
  intro i _ hw
  exact h i (of_decide_eq_true hw).1

theorem wokenOf_cons : wokenOf s (i :: l) = wokenOf s [i] ++ wokenOf s l := by
  by_cases h : Wakes s i <;> simp [wokenOf, h]

/-- What the loop over the sleepers does, over the part `l` of the pool. -/
structure Woke (l : List (Fin 8)) (s s' : Proc) : Prop where
  running : s'.running = s.running
  memoryMap : s'.memoryMap = s.memoryMap
  readyHead : s'.readyHead = s.readyHead.or (wokenOf s l).head?
  name : ∀ x, (s'.pcb x).name = (s.pcb x).name
  segment : ∀ x, (s'.pcb x).segment = (s.pcb x).segment
  stackPointer : ∀ x, (s'.pcb x).stackPointer = (s.pcb x).stackPointer
  state : ∀ x, (s'.pcb x).state = if x ∈ wokenOf s l then .READY else (s.pcb x).state
  sleepCounter : ∀ x, (s'.pcb x).sleepCounter =
    if x ∈ l.map .pcbPool ∧ (s.pcb x).state = .SLEEPING then (s.pcb x).sleepCounter - 1
    else (s.pcb x).sleepCounter

/-- The PCB of a sleeper once its counter has been decremented. -/
def PCB.countDown (b : PCB) : PCB := { b with sleepCounter := b.sleepCounter - 1 }

theorem sameLinks_countDown (s : Proc) (i : Fin 8) :
    SameLinks s (s.put (.pcbPool i) (s.pcb (.pcbPool i)).countDown) :=
  ⟨rfl, rfl, fun x => by by_cases hx : x = .pcbPool i <;> simp [PCB.countDown, hx],
    fun x => by by_cases hx : x = .pcbPool i <;> simp [PCB.countDown, hx]⟩

theorem sameLinks_setState (s : Proc) (p : PCBRef) (st : PState) : SameLinks s (s.setState p st) :=
  ⟨rfl, rfl, fun x => by by_cases hx : x = p <;> simp [Proc.setState, hx],
    fun x => by by_cases hx : x = p <;> simp [Proc.setState, hx]⟩

theorem updateSleeper_eq (s : Proc) (i : Fin 8) : updateSleeper s i =
    if Wakes s i then addToReady (.pcbPool i)
      ((s.put (.pcbPool i) (s.pcb (.pcbPool i)).countDown).setState (.pcbPool i) .READY)
    else if (s.pcb (.pcbPool i)).state = .SLEEPING then
      some (s.put (.pcbPool i) (s.pcb (.pcbPool i)).countDown)
    else some s := by
  unfold updateSleeper Wakes
  by_cases hs : (s.pcb (.pcbPool i)).state = .SLEEPING
  · by_cases hc : (s.pcb (.pcbPool i)).sleepCounter - 1 ≤ 0 <;> simp [hs, hc, PCB.countDown]
  · simp [hs]

theorem updateSleeper_woke (h : updateSleeper s i = some s') : Woke [i] s s' := by
  rw [updateSleeper_eq] at h
  split_ifs at h with hw hs
  · have hf := addToReady_frame h
    have hh := addToReady_head h
    have hwi : wokenOf s [i] = [.pcbPool i] := by simp [wokenOf, hw]
    refine ⟨hf.running, hf.memoryMap, by rw [hh, hwi]; rfl, ?_, ?_, ?_, ?_, ?_⟩
    · intro x
      rw [hf.name]
      by_cases hx : x = .pcbPool i <;> simp [Proc.setState, PCB.countDown, hx]
    · intro x
      rw [hf.segment]
      by_cases hx : x = .pcbPool i <;> simp [Proc.setState, PCB.countDown, hx]
    · intro x
      rw [hf.stackPointer]
      by_cases hx : x = .pcbPool i <;> simp [Proc.setState, PCB.countDown, hx]
    · intro x
      rw [hf.state, hwi]
      by_cases hx : x = .pcbPool i <;> simp [Proc.setState, hx]
    · intro x
      rw [hf.sleepCounter]
      by_cases hx : x = .pcbPool i
      · subst hx; simp [Proc.setState, PCB.countDown, hw.1]
      · simp [Proc.setState, hx]
  · cases h
    have hwi : wokenOf s [i] = [] := by simp [wokenOf, hw]
    refine ⟨rfl, rfl, by rw [hwi]; simp, ?_, ?_, ?_, ?_, ?_⟩
    · intro x
      by_cases hx : x = .pcbPool i <;> simp [PCB.countDown, hx]
    · intro x
      by_cases hx : x = .pcbPool i <;> simp [PCB.countDown, hx]
    · intro x
      by_cases hx : x = .pcbPool i <;> simp [PCB.countDown, hx]
    · intro x
      rw [hwi]
      by_cases hx : x = .pcbPool i <;> simp [PCB.countDown, hx]
    · intro x
      by_cases hx : x = .pcbPool i
      · subst hx; simp [PCB.countDown, hs]
      · simp [hx]
  · cases h
    have hwi : wokenOf s [i] = [] := by simp [wokenOf, hw]
    refine ⟨rfl, rfl, by rw [hwi]; simp, fun _ => rfl, fun _ => rfl, fun _ => rfl,
      fun x => by rw [hwi]; simp, ?_⟩
    intro x
    by_cases hx : x = .pcbPool i
    · subst hx; simp [hs]
    · simp [hx]

/-- Another PCB wakes after the loop has passed `i` exactly if it did before. -/
theorem Woke.wakes_iff (h : Woke [i] s s') {j : Fin 8} (hj : j ≠ i) : Wakes s' j ↔ Wakes s j := by
  have h1 := h.state (.pcbPool j)
  have h2 := h.sleepCounter (.pcbPool j)
  rw [if_neg fun hm => hj (by simpa using (mem_wokenOf.1 hm).1)] at h1
  rw [if_neg fun hm => hj (by simpa using hm.1)] at h2
  unfold Wakes
  rw [h1, h2]

theorem Woke.wokenOf_eq (h : Woke [i] s s') (hi : i ∉ l) : wokenOf s' l = wokenOf s l := by
  unfold wokenOf
  congr 1
  refine List.filter_congr ?_
  intro j hj
  simp only [decide_eq_decide]
  exact h.wakes_iff fun he => hi (he ▸ hj)

theorem Woke.cons (h : Woke [i] s s₁) (hl : Woke l s₁ s') (hi : i ∉ l) : Woke (i :: l) s s' where
  running := hl.running.trans h.running
  memoryMap := hl.memoryMap.trans h.memoryMap
  readyHead := by
    rw [hl.readyHead, h.readyHead, h.wokenOf_eq hi, wokenOf_cons (l := l), List.head?_append,
      Option.or_assoc]
  name x := (hl.name x).trans (h.name x)
  segment x := (hl.segment x).trans (h.segment x)
  stackPointer x := (hl.stackPointer x).trans (h.stackPointer x)
  state x := by
    rw [hl.state, h.state, h.wokenOf_eq hi, wokenOf_cons (l := l)]
    by_cases h1 : x ∈ wokenOf s [i] <;> by_cases h2 : x ∈ wokenOf s l <;> simp [h1, h2]
  sleepCounter x := by
    rw [hl.sleepCounter, h.sleepCounter, h.state]
    by_cases hx : x = .pcbPool i
    · simp [hx, hi]
    · have hx' : x ∉ wokenOf s [i] := fun hm => hx (by
        obtain ⟨j, rfl⟩ := pool_of_mem_wokenOf hm
        simpa using (mem_wokenOf.1 hm).1)
      simp [hx, hx']

theorem foldlM_woke (hl : l.Nodup) (h : l.foldlM updateSleeper s = some s') : Woke l s s' := by
  induction l generalizing s with
  | nil =>
    cases h
    refine ⟨rfl, rfl, by simp [wokenOf], ?_, ?_, ?_, ?_, ?_⟩ <;> intro x <;> simp [wokenOf]
  | cons i l ih =>
    rw [List.foldlM_cons] at h
    simp only [Option.bind_eq_bind, Option.bind_eq_some_iff] at h
    obtain ⟨s₁, h1, h2⟩ := h
    obtain ⟨hi, hl⟩ := List.nodup_cons.1 hl
    exact (updateSleeper_woke h1).cons (ih hl h2) hi

theorem foldlM_awake (h : ∀ i, (s.pcb (.pcbPool i)).state ≠ .SLEEPING) (l : List (Fin 8)) :
    l.foldlM updateSleeper s = some s := by
  induction l with
  | nil => rfl
  | cons i l ih =>
    rw [List.foldlM_cons, updateSleeper_eq, if_neg fun hw => h i hw.1, if_neg (h i)]
    exact ih

/-- The loop over the sleepers appends those that wake to the queue. -/
theorem foldlM_queue (hP : QueueInv P) (h : P s q) (hl : l.Nodup)
    (hq : ∀ x ∈ wokenOf s l, x ∉ q) :
    ∃ s', l.foldlM updateSleeper s = some s' ∧ P s' (q ++ wokenOf s l) := by
  induction l generalizing s q with
  | nil => exact ⟨s, rfl, by simpa [wokenOf] using h⟩
  | cons i l ih =>
    obtain ⟨hi, hl⟩ := List.nodup_cons.1 hl
    rw [wokenOf_cons] at hq ⊢
    obtain ⟨s₁, h1, hP1⟩ : ∃ s₁, updateSleeper s i = some s₁ ∧ P s₁ (q ++ wokenOf s [i]) := by
      rw [updateSleeper_eq]
      by_cases hw : Wakes s i
      · have hwi : wokenOf s [i] = [.pcbPool i] := by simp [wokenOf, hw]
        have hiq : .pcbPool i ∉ q := hq _ (by simp [hwi])
        have h0 := hP.congr (hP.congr h (sameLinks_countDown s i)) (sameLinks_setState _ (.pcbPool i) .READY)
        obtain ⟨s₁, hs₁, -⟩ := (hP.queue h0).add hiq
        rw [if_pos hw, hwi]
        exact ⟨s₁, hs₁, hP.add h0 hiq hs₁⟩
      · have hwi : wokenOf s [i] = [] := by simp [wokenOf, hw]
        rw [if_neg hw, hwi, List.append_nil]
        split_ifs
        · exact ⟨_, rfl, hP.congr h (sameLinks_countDown s i)⟩
        · exact ⟨_, rfl, h⟩
    have hw := updateSleeper_woke h1
    have hd : ∀ x ∈ wokenOf s₁ l, x ∉ q ++ wokenOf s [i] := by
      rw [hw.wokenOf_eq hi]
      intro x hx hm
      rcases List.mem_append.1 hm with hm | hm
      · exact hq x (List.mem_append_right _ hx) hm
      · obtain ⟨j, rfl⟩ := pool_of_mem_wokenOf hx
        have hji : j = i := by simpa using (mem_wokenOf.1 hm).1
        exact hi (hji ▸ (mem_wokenOf.1 hx).1)
    obtain ⟨s', h2, hP2⟩ := ih hP1 hl hd
    refine ⟨s', ?_, by rw [← List.append_assoc, ← hw.wokenOf_eq hi]; exact hP2⟩
    rw [List.foldlM_cons, h1]
    exact h2

/-! ## The handler -/

/-- The running process, if the next tick puts it back on the queue. -/
def requeued (s : Proc) : List PCBRef :=
  if (s.pcb s.running).state ≠ .DEFUNCT ∧ (s.pcb s.running).namedIdle = false ∧
    ((s.pcb s.running).state ≠ .SLEEPING ∨ s.running ∈ woken s) then [s.running] else []

/-- The process the next tick dispatches: the head of the queue or, if it is
    empty, the first one that comes onto it. -/
def dispatched (s : Proc) : Option PCBRef :=
  (s.readyHead.toList ++ woken s ++ requeued s).head?

/-- What a tick does in any state, links apart. -/
structure Ticked (sp : Int16) (s s' : Proc) : Prop where
  running : s'.running = (dispatched s).getD .idleProc
  memoryMap : s'.memoryMap = s.memoryMap
  name : ∀ x, (s'.pcb x).name = (s.pcb x).name
  segment : ∀ x, (s'.pcb x).segment = (s.pcb x).segment
  stackPointer : ∀ x, (s'.pcb x).stackPointer =
    if x = s.running then sp else (s.pcb x).stackPointer
  state : ∀ x, (s'.pcb x).state = if dispatched s = some x then .RUNNING
    else if x ∈ woken s ++ requeued s then .READY else (s.pcb x).state
  sleepCounter : ∀ i, (s'.pcb (.pcbPool i)).sleepCounter =
    if (s.pcb (.pcbPool i)).state = .SLEEPING then (s.pcb (.pcbPool i)).sleepCounter - 1
    else (s.pcb (.pcbPool i)).sleepCounter

/-- Behind a tick, the process runs that it has dispatched. -/
theorem Ticked.running_iff (ht : Ticked sp s s') :
    s'.running = .pcbPool i ↔ dispatched s = some (.pcbPool i) := by
  rw [ht.running]
  rcases dispatched s with _ | x
  · simp
  · simp

/-- After a tick the running process is `RUNNING`. -/
theorem Ticked.active (ht : Ticked sp s s') (hi : s'.running = .pcbPool i) :
    (s'.pcb (.pcbPool i)).state = .RUNNING := by
  rw [ht.state, if_pos (ht.running_iff.1 hi)]

/-- `handleTimerInterrupt` behind the loop over the sleepers. -/
def switch (sp : Int16) (s : Proc) : Option ((Int16 × Int16) × Proc) := do
  let s := s.put s.running { s.pcb s.running with stackPointer := sp }
  let s ← requeueRunning s
  let (process, s) ← removeFromReady s
  let s := dispatch process s
  return (((s.pcb s.running).segment, (s.pcb s.running).stackPointer), s)

theorem handleTimerInterrupt_eq (seg sp : Int16) (s : Proc) : handleTimerInterrupt seg sp s =
    ((List.finRange 8).foldlM updateSleeper s).bind (switch sp) := rfl

/-- The running process, if `requeueRunning` puts it back. -/
def back (s : Proc) : List PCBRef := if Requeued s then [s.running] else []

/-- What happens behind the loop over the sleepers, links apart. -/
structure Switched (sp : Int16) (s s' : Proc) : Prop where
  running : s'.running = (s.readyHead.toList ++ back s).head?.getD .idleProc
  memoryMap : s'.memoryMap = s.memoryMap
  name : ∀ x, (s'.pcb x).name = (s.pcb x).name
  segment : ∀ x, (s'.pcb x).segment = (s.pcb x).segment
  stackPointer : ∀ x, (s'.pcb x).stackPointer =
    if x = s.running then sp else (s.pcb x).stackPointer
  state : ∀ x, (s'.pcb x).state =
    if (s.readyHead.toList ++ back s).head? = some x then .RUNNING
    else if x ∈ back s then .READY else (s.pcb x).state
  sleepCounter : ∀ x, (s'.pcb x).sleepCounter = (s.pcb x).sleepCounter

/-- The variables with the stack pointer of the running process saved. -/
def saveStack (sp : Int16) (s : Proc) : Proc :=
  s.put s.running { s.pcb s.running with stackPointer := sp }

theorem saveStack_pcb (sp : Int16) (s : Proc) (x : PCBRef) : (saveStack sp s).pcb x =
    { s.pcb x with stackPointer := if x = s.running then sp else (s.pcb x).stackPointer } := by
  unfold saveStack
  rw [Proc.put_pcb]
  split_ifs with h <;> simp [h]

theorem sameLinks_saveStack (sp : Int16) (s : Proc) : SameLinks s (saveStack sp s) :=
  ⟨rfl, rfl, fun x => by rw [saveStack_pcb], fun x => by rw [saveStack_pcb]⟩

theorem requeued_saveStack : Requeued (saveStack sp s) ↔ Requeued s := by
  unfold Requeued PCB.namedIdle
  have : (saveStack sp s).running = s.running := rfl
  rw [this, saveStack_pcb]

theorem setState_state (s : Proc) (p x : PCBRef) (st : PState) :
    ((s.setState p st).pcb x).state = if x = p then st else (s.pcb x).state := by
  simp only [Proc.setState, Proc.put_pcb]; split_ifs <;> rfl

theorem setState_core (s : Proc) (p x : PCBRef) (st : PState) :
    ((s.setState p st).pcb x).name = (s.pcb x).name ∧
    ((s.setState p st).pcb x).segment = (s.pcb x).segment ∧
    ((s.setState p st).pcb x).stackPointer = (s.pcb x).stackPointer ∧
    ((s.setState p st).pcb x).sleepCounter = (s.pcb x).sleepCounter := by
  simp only [Proc.setState, Proc.put_pcb]; split_ifs with h <;> simp [h]

theorem mem_back : x ∈ back s ↔ Requeued s ∧ x = s.running := by
  unfold back
  split_ifs with h <;> simp [h]

theorem requeueRunning_head (h : requeueRunning s = some s') :
    s'.readyHead = s.readyHead.or (back s).head? := by
  unfold requeueRunning at h
  unfold back
  split_ifs at h ⊢
  · have hh := addToReady_head h
    exact hh
  · cases h; simp

theorem requeueRunning_state (h : requeueRunning s = some s') (x : PCBRef) :
    (s'.pcb x).state = if x ∈ back s then .READY else (s.pcb x).state := by
  unfold requeueRunning at h
  simp only [mem_back]
  split_ifs at h with hr
  · rw [(addToReady_frame h).state, setState_state]; simp [hr]
  · cases h; simp [hr]

theorem requeueRunning_core (h : requeueRunning s = some s') :
    s'.running = s.running ∧ s'.memoryMap = s.memoryMap ∧ ∀ x, (s'.pcb x).name = (s.pcb x).name ∧
      (s'.pcb x).segment = (s.pcb x).segment ∧ (s'.pcb x).stackPointer = (s.pcb x).stackPointer ∧
      (s'.pcb x).sleepCounter = (s.pcb x).sleepCounter := by
  unfold requeueRunning at h
  split_ifs at h
  · have hf := addToReady_frame h
    refine ⟨hf.running, hf.memoryMap, ?_⟩
    intro x
    rw [hf.name, hf.segment, hf.stackPointer, hf.sleepCounter]
    exact setState_core s _ x _
  · cases h
    exact ⟨rfl, rfl, fun x => ⟨rfl, rfl, rfl, rfl⟩⟩

/-- `dispatch` changes the running process and its state. -/
theorem dispatch_spec (d : Option PCBRef) (s : Proc) : (dispatch d s).running = d.getD .idleProc ∧
    (dispatch d s).memoryMap = s.memoryMap ∧ ∀ x,
      ((dispatch d s).pcb x).state = (if d = some x then .RUNNING else (s.pcb x).state) ∧
      ((dispatch d s).pcb x).name = (s.pcb x).name ∧
      ((dispatch d s).pcb x).segment = (s.pcb x).segment ∧
      ((dispatch d s).pcb x).stackPointer = (s.pcb x).stackPointer ∧
      ((dispatch d s).pcb x).sleepCounter = (s.pcb x).sleepCounter := by
  cases d with
  | none => exact ⟨rfl, rfl, fun x => ⟨by simp [dispatch], rfl, rfl, rfl, rfl⟩⟩
  | some p =>
    refine ⟨rfl, rfl, fun x => ⟨?_, setState_core s p x .RUNNING⟩⟩
    have := setState_state s p x .RUNNING
    simpa [dispatch, eq_comm] using this

theorem sameLinks_dispatch (d : Option PCBRef) (s : Proc) : SameLinks s (dispatch d s) := by
  cases d with
  | none => exact ⟨rfl, rfl, fun _ => rfl, fun _ => rfl⟩
  | some p =>
    have h := sameLinks_setState s p .RUNNING
    exact ⟨h.readyHead, h.readyTail, h.next, h.prev⟩

theorem back_saveStack : back (saveStack sp s) = back s := by
  unfold back
  simp only [requeued_saveStack]
  rfl

theorem toList_append_head? (o : Option PCBRef) (l : List PCBRef) :
    (o.toList ++ l).head? = o.or l.head? := by
  cases o <;> simp

theorem switch_switched {r : Int16 × Int16} (h : switch sp s = some (r, s')) :
    r = ((s'.pcb s'.running).segment, (s'.pcb s'.running).stackPointer) ∧ Switched sp s s' := by
  unfold switch at h
  simp only [Option.bind_eq_bind, Option.bind_eq_some_iff, Option.pure_def, Option.some.injEq,
    Prod.mk.injEq, Prod.exists] at h
  obtain ⟨s₂, h2, d, s₃, h3, rfl, rfl⟩ := h
  change requeueRunning (saveStack sp s) = some s₂ at h2
  obtain ⟨hr2, hm2, hc2⟩ := requeueRunning_core h2
  have hs2 := requeueRunning_state h2
  have hh2 := requeueRunning_head h2
  rw [back_saveStack] at hh2
  simp only [back_saveStack] at hs2
  obtain ⟨f3, hd⟩ := removeFromReady_frame h3
  have hd' : d = (s.readyHead.toList ++ back s).head? := by
    rw [hd, hh2, toList_append_head?]; rfl
  obtain ⟨hr, hm, hc⟩ := dispatch_spec d s₃
  refine ⟨rfl, by rw [hr, hd'], ?_, ?_, ?_, ?_, ?_, ?_⟩
  · rw [hm, f3.memoryMap, hm2]; rfl
  · intro x
    rw [(hc x).2.1, f3.name, (hc2 x).1, saveStack_pcb]
  · intro x
    rw [(hc x).2.2.1, f3.segment, (hc2 x).2.1, saveStack_pcb]
  · intro x
    rw [(hc x).2.2.2.1, f3.stackPointer, (hc2 x).2.2.1, saveStack_pcb]
  · intro x
    rw [(hc x).1, f3.state, hs2, saveStack_pcb, hd']
  · intro x
    rw [(hc x).2.2.2.2, f3.sleepCounter, (hc2 x).2.2.2, saveStack_pcb]

theorem Woke.back_eq (h : Woke (List.finRange 8) s s₁) : back s₁ = requeued s := by
  have hn : (s₁.pcb s.running).namedIdle = (s.pcb s.running).namedIdle := by
    unfold PCB.namedIdle; rw [h.name]
  unfold back requeued
  congr 1
  · simp only [Requeued, h.running, hn, h.state, eq_iff_iff]
    change _ ↔ _ ∧ _ ∧ (_ ∨ s.running ∈ wokenOf s _)
    split_ifs with hw
    · simp [hw, sleeping_of_mem_woken hw]
    · simp [hw]
  · rw [h.running]

/-- **What a tick does**, in any state in which it does not fail. -/
theorem handleTimerInterrupt_ticked {r : Int16 × Int16}
    (h : handleTimerInterrupt seg sp s = some (r, s')) :
    r = ((s'.pcb s'.running).segment, (s'.pcb s'.running).stackPointer) ∧ Ticked sp s s' := by
  rw [handleTimerInterrupt_eq] at h
  simp only [Option.bind_eq_some_iff] at h
  obtain ⟨s₁, h1, h2⟩ := h
  have hw := foldlM_woke (List.nodup_finRange 8) h1
  obtain ⟨hr, ht⟩ := switch_switched h2
  have hd : (s₁.readyHead.toList ++ back s₁).head? = dispatched s := by
    unfold dispatched
    rw [hw.readyHead, hw.back_eq, List.append_assoc, toList_append_head?, toList_append_head?,
      List.head?_append, Option.or_assoc]
    rfl
  refine ⟨hr, by rw [ht.running, hd], by rw [ht.memoryMap, hw.memoryMap],
    fun x => by rw [ht.name, hw.name], fun x => by rw [ht.segment, hw.segment],
    fun x => by rw [ht.stackPointer, hw.stackPointer, hw.running], ?_, ?_⟩
  · intro x
    rw [ht.state, hd, hw.state, hw.back_eq]
    change _ = if _ then _ else if x ∈ wokenOf s _ ++ requeued s then _ else _
    by_cases h1 : x ∈ wokenOf s (List.finRange 8) <;> by_cases h2 : x ∈ requeued s <;> simp [h1, h2]
  · intro i
    rw [ht.sleepCounter, hw.sleepCounter]
    simp

theorem mem_requeued : x ∈ requeued s ↔ ((s.pcb s.running).state ≠ .DEFUNCT ∧
    (s.pcb s.running).namedIdle = false ∧
    ((s.pcb s.running).state ≠ .SLEEPING ∨ s.running ∈ woken s)) ∧ x = s.running := by
  unfold requeued
  split_ifs with h <;> simp [h]

/-- Who is dispatched: the head, a sleeper that wakes, or the running process. -/
theorem dispatched_cases (h : dispatched s = some x) :
    s.readyHead = some x ∨ s.readyHead = none ∧ (x ∈ woken s ∨ x ∈ requeued s) := by
  unfold dispatched at h
  rcases hh : s.readyHead with _ | y
  · rw [hh] at h
    have hm := List.mem_of_mem_head? h
    simp only [Option.toList_none, List.nil_append, List.mem_append] at hm
    exact .inr ⟨rfl, hm⟩
  · rw [hh] at h
    exact .inl (by simpa using h)

/-- A tick revives nobody but the head of the queue. -/
theorem Ticked.live (h : Ticked sp s s') (hx : (s'.pcb x).state ≠ .DEFUNCT) :
    (s.pcb x).state ≠ .DEFUNCT ∨ s.readyHead = some x := by
  have hlive : x ∈ woken s ∨ x ∈ requeued s → (s.pcb x).state ≠ .DEFUNCT := by
    rintro (hw | hr)
    · rw [sleeping_of_mem_woken hw]; decide
    · obtain ⟨⟨h1, -, -⟩, rfl⟩ := mem_requeued.1 hr
      exact h1
  rw [h.state] at hx
  split_ifs at hx with hd hm
  · rcases dispatched_cases hd with hh | ⟨-, hh⟩
    · exact .inr hh
    · exact .inl (hlive hh)
  · exact .inl (hlive (List.mem_append.1 hm))
  · exact .inl hx

/-! ## Lying down -/

theorem lieDown_pcb (seconds : Int16) (s : Proc) (x : PCBRef) : (lieDown seconds s).pcb x =
    if x = s.running then { s.pcb x with state := .SLEEPING, sleepCounter := seconds * 125 }
    else s.pcb x := by
  unfold lieDown
  rw [Proc.put_pcb]
  split_ifs with hx
  · rw [hx]
  · rfl

theorem sameLinks_lieDown (seconds : Int16) (s : Proc) : SameLinks s (lieDown seconds s) :=
  ⟨rfl, rfl, fun x => by rw [lieDown_pcb]; split_ifs <;> rfl,
    fun x => by rw [lieDown_pcb]; split_ifs <;> rfl⟩

/-! ## The queue of a tick -/

theorem requeueRunning_queue (hP : QueueInv P) (h : P s q)
    (hb : ∀ x ∈ back s, x ∉ q ∧ x ≠ .idleProc) :
    ∃ s', requeueRunning s = some s' ∧ P s' (q ++ back s) := by
  unfold requeueRunning
  by_cases hr : Requeued s
  · have hbs : back s = [s.running] := if_pos hr
    obtain ⟨hq, hi⟩ := hb s.running (by simp [hbs])
    rw [if_pos hr, hbs]
    rcases hp : s.running with _ | i
    · exact absurd hp hi
    · rw [hp] at hq
      have h0 := hP.congr h (sameLinks_setState s (.pcbPool i) .READY)
      obtain ⟨s', hs', -⟩ := (hP.queue h0).add hq
      exact ⟨s', hs', hP.add h0 hq hs'⟩
  · have hbs : back s = [] := if_neg hr
    rw [if_neg hr, hbs, List.append_nil]
    exact ⟨s, rfl, h⟩

theorem removeFromReady_queue (hP : QueueInv P) (h : P s q) :
    ∃ s', removeFromReady s = some (q.head?, s') ∧ P s' q.tail := by
  cases q with
  | nil => exact ⟨s, removeFromReady_nil (hP.queue h), h⟩
  | cons a q =>
    obtain ⟨s', hs', -⟩ := (hP.queue h).remove
    exact ⟨s', hs', hP.remove h hs'⟩

/-- Behind `requeueRunning` the head of the queue is removed and dispatched. -/
theorem switch_of_requeue (hP : QueueInv P) (h1 : requeueRunning (saveStack sp s) = some s₁) (h : P s₁ q) :
    ∃ r s', switch sp s = some (r, s') ∧ P s' q.tail := by
  obtain ⟨s₂, h2, hP2⟩ := removeFromReady_queue hP h
  have hs : switch sp s = some (let s' := dispatch q.head? s₂
      (((s'.pcb s'.running).segment, (s'.pcb s'.running).stackPointer), s')) := by
    change ((requeueRunning (saveStack sp s)).bind fun s => (removeFromReady s).bind _) = _
    rw [h1, Option.bind_some, h2]
    rfl
  exact ⟨_, _, hs, hP.congr hP2 (sameLinks_dispatch _ s₂)⟩

theorem switch_queue (hP : QueueInv P) (h : P s q) (hb : ∀ x ∈ back s, x ∉ q ∧ x ≠ .idleProc)
    (sp : Int16) : ∃ r s', switch sp s = some (r, s') ∧ P s' (q ++ back s).tail := by
  have h0 := hP.congr h (sameLinks_saveStack sp s)
  obtain ⟨s₁, h1, hP1⟩ := requeueRunning_queue hP h0 (by rw [back_saveStack]; exact hb)
  rw [back_saveStack] at hP1
  exact switch_of_requeue hP h1 hP1

/-- **A tick on a queue** does not fail, and leaves the lineup without the
    process it dispatches. -/
theorem tick_queue (hP : QueueInv P) (h : P s q) (hw : ∀ x ∈ woken s, x ∉ q)
    (hr : ∀ x ∈ requeued s, x ∉ q ++ woken s ∧ x ≠ .idleProc) (seg sp : Int16) :
    ∃ r s', handleTimerInterrupt seg sp s = some (r, s') ∧
      P s' (q ++ woken s ++ requeued s).tail := by
  obtain ⟨s₁, h1, hP1⟩ := foldlM_queue hP h (List.nodup_finRange 8) hw
  have hb := (foldlM_woke (List.nodup_finRange 8) h1).back_eq
  obtain ⟨r, s', h2, hP2⟩ := switch_queue hP hP1 (by rw [hb]; exact hr) sp
  refine ⟨r, s', ?_, by rw [hb] at hP2; exact hP2⟩
  rw [handleTimerInterrupt_eq, h1]
  exact h2

theorem Queue.dispatched_eq (h : Queue s q) :
    dispatched s = (q ++ woken s ++ requeued s).head? := by
  unfold dispatched
  rw [h.head]
  cases q <;> simp

end TeamXtremeOS
