/-
  Preemption of `executeProgram`: a process is not dispatched before its stack
  image exists, unless the timer comes between `addToReady` and
  `initializeProgram`.
-/
import TeamXtremeOS.Lib.Run
import TeamXtremeOS.Preempt
import TeamXtremeOS.Proof.ReadyQueue

namespace TeamXtremeOS

open Lib

variable {k : Kernel} {m m' : Calls} {e : CallEvent} {es : List CallEvent} {p : Fin 8}
  {q : List PCBRef} {x : PCBRef} {st : Stage} {name : FileName} {seg sp : Int16}

/-- The PCB a call has obtained and not yet put on the ready queue. -/
def Stage.held : Stage → Option (Fin 8)
  | .fillPCB _ _ p | .addToReady _ p => some p
  | _ => none

/-- The PCB a call has put on the ready queue without its stack image. -/
def Stage.late : Stage → Option (Fin 8)
  | .initializeProgram _ p => some p
  | _ => none

/-- The timer does not come between `addToReady` and `initializeProgram`. -/
def ImageFirst (m : Calls) : CallEvent → Prop
  | .timer _ => m.current.late = none
  | _ => True

instance : ∀ (m : Calls) (e : CallEvent), Decidable (ImageFirst m e)
  | m, .timer _ => inferInstanceAs (Decidable (m.current.late = none))
  | _, .call _ | _, .advance => inferInstanceAs (Decidable True)

/-- The process has run, or its call has made its stack image. -/
def Calls.Fit (m : Calls) (p : Fin 8) : Prop :=
  m.ran p = true ∨ m.image p = some (m.kernel.pcb (.pcbPool p)).segment

theorem Calls.held_update (hst : st.held = m.current.held) (x : PCBRef) :
    (Function.update m.stage m.kernel.running st x).held = (m.stage x).held := by
  rw [Function.update_apply]
  split_ifs with hx
  · rw [hst, hx, Calls.current]
  · rfl

/-- What holds along a run in which no image comes late. -/
structure CallsInv (m : Calls) (q : List PCBRef) : Prop where
  queue : ReadyQueue Queue m.kernel.toProc q
  fit : ∀ p, .pcbPool p ∈ q → m.Fit p ∨ m.current.late = some p
  active : ∀ p, m.kernel.running = .pcbPool p →
    (m.kernel.pcb (.pcbPool p)).state = .RUNNING ∧ m.ran p = true
  awake : ∀ p, (m.kernel.pcb (.pcbPool p)).state ≠ .SLEEPING
  held : ∀ x p, (m.stage x).held = some p → (m.kernel.pcb (.pcbPool p)).state = .STARTING ∧
    .pcbPool p ∉ q ∧ ∀ y, (m.stage y).held = some p → y = x
  filled : ∀ x seg p, m.stage x = .addToReady seg p → (m.kernel.pcb (.pcbPool p)).segment = seg
  late : ∀ x seg p, m.stage x = .initializeProgram seg p →
    x = m.kernel.running ∧ (m.kernel.pcb (.pcbPool p)).segment = seg

namespace CallsInv

/-- The running process does not hold a PCB that is on the queue or running. -/
theorem running_ne_held (h : CallsInv m q) (hp : (m.stage x).held = some p) :
    m.kernel.running ≠ .pcbPool p := fun hr => by
  have h1 := (h.active p hr).1
  rw [(h.held x p hp).1] at h1
  cases h1

theorem notLate (h : CallsInv m q) (hst : st.late = none) :
    Function.update m.stage m.kernel.running st x ≠ .initializeProgram seg p := by
  rw [Function.update_apply]
  split_ifs with hx
  · rintro rfl
    cases hst
  · exact fun hl => hx (h.late x seg p hl).1

/-! ## The steps of a call -/

/-- A step that changes neither the PCBs nor the queue. -/
theorem quiet (h : CallsInv m q) (hk : k.toProc = { m.kernel.toProc with memoryMap := k.memoryMap })
    (hc : m.current.late = none) (hc' : m.current.held = none) (hl : st.late = none)
    (hh : st.held = none) :
    CallsInv { m with kernel := k, stage := Function.update m.stage m.kernel.running st } q := by
  obtain ⟨s, d, mem⟩ := k
  simp only at hk
  refine ⟨?_, fun p hp => .inl ?_, ?_, ?_, ?_, ?_, fun y seg p hy => absurd hy (h.notLate hl)⟩
  · rw [hk]
    exact h.queue.congr queueInv_queue ⟨rfl, rfl, fun _ => rfl, fun _ => rfl⟩ rfl (fun _ _ => rfl) rfl
  · have hf := (h.fit p hp).resolve_right (by rw [hc]; simp)
    rw [Calls.Fit, hk]
    exact hf
  · intro p hr
    rw [hk] at hr ⊢
    exact h.active p hr
  · intro p
    rw [hk]
    exact h.awake p
  · intro y p hy
    simp only [Calls.held_update (hh.trans hc'.symm)] at hy ⊢
    rw [hk]
    exact h.held y p hy
  · intro y seg p hy
    rw [hk]
    refine h.filled y seg p ?_
    simp only [Function.update_apply] at hy
    split_ifs at hy
    · rw [hy] at hh
      cases hh
    · exact hy

/-- `getFreePCB` returns a PCB. -/
theorem getFreePCB (h : CallsInv m q) (hc : m.current = .getFreePCB name seg)
    (hp : freePCB m.kernel.toProc = some p) : CallsInv { m with
      kernel := { m.kernel with toProc := m.kernel.setState (.pcbPool p) .STARTING }
      stage := Function.update m.stage m.kernel.running (.fillPCB name seg p)
      ran := Function.update m.ran p false
      image := Function.update m.image p none } q := by
  have hd := freePCB_defunct hp
  have hpq : .pcbPool p ∉ q := h.queue.notMem (by rw [hd]; decide)
  have hrun : m.kernel.running ≠ .pcbPool p := fun hr => by
    have h1 := (h.active p hr).1
    rw [hd] at h1
    cases h1
  have hnew : ∀ y, (m.stage y).held ≠ some p := fun y hy => by
    have h1 := (h.held y p hy).1
    rw [hd] at h1
    cases h1
  have hstate := fun x => setState_state m.kernel.toProc (.pcbPool p) x .STARTING
  have hcore := fun x => setState_core m.kernel.toProc (.pcbPool p) x .STARTING
  refine ⟨?_, fun j hj => .inl ?_, ?_, ?_, ?_, ?_, fun y seg j hy => absurd hy (h.notLate rfl)⟩
  · refine h.queue.congr queueInv_queue (sameLinks_setState _ _ _) rfl ?_ (hcore _).1
    intro x hx
    have hne : x ≠ .pcbPool p := fun he => hpq (he ▸ hx)
    rw [hstate, if_neg hne]
  · have hne : j ≠ p := fun he => hpq (he ▸ hj)
    have hf := (h.fit j hj).resolve_right (by rw [hc]; simp [Stage.late])
    simp only [Calls.Fit, Function.update_of_ne hne, (hcore _).2.1]
    exact hf
  · intro j hr
    have hne : j ≠ p := fun he => hrun (he ▸ hr)
    simp only [hstate, Function.update_of_ne hne, PCBRef.pcbPool.injEq, if_neg hne]
    exact h.active j hr
  · intro j
    simp only [hstate]
    split_ifs
    · decide
    · exact h.awake j
  · intro y j hy
    simp only [hstate, Function.update_apply] at hy ⊢
    split_ifs at hy with hyr
    · cases hy
      refine ⟨if_pos rfl, hpq, ?_⟩
      intro z hz
      split_ifs at hz with hzr
      · exact hzr.trans hyr.symm
      · exact absurd hz (hnew z)
    · have hne : j ≠ p := fun he => hnew y (he ▸ hy)
      obtain ⟨h1, h2, h3⟩ := h.held y j hy
      refine ⟨by rwa [if_neg (by simpa using hne)], h2, ?_⟩
      intro z hz
      split_ifs at hz
      · cases hz
        exact absurd rfl hne
      · exact h3 z hz
  · intro y seg j hy
    simp only [(hcore _).2.1]
    simp only [Function.update_apply] at hy
    split_ifs at hy
    exact h.filled y seg j hy

theorem fillPCB (h : CallsInv m q) (hc : m.current = .fillPCB name seg p) : CallsInv { m with
      kernel := { m.kernel with toProc := fillPCB (.pcbPool p) name seg m.kernel.toProc }
      stage := Function.update m.stage m.kernel.running (.addToReady seg p) } q := by
  have hheld : (m.stage m.kernel.running).held = some p := by rw [Calls.current] at hc; rw [hc]; rfl
  obtain ⟨hst, hpq, huniq⟩ := h.held _ _ hheld
  have hrun := h.running_ne_held hheld
  have hother : ∀ x, x ≠ .pcbPool p →
      (TeamXtremeOS.fillPCB (.pcbPool p) name seg m.kernel.toProc).pcb x = m.kernel.pcb x :=
    fun x hx => by rw [TeamXtremeOS.fillPCB, Proc.put_pcb, if_neg hx]
  have hstate : ∀ x, ((TeamXtremeOS.fillPCB (.pcbPool p) name seg m.kernel.toProc).pcb x).state =
      (m.kernel.pcb x).state := fun x => by
    by_cases hx : x = .pcbPool p
    · rw [hx, hst, TeamXtremeOS.fillPCB, Proc.put_pcb, if_pos rfl]
    · rw [hother x hx]
  refine ⟨?_, fun j hj => .inl ?_, ?_, ?_, ?_, ?_, fun y seg j hy => absurd hy (h.notLate rfl)⟩
  · refine h.queue.congr queueInv_queue ?_ rfl (fun x _ => hstate x) ?_
    · refine ⟨rfl, rfl, fun x => ?_, fun x => ?_⟩ <;>
        (simp only [TeamXtremeOS.fillPCB, Proc.put_pcb]; split_ifs with hx <;> simp [hx])
    · rw [hother _ (by simp)]
  · have hne : j ≠ p := fun he => hpq (he ▸ hj)
    have hf := (h.fit j hj).resolve_right (by rw [hc]; simp [Stage.late])
    simp only [Calls.Fit, hother _ (fun he => hne (pcbPool_injective he))]
    exact hf
  · intro j hr
    simp only [hstate]
    exact h.active j hr
  · intro j
    simp only [hstate]
    exact h.awake j
  · intro y j hy
    have hsame : (Stage.addToReady seg p).held = m.current.held := by rw [hc]; rfl
    simp only [Calls.held_update hsame, hstate] at hy ⊢
    exact h.held y j hy
  · intro y seg' j hy
    simp only [Function.update_apply] at hy
    split_ifs at hy with hyr
    · cases hy
      simp only [TeamXtremeOS.fillPCB, Proc.put_pcb, if_true]
    · have hne : j ≠ p := fun he => hyr (huniq y (by rw [hy, he]; rfl))
      simp only [hother _ (fun he => hne (pcbPool_injective he))]
      exact h.filled y seg' j hy

theorem addToReady {s' : Proc} (h : CallsInv m q) (hc : m.current = .addToReady seg p)
    (ha : addToReady (.pcbPool p) m.kernel.toProc = some s') : CallsInv { m with
      kernel := { m.kernel with toProc := s' }
      stage := Function.update m.stage m.kernel.running (.initializeProgram seg p) }
    (q ++ [.pcbPool p]) := by
  rw [Calls.current] at hc
  have hheld : (m.stage m.kernel.running).held = some p := by rw [hc]; rfl
  obtain ⟨hst, hpq, huniq⟩ := h.held _ _ hheld
  have hrun := h.running_ne_held hheld
  have hf := addToReady_frame ha
  refine ⟨h.queue.add queueInv_queue hpq hst hrun ha, ?_, ?_, ?_, ?_, ?_, ?_⟩
  · intro j hj
    rcases List.mem_append.1 hj with hj | hj
    · left
      have hfit := (h.fit j hj).resolve_right (by rw [Calls.current, hc]; simp [Stage.late])
      simp only [Calls.Fit, hf.segment]
      exact hfit
    · right
      simp only [Calls.current, hf.running, Function.update_self, Stage.late]
      rw [pcbPool_injective (List.mem_singleton.1 hj)]
  · intro j hr
    simp only [hf.running, hf.state] at hr ⊢
    exact h.active j hr
  · intro j
    simp only [hf.state]
    exact h.awake j
  · intro y j hy
    simp only [Function.update_apply] at hy ⊢
    split_ifs at hy with hyr
    · cases hy
    · obtain ⟨h1, h2, h3⟩ := h.held y j hy
      have hne : j ≠ p := fun he => hyr (huniq y (he ▸ hy))
      refine ⟨by rwa [hf.state], by simp [h2, hne], ?_⟩
      intro z hz
      split_ifs at hz
      · cases hz
      · exact h3 z hz
  · intro y seg' j hy
    simp only [hf.segment]
    simp only [Function.update_apply] at hy
    split_ifs at hy
    exact h.filled y seg' j hy
  · intro y seg' j hy
    simp only [hf.segment, hf.running]
    simp only [Function.update_apply] at hy
    split_ifs at hy with hyr
    · cases hy
      exact ⟨hyr, h.filled _ _ _ hc⟩
    · exact h.late y seg' j hy

theorem initializeProgram {mem : Int16 → UInt16 → UInt8} (h : CallsInv m q)
    (hc : m.current = .initializeProgram seg p) : CallsInv { m with
      kernel := { m.kernel with mem := mem }
      stage := Function.update m.stage m.kernel.running .user
      image := Function.update m.image p (some seg) } q := by
  refine ⟨h.queue, fun j hj => .inl ?_, h.active, h.awake, ?_, ?_,
    fun y seg j hy => absurd hy (h.notLate rfl)⟩
  · by_cases hne : j = p
    · rw [hne]
      exact .inr (by simp only [Function.update_self, (h.late _ _ _ hc).2])
    · have hf := (h.fit j hj).resolve_right (by rw [hc]; simpa [Stage.late] using Ne.symm hne)
      simp only [Calls.Fit, Function.update_of_ne hne]
      exact hf
  · intro y j hy
    have hsame : Stage.user.held = m.current.held := by rw [hc]; rfl
    simp only [Calls.held_update hsame] at hy ⊢
    exact h.held y j hy
  · intro y seg' j hy
    simp only [Function.update_apply] at hy
    split_ifs at hy
    exact h.filled y seg' j hy

/-- **A step of a call.** -/
theorem advance (h : CallsInv m q) (hs : m.advance = some m') : ∃ q', CallsInv m' q' := by
  simp only [Calls.advance, Option.map_eq_some_iff] at hs
  obtain ⟨⟨st, k⟩, hk, rfl⟩ := hs
  cases hc : m.current with
  | user =>
    rw [hc] at hk
    cases hk
    exact ⟨q, h.quiet rfl (by rw [hc]; rfl) (by rw [hc]; rfl) rfl rfl⟩
  | readFile name =>
    rw [hc, Stage.advance] at hk
    split at hk
    · cases hk
    · split_ifs at hk <;> cases hk <;>
        exact ⟨q, h.quiet rfl (by rw [hc]; rfl) (by rw [hc]; rfl) rfl rfl⟩
  | getFreeMemorySegment name found buf =>
    rw [hc, Stage.advance] at hk
    rcases getFreeMemorySegment_spec m.kernel.toProc with hg | ⟨i, -, hg⟩ <;>
      (rw [hg] at hk; cases hk; exact ⟨q, h.quiet rfl (by rw [hc]; rfl) (by rw [hc]; rfl) rfl rfl⟩)
  | load name found buf seg =>
    rw [hc] at hk
    cases hk
    exact ⟨q, h.quiet rfl (by rw [hc]; rfl) (by rw [hc]; rfl) rfl rfl⟩
  | getFreePCB name seg =>
    rw [hc, Stage.advance, TeamXtremeOS.getFreePCB] at hk
    rcases hp : freePCB m.kernel.toProc with _ | p
    · simp only [hp] at hk
      cases hk
      exact ⟨q, h.quiet rfl (by rw [hc]; rfl) (by rw [hc]; rfl) rfl rfl⟩
    · simp only [hp] at hk
      cases hk
      exact ⟨q, h.getFreePCB hc hp⟩
  | fillPCB name seg p =>
    rw [hc] at hk
    cases hk
    exact ⟨q, h.fillPCB hc⟩
  | addToReady seg p =>
    rw [hc, Stage.advance, Option.map_eq_some_iff] at hk
    obtain ⟨s', ha, hk⟩ := hk
    cases hk
    exact ⟨_, h.addToReady hc ha⟩
  | initializeProgram seg p =>
    rw [hc] at hk
    cases hk
    exact ⟨q, h.initializeProgram hc⟩

/-! ## The timer -/

theorem lineup_fit (h : CallsInv m q) (hl : m.current.late = none)
    (hp : .pcbPool p ∈ q ++ woken m.kernel.toProc ++ requeued m.kernel.toProc) : m.Fit p := by
  rw [woken_awake h.awake, List.append_nil] at hp
  rcases List.mem_append.1 hp with hp | hp
  · exact (h.fit p hp).resolve_right (by rw [hl]; simp)
  · exact .inl (h.active p (mem_requeued.1 hp).2.symm).2

theorem held_notMem_lineup (h : CallsInv m q) (hp : (m.stage x).held = some p) :
    .pcbPool p ∉ q ++ woken m.kernel.toProc ++ requeued m.kernel.toProc := by
  rw [woken_awake h.awake, List.append_nil, List.mem_append]
  rintro (hm | hm)
  · exact (h.held x p hp).2.1 hm
  · exact h.running_ne_held hp (mem_requeued.1 hm).2.symm

/-- **A tick** dispatches a process that has run or has its stack image. -/
theorem timer (h : CallsInv m q) (hl : m.current.late = none) (hs : m.timer sp = some m') :
    (∀ p, m'.kernel.running = .pcbPool p → m.Fit p) ∧ ∃ q', CallsInv m' q' := by
  have hw : woken m.kernel.toProc = [] := woken_awake h.awake
  obtain ⟨r, s', ht, htk, hq'⟩ := h.queue.tick queueInv_queue (by rw [hw]; simp)
    (stackSegment m.kernel.toProc) sp
  simp only [Calls.timer, ht, Option.map_some, Option.some.injEq] at hs
  subst hs
  have hd := h.queue.queue.dispatched_eq
  have hdm : ∀ {x}, dispatched m.kernel.toProc = some x →
      x ∈ q ++ woken m.kernel.toProc ++ requeued m.kernel.toProc :=
    fun hx => List.mem_of_mem_head? (hd ▸ hx)
  have hrun : ∀ {j}, s'.running = .pcbPool j → dispatched m.kernel.toProc = some (.pcbPool j) := by
    intro j hj
    rw [htk.running] at hj
    rcases hx : dispatched m.kernel.toProc with _ | x
    · rw [hx] at hj; cases hj
    · rw [hx] at hj; rw [← hj]; rfl
  refine ⟨fun p hp => h.lineup_fit hl (hdm (hrun hp)), _, hq', fun j hj => .inl ?_, ?_, ?_, ?_, ?_, ?_⟩
  · rcases h.lineup_fit hl (List.mem_of_mem_tail hj) with hf | hf
    · exact .inl (by simp [hf])
    · exact .inr (by simpa only [htk.segment] using hf)
  · intro j hr
    have hd' := hrun hr
    have hr' : s'.running = .pcbPool j := hr
    exact ⟨by rw [htk.state, if_pos hd'], by simp [hr']⟩
  · intro j
    rw [htk.state]
    split_ifs
    · decide
    · decide
    · exact h.awake j
  · intro y j hy
    obtain ⟨h1, -, h3⟩ := h.held y j hy
    have hno := h.held_notMem_lineup hy
    refine ⟨?_, fun hm => hno (List.mem_of_mem_tail hm), h3⟩
    rw [htk.state, if_neg fun he => hno (hdm he), if_neg fun hm => hno ?_]
    · exact h1
    · rw [List.append_assoc]
      exact List.mem_append_right _ hm
  · intro y seg j hy
    rw [htk.segment]
    exact h.filled y seg j hy
  · intro y seg j hy
    -- Only the running process may be late, and it is not.
    have hy' := (h.late y seg j hy).1
    rw [Calls.current, ← hy', hy] at hl
    cases hl

theorem step (h : CallsInv m q) (hok : m.MayHappen e) (hi : ImageFirst m e)
    (hs : m.step e = some m') : ∃ q', CallsInv m' q' := by
  cases e with
  | call name =>
    cases hs
    have hc : m.current = .user := by
      have hc : m.current.inCall = false := hok
      cases hcur : m.current with
      | user => rfl
      | _ => rw [hcur] at hc; cases hc
    exact ⟨q, h.quiet rfl (by rw [hc]; rfl) (by rw [hc]; rfl) rfl rfl⟩
  | advance => exact h.advance hs
  | timer sp => exact (h.timer hi hs).2

end CallsInv

theorem callsInv_init (k : Kernel) : CallsInv (Calls.init k) [] := by
  have hb := initializeProcStructures_booted k.toProc
  refine ⟨hb.readyQueue hb.queue, fun p hp => (by cases hp), ?_, ?_,
    fun x p hx => (by cases hx), fun x seg p hx => (by cases hx), fun x seg p hx => (by cases hx)⟩
  · intro p hr
    cases hb.running.symm.trans hr
  · intro p
    change ((initializeProcStructures k.toProc).pcb _).state ≠ _
    rw [hb.defunct]
    decide

/-- **A process that has never run is dispatched only when `initializeProgram`
    has been executed for its segment**, in every interleaving in which the timer
    does not come between `addToReady` and `initializeProgram`. -/
theorem preempt_run (h : Run Calls.step (fun m e => m.MayHappen e ∧ ImageFirst m e) (Calls.init k) es m)
    (hi : ImageFirst m (.timer sp)) (hs : m.step (.timer sp) = some m')
    (hp : m'.kernel.running = .pcbPool p) (hr : m.ran p = false) :
    m.image p = some (m.kernel.pcb (.pcbPool p)).segment := by
  obtain ⟨q, hI⟩ : ∃ q, CallsInv m q :=
    h.invariant (I := fun m => ∃ q, CallsInv m q) (fun _ _ _ ⟨_, hI⟩ hok hs => hI.step hok.1 hok.2 hs)
      ⟨[], callsInv_init k⟩
  exact ((hI.timer hi hs).1 p hp).resolve_left (by simp [hr])

/-- `main` starts a process, and is interrupted in its second call, when this has
    taken PCB 1.  The process starts one too, and is interrupted when it has
    loaded the program.  Its process, in PCB 2, is dispatched while the call of
    `main` is still under way. -/
theorem preempt_run_two : ∃ m : Calls, (m.ran 0 = true ∧ m.ran 2 = false) ∧
    (m.stage .idleProc).held = some 1 ∧ m.image 2 = some (m.kernel.pcb (.pcbPool 2)).segment := by
  have h : (evalRun Calls.step (fun m e => m.MayHappen e ∧ ImageFirst m e) (Calls.init oneFileKernel)
      ((.call nameA :: List.replicate 7 .advance) ++ (.call nameA :: List.replicate 4 .advance) ++
        (.timer 7 :: .call nameA :: List.replicate 3 .advance) ++ (.timer 8 :: List.replicate 4 .advance))).any
      (fun m => m.current.late = none ∧ (m.ran 0 = true ∧ m.ran 2 = false) ∧
        (m.stage .idleProc).held = some 1 ∧
        (m.step (.timer 9)).any fun m' => m'.kernel.running = .pcbPool 2) = true := by
    decide +kernel
  obtain ⟨m, hr, hm⟩ := Run.exists_of_evalRun h
  simp only [decide_eq_true_eq, Option.any_eq_true] at hm
  obtain ⟨hl, hran, hheld, m', hs, hp⟩ := hm
  exact ⟨m, hran, hheld, preempt_run hr hl hs hp hran.2⟩

/-- A process starts another one and is interrupted behind `addToReady`: the
    new process is dispatched, and there is no stack image for it. -/
theorem preempt_fails : ∃ m m', Run Calls.step Calls.MayHappen (Calls.init oneFileKernel)
      (.call nameA :: List.replicate 7 .advance ++ [.timer 7, .call nameA] ++
        List.replicate 6 .advance) m ∧
    m.step (.timer 8) = some m' ∧ m'.kernel.running = .pcbPool 1 ∧ m.ran 1 = false ∧
    m.image 1 = none := by
  have h : (evalRun Calls.step Calls.MayHappen (Calls.init oneFileKernel)
      (CallEvent.call nameA :: List.replicate 7 CallEvent.advance ++ [CallEvent.timer 7, .call nameA] ++
        List.replicate 6 CallEvent.advance)).any
      (fun m => (m.ran 1 = false ∧ m.image 1 = none) ∧
        (m.step (.timer 8)).any fun m' => m'.kernel.running = .pcbPool 1) = true := by
    decide +kernel
  obtain ⟨m, hr, hm⟩ := Run.exists_of_evalRun h
  simp only [decide_eq_true_eq, Option.any_eq_true] at hm
  obtain ⟨⟨hran, hi⟩, m', hs, hp⟩ := hm
  exact ⟨m, m', hr, hs, hp, hran, hi⟩

end TeamXtremeOS
