/-
  The scheduler of the kernel refines round robin with sleepers.

  `Models P s a`: the variables `s` represent the abstract scheduler `a`, with
  `P` for what is known about the links of the queue.
-/
import TeamXtremeOS.Lib.Run
import TeamXtremeOS.Lib.RoundRobin
import TeamXtremeOS.Proof.ReadyQueue

namespace TeamXtremeOS

open Lib

variable {s s' : Proc} {a : RoundRobin (Fin 8)} {P : Proc → List PCBRef → Prop} {i p : Fin 8}
  {m m' : Machine} {name : FileName} {seg sp seconds : Int16}

/-- Sleepers wake in the order of the pool. -/
abbrev poolOrder : List (Fin 8) := List.finRange 8

/-- The variables `s` represent the abstract scheduler `a`. -/
structure Models (P : Proc → List PCBRef → Prop) (s : Proc) (a : RoundRobin (Fin 8)) : Prop where
  queue : P s (a.queue.map .pcbPool)
  ready : ∀ i, i ∈ a.queue ↔ (s.pcb (.pcbPool i)).state = .READY ∨ (s.pcb (.pcbPool i)).state = .STARTING
  active : ∀ i, a.running = some i ↔ (s.pcb (.pcbPool i)).state = .RUNNING
  running : ∀ i, a.running = some i → s.running = .pcbPool i
  asleep : ∀ i, a.asleep i ≠ 0 ↔ (s.pcb (.pcbPool i)).state = .SLEEPING
  counter : ∀ i, (s.pcb (.pcbPool i)).state = .SLEEPING → (s.pcb (.pcbPool i)).sleepCounter.toInt = a.asleep i
  named : ∀ i, (s.pcb (.pcbPool i)).state ≠ .DEFUNCT → (s.pcb (.pcbPool i)).namedIdle = false
  idleName : (s.pcb .idleProc).namedIdle = true

/-- The machine `m` represents the abstract scheduler `a`: nobody runs in `a`
    when the idle process runs or the running process has terminated. -/
structure Refines (P : Proc → List PCBRef → Prop) (m : Machine) (a : RoundRobin (Fin 8)) : Prop
    extends Models P m.kernel.toProc a where
  idle : a.running = none → m.halted = false → m.kernel.running = .idleProc
  halted : m.halted = true → a.running = none ∧
    ∃ i, m.kernel.running = .pcbPool i ∧ (m.kernel.pcb (.pcbPool i)).state = .DEFUNCT

/-! ## The lineup of a tick -/

namespace Models

theorem wakes_iff (h : Models P s a) (i : Fin 8) : Wakes s i ↔ a.asleep i = 1 := by
  unfold Wakes
  constructor
  · rintro ⟨hs, hc⟩
    have hz := (h.asleep i).2 hs
    have hn := h.counter i hs
    have hb := (s.pcb (.pcbPool i)).sleepCounter.toInt_lt
    rw [Int16.le_iff_toInt_le, Int16.toInt_sub] at hc
    have h1 : (1 : Int16).toInt = 1 := rfl
    have h0 : (0 : Int16).toInt = 0 := rfl
    rw [h1, h0, Int.bmod_eq_of_le (by omega) (by omega)] at hc
    omega
  · intro h1
    have hs := (h.asleep i).1 (by omega)
    have hn := h.counter i hs
    refine ⟨hs, ?_⟩
    have hc : (s.pcb (.pcbPool i)).sleepCounter = 1 := by
      rw [← Int16.toInt_inj, hn, h1]; rfl
    rw [hc]
    decide

theorem woken_eq (h : Models P s a) : woken s = (a.woken poolOrder).map .pcbPool := by
  unfold woken wokenOf RoundRobin.woken
  congr 1
  exact List.filter_congr fun i _ => by simp only [decide_eq_decide]; exact h.wakes_iff i

theorem requeued_eq (h : Models P s a) (hi : a.running = none → requeued s = []) :
    requeued s = a.running.toList.map .pcbPool := by
  rcases hr : a.running with _ | i
  · exact hi hr
  · have hst : (s.pcb (.pcbPool i)).state = .RUNNING := (h.active i).1 hr
    have hrun := h.running i hr
    have hn := h.named i (by rw [hst]; decide)
    unfold requeued
    rw [hrun, if_pos]
    · rfl
    · exact ⟨by rw [hst]; decide, hn, .inl (by rw [hst]; decide)⟩

theorem lineup_eq (h : Models P s a) (hi : a.running = none → requeued s = []) :
    a.queue.map .pcbPool ++ woken s ++ requeued s = (a.lineup poolOrder).map .pcbPool := by
  rw [h.woken_eq, h.requeued_eq hi]
  simp [RoundRobin.lineup]

theorem mem_lineup (h : Models P s a) : i ∈ a.lineup poolOrder ↔
    ((s.pcb (.pcbPool i)).state = .READY ∨ (s.pcb (.pcbPool i)).state = .STARTING) ∨ Wakes s i ∨
      (s.pcb (.pcbPool i)).state = .RUNNING := by
  simp only [RoundRobin.lineup, List.mem_append, h.ready, RoundRobin.woken, List.mem_filter,
    List.mem_finRange, true_and, decide_eq_true_eq, Option.mem_toList, h.active, h.wakes_iff,
    or_assoc]

theorem asleep_of_lineup (h : Models P s a) (hi : i ∈ a.lineup poolOrder) : a.asleep i - 1 = 0 := by
  have hz := h.asleep i
  rcases h.mem_lineup.1 hi with (hs | hs) | hs | hs
  · simp [hs] at hz; omega
  · simp [hs] at hz; omega
  · rw [(h.wakes_iff i).1 hs]
  · simp [hs] at hz; omega

theorem queue_nodup (hP : QueueInv P) (h : Models P s a) : a.queue.Nodup :=
  (hP.queue h.queue).nodup.of_map _

theorem lineup_nodup (hP : QueueInv P) (h : Models P s a) : (a.lineup poolOrder).Nodup := by
  unfold RoundRobin.lineup RoundRobin.woken
  have hw : ((List.finRange 8).filter fun i => a.asleep i = 1).Nodup :=
    (List.nodup_finRange 8).filter _
  have hs : ∀ i, i ∈ (List.finRange 8).filter (fun i => a.asleep i = 1) →
      (s.pcb (.pcbPool i)).state = .SLEEPING := fun i hi => (h.asleep i).1 (by simp at hi; omega)
  have hr : a.running.toList.Nodup := by cases a.running <;> simp
  refine List.nodup_append.2 ⟨List.nodup_append.2 ⟨h.queue_nodup hP, hw, ?_⟩, hr, ?_⟩
  · rintro x hx y hy rfl
    have := hs x hy
    rcases (h.ready x).1 hx with hq | hq <;> rw [hq] at this <;> cases this
  · rintro x hx y hy rfl
    have hy' := (h.active x).1 (Option.mem_toList.1 hy)
    rcases List.mem_append.1 hx with hx | hx
    · rcases (h.ready x).1 hx with hq | hq <;> rw [hq] at hy' <;> cases hy'
    · rw [hs x hx] at hy'; cases hy'

/-! ## A tick -/

theorem tick_state (hP : QueueInv P) (h : Models P s a) (hi : a.running = none → requeued s = [])
    (ht : Ticked sp s s') (i : Fin 8) : (s'.pcb (.pcbPool i)).state =
      if (a.lineup poolOrder).head? = some i then .RUNNING
      else if Wakes s i ∨ (s.pcb (.pcbPool i)).state = .RUNNING then .READY else (s.pcb (.pcbPool i)).state := by
  have hd : dispatched s = some (.pcbPool i) ↔ (a.lineup poolOrder).head? = some i := by
    rw [(hP.queue h.queue).dispatched_eq, h.lineup_eq hi, List.head?_map, Option.map_eq_some_iff]
    exact ⟨fun ⟨j, hj, he⟩ => pcbPool_injective he ▸ hj, fun hj => ⟨i, hj, rfl⟩⟩
  have hw : .pcbPool i ∈ woken s ++ requeued s ↔ Wakes s i ∨ (s.pcb (.pcbPool i)).state = .RUNNING := by
    rw [List.mem_append, mem_woken, h.requeued_eq hi, List.mem_map_of_injective pcbPool_injective,
      Option.mem_toList, h.active]
  rw [ht.state]
  simp only [hd, hw]

/-- In a list without repetitions, what is behind the first element. -/
theorem mem_tail_iff {α : Type*} {l : List α} (hl : l.Nodup) {x : α} :
    x ∈ l.tail ↔ x ∈ l ∧ l.head? ≠ some x := by
  cases l with
  | nil => simp
  | cons y l =>
    have := (List.nodup_cons.1 hl).1
    simp only [List.tail_cons, List.mem_cons, List.head?_cons, Option.some.injEq, ne_eq]
    constructor
    · intro hx
      exact ⟨.inr hx, fun he => this (he ▸ hx)⟩
    · rintro ⟨rfl | hx, hne⟩
      · exact absurd rfl hne
      · exact hx

/-- **A tick refines a tick**, and does not fail. -/
theorem tick (hP : QueueInv P) (h : Models P s a) (hi : a.running = none → requeued s = [])
    (seg sp : Int16) : ∃ r s', handleTimerInterrupt seg sp s = some (r, s') ∧
      Models P s' (a.tick poolOrder) ∧
      ((a.tick poolOrder).running = none → s'.running = .idleProc) := by
  have hL := h.lineup_eq hi
  have hn := h.lineup_nodup hP
  have hnm := hn.map pcbPool_injective
  rw [← hL] at hnm
  obtain ⟨r, s', hs', hP'⟩ := tick_queue hP h.queue
    (fun x hx hq => (List.nodup_append.1 (List.nodup_append.1 hnm).1).2.2 x hq x hx rfl)
    (fun x hx => ⟨fun hq => (List.nodup_append.1 hnm).2.2 x hq x hx rfl, by
      rw [h.requeued_eq hi] at hx
      rintro rfl
      simp at hx⟩) seg sp
  obtain ⟨-, ht⟩ := handleTimerInterrupt_ticked hs'
  have hst := h.tick_state hP hi ht
  have hrun : s'.running = ((a.lineup poolOrder).head?.map PCBRef.pcbPool).getD .idleProc := by
    rw [ht.running, (hP.queue h.queue).dispatched_eq, hL, List.head?_map]
  refine ⟨r, s', hs', ⟨?_, ?_, ?_, ?_, ?_, ?_, ?_, ?_⟩, ?_⟩
  · rw [hL, ← List.map_tail] at hP'
    exact hP'
  · intro i
    change i ∈ (a.lineup poolOrder).tail ↔ _
    rw [mem_tail_iff hn, h.mem_lineup, hst]
    split_ifs with h1 h2
    · simp [h1]
    · simp [h1, h2]
    · rw [not_or] at h2
      simp [h1, h2.1, h2.2]
  · intro i
    change (a.lineup poolOrder).head? = some i ↔ _
    rw [hst]
    split_ifs with h1 h2
    · simp [h1]
    · simp [h1]
    · rw [not_or] at h2
      simp [h1, h2.2]
  · intro i hi
    rw [hrun, show (a.lineup poolOrder).head? = some i from hi]
    rfl
  · intro i
    change a.asleep i - 1 ≠ 0 ↔ _
    rw [hst]
    split_ifs with h1 h2
    · simp [h.asleep_of_lineup (List.mem_of_mem_head? h1)]
    · simp [h.asleep_of_lineup (h.mem_lineup.2 (.inr h2))]
    · rw [not_or, h.wakes_iff] at h2
      rw [← h.asleep]
      omega
  · intro i hs
    change _ = ((a.asleep i - 1 : ℕ) : ℤ)
    rw [hst] at hs
    split_ifs at hs with h1 h2
    have hc := h.counter i hs
    have hz := (h.asleep i).2 hs
    have hb := (s.pcb (.pcbPool i)).sleepCounter.toInt_lt
    have h1 : (1 : Int16).toInt = 1 := rfl
    rw [ht.sleepCounter, if_pos hs, Int16.toInt_sub, h1, Int.bmod_eq_of_le (by omega) (by omega)]
    omega
  · intro i hs
    rw [PCB.namedIdle, ht.name]
    refine h.named i ?_
    intro hd
    rw [hst] at hs
    split_ifs at hs with h1 h2
    · have := h.mem_lineup.1 (List.mem_of_mem_head? h1)
      simp [Wakes, hd] at this
    · simp [Wakes, hd] at h2
    · exact hs hd
  · rw [PCB.namedIdle, ht.name]
    exact h.idleName
  · intro hnone
    rw [hrun, show (a.lineup poolOrder).head? = none from hnone]
    rfl

/-! ## The other steps -/

/-- A new process comes to the end of the queue. -/
theorem start (hP : QueueInv P) (h : Models P s a) (hs : Started name i p s s')
    (hn : startsIdle name = false) : Models P s' { a with queue := a.queue ++ [p] } := by
  have hd := hs.defunct
  have hpq : p ∉ a.queue := fun hq => by
    have := (h.ready p).1 hq
    simp [hd] at this
  have hpr : a.running ≠ some p := fun hr => by
    have := (h.active p).1 hr
    simp [hd] at this
  have hpz : a.asleep p = 0 := by
    by_contra hz
    have := (h.asleep p).1 hz
    simp [hd] at this
  refine ⟨?_, ?_, ?_, ?_, ?_, ?_, ?_, ?_⟩
  · rw [List.map_append]
    exact hs.queue hP h.queue fun hm => hpq ((List.mem_map_of_injective pcbPool_injective).1 hm)
  · intro j
    rw [List.mem_append, h.ready, hs.state]
    by_cases hj : j = p <;> simp [hj]
  · intro j
    rw [hs.state]
    by_cases hj : j = p
    · simp [hj, hpr]
    · simp [hj, h.active]
  · intro j hj
    rw [hs.running]
    exact h.running j hj
  · intro j
    rw [hs.state]
    by_cases hj : j = p
    · simp [hj, hpz]
    · simp [hj, ← h.asleep]
  · intro j hj
    rw [hs.state] at hj
    by_cases hjp : j = p
    · simp [hjp] at hj
    · rw [hs.sleepCounter]
      exact h.counter j (by simpa [hjp] using hj)
  · intro j hj
    by_cases hjp : j = p
    · rw [hjp, hs.namedIdle]; exact hn
    · rw [PCB.namedIdle, hs.name _ fun he => hjp (pcbPool_injective he)]
      exact h.named j (by rw [hs.state] at hj; simpa [hjp] using hj)
  · rw [PCB.namedIdle, hs.name _ (by simp)]
    exact h.idleName

/-- The running process lies down. -/
theorem lieDown (hP : QueueInv P) (h : Models P s a) (hr : a.running = some i) {n : ℕ}
    (hn : (seconds * 125).toInt = n) (hpos : 0 < n) : Models P (lieDown seconds s)
      { a with running := none, asleep := Function.update a.asleep i n } := by
  have hrun := h.running i hr
  have hst := (h.active i).1 hr
  have hpcb : ∀ j, (TeamXtremeOS.lieDown seconds s).pcb (.pcbPool j) = if j = i then
      { s.pcb (.pcbPool j) with state := .SLEEPING, sleepCounter := seconds * 125 }
      else s.pcb (.pcbPool j) := fun j => by
    rw [lieDown_pcb, hrun]
    simp only [PCBRef.pcbPool.injEq]
  refine ⟨hP.congr h.queue (sameLinks_lieDown seconds s), ?_, ?_,
    fun j hj => (by cases hj), ?_, ?_, ?_, ?_⟩
  · intro j
    rw [hpcb, h.ready]
    split_ifs with hji
    · simp [hji, hst]
    · rfl
  · intro j
    rw [hpcb]
    split_ifs with hji
    · simp
    · rw [← h.active, hr]
      simp [Ne.symm hji]
  · intro j
    change Function.update a.asleep i n j ≠ 0 ↔ _
    rw [hpcb, Function.update_apply]
    split_ifs with hji
    · simp; omega
    · exact h.asleep j
  · intro j hjs
    change _ = ((Function.update a.asleep i n j : ℕ) : ℤ)
    rw [hpcb] at hjs ⊢
    rw [Function.update_apply]
    split_ifs at hjs ⊢ with hji
    · exact hn
    · exact h.counter j hjs
  · intro j hjs
    rw [hpcb] at hjs ⊢
    split_ifs at hjs ⊢ with hji
    · rw [hji]; exact h.named i (by rw [hst]; decide)
    · exact h.named j hjs
  · rw [lieDown_pcb, hrun, if_neg (by simp)]
    exact h.idleName

/-- The running process exits. -/
theorem exit (h : Models DQueue s a) (hr : a.running = some i) (hl : LinksTell s (.pcbPool i)) :
    Models DQueue (terminate s) { a with running := none } := by
  have hst := (h.active i).1 hr
  have hiq : i ∉ a.queue := fun hq => by
    have := (h.ready i).1 hq
    simp [hst] at this
  have hiz : a.asleep i = 0 := by
    by_contra hz
    have := (h.asleep i).1 hz
    simp [hst] at this
  unfold terminate
  rw [h.running i hr]
  have hm := sameLinks_releaseMemorySegment ((s.pcb (.pcbPool i)).segment / 0x1000 - 2) s
  have hq := (queueInv_dQueue.congr h.queue hm).release (hl.sameLinks hm)
  rw [List.erase_of_not_mem fun hm => hiq ((List.mem_map_of_injective pcbPool_injective).1 hm)] at hq
  have hs := releasePCB_released (.pcbPool i)
    (releaseMemorySegment ((s.pcb (.pcbPool i)).segment / 0x1000 - 2) s)
  have hpcb : ∀ x, (releaseMemorySegment ((s.pcb (.pcbPool i)).segment / 0x1000 - 2) s).pcb x =
    s.pcb x := fun _ => rfl
  refine ⟨hq, ?_, ?_, fun j hj => (by cases hj), ?_, ?_, ?_, ?_⟩
  · intro j
    rw [hs.state, hpcb]
    by_cases hj : j = i
    · simp [hj, hiq]
    · simp [hj, h.ready]
  · intro j
    rw [hs.state, hpcb]
    by_cases hj : j = i
    · simp [hj]
    · simp only [PCBRef.pcbPool.injEq, hj, if_false, ← h.active, hr]
      simp [Ne.symm hj]
  · intro j
    rw [hs.state, hpcb]
    by_cases hj : j = i
    · simp [hj, hiz]
    · simp [hj, ← h.asleep]
  · intro j hj
    rw [hs.state, hpcb] at hj
    rw [hs.sleepCounter, hpcb]
    by_cases hji : j = i
    · simp [hji] at hj
    · exact h.counter j (by simpa [hji] using hj)
  · intro j hj
    rw [hs.state, hpcb] at hj
    by_cases hji : j = i
    · simp [hji] at hj
    · rw [PCB.namedIdle, hs.name _ fun he => hji (pcbPool_injective he)]
      exact h.named j (by simpa [hji] using hj)
  · rw [PCB.namedIdle, hs.name _ (by simp)]
    exact h.idleName

end Models

/-! ## The machine -/

/-- What a call is for the abstract scheduler.  Calls that it knows nothing of
    are skipped: they do not occur in the runs below. -/
def event (m : Machine) : Call → RoundRobin.Event (Fin 8)
  | .executeProgram _ => .start ((freePCB m.kernel.toProc).getD 0)
  | .terminate => .exit
  | .sleep seconds _ => .sleep (125 * seconds.toInt.toNat)
  | .timer _ => .tick
  | .kill _ => .skip
  | .yield => .skip

/-- The abstract scheduler, starting with no process, along the calls of a run. -/
def roundRobin (m : Machine) (es : List Call) : RoundRobin (Fin 8) :=
  (labels Machine.step event m es).foldl (RoundRobin.step poolOrder) ⟨[], none, fun _ => 0⟩

namespace Refines

theorem init (k : Kernel) (hq : P (initializeProcStructures k.toProc) []) :
    Refines P (Machine.init k) ⟨[], none, fun _ => 0⟩ := by
  have hb := initializeProcStructures_booted k.toProc
  have hd : ∀ i, ((Machine.init k).kernel.pcb (.pcbPool i)).state = .DEFUNCT := hb.defunct
  refine ⟨⟨hq, ?_, ?_, fun i hi => (by cases hi), ?_, ?_,
    fun i hi => absurd (hd i) hi, hb.idleName⟩, fun _ _ => hb.running, fun h => (by cases h)⟩
  · intro i
    rw [hd]; simp
  · intro i
    rw [hd]; simp
  · intro i
    rw [hd]; simp
  · intro i hi
    rw [hd] at hi; cases hi

theorem mem_queue_iff (h : Refines P m a) : .pcbPool i ∈ a.queue.map PCBRef.pcbPool ↔
    (m.kernel.pcb (.pcbPool i)).state = .READY ∨ (m.kernel.pcb (.pcbPool i)).state = .STARTING := by
  rw [List.mem_map_of_injective pcbPool_injective, h.ready]

/-- The queue has no free PCB and not the running process. -/
theorem notMem_queue (h : Refines P m a) (hi : (m.kernel.pcb (.pcbPool i)).state = .DEFUNCT ∨
    m.kernel.running = .pcbPool i) : .pcbPool i ∉ a.queue.map PCBRef.pcbPool := by
  rw [h.mem_queue_iff]
  rcases hi with hd | hr
  · simp [hd]
  · cases hm : m.halted with
    | true =>
      obtain ⟨-, j, hj, hd⟩ := h.halted hm
      rw [hr] at hj
      simp [PCBRef.pcbPool.inj hj, hd]
    | false =>
      rcases ha : a.running with _ | j
      · have := h.idle ha hm
        rw [hr] at this; cases this
      · have hj := h.running j ha
        rw [hr] at hj
        simp [PCBRef.pcbPool.inj hj, (h.active j).1 ha]

/-- With a queue, `executeProgram` fails only on the disk. -/
theorem executeProgram_loads (hP : QueueInv P) (h : Refines P m a) (hl : Loads name m.kernel) :
    ∃ m', m.step (.executeProgram name) = some m' := by
  obtain ⟨r, k', he⟩ := executeProgram_queue hP h.queue
    (fun p hp => h.notMem_queue (.inl (freePCB_defunct hp))) hl
  exact ⟨{ m with kernel := k' }, by simp [Machine.step, he]⟩

theorem requeued_nil (h : Refines P m a) (hr : a.running = none) :
    requeued m.kernel.toProc = [] := by
  unfold requeued
  refine if_neg ?_
  rintro ⟨h1, h2, -⟩
  cases hh : m.halted with
  | true =>
    obtain ⟨-, i, hi, hd⟩ := h.halted hh
    rw [hi] at h1
    exact h1 hd
  | false =>
    rw [h.idle hr hh, h.idleName] at h2
    cases h2

theorem executeProgram (hP : QueueInv P) (h : Refines P m a) (hm : m.halted = false)
    (hn : startsIdle name = false) (hc : Succeeds name m.kernel)
    (hs : m.step (.executeProgram name) = some m') :
    Refines P m' (a.step poolOrder (event m (.executeProgram name))) := by
  obtain ⟨hh, i, p, hst⟩ := hc.started hs
  have hf : (freePCB m.kernel.toProc).getD 0 = p := by rw [hst.free]; rfl
  simp only [event, hf]
  refine ⟨h.toModels.start hP hst hn, ?_, ?_⟩
  · intro hr hm'
    rw [hst.running]; exact h.idle hr hm
  · intro hm'
    rw [hh, hm] at hm'; cases hm'

theorem timer (hP : QueueInv P) (h : Refines P m a) (sp : Int16) :
    ∃ m', m.step (.timer sp) = some m' ∧ Refines P m' (a.tick poolOrder) := by
  obtain ⟨r, s', hs, hM, hidle⟩ := h.toModels.tick hP h.requeued_nil (stackSegment _) sp
  exact ⟨_, Machine.step_timer_of hs, ⟨hM, fun hr _ => hidle hr, fun hh => (by cases hh)⟩⟩

theorem running_eq (h : Refines P m a) (hm : m.halted = false) (hi : m.kernel.running ≠ .idleProc) :
    ∃ i, a.running = some i := by
  rcases hr : a.running with _ | i
  · exact absurd (h.idle hr hm) hi
  · exact ⟨i, rfl⟩

theorem seconds_mul (h1 : 1 ≤ seconds) (h2 : seconds ≤ 262) :
    (seconds * 125).toInt = (125 * seconds.toInt.toNat : ℕ) ∧ 125 ≤ 125 * seconds.toInt.toNat := by
  rw [Int16.le_iff_toInt_le] at h1 h2
  have e1 : (1 : Int16).toInt = 1 := rfl
  have e2 : (262 : Int16).toInt = 262 := rfl
  have e3 : (125 : Int16).toInt = 125 := rfl
  rw [Int16.toInt_mul, e3, Int.bmod_eq_of_le (by omega) (by omega)]
  omega

theorem sleep (hP : QueueInv P) (h : Refines P m a) (hm : m.MayCall (.sleep seconds sp))
    (h1 : 1 ≤ seconds) (h2 : seconds ≤ 262) : ∃ m', m.step (.sleep seconds sp) = some m' ∧
      Refines P m' (a.sleep poolOrder (125 * seconds.toInt.toNat)) := by
  obtain ⟨i, hi⟩ := h.running_eq hm.1 hm.2
  obtain ⟨hn, hpos⟩ := seconds_mul h1 h2
  have hM := h.toModels.lieDown hP hi hn (by omega)
  have hrun := h.running i hi
  have hq : requeued (lieDown seconds m.kernel.toProc) = [] := by
    -- the sleeper does not wake at once
    have hw : .pcbPool i ∉ woken (lieDown seconds m.kernel.toProc) := by
      rw [mem_woken, hM.wakes_iff]
      simp only [Function.update_self]
      omega
    have hr' : (lieDown seconds m.kernel.toProc).running = .pcbPool i := hrun
    have hs' : ((lieDown seconds m.kernel.toProc).pcb (.pcbPool i)).state = .SLEEPING := by
      rw [lieDown_pcb, hrun, if_pos rfl]
    unfold requeued
    refine if_neg ?_
    rw [hr', hs']
    rintro ⟨-, -, h3 | h3⟩
    · exact h3 rfl
    · exact hw h3
  obtain ⟨r, s', hs, hM', hidle⟩ := hM.tick hP (fun _ => hq) (stackSegment m.kernel.toProc) sp
  have ha : a.sleep poolOrder (125 * seconds.toInt.toNat) = RoundRobin.tick poolOrder
      { a with running := none, asleep := Function.update a.asleep i (125 * seconds.toInt.toNat) } := by
    simp [RoundRobin.sleep, hi]
  rw [ha]
  exact ⟨_, Machine.step_sleep_of hs, ⟨hM', fun hr _ => hidle hr, fun hh => (by cases hh)⟩⟩

end Refines

end TeamXtremeOS
