/-
  How long a process sleeps.  The product of `sleep` is cut to 16 bits, and a
  process that wakes in the interrupt it raises itself is both a sleeper that
  wakes and the running process.
-/
import TeamXtremeOS.Proof.Yield

namespace TeamXtremeOS

open Lib

variable {s s' : Proc} {i : Fin 8} {l : List (Fin 8)} {q log : List PCBRef} {p x : PCBRef} {sp seg : Int16}
  {sps : ℕ → Int16} {k n c n' c' : ℕ} {seconds seconds₁ seconds₂ : Int16}

/-! ## The calls of `addToReady` in a tick -/

/-- `addToReady`, with a record of its arguments. -/
def addLogged (p : PCBRef) (r : Proc × List PCBRef) : Option (Proc × List PCBRef) :=
  (addToReady p r.1).map fun s => (s, r.2 ++ [p])

def updateLogged (r : Proc × List PCBRef) (i : Fin 8) : Option (Proc × List PCBRef) :=
  let b := r.1.pcb (.pcbPool i)
  if b.state = .SLEEPING then
    let s := r.1.put (.pcbPool i) { b with sleepCounter := b.sleepCounter - 1 }
    if b.sleepCounter - 1 ≤ 0 then addLogged (.pcbPool i) (s.setState (.pcbPool i) .READY, r.2)
    else some (s, r.2)
  else some r

def requeueLogged (r : Proc × List PCBRef) : Option (Proc × List PCBRef) :=
  if Requeued r.1 then addLogged r.1.running (r.1.setState r.1.running .READY, r.2) else some r

/-- `handleTimerInterrupt`, with a record of the PCBs it calls `addToReady` with. -/
def timerLogged (stackPointer : Int16) (s : Proc) : Option (Proc × List PCBRef) := do
  let r ← (List.finRange 8).foldlM updateLogged (s, [])
  let s := r.1.put r.1.running { r.1.pcb r.1.running with stackPointer := stackPointer }
  let r ← requeueLogged (s, r.2)
  let (process, s) ← removeFromReady r.1
  return (dispatch process s, r.2)

theorem updateLogged_eq (s : Proc) (log : List PCBRef) (i : Fin 8) : updateLogged (s, log) i =
    (updateSleeper s i).map fun s' => (s', log ++ wokenOf s [i]) := by
  unfold updateLogged updateSleeper
  by_cases hs : (s.pcb (.pcbPool i)).state = .SLEEPING
  · by_cases hc : (s.pcb (.pcbPool i)).sleepCounter - 1 ≤ 0
    · have hw : wokenOf s [i] = [.pcbPool i] := by simp [wokenOf, Wakes, hs, hc]
      simp only [hs, hc, if_true, hw, addLogged]
    · have hw : wokenOf s [i] = [] := by simp [wokenOf, Wakes, hc]
      simp only [hs, hc, if_true, if_false, hw, List.append_nil, Option.map_some]
  · have hw : wokenOf s [i] = [] := by simp [wokenOf, Wakes, hs]
    simp only [hs, if_false, hw, List.append_nil, Option.map_some]

theorem foldlM_logged (hl : l.Nodup) : l.foldlM updateLogged (s, log) =
    (l.foldlM updateSleeper s).map fun s' => (s', log ++ wokenOf s l) := by
  induction l generalizing s log with
  | nil => simp [wokenOf]
  | cons i l ih =>
    obtain ⟨hi, hl⟩ := List.nodup_cons.1 hl
    rw [List.foldlM_cons, List.foldlM_cons, updateLogged_eq]
    rcases hs : updateSleeper s i with _ | s₁
    · rfl
    · have hw := (updateSleeper_woke hs).wokenOf_eq hi
      simp only [Option.map_some, Option.bind_eq_bind, Option.bind_some]
      rw [ih hl, hw, wokenOf_cons (l := l), List.append_assoc]

theorem requeueLogged_eq (s : Proc) (log : List PCBRef) : requeueLogged (s, log) =
    (requeueRunning s).map fun s' => (s', log ++ back s) := by
  unfold requeueLogged requeueRunning back
  split_ifs
  · rfl
  · rw [Option.map_some, List.append_nil]

/-- **What a tick appends to the queue**: the sleepers that wake, then the running
    process. -/
theorem timerLogged_eq (seg sp : Int16) (s : Proc) : timerLogged sp s =
    (handleTimerInterrupt seg sp s).map fun r => (r.2, woken s ++ requeued s) := by
  rw [timerLogged, handleTimerInterrupt_eq, foldlM_logged (List.nodup_finRange 8)]
  rcases h1 : (List.finRange 8).foldlM updateSleeper s with _ | s₁
  · rfl
  have hb : back (saveStack sp s₁) = requeued s := by
    rw [back_saveStack]
    exact (foldlM_woke (List.nodup_finRange 8) h1).back_eq
  simp only [Option.map_some, Option.bind_eq_bind, Option.bind_some, List.nil_append, switch]
  change ((requeueLogged (saveStack sp s₁, woken s)).bind _) = ((requeueRunning (saveStack sp s₁)).bind _).map _
  rw [requeueLogged_eq, hb]
  rcases requeueRunning (saveStack sp s₁) with _ | s₂
  · rfl
  · rw [Option.map_some, Option.bind_some, Option.bind_some]
    cases removeFromReady s₂ <;> rfl

/-! ## Any queue -/

theorem mem_foldl_join (h : x ∈ log.foldl join q) : x ∈ q ∨ x ∈ log := by
  induction log generalizing q with
  | nil => exact .inl h
  | cons a log ih =>
    rcases ih h with hx | hx
    · exact (mem_of_mem_join hx).imp_right fun hx => by rw [hx]; exact List.mem_cons_self
    · exact .inr (List.mem_cons_of_mem _ hx)

/-- The loop over the sleepers, on a queue that may hold some of them. -/
theorem foldlM_join (h : Queue s q) (hl : l.Nodup) :
    ∃ s', l.foldlM updateSleeper s = some s' ∧ Queue s' ((wokenOf s l).foldl join q) := by
  induction l generalizing s q with
  | nil => exact ⟨s, rfl, h⟩
  | cons i l ih =>
    obtain ⟨hi, hl⟩ := List.nodup_cons.1 hl
    have hd := h.sameLinks (sameLinks_countDown s i)
    obtain ⟨s₁, h1, hq₁⟩ : ∃ s₁, updateSleeper s i = some s₁ ∧ Queue s₁ ((wokenOf s [i]).foldl join q) := by
      rw [updateSleeper_eq]
      split_ifs with hw hs
      · obtain ⟨s₁, h1, hq₁⟩ := (hd.sameLinks (sameLinks_setState _ (.pcbPool i) .READY)).join (.pcbPool i)
        refine ⟨s₁, h1, ?_⟩
        rw [show wokenOf s [i] = [.pcbPool i] by simp [wokenOf, hw]]
        exact hq₁
      · rw [show wokenOf s [i] = [] by simp [wokenOf, hw]]
        exact ⟨_, rfl, hd⟩
      · rw [show wokenOf s [i] = [] by simp [wokenOf, hw]]
        exact ⟨_, rfl, h⟩
    obtain ⟨s', h2, hq'⟩ := ih hq₁ hl
    refine ⟨s', ?_, ?_⟩
    · rw [List.foldlM_cons, h1]
      exact h2
    · rw [wokenOf_cons, List.foldl_append, ← (updateSleeper_woke h1).wokenOf_eq hi]
      exact hq'

/-- **A tick on any queue** does not fail, and keeps a queue of the PCBs that were
    on it or have been appended. -/
theorem timerLogged_queue (h : Queue s q) (sp : Int16) : ∃ s' q',
    timerLogged sp s = some (s', woken s ++ requeued s) ∧ Ticked sp s s' ∧ Queue s' q' ∧
    ∀ x ∈ q', x ∈ q ∨ x ∈ woken s ++ requeued s := by
  obtain ⟨s₁, h1, hq₁⟩ := foldlM_join h (List.nodup_finRange 8)
  have hb := (foldlM_woke (List.nodup_finRange 8) h1).back_eq
  obtain ⟨s₂, h2, hq₂⟩ : ∃ s₂, requeueRunning (saveStack sp s₁) = some s₂ ∧
      Queue s₂ ((back s₁).foldl join ((woken s).foldl join q)) := by
    have h0 := hq₁.sameLinks (sameLinks_saveStack sp s₁)
    unfold requeueRunning back
    simp only [requeued_saveStack]
    split_ifs
    · exact (h0.sameLinks (sameLinks_setState _ _ .READY)).join _
    · exact ⟨_, rfl, h0⟩
  obtain ⟨r, s', h3, hq'⟩ := switch_of_requeue queueInv_queue h2 hq₂
  have hs : handleTimerInterrupt 0 sp s = some (r, s') := by
    rw [handleTimerInterrupt_eq, h1]
    exact h3
  refine ⟨s', _, by rw [timerLogged_eq 0, hs, Option.map_some], (handleTimerInterrupt_ticked hs).2, hq', ?_⟩
  intro x hx
  rw [List.mem_append, ← hb]
  rcases mem_foldl_join (List.mem_of_mem_tail hx) with hx | hx
  · exact (mem_foldl_join hx).imp_right .inl
  · exact .inr (.inr hx)

/-! ## Until a sleeper wakes -/

/-- The variables after `n` ticks, and what the last of them has appended. -/
def Proc.ticked (s : Proc) (sps : ℕ → Int16) : ℕ → Option (Proc × List PCBRef)
  | 0 => some (s, [])
  | n + 1 => (s.ticked sps n).bind fun r => timerLogged (sps n) r.1

/-- The `n`-th tick appends `p` to the queue, `c` times; those before it do not. -/
def WakesAt (p : PCBRef) (sps : ℕ → Int16) (s : Proc) (n c : ℕ) : Prop :=
  0 < c ∧ (∃ s' log, s.ticked sps n = some (s', log) ∧ log.count p = c) ∧
  ∀ m < n, ∃ s' log, s.ticked sps m = some (s', log) ∧ p ∉ log

/-- There is one such tick. -/
theorem WakesAt.unique (h : WakesAt p sps s n c) (h' : WakesAt p sps s n' c') : n = n' ∧ c = c' := by
  have hle : ∀ {n n' c c' : ℕ}, WakesAt p sps s n c → WakesAt p sps s n' c' → n ≤ n' := by
    intro n n' c c' h h'
    obtain ⟨-, -, hbefore⟩ := h
    obtain ⟨hc', ⟨s', log, hs', hlog⟩, -⟩ := h'
    by_contra hlt
    obtain ⟨s'', log', hs'', hno⟩ := hbefore n' (by omega)
    rw [hs', Option.some.injEq, Prod.mk.injEq] at hs''
    rw [← hs''.2, ← List.count_eq_zero, hlog] at hno
    omega
  obtain rfl : n = n' := le_antisymm (hle h h') (hle h' h)
  obtain ⟨-, ⟨s₁, log₁, h1, hc₁⟩, -⟩ := h
  obtain ⟨-, ⟨s₂, log₂, h2, hc₂⟩, -⟩ := h'
  rw [h1, Option.some.injEq, Prod.mk.injEq] at h2
  exact ⟨rfl, by rw [← hc₁, ← hc₂, h2.2]⟩

/-- Process `i` sleeps for `c` more ticks, and is not on the queue. -/
structure Asleep (s : Proc) (i : Fin 8) (c : ℕ) : Prop where
  state : (s.pcb (.pcbPool i)).state = .SLEEPING
  counter : (s.pcb (.pcbPool i)).sleepCounter.toInt = c
  running : s.running ≠ .pcbPool i
  queue : ∃ q, Queue s q ∧ .pcbPool i ∉ q

theorem sleepCounter_pred {b : PCB} (hc : b.sleepCounter.toInt ≠ -32768) :
    (b.sleepCounter - 1).toInt = b.sleepCounter.toInt - 1 := by
  have h1 : (1 : Int16).toInt = 1 := rfl
  have hlt := b.sleepCounter.toInt_lt
  have hle := b.sleepCounter.le_toInt
  rw [Int16.toInt_sub, h1, Int.bmod_eq_of_le (by omega) (by omega)]

theorem wakes_iff_counter (hs : (s.pcb (.pcbPool i)).state = .SLEEPING)
    (hc : (s.pcb (.pcbPool i)).sleepCounter.toInt ≠ -32768) :
    .pcbPool i ∈ woken s ↔ (s.pcb (.pcbPool i)).sleepCounter.toInt ≤ 1 := by
  have h0 : (0 : Int16).toInt = 0 := rfl
  rw [mem_woken, Wakes, Int16.le_iff_toInt_le, sleepCounter_pred hc, h0]
  constructor
  · rintro ⟨-, h⟩
    omega
  · intro h
    exact ⟨hs, by omega⟩

theorem nodup_woken (s : Proc) : (woken s).Nodup :=
  ((List.nodup_finRange 8).filter _).map pcbPool_injective

namespace Asleep

theorem notMem_requeued (h : Asleep s i c) : .pcbPool i ∉ requeued s := fun hm =>
  h.running (mem_requeued.1 hm).2.symm

/-- Who is not appended and not on the queue stays off it. -/
theorem of_ticked (hst : (s.pcb (.pcbPool i)).state = .SLEEPING) (hq : Queue s q) (hi : .pcbPool i ∉ q)
    (hlog : .pcbPool i ∉ woken s ++ requeued s) (ht : Ticked sp s s')
    (hc : (s.pcb (.pcbPool i)).sleepCounter.toInt = c + 1) {q' : List PCBRef} (hq' : Queue s' q')
    (hmem : ∀ x ∈ q', x ∈ q ∨ x ∈ woken s ++ requeued s) : Asleep s' i c := by
  have hd : dispatched s ≠ some (.pcbPool i) := by
    intro hd
    rw [hq.dispatched_eq, List.append_assoc] at hd
    exact (List.mem_append.1 (List.mem_of_mem_head? hd)).elim hi hlog
  refine ⟨?_, ?_, ?_, q', hq', fun hm => (hmem _ hm).elim hi hlog⟩
  · rw [ht.state, if_neg hd, if_neg hlog, hst]
  · rw [ht.sleepCounter, if_pos hst, sleepCounter_pred (by omega), hc]
    omega
  · exact fun hr => hd (ht.running_iff.1 hr)

theorem tick (h : Asleep s i (c + 2)) (sp : Int16) :
    ∃ s' log, timerLogged sp s = some (s', log) ∧ .pcbPool i ∉ log ∧ Asleep s' i (c + 1) := by
  obtain ⟨q, hq, hi⟩ := h.queue
  obtain ⟨s', q', hs, ht, hq', hmem⟩ := timerLogged_queue hq sp
  have hcount := h.counter
  have hlog : .pcbPool i ∉ woken s ++ requeued s := by
    rw [List.mem_append, wakes_iff_counter h.state (by omega)]
    rintro (hw | hr)
    · omega
    · exact h.notMem_requeued hr
  exact ⟨s', _, hs, hlog, of_ticked h.state hq hi hlog ht (by omega) hq' hmem⟩

theorem wake (h : Asleep s i 1) (sp : Int16) :
    ∃ s' log, timerLogged sp s = some (s', log) ∧ log.count (.pcbPool i) = 1 := by
  obtain ⟨q, hq, -⟩ := h.queue
  obtain ⟨s', q', hs, -⟩ := timerLogged_queue hq sp
  have hcount := h.counter
  have hw : .pcbPool i ∈ woken s := (wakes_iff_counter h.state (by omega)).2 (by omega)
  refine ⟨s', _, hs, ?_⟩
  rw [List.count_append, List.count_eq_one_of_mem (nodup_woken s) hw, List.count_eq_zero.2 h.notMem_requeued]

/-- **A sleeper is appended once**, when its time has come. -/
theorem wakesAt {s₀ : Proc} (hs : s₀.ticked sps k = some (s, log)) (h : Asleep s i (c + 1))
    (hno : ∀ m ≤ k, ∃ s' log, s₀.ticked sps m = some (s', log) ∧ .pcbPool i ∉ log) :
    WakesAt (.pcbPool i) sps s₀ (k + c + 1) 1 := by
  induction c generalizing k s log with
  | zero =>
    obtain ⟨s', log', h', hcount⟩ := h.wake (sps k)
    refine ⟨Nat.one_pos, ⟨s', log', ?_, hcount⟩, fun m hm => hno m (by omega)⟩
    rw [Nat.add_zero, Proc.ticked, hs]
    exact h'
  | succ c ih =>
    obtain ⟨s', log', h', hlog, hA⟩ := h.tick (sps k)
    have hs' : s₀.ticked sps (k + 1) = some (s', log') := by
      rw [Proc.ticked, hs]
      exact h'
    have hw := ih hs' hA fun m hm => by
      rcases Nat.lt_or_eq_of_le hm with hlt | rfl
      · exact hno m (by omega)
      · exact ⟨s', log', hs', hlog⟩
    rwa [show k + (c + 1) + 1 = k + 1 + c + 1 by omega]

end Asleep

/-! ## `sleep` -/

/-- What is left of `125 * seconds` in 16 bits. -/
def product (seconds : Int16) : ℤ := Int.bmod (125 * seconds.toInt) 65536

/-- The product of a number of seconds that is not negative does not become
    `-32768`, which would be decremented to a positive number. -/
theorem product_ne (h0 : 0 ≤ seconds) : product seconds ≠ -32768 := by
  rw [Int16.le_iff_toInt_le] at h0
  have e0 : (0 : Int16).toInt = 0 := rfl
  have hlt := seconds.toInt_lt
  simp only [product, Int.bmod]
  split_ifs <;> omega

theorem lieDown_counter (hr : s.running = .pcbPool i) (seconds : Int16) :
    (((lieDown seconds s).pcb (.pcbPool i)).state = .SLEEPING) ∧
    ((lieDown seconds s).pcb (.pcbPool i)).sleepCounter.toInt = product seconds ∧
    ((lieDown seconds s).pcb (.pcbPool i)).namedIdle = (s.pcb (.pcbPool i)).namedIdle := by
  have e125 : (125 : Int16).toInt = 125 := rfl
  rw [lieDown_pcb, if_pos hr.symm]
  refine ⟨rfl, ?_, rfl⟩
  simp only [product]
  rw [Int16.toInt_mul, e125, Int.mul_comm]

theorem lieDown_woken (hr : s.running = .pcbPool i) (h0 : 0 ≤ seconds) :
    .pcbPool i ∈ woken (lieDown seconds s) ↔ product seconds ≤ 1 := by
  obtain ⟨hst, hcount, -⟩ := lieDown_counter hr seconds
  rw [wakes_iff_counter hst (by rw [hcount]; exact product_ne h0), hcount]

theorem lieDown_requeued (hr : s.running = .pcbPool i) (h0 : 0 ≤ seconds) :
    .pcbPool i ∈ requeued (lieDown seconds s) ↔
      product seconds ≤ 1 ∧ (s.pcb (.pcbPool i)).namedIdle = false := by
  obtain ⟨hst, -, hname⟩ := lieDown_counter hr seconds
  have hrun : (lieDown seconds s).running = .pcbPool i := hr
  rw [mem_requeued, hrun, hst, hname, lieDown_woken hr h0, and_comm (a := product seconds ≤ 1)]
  simp

theorem nodup_requeued (s : Proc) : (requeued s).Nodup := by
  unfold requeued
  split_ifs
  · exact List.nodup_singleton _
  · exact List.nodup_nil

/-- A process that wakes at once is appended as a sleeper, and as the running
    process if it has not the name of the idle process. -/
theorem lieDown_count (hr : s.running = .pcbPool i) (h0 : 0 ≤ seconds) (hle : product seconds ≤ 1) :
    (woken (lieDown seconds s) ++ requeued (lieDown seconds s)).count (.pcbPool i) =
      if product seconds ≤ 1 ∧ (s.pcb (.pcbPool i)).namedIdle = false then 2 else 1 := by
  have hback := lieDown_requeued hr h0
  rw [List.count_append, List.count_eq_one_of_mem (nodup_woken _) ((lieDown_woken hr h0).2 hle)]
  split_ifs with hc
  · rw [List.count_eq_one_of_mem (nodup_requeued _) (hback.2 hc)]
  · rw [List.count_eq_zero.2 fun hm => hc (hback.1 hm)]

/-- **When a process that lies down is appended**, and how often: if the product is
    at most 1, as a sleeper that wakes and as the running process. -/
theorem lieDown_wakesAt (hq : Queue s q) (hr : s.running = .pcbPool i) (hi : .pcbPool i ∉ q)
    (h0 : 0 ≤ seconds) (sps : ℕ → Int16) :
    WakesAt (.pcbPool i) sps (lieDown seconds s) (max 1 (product seconds)).toNat
      (if product seconds ≤ 1 ∧ (s.pcb (.pcbPool i)).namedIdle = false then 2 else 1) := by
  obtain ⟨hst, hcount, -⟩ := lieDown_counter hr seconds
  have hq₀ := hq.sameLinks (sameLinks_lieDown seconds s)
  obtain ⟨s', q', hs, ht, hq', hmem⟩ := timerLogged_queue hq₀ (sps 0)
  have h1 : (lieDown seconds s).ticked sps 1 =
      some (s', woken (lieDown seconds s) ++ requeued (lieDown seconds s)) := hs
  have hzero : ∃ s' log, (lieDown seconds s).ticked sps 0 = some (s', log) ∧ .pcbPool i ∉ log :=
    ⟨_, _, rfl, List.not_mem_nil⟩
  rcases le_or_gt (product seconds) 1 with hle | hgt
  · rw [max_eq_left hle, Int.toNat_one]
    refine ⟨by split_ifs <;> omega, ⟨s', _, h1, lieDown_count hr h0 hle⟩, fun m hm => ?_⟩
    obtain rfl : m = 0 := by omega
    exact hzero
  · have hlog : .pcbPool i ∉ woken (lieDown seconds s) ++ requeued (lieDown seconds s) := by
      rw [List.mem_append, lieDown_woken hr h0, lieDown_requeued hr h0]
      omega
    obtain ⟨c, hc⟩ : ∃ c : ℕ, product seconds = c + 2 := ⟨(product seconds - 2).toNat, by omega⟩
    have hA : Asleep s' i (c + 1) :=
      Asleep.of_ticked hst hq₀ hi hlog ht (by rw [hcount, hc]; push_cast; ring) hq' hmem
    have hwake := Asleep.wakesAt h1 hA fun m hm => by
      rcases Nat.lt_or_eq_of_le hm with hlt | rfl
      · obtain rfl : m = 0 := by omega
        exact hzero
      · exact ⟨s', _, h1, hlog⟩
    rw [if_neg fun h => by omega, max_eq_right hgt.le, hc]
    convert hwake using 1
    omega

theorem appended_once {x : ℤ} {named : Bool} :
    1 = (if x ≤ 1 ∧ named = false then 2 else 1) ↔ named = true ∨ 2 ≤ x := by
  cases named
  · simp only [and_true, Bool.false_eq_true, false_or]
    split_ifs <;> omega
  · simp

/-- Two runs in which the running process sleeps and only timer interrupts follow:
    in each of them it is appended to the queue once, and not later in the first
    one. -/
def SleepsInOrder (s : Proc) (seconds₁ seconds₂ : Int16) : Prop := ∀ sps₁ sps₂, ∃ n₁ n₂,
  WakesAt s.running sps₁ (lieDown seconds₁ s) n₁ 1 ∧ WakesAt s.running sps₂ (lieDown seconds₂ s) n₂ 1 ∧ n₁ ≤ n₂

/-- **Sleeping is monotone** just where the products are: neither is below 2,
    unless the process has the name of the idle process, and they are in order. -/
theorem sleep_monotone (hq : Queue s q) (hr : s.running = .pcbPool i) (hi : .pcbPool i ∉ q)
    (h1 : 0 ≤ seconds₁) (h2 : seconds₁ ≤ seconds₂) : SleepsInOrder s seconds₁ seconds₂ ↔
      ((s.pcb (.pcbPool i)).namedIdle = true ∨ 2 ≤ product seconds₁ ∧ 2 ≤ product seconds₂) ∧
      max 1 (product seconds₁) ≤ max 1 (product seconds₂) := by
  have hw₁ := fun sps => lieDown_wakesAt hq hr hi h1 sps
  have hw₂ := fun sps => lieDown_wakesAt hq hr hi (Int16.le_trans h1 h2) sps
  rw [SleepsInOrder, hr]
  constructor
  · intro h
    obtain ⟨n₁, n₂, hn₁, hn₂, hle⟩ := h (fun _ => 0) fun _ => 0
    obtain ⟨rfl, hc₁⟩ := hn₁.unique (hw₁ _)
    obtain ⟨rfl, hc₂⟩ := hn₂.unique (hw₂ _)
    refine ⟨?_, by omega⟩
    rcases appended_once.1 hc₁ with hidle | hx₁
    · exact .inl hidle
    · exact (appended_once.1 hc₂).imp_right fun hx₂ => ⟨hx₁, hx₂⟩
  · rintro ⟨hcount, hle⟩ sps₁ sps₂
    have h₁ := hw₁ sps₁
    have h₂ := hw₂ sps₂
    rw [← appended_once.2 (hcount.imp_right And.left)] at h₁
    rw [← appended_once.2 (hcount.imp_right And.right)] at h₂
    exact ⟨_, _, h₁, h₂, by omega⟩

/-- A process that runs alone. -/
def aloneProc (i : Fin 8) : Proc :=
  { oneFileKernel.setState (.pcbPool i) .RUNNING with running := .pcbPool i }

theorem aloneProc_queue : Queue (aloneProc i) [] := ⟨rfl, rfl, List.isChain_nil, List.nodup_nil⟩

theorem sleep_monotone_one : SleepsInOrder (aloneProc 0) 1 262 :=
  (sleep_monotone aloneProc_queue rfl List.not_mem_nil (by decide) (by decide)).2 (by decide)

/-- **A process that sleeps for no time is appended twice**, and 263 seconds are
    shorter than one. -/
theorem sleep_overflows : Queue (aloneProc 0) [] ∧ ¬ SleepsInOrder (aloneProc 0) 0 0 ∧
    ¬ SleepsInOrder (aloneProc 0) 1 263 := by
  have hw := fun seconds (h0 : 0 ≤ seconds) => lieDown_wakesAt (aloneProc_queue (i := 0)) rfl List.not_mem_nil h0
    fun _ => 0
  refine ⟨aloneProc_queue, ?_, ?_⟩
  · intro h
    obtain ⟨n₁, n₂, hn₁, -⟩ := h (fun _ => 0) fun _ => 0
    have hc := (hn₁.unique (hw 0 (by decide))).2
    rw [if_pos (by decide)] at hc
    omega
  · intro h
    obtain ⟨n₁, n₂, hn₁, hn₂, hle⟩ := h (fun _ => 0) fun _ => 0
    have h₁ := (hn₁.unique (hw 1 (by decide))).1
    have h₂ := (hn₂.unique (hw 263 (by decide))).1
    rw [show product 1 = 125 by decide] at h₁
    rw [show product 263 = -32661 by decide] at h₂
    simp only [h₁, h₂] at hle
    omega

end TeamXtremeOS
