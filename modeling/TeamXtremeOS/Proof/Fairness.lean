/-
  Fairness: processes that are started and then only interrupted take turns,
  unless one of them has the name of the idle process.
-/
import TeamXtremeOS.Lib.RoundRobin
import TeamXtremeOS.Proof.Isolation
import TeamXtremeOS.Proof.ReadyQueue

namespace TeamXtremeOS

open Lib

variable {s s' : Proc} {k : Kernel} {m m' : Machine} {i j p : Fin 8} {q l : List PCBRef} {name : FileName}
  {names : List FileName} {sp : Int16} {sps : ℕ → Int16} {t n : ℕ} {x : PCBRef}

/-! ## Timer interrupts only -/

/-- The machine after `t` timer interrupts, which find the stack pointers
    `sps 0`, `sps 1`, … -/
def Machine.ticked (m : Machine) (sps : ℕ → Int16) : ℕ → Option Machine
  | 0 => some m
  | t + 1 => (m.ticked sps t).bind fun m' => m'.step (.timer (sps t))

/-- In every run of timer interrupts only: none of them fails, each process of `m`
    is running or on the ready queue after each of them, and each one has been
    running after one of any `n` consecutive ones. -/
structure Fair (m : Machine) (n : ℕ) : Prop where
  present : ∀ sps t, 1 ≤ t → ∃ m', m.ticked sps t = some m' ∧ ∀ i, Live m.kernel.toProc i →
    m'.kernel.running = .pcbPool i ∨ OnQueue m'.kernel.toProc (.pcbPool i)
  turn : ∀ sps t i, Live m.kernel.toProc i → ∃ t' m', t < t' ∧ t' ≤ t + n ∧
    m.ticked sps t' = some m' ∧ m'.kernel.running = .pcbPool i

/-- The ready queue is `q`, and nobody sleeps. -/
structure Turns (s : Proc) (q : List PCBRef) : Prop where
  ready : ReadyQueue Queue s q
  awake : ∀ i, (s.pcb (.pcbPool i)).state ≠ .SLEEPING
  live : ∀ i, s.running = .pcbPool i → Live s i

namespace Turns

/-- A tick puts the running process at the end, if it has not the name of the
    idle process, and dispatches the first one. -/
theorem tick (h : Turns m.kernel.toProc q) (sp : Int16) : ∃ m', m.step (.timer sp) = some m' ∧
    Turns m'.kernel.toProc (q ++ requeued m.kernel.toProc).tail ∧
    m'.kernel.running = (q ++ requeued m.kernel.toProc).head?.getD .idleProc ∧
    ∀ x, (m'.kernel.pcb x).name = (m.kernel.pcb x).name := by
  have hw : woken m.kernel.toProc = [] := woken_awake h.awake
  obtain ⟨r, s', hts, ht, hq⟩ := h.ready.tick queueInv_queue (by rw [hw]; simp)
    (stackSegment m.kernel.toProc) sp
  have hrun : s'.running = (q ++ requeued m.kernel.toProc).head?.getD .idleProc := by
    rw [ht.running, h.ready.queue.dispatched_eq, hw, List.append_nil]
  rw [hw, List.append_nil] at hq
  refine ⟨_, Machine.step_timer_of hts, ⟨hq, ?_, ?_⟩, hrun, ht.name⟩
  · intro i
    rw [ht.state]
    split_ifs
    · decide
    · decide
    · exact h.awake i
  · intro i hi
    have hst := ht.active hi
    rw [Live, hst]
    decide

theorem ticked (h : Turns m.kernel.toProc q) (sps : ℕ → Int16) (t : ℕ) : ∃ m' q', m.ticked sps t = some m' ∧
    Turns m'.kernel.toProc q' ∧ ∀ x, (m'.kernel.pcb x).name = (m.kernel.pcb x).name := by
  induction t with
  | zero => exact ⟨m, q, rfl, h, fun _ => rfl⟩
  | succ t ih =>
    obtain ⟨m₁, q₁, h1, hq₁, hn₁⟩ := ih
    obtain ⟨m₂, h2, hq₂, -, hn₂⟩ := hq₁.tick (sps t)
    refine ⟨m₂, _, ?_, hq₂, fun x => (hn₂ x).trans (hn₁ x)⟩
    rw [Machine.ticked, h1]
    exact h2

theorem requeued_eq (h : Turns s q) (hr : s.running = .pcbPool i) : requeued s =
    if (s.pcb (.pcbPool i)).namedIdle then [] else [.pcbPool i] := by
  have hlive := h.live i hr
  rw [requeued, hr]
  by_cases hn : (s.pcb (.pcbPool i)).namedIdle = true
  · rw [if_pos hn, if_neg fun hc => by rw [hn] at hc; cases hc.2.1]
  · rw [if_neg hn, if_pos ⟨hlive, by simpa using hn, .inl (h.awake i)⟩]

/-- **A process with the name of the idle process is dropped** by the interrupt
    that finds it running. -/
theorem drops (h : Turns m.kernel.toProc q) (hr : m.kernel.running = .pcbPool i)
    (hn : (m.kernel.pcb (.pcbPool i)).namedIdle = true) (hs : m.step (.timer sp) = some m') :
    m'.kernel.running ≠ .pcbPool i ∧ ¬ OnQueue m'.kernel.toProc (.pcbPool i) := by
  obtain ⟨m₁, h1, hq, hrun, -⟩ := h.tick sp
  rw [hs, Option.some.injEq] at h1
  subst h1
  rw [h.requeued_eq hr, if_pos hn, List.append_nil] at hq hrun
  have hno : .pcbPool i ∉ q := hr ▸ h.ready.notRunning
  constructor
  · intro hi
    rw [hrun] at hi
    cases q with
    | nil => cases hi
    | cons a q => exact hno (List.mem_cons.2 (.inl hi.symm))
  · rw [hq.ready.queue.onQueue_iff]
    exact fun hm => hno (List.mem_of_mem_tail hm)

end Turns

/-! ## Rotation -/

/-- The running process is the first of `l`, the others are the ready queue, and
    none of them has the name of the idle process. -/
structure Rotates (s : Proc) (l : List PCBRef) : Prop where
  turns : Turns s l.tail
  running : l.head? = some s.running
  named : ∀ x ∈ l, (s.pcb x).namedIdle = false

theorem Rotates.tick (h : Rotates m.kernel.toProc l) (sp : Int16) :
    ∃ m', m.step (.timer sp) = some m' ∧ Rotates m'.kernel.toProc (l.rotate 1) := by
  obtain ⟨m', hs, hq, hrun, hname⟩ := h.turns.tick sp
  refine ⟨m', hs, ?_⟩
  cases l with
  | nil => cases h.running
  | cons a l =>
    have ha : a = m.kernel.running := Option.some.inj h.running
    have hback : requeued m.kernel.toProc = [a] := by
      rcases hr : m.kernel.running with _ | i
      · have hn := h.named a List.mem_cons_self
        rw [ha, hr, h.turns.ready.idleName] at hn
        cases hn
      · rw [h.turns.requeued_eq hr, ← hr, ← ha, h.named a List.mem_cons_self]
        rfl
    rw [List.tail_cons, hback] at hq hrun
    rw [List.rotate_cons_succ, List.rotate_zero]
    refine ⟨hq, ?_, ?_⟩
    · rw [hrun]
      cases l <;> rfl
    · intro x hx
      rw [PCB.namedIdle, hname]
      refine h.named x ?_
      rw [List.mem_append, List.mem_singleton] at hx
      exact List.mem_cons.2 hx.symm

/-- After the first tick, the processes rotate. -/
theorem Rotates.ticked (h : Rotates m.kernel.toProc l) (sps : ℕ → Int16) (t : ℕ) :
    ∃ m', m.ticked sps t = some m' ∧ Rotates m'.kernel.toProc (l.rotate t) := by
  induction t with
  | zero => exact ⟨m, rfl, by rwa [List.rotate_zero]⟩
  | succ t ih =>
    obtain ⟨m₁, h1, hl⟩ := ih
    obtain ⟨m₂, h2, hl₂⟩ := hl.tick (sps t)
    rw [List.rotate_rotate] at hl₂
    refine ⟨m₂, ?_, hl₂⟩
    rw [Machine.ticked, h1]
    exact h2

theorem Machine.ticked_succ (m : Machine) (sps : ℕ → Int16) (t : ℕ) : m.ticked sps (t + 1) =
    (m.step (.timer (sps 0))).bind fun m' => m'.ticked (fun t => sps (t + 1)) t := by
  induction t with
  | zero =>
    rw [Machine.ticked, Machine.ticked, Option.bind_some]
    cases m.step (.timer (sps 0)) <;> rfl
  | succ t ih =>
    rw [Machine.ticked, ih, Option.bind_assoc]
    rfl

/-! ## Starts -/

/-- Successful calls of `executeProgram`. -/
def StartCall (m : Machine) : Call → Prop
  | .executeProgram name => Succeeds name m.kernel
  | _ => False

instance : ∀ (m : Machine) (c : Call), Decidable (StartCall m c)
  | m, .executeProgram name => inferInstanceAs (Decidable (Succeeds name m.kernel))
  | _, .terminate | _, .kill _ | _, .yield | _, .sleep _ _ | _, .timer _ => inferInstanceAs (Decidable False)

/-- The processes that have been started stand in the queue, the idle process
    runs. -/
structure Lined (s : Proc) (l : List PCBRef) : Prop where
  turns : Turns s l
  idle : s.running = .idleProc
  live : ∀ i, Live s i ↔ .pcbPool i ∈ l

theorem Lined.started (h : Lined s l) (hs : Started name i p s s') : Lined s' (l ++ [.pcbPool p]) ∧
    (l ++ [PCBRef.pcbPool p]).map (fun x => (s'.pcb x).namedIdle) =
      l.map (fun x => (s.pcb x).namedIdle) ++ [startsIdle name] := by
  have hp : .pcbPool p ∉ l := fun hm => (h.live p).2 hm hs.defunct
  constructor
  · refine ⟨⟨h.turns.ready.started queueInv_queue hs (by rw [h.idle]; simp), ?_, ?_⟩,
      hs.running.trans h.idle, ?_⟩
    · intro j
      rw [hs.state]
      split_ifs
      · decide
      · exact h.turns.awake j
    · intro j hj
      rw [hs.running, h.idle] at hj
      cases hj
    · intro j
      rw [hs.live_iff, h.live, List.mem_append, List.mem_singleton, PCBRef.pcbPool.injEq, or_comm]
  · rw [List.map_append, List.map_singleton, hs.namedIdle]
    congr 1
    refine List.map_congr_left ?_
    intro x hx
    rw [PCB.namedIdle, PCB.namedIdle, hs.name x fun he => hp (he ▸ hx)]

theorem Lined.starts (h : Lined m.kernel.toProc l)
    (hr : Run Machine.step StartCall m (names.map .executeProgram) m') : ∃ l', Lined m'.kernel.toProc l' ∧
      l'.map (fun x => (m'.kernel.pcb x).namedIdle) =
        l.map (fun x => (m.kernel.pcb x).namedIdle) ++ names.map startsIdle := by
  induction names generalizing m l with
  | nil =>
    cases hr
    exact ⟨l, h, by rw [List.map_nil, List.append_nil]⟩
  | cons name names ih =>
    rcases hr with _ | ⟨hc, hs, hr⟩
    obtain ⟨-, i, p, hst⟩ := hc.started hs
    obtain ⟨h1, hmap⟩ := h.started hst
    obtain ⟨l', h', hmap'⟩ := ih h1 hr
    refine ⟨l', h', ?_⟩
    rw [hmap', hmap, List.append_assoc]
    rfl

theorem lined_init (k : Kernel) : Lined (Machine.init k).kernel.toProc [] := by
  have hb := initializeProcStructures_booted k.toProc
  refine ⟨⟨hb.readyQueue hb.queue, ?_, ?_⟩, hb.running, ?_⟩
  · intro i
    rw [show ((Machine.init k).kernel.pcb (.pcbPool i)).state = .DEFUNCT from hb.defunct i]
    decide
  · intro i hi
    cases hb.running.symm.trans hi
  · intro i
    exact ⟨fun hl => absurd (hb.defunct i) hl, fun hm => (by cases hm)⟩

/-- The first interrupt dispatches the first process. -/
theorem Lined.rotates (h : Lined m.kernel.toProc l) (hl : l ≠ [])
    (hn : ∀ x ∈ l, (m.kernel.pcb x).namedIdle = false) (sp : Int16) :
    ∃ m', m.step (.timer sp) = some m' ∧ Rotates m'.kernel.toProc l := by
  obtain ⟨m', hs, hq, hrun, hname⟩ := h.turns.tick sp
  have hback : requeued m.kernel.toProc = [] := by
    rw [requeued, h.idle, h.turns.ready.idleName, if_neg fun hc => by cases hc.2.1]
  rw [hback, List.append_nil] at hq hrun
  refine ⟨m', hs, hq, ?_, ?_⟩
  · rw [hrun]
    cases l with
    | nil => exact absurd rfl hl
    | cons a l => rfl
  · intro x hx
    rw [PCB.namedIdle, hname]
    exact hn x hx

/-- A process with the name of the idle process gets its turn, and is gone after
    the next interrupt. -/
theorem Lined.not_fair (h : Lined m.kernel.toProc l) (hx : x ∈ l) (hn : (m.kernel.pcb x).namedIdle = true) :
    ¬ Fair m n := by
  intro hf
  obtain ⟨i, rfl⟩ := exists_pool (h.turns.ready.ready x hx).1
  have hlive := (h.live i).2 hx
  obtain ⟨t, m₁, -, -, h1, hrun⟩ := hf.turn (fun _ => 0) 0 i hlive
  obtain ⟨m₂, h2, hall⟩ := hf.present (fun _ => 0) (t + 1) (by omega)
  obtain ⟨m₁', q, h1', hq, hname⟩ := h.turns.ticked (fun _ => 0) t
  rw [h1, Option.some.injEq] at h1'
  subst h1'
  rw [Machine.ticked, h1, Option.bind_some] at h2
  obtain ⟨hno, hoff⟩ := hq.drops hrun (by rw [PCB.namedIdle, hname]; exact hn) h2
  exact (hall i hlive).elim hno hoff

theorem Rotates.present (h : Rotates s l) (hi : .pcbPool i ∈ l) :
    s.running = .pcbPool i ∨ OnQueue s (.pcbPool i) := by
  have hhead := h.running
  rw [h.turns.ready.queue.onQueue_iff]
  rcases l with _ | ⟨a, l⟩
  · cases hhead
  · cases hhead
    exact (List.mem_cons.1 hi).imp_left Eq.symm

/-- Processes that rotate from the first interrupt on take turns. -/
theorem Lined.fair_of_rotates (h : Lined m.kernel.toProc l) (hr : ∀ sps t, ∃ m', m.ticked sps (t + 1) = some m' ∧
    Rotates m'.kernel.toProc (l.rotate t)) : Fair m l.length := by
  constructor
  · intro sps t ht
    obtain ⟨t, rfl⟩ := Nat.exists_eq_add_of_le' ht
    obtain ⟨m', hm', hR⟩ := hr sps t
    exact ⟨m', hm', fun i hi => hR.present (List.mem_rotate.2 ((h.live i).1 hi))⟩
  · intro sps t i hi
    obtain ⟨r, hle, hlt, hhead⟩ := exists_rotate ((h.live i).1 hi) t
    obtain ⟨m', hm', hR⟩ := hr sps r
    exact ⟨r + 1, m', by omega, by omega, hm', Option.some.inj (hR.running.symm.trans hhead)⟩

theorem Lined.fair (h : Lined m.kernel.toProc l) (hn : ∀ x ∈ l, (m.kernel.pcb x).namedIdle = false) :
    Fair m l.length := by
  by_cases hnil : l = []
  · subst hnil
    have hno : ∀ i, ¬ Live m.kernel.toProc i := fun i hi => by cases (h.live i).1 hi
    refine ⟨?_, fun _ _ i hi => absurd hi (hno i)⟩
    intro sps t _
    obtain ⟨m', -, ht, -⟩ := h.turns.ticked sps t
    exact ⟨m', ht, fun i hi => absurd hi (hno i)⟩
  · refine h.fair_of_rotates ?_
    intro sps t
    obtain ⟨m₁, h1, hl₁⟩ := h.rotates hnil hn (sps 0)
    rw [Machine.ticked_succ, h1]
    exact hl₁.ticked _ t

/-- **Scheduling is fair** exactly if no program has the name of the idle
    process. -/
theorem names_fair (h : Run Machine.step StartCall (Machine.init k) (names.map .executeProgram) m) :
    Fair m names.length ↔ ∀ name ∈ names, startsIdle name = false := by
  obtain ⟨l, hl, hmap⟩ := (lined_init k).starts h
  rw [List.map_nil, List.nil_append] at hmap
  have hlen : l.length = names.length := by simpa using congrArg List.length hmap
  constructor
  · intro hf name hname
    by_contra hidle
    rw [Bool.not_eq_false] at hidle
    have hmem : true ∈ names.map startsIdle := hidle ▸ List.mem_map_of_mem hname
    rw [← hmap] at hmem
    obtain ⟨x, hx, hxn⟩ := List.mem_map.1 hmem
    exact hl.not_fair hx hxn hf
  · intro hnames
    rw [← hlen]
    refine hl.fair ?_
    intro x hx
    have hmem : (m.kernel.pcb x).namedIdle ∈ names.map startsIdle := by
      rw [← hmap]
      exact List.mem_map_of_mem hx
    obtain ⟨name, hname, he⟩ := List.mem_map.1 hmem
    rw [← he]
    exact hnames name hname

/-- Two programs named `A`. -/
theorem names_fair_two : ∃ m, Fair m 2 := by
  have h : (evalRun Machine.step StartCall (Machine.init oneFileKernel)
      [.executeProgram nameA, .executeProgram nameA]).any (fun _ => true) = true := by decide +kernel
  obtain ⟨m, hr, -⟩ := Run.exists_of_evalRun h
  have hr : Run Machine.step StartCall (Machine.init oneFileKernel) ([nameA, nameA].map .executeProgram) m := hr
  exact ⟨m, (names_fair hr).2 (by simp [show startsIdle nameA = false by decide])⟩

/-- The name `IDLE`. -/
def nameIdle : FileName := ![0x49, 0x44, 0x4C, 0x45, 0, 0]

/-- A kernel with one file, named `IDLE`. -/
def idleFileKernel : Kernel := namedKernel nameIdle

/-- **A program named `IDLE`** is gone after two interrupts: nobody runs it, and
    it is not on the queue. -/
theorem idle_dropped : ∃ m, Run Machine.step StartCall (Machine.init idleFileKernel)
    [.executeProgram nameIdle] m ∧ Live m.kernel.toProc 0 ∧ ¬ Fair m 1 := by
  have h : (evalRun Machine.step StartCall (Machine.init idleFileKernel) [.executeProgram nameIdle]).any
      (fun m => Live m.kernel.toProc 0 ∧ (m.ticked (fun _ => 0) 2).any fun m' =>
        m'.kernel.running = .idleProc ∧ m'.kernel.readyHead = none) = true := by decide +kernel
  obtain ⟨m, hr, hm⟩ := Run.exists_of_evalRun h
  simp only [decide_eq_true_eq, Option.any_eq_true] at hm
  obtain ⟨hlive, m₂, h2, hrun, hhead⟩ := hm
  refine ⟨m, hr, hlive, ?_⟩
  intro hf
  obtain ⟨m', h2', hall⟩ := hf.present (fun _ => 0) 2 (by omega)
  rw [h2, Option.some.injEq] at h2'
  subst h2'
  rcases hall 0 hlive with hi | hq
  · rw [hrun] at hi
    cases hi
  · exact hq.nonempty hhead

end TeamXtremeOS
