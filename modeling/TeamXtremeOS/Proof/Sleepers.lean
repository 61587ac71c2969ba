/-
  Runs with sleepers: whatever the links contain at first, the scheduler
  refines round robin with sleepers.
-/
import TeamXtremeOS.Proof.Refine

namespace TeamXtremeOS

open Lib

variable {k : Kernel} {m m' : Machine} {a : RoundRobin (Fin 8)} {c : Call} {es : List Call} {i : Fin 8}

/-- The calls of a run with sleepers: successful calls of `executeProgram`,
    sleeps of 1 to 262 seconds, and the timer. -/
def SleeperCall (m : Machine) : Call → Prop
  | .executeProgram name => m.halted = false ∧ startsIdle name = false ∧ Succeeds name m.kernel
  | .sleep seconds sp => m.MayCall (.sleep seconds sp) ∧ 1 ≤ seconds ∧ seconds ≤ 262
  | .timer _ => True
  | _ => False

instance : ∀ (m : Machine) (c : Call), Decidable (SleeperCall m c)
  | _, .executeProgram _ | _, .sleep _ _ => inferInstanceAs (Decidable (_ ∧ _ ∧ _))
  | _, .timer _ => inferInstanceAs (Decidable True)
  | _, .terminate | _, .kill _ | _, .yield => inferInstanceAs (Decidable False)

/-- The timer interrupts a call raises. -/
def Call.ticks : Call → ℕ
  | .timer _ => 1
  | .sleep _ _ => 1
  | _ => 0

def ticks (es : List Call) : ℕ := (es.map Call.ticks).sum

theorem SleeperCall.step (h : Refines Queue m a) (hc : SleeperCall m c) (hs : m.step c = some m') :
    Refines Queue m' (a.step poolOrder (event m c)) := by
  cases c with
  | executeProgram name => exact h.executeProgram queueInv_queue hc.1 hc.2.1 hc.2.2 hs
  | sleep seconds sp =>
    obtain ⟨m₁, h1, h2⟩ := h.sleep queueInv_queue hc.1 hc.2.1 hc.2.2
    rw [hs] at h1; cases h1
    exact h2
  | timer sp =>
    obtain ⟨m₁, h1, h2⟩ := h.timer queueInv_queue sp
    rw [hs] at h1; cases h1
    exact h2
  | terminate => cases hc
  | kill => cases hc
  | yield => cases hc

theorem ticks_event (m : Machine) (c : Call) : (event m c).ticks = c.ticks := by cases c <;> rfl

theorem refines_run (h : Refines Queue m a) (hr : Run Machine.step SleeperCall m es m') :
    Refines Queue m' ((labels Machine.step event m es).foldl (RoundRobin.step poolOrder) a) :=
  hr.simulate (fun _ _ _ _ hR hc hs => SleeperCall.step hR hc hs) h

/-- Process `i` sleeps for `n` more ticks: it neither waits nor runs. -/
structure Sleeps (m : Machine) (i : Fin 8) (n : ℕ) : Prop where
  state : (m.kernel.pcb (.pcbPool i)).state = .SLEEPING
  counter : (m.kernel.pcb (.pcbPool i)).sleepCounter.toInt = n
  off : ¬ OnQueue m.kernel.toProc (.pcbPool i)
  notRunning : m.kernel.running ≠ .pcbPool i

theorem Refines.onQueue_iff (h : Refines Queue m a) :
    OnQueue m.kernel.toProc (.pcbPool i) ↔ i ∈ a.queue := by
  rw [h.queue.onQueue_iff, List.mem_map_of_injective pcbPool_injective]

/-- The running process, when it is one of the pool that has not terminated. -/
theorem Refines.running_iff (h : Refines Queue m a) (hm : m.halted = false) :
    m.kernel.running = .pcbPool i ↔ a.running = some i := by
  constructor
  · intro hi
    obtain ⟨j, hj⟩ := h.running_eq hm (by rw [hi]; simp)
    have := h.running j hj
    rw [hi] at this
    rw [hj, PCBRef.pcbPool.inj this]
  · exact h.running i

theorem Refines.sleeps (h : Refines Queue m a) (hi : a.asleep i ≠ 0) : Sleeps m i (a.asleep i) where
  state := (h.asleep i).1 hi
  counter := h.counter i ((h.asleep i).1 hi)
  off hq := by
    have h1 := (h.asleep i).1 hi
    have h2 := (h.ready i).1 (h.onQueue_iff.1 hq)
    simp [h1] at h2
  notRunning hr := by
    have h1 := (h.asleep i).1 hi
    cases hh : m.halted with
    | true =>
      obtain ⟨-, j, hj, hd⟩ := h.halted hh
      rw [hr] at hj
      rw [← PCBRef.pcbPool.inj hj, h1] at hd
      cases hd
    | false =>
      have h2 := (h.active i).1 ((h.running_iff hh).1 hr)
      rw [h1] at h2; cases h2

/-- Along a run a sleeper's time passes with the ticks. -/
theorem asleep_run (h : Refines Queue m a) (hr : Run Machine.step SleeperCall m es m')
    (ht : ticks es < a.asleep i) :
    ((labels Machine.step event m es).foldl (RoundRobin.step poolOrder) a).asleep i =
      a.asleep i - ticks es := by
  induction hr generalizing a with
  | nil => rfl
  | @cons m c m₁ es m' hc hs _ ih =>
    have ht' : c.ticks + ticks es < a.asleep i := by simpa [ticks] using ht
    have hrun : a.running ≠ some i := fun hr => by
      have h1 := (h.active i).1 hr
      have h2 := (h.asleep i).1 (by omega)
      rw [h1] at h2; cases h2
    have hstep := RoundRobin.step_asleep poolOrder hrun (event m c)
    rw [ticks_event] at hstep
    simp only [labels, hs, List.foldl_cons]
    rw [ih (SleeperCall.step h hc hs) (by omega), hstep]
    simp only [ticks, List.map_cons, List.sum_cons]
    omega

theorem refines_init (k : Kernel) : Refines Queue (Machine.init k) ⟨[], none, fun _ => 0⟩ :=
  .init k (initializeProcStructures_booted k.toProc).queue

/-- A sleeper comes back at the tick that finds it with one tick to go: it is
    put on the queue, or dispatched from there at once. -/
theorem wakes_step (h : Refines Queue m a) (h1 : a.asleep i = 1) (hc : SleeperCall m c)
    (ht : c.ticks = 1) (hs : m.step c = some m') :
    (m'.kernel.pcb (.pcbPool i)).state ≠ .SLEEPING ∧
      (OnQueue m'.kernel.toProc (.pcbPool i) ↔ m'.kernel.running ≠ .pcbPool i) := by
  have hrun : a.running ≠ some i := fun hr => by
    have h2 := (h.active i).1 hr
    have h3 := (h.asleep i).1 (by omega)
    rw [h2] at h3; cases h3
  have h' := SleeperCall.step h hc hs
  have hz := RoundRobin.step_asleep poolOrder hrun (event m c)
  rw [ticks_event, ht, h1] at hz
  have hw := RoundRobin.step_wakes poolOrder hrun (List.mem_finRange i) h1
    ((ticks_event m c).trans ht)
  refine ⟨fun hst => (h'.asleep i).2 hst hz, ?_⟩
  have hm' : m'.halted = false := by
    cases c with
    | timer sp => obtain ⟨_, _, -, rfl⟩ := Machine.step_timer hs; rfl
    | sleep seconds sp => obtain ⟨_, _, -, rfl⟩ := Machine.step_sleep hs; rfl
    | _ => cases ht
  rw [h'.onQueue_iff, ne_eq, h'.running_iff hm']
  refine ⟨?_, fun hr => hw.resolve_right hr⟩
  intro hq hr
  have h2 := (h'.active i).1 hr
  have h3 := (h'.ready i).1 hq
  simp [h2] at h3

/-- The sleep that starts at `m` with `seconds` has `125 * seconds` ticks. -/
theorem sleep_run {seconds sp : Int16} {m₁ m₂ : Machine} (h : Refines Queue m a)
    (hi : m.kernel.running = .pcbPool i) (hc : SleeperCall m (.sleep seconds sp))
    (hs : m.step (.sleep seconds sp) = some m₁) (hr : Run Machine.step SleeperCall m₁ es m₂)
    (ht : 1 + ticks es < 125 * seconds.toInt.toNat) :
    ∃ b, Refines Queue m₂ b ∧ b.asleep i = 125 * seconds.toInt.toNat - (1 + ticks es) := by
  have h1 := SleeperCall.step h hc hs
  have ha : (a.step poolOrder (event m (.sleep seconds sp))).asleep i =
      125 * seconds.toInt.toNat - 1 := by
    have := (h.running_iff hc.1.1).1 hi
    simp [event, RoundRobin.step, RoundRobin.sleep, this, RoundRobin.tick]
  refine ⟨_, refines_run h1 hr, ?_⟩
  rw [asleep_run h1 hr (by omega), ha]
  omega

/-- **The scheduler refines round robin with sleepers**, in every run, from any
    links, and never follows a `NULL` pointer.  A process that calls
    `sleep(seconds)` neither waits nor runs until the timer interrupt number
    `125 * seconds`, counting the one `sleep` raises, and is put on the queue by
    that one. -/
theorem sleepers_refine (h : Run Machine.step SleeperCall (Machine.init k) es m) :
    Refines Queue m (roundRobin (Machine.init k) es) ∧
    (∀ sp, ∃ m', m.step (.timer sp) = some m') ∧
    (∀ seconds sp, SleeperCall m (.sleep seconds sp) → ∃ m', m.step (.sleep seconds sp) = some m') ∧
    (∀ name, Loads name m.kernel → ∃ m', m.step (.executeProgram name) = some m') ∧
    ∀ i seconds sp m₁ es' m₂, m.kernel.running = .pcbPool i → SleeperCall m (.sleep seconds sp) →
      m.step (.sleep seconds sp) = some m₁ → Run Machine.step SleeperCall m₁ es' m₂ →
      (1 + ticks es' < 125 * seconds.toInt.toNat →
        Sleeps m₂ i (125 * seconds.toInt.toNat - (1 + ticks es'))) ∧
      (1 + ticks es' + 1 = 125 * seconds.toInt.toNat → ∀ c m₃, SleeperCall m₂ c → c.ticks = 1 →
        m₂.step c = some m₃ → (m₃.kernel.pcb (.pcbPool i)).state ≠ .SLEEPING ∧
          (OnQueue m₃.kernel.toProc (.pcbPool i) ↔ m₃.kernel.running ≠ .pcbPool i)) := by
  have hR := refines_run (refines_init k) h
  refine ⟨hR, ?_, ?_, ?_,
    fun i seconds sp m₁ es' m₂ hi hc hs hr => ⟨?_, ?_⟩⟩
  · intro sp
    obtain ⟨m', hm', -⟩ := hR.timer queueInv_queue sp
    exact ⟨m', hm'⟩
  · intro seconds sp hc
    obtain ⟨m', hm', -⟩ := hR.sleep queueInv_queue hc.1 hc.2.1 hc.2.2
    exact ⟨m', hm'⟩
  · intro name hl
    exact hR.executeProgram_loads queueInv_queue hl
  · intro ht
    obtain ⟨b, hb, hz⟩ := sleep_run hR hi hc hs hr ht
    rw [← hz]
    exact hb.sleeps (by omega)
  · intro ht c m₃ hc' htc hs'
    obtain ⟨b, hb, hz⟩ := sleep_run hR hi hc hs hr (by omega)
    exact wakes_step hb (by omega) hc' htc hs'

/-- Two processes, of which the first sleeps. -/
theorem sleepers_refine_two : ∃ m,
    (m.kernel.pcb (.pcbPool 0)).state = .SLEEPING ∧ m.kernel.running = .pcbPool 1 ∧
    Refines Queue m (roundRobin (Machine.init oneFileKernel)
      [.executeProgram nameA, .timer 7, .executeProgram nameA, .sleep 1 9, .timer 8]) := by
  have h : (evalRun Machine.step SleeperCall (Machine.init oneFileKernel)
      [.executeProgram nameA, .timer 7, .executeProgram nameA, .sleep 1 9, .timer 8]).any
      (fun m => (m.kernel.pcb (.pcbPool 0)).state = .SLEEPING ∧ m.kernel.running = .pcbPool 1) =
      true := by decide +kernel
  obtain ⟨m, hr, hm⟩ := Run.exists_of_evalRun h
  simp only [decide_eq_true_eq] at hm
  exact ⟨m, hm.1, hm.2, (sleepers_refine hr).1⟩

end TeamXtremeOS
