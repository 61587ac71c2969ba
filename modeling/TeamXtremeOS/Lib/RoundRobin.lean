/-
  Round robin with sleepers, over an arbitrary type of processes.

  A tick wakes the sleepers whose time has come, in a fixed order, puts the
  running process behind them, and dispatches the first of the queue.
-/
import Mathlib.Logic.Function.Basic
import Mathlib.Data.List.Rotate

namespace Lib

variable {α : Type*} [DecidableEq α]

/-- The state of a round-robin scheduler: the waiting processes, the running
    one (`none` when the machine idles), and for each process the number of
    ticks until it wakes, `0` for a process that is not asleep. -/
structure RoundRobin (α : Type*) where
  queue : List α
  running : Option α
  asleep : α → ℕ

namespace RoundRobin

/-- What happens to a scheduler; it does not notice a `skip`. -/
inductive Event (α : Type*) where
  | start (p : α)
  | exit
  | sleep (n : ℕ)
  | tick
  | skip

/-- The ticks of an event: going to sleep gives up the processor at once. -/
def Event.ticks {α : Type*} : Event α → ℕ
  | .start _ => 0
  | .exit => 0
  | .sleep _ => 1
  | .tick => 1
  | .skip => 0

variable (order : List α) (a : RoundRobin α) {p : α} {n : ℕ}

/-- The sleepers that wake at the next tick. -/
def woken : List α := order.filter fun p => a.asleep p = 1

/-- The queue of a tick, before its first process is dispatched. -/
def lineup : List α := a.queue ++ a.woken order ++ a.running.toList

def tick : RoundRobin α where
  queue := (a.lineup order).tail
  running := (a.lineup order).head?
  asleep p := a.asleep p - 1

/-- The running process lies down for `n` ticks, the first of which is now. -/
def sleep (n : ℕ) : RoundRobin α :=
  match a.running with
  | none => a.tick order
  | some p => tick order { a with running := none, asleep := Function.update a.asleep p n }

def step : Event α → RoundRobin α
  | .start p => { a with queue := a.queue ++ [p] }
  | .exit => { a with running := none }
  | .sleep n => a.sleep order n
  | .tick => a.tick order
  | .skip => a

variable {order a}

/-- A sleeper's time passes with the ticks, whatever the others do. -/
theorem step_asleep (order : List α) (hp : a.running ≠ some p) (e : Event α) :
    (a.step order e).asleep p = a.asleep p - e.ticks := by
  cases e with
  | start => rfl
  | exit => rfl
  | tick => rfl
  | skip => rfl
  | sleep n =>
    rcases hr : a.running with _ | r
    · simp [step, sleep, hr, tick, Event.ticks]
    · have : p ≠ r := fun h => hp (by rw [hr, h])
      simp [step, sleep, hr, tick, Event.ticks, Function.update_of_ne this]

omit [DecidableEq α] in
theorem mem_tick (hp : p ∈ a.lineup order) :
    p ∈ (a.tick order).queue ∨ (a.tick order).running = some p := by
  simp only [tick]
  cases hl : a.lineup order with
  | nil => rw [hl] at hp; cases hp
  | cons q l =>
    rw [hl] at hp
    rcases List.mem_cons.1 hp with rfl | hp
    · exact .inr rfl
    · exact .inl hp

/-- A sleeper comes back at the tick that finds it with one tick to go. -/
theorem step_wakes (order : List α) (hp : a.running ≠ some p) (ho : p ∈ order) (h1 : a.asleep p = 1) {e : Event α}
    (he : e.ticks = 1) : p ∈ (a.step order e).queue ∨ (a.step order e).running = some p := by
  have hw : ∀ b : RoundRobin α, b.asleep p = 1 → p ∈ b.lineup order := fun b hb => by
    simp [lineup, woken, ho, hb]
  cases e with
  | start => cases he
  | exit => cases he
  | skip => cases he
  | tick => exact mem_tick (hw a h1)
  | sleep n =>
    simp only [step, sleep]
    split
    · exact mem_tick (hw a h1)
    · next r hr =>
      refine mem_tick (hw _ ?_)
      have : p ≠ r := fun h => hp (by rw [hr, h])
      simp [Function.update_of_ne this, h1]

end RoundRobin

/-! ## Turns -/

/-- In any `n` consecutive rotations each of the `n` elements comes first. -/
theorem exists_rotate {α : Type*} {l : List α} {x : α} (hx : x ∈ l) (t : ℕ) :
    ∃ r, t ≤ r ∧ r < t + l.length ∧ (l.rotate r).head? = some x := by
  obtain ⟨j, hj, rfl⟩ := List.mem_iff_getElem.1 hx
  -- the turns of element `j` are those that leave `j` when divided by the length
  have hturn : ∀ c, (l.rotate (l.length * c + j)).head? = some l[j] := by
    intro c
    rw [← List.rotate_mod, Nat.mul_add_mod, Nat.mod_eq_of_lt hj, List.head?_rotate hj, List.getElem?_eq_getElem hj]
  have ht := Nat.div_add_mod t l.length
  have hlt := Nat.mod_lt t (show l.length > 0 by omega)
  rcases le_or_gt (t % l.length) j with hle | hgt
  · exact ⟨_, by omega, by omega, hturn (t / l.length)⟩
  · have hsucc := Nat.mul_add_one l.length (t / l.length)
    exact ⟨_, by omega, by omega, hturn (t / l.length + 1)⟩

end Lib
