/-
  `executeProgram` one step at a time: interrupt 0x21 runs with interrupts
  enabled, so the timer may come between any two steps of a call.

  Each process may be in the middle of a call; only the running one advances.
-/
import TeamXtremeOS.Kernel

namespace TeamXtremeOS

open Lib

/-- Where a process is in `executeProgram`: its next step, with the locals that
    are still needed. -/
inductive Stage where
  | user
  | readFile (name : FileName)
  | getFreeMemorySegment (name : FileName) (found : Int16) (buf : Buffer)
  | load (name : FileName) (found : Int16) (buf : Buffer) (segment : Int16)
  | getFreePCB (name : FileName) (segment : Int16)
  | fillPCB (name : FileName) (segment : Int16) (process : Fin 8)
  | addToReady (segment : Int16) (process : Fin 8)
  | initializeProgram (segment : Int16) (process : Fin 8)

/-- Is the process in a call? -/
def Stage.inCall : Stage → Bool
  | .user => false
  | _ => true

/-- One step of `executeProgram`; a process that is not in a call stays as it
    is. -/
def Stage.advance (k : Kernel) : Stage → Option (Stage × Kernel)
  | .user => some (.user, k)
  | .readFile name =>
    match (TeamXtremeOS.readFile name fun _ => 0).exec k.disk with
    | none => none
    | some ((found, buf), _) =>
      if found = -1 then some (.user, k)
      else if 26 < found then none
      else some (.getFreeMemorySegment name found buf, k)
  | .getFreeMemorySegment name found buf =>
    match TeamXtremeOS.getFreeMemorySegment k.toProc with
    | (none, _) => some (.user, k)
    | (some i, s) => some (.load name found buf (segmentOf (Int16.ofNat i.val)), { k with toProc := s })
  | .load name found buf segment =>
    some (.getFreePCB name segment, { k with mem := putProgram segment found buf k.mem })
  | .getFreePCB name segment =>
    match TeamXtremeOS.getFreePCB k.toProc with
    | (none, _) => some (.user, k)
    | (some p, s) => some (.fillPCB name segment p, { k with toProc := s })
  | .fillPCB name segment p =>
    some (.addToReady segment p,
      { k with toProc := TeamXtremeOS.fillPCB (.pcbPool p) name segment k.toProc })
  | .addToReady segment p =>
    (TeamXtremeOS.addToReady (.pcbPool p) k.toProc).map fun s =>
      (.initializeProgram segment p, { k with toProc := s })
  | .initializeProgram segment _ =>
    some (.user, { k with mem := TeamXtremeOS.initializeProgram segment k.mem })

/-- The steps of a call, `n` of them, without an interrupt. -/
def Stage.advances : ℕ → Stage → Kernel → Option (Stage × Kernel)
  | 0, st, k => some (st, k)
  | n + 1, st, k => (st.advance k).bind fun r => advances n r.1 r.2

theorem Stage.advances_of {n : ℕ} {st st' : Stage} {k k' : Kernel}
    (h : st.advance k = some (st', k')) : advances (n + 1) st k = advances n st' k' := by
  rw [advances, h]
  rfl

theorem Stage.advances_none {n : ℕ} {st : Stage} {k : Kernel} (h : st.advance k = none) :
    advances (n + 1) st k = none := by
  rw [advances, h]
  rfl

theorem Stage.advances_user (n : ℕ) (k : Kernel) : advances n .user k = some (.user, k) := by
  induction n with
  | zero => rfl
  | succ n ih => rw [advances_of rfl, ih]

/-- The steps behind `readFile`, without an interrupt. -/
theorem Stage.advances_loaded {name : FileName} {found : Int16} {buf : Buffer} {d : Disk} {k : Kernel}
    (hf : (TeamXtremeOS.readFile name fun _ => 0).exec k.disk = some ((found, buf), d))
    (h1 : found ≠ -1) (h26 : ¬ 26 < found) :
    advances 6 (.getFreeMemorySegment name found buf) k =
      (executeProgram name k).map fun r => (.user, r.2) := by
  simp only [executeProgram, hf, if_neg h1, if_neg h26]
  rcases hg : TeamXtremeOS.getFreeMemorySegment k.toProc with ⟨_ | i, s⟩
  · have hs : advance k (.getFreeMemorySegment name found buf) = some (.user, k) := by
      simp only [advance, hg]
    rw [advances_of hs, advances_user]
    rfl
  · have hs : advance k (.getFreeMemorySegment name found buf) =
        some (.load name found buf (segmentOf (Int16.ofNat i.val)), { k with toProc := s }) := by
      simp only [advance, hg]
    rw [advances_of hs, advances_of rfl]
    simp only []
    generalize hk' : ({ k with toProc := s, mem := _ } : Kernel) = k'
    have hk : k'.toProc = s := by rw [← hk']
    rcases hp : TeamXtremeOS.getFreePCB s with ⟨_ | p, s'⟩
    · have hs : advance k' (.getFreePCB name (segmentOf (Int16.ofNat i.val))) = some (.user, k') := by
        simp only [advance, hk, hp]
      rw [advances_of hs, advances_user]
      rfl
    · have hs : advance k' (.getFreePCB name (segmentOf (Int16.ofNat i.val))) =
          some (.fillPCB name (segmentOf (Int16.ofNat i.val)) p, { k' with toProc := s' }) := by
        simp only [advance, hk, hp]
      rw [advances_of hs, advances_of rfl, advances]
      simp only [advance]
      rcases TeamXtremeOS.addToReady (.pcbPool p)
          (TeamXtremeOS.fillPCB (.pcbPool p) name (segmentOf (Int16.ofNat i.val)) s') with _ | s''
      · rfl
      · subst hk'
        rfl

/-- **Without an interrupt the steps are those of `executeProgram`.** -/
theorem advances_executeProgram (name : FileName) (k : Kernel) :
    Stage.advances 7 (.readFile name) k =
      (executeProgram name k).map fun r => (.user, r.2) := by
  rcases hf : (readFile name fun _ => 0).exec k.disk with _ | ⟨⟨found, buf⟩, d⟩
  · have hs : Stage.advance k (.readFile name) = none := by simp only [Stage.advance, hf]
    rw [Stage.advances_none hs]
    simp only [executeProgram, hf, Option.map_none]
  · by_cases h1 : found = -1
    · have hs : Stage.advance k (.readFile name) = some (.user, k) := by
        simp only [Stage.advance, hf, if_pos h1]
      rw [Stage.advances_of hs, Stage.advances_user]
      simp only [executeProgram, hf, if_pos h1, Option.map_some]
    · by_cases h26 : 26 < found
      · have hs : Stage.advance k (.readFile name) = none := by
          simp only [Stage.advance, hf, if_neg h1, if_pos h26]
        rw [Stage.advances_none hs]
        simp only [executeProgram, hf, if_neg h1, if_pos h26, Option.map_none]
      · have hs : Stage.advance k (.readFile name) =
            some (.getFreeMemorySegment name found buf, k) := by
          simp only [Stage.advance, hf, if_neg h1, if_neg h26]
        rw [Stage.advances_of hs, Stage.advances_loaded hf h1 h26]

/-! ## Interleavings -/

/-- The kernel, the calls under way, and two facts about each PCB since
    `getFreePCB` last returned it: whether its process has run, and the segment
    for which its call has executed `initializeProgram`. -/
structure Calls where
  kernel : Kernel
  stage : PCBRef → Stage
  ran : Fin 8 → Bool
  image : Fin 8 → Option Int16

/-- What happens: the running process calls `executeProgram`, its call makes a
    step, or the timer interrupts it. -/
inductive CallEvent where
  | call (name : FileName)
  | advance
  | timer (sp : Int16)

namespace Calls

/-- The next step of the running process. -/
def current (m : Calls) : Stage := m.stage m.kernel.running

/-- The step of the running process, with its effect on what is known of the
    PCBs. -/
def advance (m : Calls) : Option Calls :=
  (m.current.advance m.kernel).map fun (st, k) =>
    let m' := { m with kernel := k, stage := Function.update m.stage m.kernel.running st }
    match m.current, st with
    | .getFreePCB _ _, .fillPCB _ _ p =>
      { m' with ran := Function.update m.ran p false, image := Function.update m.image p none }
    | .initializeProgram segment p, _ =>
      { m' with image := Function.update m.image p (some segment) }
    | _, _ => m'

/-- The timer interrupts the running process and resumes another one. -/
def timer (m : Calls) (sp : Int16) : Option Calls :=
  (handleTimerInterrupt (stackSegment m.kernel.toProc) sp m.kernel.toProc).map fun (_, s) =>
    { m with
      kernel := { m.kernel with toProc := s }
      ran := fun p => m.ran p || s.running = .pcbPool p }

def step (m : Calls) : CallEvent → Option Calls
  | .call name =>
    some { m with stage := Function.update m.stage m.kernel.running (.readFile name) }
  | .advance => m.advance
  | .timer sp => m.timer sp

/-- A process that is in a call does not make another one. -/
def MayHappen (m : Calls) : CallEvent → Prop
  | .call _ => m.current.inCall = false
  | .advance => m.current.inCall = true
  | .timer _ => True

instance : ∀ (m : Calls) (e : CallEvent), Decidable (m.MayHappen e)
  | m, .call _ => inferInstanceAs (Decidable (m.current.inCall = false))
  | m, .advance => inferInstanceAs (Decidable (m.current.inCall = true))
  | _, .timer _ => inferInstanceAs (Decidable True)

/-- No call is under way when `main` has called `initializeProcStructures`. -/
def init (k : Kernel) : Calls where
  kernel := { k with toProc := initializeProcStructures k.toProc }
  stage _ := .user
  ran _ := false
  image _ := none

end Calls

end TeamXtremeOS
