/-
  What `showProcesses` prints.  Its loop prints the name of the running process
  each time, and stops where the links end, not where the queue ends: what it
  prints depends on links that are left from earlier turns.
-/
import TeamXtremeOS.Proof.Wake
import TeamXtremeOS.Shell

namespace TeamXtremeOS

open Lib

variable {s : Proc} {p x : PCBRef} {q l L : List PCBRef} {k : Kernel} {m m' : Machine} {c : Call}
  {es : List Call} {i : Fin 8} {fuel n : ℕ} {out : List (List UInt8)} {name : List UInt8}

/-! ## The loop -/

/-- **The loop** prints the same name as often as there are PCBs on the way to
    the end of the links, two apart. -/
theorem showLoop_eq : showLoop s fuel p = some out ↔ ∃ name l, (s.pcb s.running).printed = some name ∧
    Ends (fun x => (s.pcb x).next) (some p) l ∧ 3 ≤ l.length ∧ l.length ≤ fuel + 2 ∧
    out = List.replicate (l.length - 2) name := by
  induction fuel generalizing p out with
  | zero =>
    refine ⟨fun h => (by cases h), ?_⟩
    rintro ⟨name, l, -, -, h3, h2, -⟩
    omega
  | succ fuel ih =>
    rw [showLoop]
    simp only [Option.bind_eq_bind, Option.bind_eq_some_iff, Option.pure_def]
    constructor
    · rintro ⟨name, hn, a, ha, b, hb, h⟩
      rcases hc : (s.pcb b).next with _ | c
      · rw [hc] at h
        cases h
        exact ⟨name, [p, a, b], hn, ⟨rfl, ha, hb, hc⟩, le_rfl, by simp, rfl⟩
      · rw [hc] at h
        obtain ⟨out, ho, rfl⟩ := Option.map_eq_some_iff.1 h
        obtain ⟨name', l, hn', hl, h3, hf, rfl⟩ := ih.1 ho
        rw [hn, Option.some.injEq] at hn'
        subst hn'
        refine ⟨name, p :: l, hn, ⟨rfl, ?_⟩, ?_, ?_, ?_⟩
        · simpa only [ha] using hl
        · rw [List.length_cons]
          omega
        · rw [List.length_cons]
          omega
        · rw [← List.replicate_succ, List.length_cons]
          congr 1
          omega
    · rintro ⟨name, l, hn, hl, h3, hf, rfl⟩
      match l, hl, h3 with
      | _ :: a :: b :: l, ⟨hp, ha, hb, hl⟩, _ =>
        cases hp
        refine ⟨name, hn, a, ha, b, hb, ?_⟩
        cases l with
        | nil =>
          change (s.pcb b).next = none at hl
          rw [hl]
          rfl
        | cons c l =>
          rw [show (s.pcb b).next = some c from hl.1]
          refine Option.map_eq_some_iff.2 ⟨_, ih.2 ⟨name, a :: b :: c :: l, hn, ⟨rfl, hb, hl⟩, ?_, ?_, rfl⟩, rfl⟩
          · simp
          · simpa using hf

theorem length_le_nine (hl : l.Nodup) : l.length ≤ 9 := by
  have hsub : l ⊆ .idleProc :: (List.finRange 8).map .pcbPool := by
    intro x _
    cases x with
    | idleProc => exact List.mem_cons_self
    | pcbPool i => exact List.mem_cons_of_mem _ (List.mem_map_of_mem (List.mem_finRange i))
  simpa using (hl.subperm hsub).length_le

/-- The loop does not run out of turns: no more of them print anything. -/
theorem showLoop_fuel (h : showLoop s fuel p = some out) : showLoop s 9 p = some out := by
  obtain ⟨name, l, hn, hl, h3, -, rfl⟩ := showLoop_eq.1 h
  have h9 := length_le_nine hl.nodup
  exact showLoop_eq.2 ⟨name, l, hn, hl, h3, by omega, rfl⟩

theorem showProcesses_eq : showProcesses s = some out ↔ ∃ name l, (s.pcb s.running).printed = some name ∧
    Ends (fun x => (s.pcb x).next) s.readyHead l ∧ 3 ≤ l.length ∧
    out = text "\n\rCurrent Processes:\n\r" :: List.replicate (l.length - 2) name := by
  simp only [showProcesses, Option.bind_eq_bind, Option.bind_eq_some_iff, Option.map_eq_some_iff, showLoop_eq]
  constructor
  · rintro ⟨p, hp, _, ⟨name, l, hn, hl, h3, -, rfl⟩, rfl⟩
    exact ⟨name, l, hn, hp ▸ hl, h3, rfl⟩
  · rintro ⟨name, l, hn, hl, h3, rfl⟩
    have h9 := length_le_nine hl.nodup
    cases l with
    | nil => simp at h3
    | cons p l => exact ⟨p, hl.1, _, ⟨name, p :: l, hn, ⟨rfl, hl.2⟩, h3, by omega, rfl⟩, rfl⟩

/-! ## The processes -/

/-- A process that is to be listed. -/
def ToList (s : Proc) (p : PCBRef) : Prop :=
  (∃ i, p = .pcbPool i) ∧ (s.pcb p).state ≠ .DEFUNCT ∧ (p = s.running ∨ OnQueue s p)

/-- `showProcesses` comes to an end and prints the name of each process that is
    to be listed, once. -/
def ListsProcesses (s : Proc) : Prop := ∃ (names : List (List UInt8)) (L : List PCBRef),
  L.Nodup ∧ (∀ p, p ∈ L ↔ ToList s p) ∧
  showProcesses s = some (text "\n\rCurrent Processes:\n\r" :: names) ∧
  (L.map fun p => (s.pcb p).printed).Perm (names.map some)

/-- Behind the tail of the ready queue, three more PCBs are linked. -/
def ThreeBehind (s : Proc) : Prop := ∃ tail x y z, s.readyTail = some tail ∧
  Ends (fun x => (s.pcb x).next) (s.pcb tail).next [x, y, z]

/-- The processes to be listed have one name. -/
def OneName (s : Proc) : Prop := ∃ name, ∀ p, ToList s p → (s.pcb p).printed = some name

/-- On a queue, the loop goes to the end of it and over what is linked behind. -/
theorem listsProcesses_iff (hq : Queue s q) (hL : L.Nodup) (hmem : ∀ p, p ∈ L ↔ ToList s p)
    (hlen : L.length = q.length + 1) (hr : s.running ∈ L) : ListsProcesses s ↔ ThreeBehind s ∧ OneName s := by
  constructor
  · rintro ⟨names, L', hL', hmem', hs, hperm⟩
    obtain ⟨name, l, hn, hl, h3, hout⟩ := showProcesses_eq.1 hs
    obtain ⟨-, rfl⟩ := List.cons_eq_cons.1 hout
    have hLL : L'.Perm L := (List.perm_ext_iff_of_nodup hL' hL).2 fun p => by rw [hmem', hmem]
    have hlen' := hperm.length_eq
    rw [List.length_map, List.length_map, List.length_replicate, hLL.length_eq, hlen] at hlen'
    constructor
    · rcases ht : s.readyTail with _ | tail
      · -- an empty queue has no end
        have hnil : q = [] := List.getLast?_eq_none_iff.1 (hq.tail.symm.trans ht)
        have hhead : s.readyHead = none := hq.nil_iff.2 hnil
        rw [hhead] at hl
        cases l with
        | nil => simp at h3
        | cons a l => cases hl.1
      · have hq' := hq
        rw [Queue, ht] at hq'
        obtain ⟨v, rfl, hv⟩ := hq'.ends_iff.1 hl
        rw [List.length_append] at hlen' h3
        obtain ⟨x, y, z, rfl⟩ := List.length_eq_three.1 (by omega : v.length = 3)
        exact ⟨tail, x, y, z, ht, hv⟩
    · refine ⟨name, ?_⟩
      intro p hp
      have hin : (s.pcb p).printed ∈ L'.map fun p => (s.pcb p).printed :=
        List.mem_map_of_mem ((hmem' p).2 hp)
      rw [hperm.mem_iff, List.map_replicate] at hin
      exact List.eq_of_mem_replicate hin
  · rintro ⟨⟨tail, x, y, z, ht, hv⟩, name, hname⟩
    have hq' := hq
    rw [Queue, ht] at hq'
    have hl := hq'.ends_iff.2 ⟨_, rfl, hv⟩
    refine ⟨List.replicate (q.length + 1) name, L, hL, hmem, showProcesses_eq.2
      ⟨name, _, hname _ ((hmem _).1 hr), hl, ?_, ?_⟩, ?_⟩
    · rw [List.length_append]
      simp
    · rw [List.length_append]
      rfl
    · rw [List.map_replicate, ← hlen, List.map_congr_left fun p hp => hname p ((hmem p).1 hp), List.map_const']

/-! ## Runs -/

/-- The calls of a run in which no process exits: `executeProgram`, with any
    outcome, sleeps of 1 to 262 seconds, and the timer. -/
def ShowCall (m : Machine) : Call → Prop
  | .executeProgram name => m.MayCall (.executeProgram name)
  | .sleep seconds sp => m.MayCall (.sleep seconds sp) ∧ 1 ≤ seconds ∧ seconds ≤ 262
  | .timer _ => True
  | _ => False

instance : ∀ (m : Machine) (c : Call), Decidable (ShowCall m c)
  | m, .executeProgram name => inferInstanceAs (Decidable (m.MayCall (.executeProgram name)))
  | _, .sleep _ _ => inferInstanceAs (Decidable (_ ∧ _ ∧ _))
  | _, .timer _ => inferInstanceAs (Decidable True)
  | _, .terminate | _, .kill _ | _, .yield => inferInstanceAs (Decidable False)

theorem ShowCall.sleepCall (h : ShowCall m c) : SleepCall m c ∧ ExitsUnlinked m.kernel.toProc c := by
  cases c with
  | executeProgram | sleep | timer => exact ⟨h, trivial⟩
  | terminate | kill | yield => cases h

/-- What holds along such a run. -/
structure ShowInv (m : Machine) : Prop where
  sleepInv : SleepInv m
  running : m.halted = false

theorem ShowInv.step (h : ShowInv m) (hc : ShowCall m c) (hs : m.step c = some m') : ShowInv m' := by
  refine ⟨h.sleepInv.step hc.sleepCall.1 hc.sleepCall.2 hs, ?_⟩
  cases c with
  | executeProgram name =>
    obtain ⟨r, k', -, rfl⟩ := Machine.step_executeProgram hs
    exact h.running
  | sleep seconds sp =>
    obtain ⟨r, s', -, rfl⟩ := Machine.step_sleep hs
    rfl
  | timer sp =>
    obtain ⟨r, s', -, rfl⟩ := Machine.step_timer hs
    rfl
  | terminate | kill | yield => cases hc

/-- **`showProcesses` lists the processes** in a state of such a run just when
    three more PCBs are linked behind the queue and all names are the same. -/
theorem showProcesses_lists (hk : NullLinks k.toProc)
    (h : Run Machine.step ShowCall (Machine.init k) es m) (hr : m.kernel.running = .pcbPool i) :
    ListsProcesses m.kernel.toProc ↔ ThreeBehind m.kernel.toProc ∧ OneName m.kernel.toProc := by
  have hI : ShowInv m := h.invariant (fun _ _ _ hI hc hs => ShowInv.step hI hc hs)
    ⟨sleepInv_init hk, rfl⟩
  obtain ⟨q, hq⟩ := hI.sleepInv.queue
  have hact := hI.sleepInv.active i hr
  rw [hI.running, if_neg (by decide)] at hact
  refine listsProcesses_iff hq.queue.queue (L := m.kernel.running :: q) ?_ ?_ rfl List.mem_cons_self
  · exact List.nodup_cons.2 ⟨hq.notRunning, hq.queue.queue.nodup⟩
  · intro p
    rw [ToList, hq.queue.queue.onQueue_iff, List.mem_cons]
    constructor
    · rintro (rfl | hp)
      · exact ⟨⟨i, hr⟩, by rw [hr, hact]; decide, .inl rfl⟩
      · obtain ⟨hne, hst⟩ := hq.ready p hp
        refine ⟨exists_pool hne, ?_, .inr hp⟩
        rcases hst with hst | hst <;> rw [hst] <;> decide
    · exact fun hp => hp.2.2

/-- Six processes named `A`: three of them sleep, and the links that are left
    behind the tail are theirs. -/
theorem showProcesses_lists_six : ∃ m : Machine, m.kernel.running = .pcbPool 4 ∧
    ListsProcesses m.kernel.toProc := by
  have h : (evalRun Machine.step ShowCall (Machine.init oneFileKernel)
      ([Call.executeProgram nameA, .executeProgram nameA, .executeProgram nameA, .timer 7, .executeProgram nameA,
        .sleep 1 8, .sleep 2 8, .sleep 1 8] ++ List.replicate 121 (Call.timer 8) ++
        [Call.executeProgram nameA, .executeProgram nameA, .sleep 1 8])).any
      (fun m => m.kernel.running = .pcbPool 4 ∧ m.kernel.readyTail = some (.pcbPool 0) ∧
        [0, 1, 2, 3].map (fun i => (m.kernel.pcb (.pcbPool i)).next) =
          [some (.pcbPool 1), some (.pcbPool 2), some (.pcbPool 3), none] ∧
        ∀ i, (m.kernel.pcb (.pcbPool i)).state ≠ .DEFUNCT →
          (m.kernel.pcb (.pcbPool i)).printed = some [0x41]) = true := by decide +kernel
  obtain ⟨m, hr, hm⟩ := Run.exists_of_evalRun h
  simp only [decide_eq_true_eq, List.map_cons, List.map_nil, List.cons.injEq] at hm
  obtain ⟨hrun, ht, ⟨h0, h1, h2, h3, -⟩, hname⟩ := hm
  have hbehind : ThreeBehind m.kernel.toProc := ⟨_, _, _, _, ht, h0, h1, h2, h3⟩
  have hone : OneName m.kernel.toProc := by
    refine ⟨[0x41], ?_⟩
    rintro p ⟨⟨i, rfl⟩, hst, -⟩
    exact hname i hst
  exact ⟨m, hrun, (showProcesses_lists oneFileKernel_nullLinks hr hrun).2 ⟨hbehind, hone⟩⟩

/-- **With one process the loop follows `NULL`**: the ready queue is empty. -/
theorem showProcesses_alone : NullLinks oneFileKernel.toProc ∧ ∃ m,
    Run Machine.step ShowCall (Machine.init oneFileKernel) [.executeProgram nameA, .timer 7] m ∧
    m.kernel.running = .pcbPool 0 ∧ showProcesses m.kernel.toProc = none ∧
    ¬ ListsProcesses m.kernel.toProc := by
  have h : (evalRun Machine.step ShowCall (Machine.init oneFileKernel) [.executeProgram nameA, .timer 7]).any
      (fun m => m.kernel.running = .pcbPool 0 ∧ showProcesses m.kernel.toProc = none) = true := by decide +kernel
  obtain ⟨m, hr, hm⟩ := Run.exists_of_evalRun h
  simp only [decide_eq_true_eq] at hm
  refine ⟨oneFileKernel_nullLinks, m, hr, hm.1, hm.2, ?_⟩
  rintro ⟨names, L, -, -, hs, -⟩
  rw [hm.2] at hs
  cases hs

end TeamXtremeOS
