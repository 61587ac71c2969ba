/-
  An `executeProgram` that fails: what it has done by then.  It takes a segment
  and loads the program before it asks for a PCB.
-/
import TeamXtremeOS.Proof.Boot
import TeamXtremeOS.Proof.FileCalls

namespace TeamXtremeOS

variable {k k' : Kernel} {name : FileName} {r : Int16}

/-- The segments, the PCBs, the ready queue and the memory are the same. -/
structure Untouched (k k' : Kernel) : Prop where
  memoryMap : k'.memoryMap = k.memoryMap
  pcb : k'.pcb = k.pcb
  readyHead : k'.readyHead = k.readyHead
  readyTail : k'.readyTail = k.readyTail
  mem : k'.mem = k.mem

theorem Untouched.refl (k : Kernel) : Untouched k k := ⟨rfl, rfl, rfl, rfl, rfl⟩

theorem getFreeMemorySegment_none {s : Proc} (h : (getFreeMemorySegment s).1 = none) (i : Fin 8) :
    s.memoryMap (Int16.ofNat i.val) ≠ FREE := by
  unfold getFreeMemorySegment at h
  split at h
  · cases h
  · next hf => simpa using List.find?_eq_none.1 hf i (List.mem_finRange i)

theorem freePCB_none {s : Proc} : freePCB s = none ↔ ∀ i, (s.pcb (.pcbPool i)).state ≠ .DEFUNCT := by
  simp [freePCB, List.find?_eq_none]

/-- **An `executeProgram` that fails changes nothing** if and only if there is no
    such file, no free segment, or some free PCB. -/
theorem failed_untouched (h : executeProgram name k = some (r, k')) (hr : r < 0) :
    Untouched k k' ↔ findFile name (k.disk 2) = none ∨
      (∀ i : Fin 8, k.memoryMap (Int16.ofNat i.val) ≠ FREE) ∨ ∃ i, (k.pcb (.pcbPool i)).state = .DEFUNCT := by
  obtain ⟨found, buf, d, hf, h26⟩ := executeProgram_loads h
  have hfound := readFile_neg_one hf
  by_cases h1 : found = -1
  · -- the file is not found
    unfold executeProgram at h
    simp only [hf, if_pos h1, Option.some.injEq, Prod.mk.injEq] at h
    rw [← h.2]
    exact iff_of_true (.refl k) (.inl (hfound.1 h1))
  rcases getFreeMemorySegment_spec k.toProc with hg | ⟨i, hi, hg⟩
  · -- there is no free segment
    have hnone := getFreeMemorySegment_none (s := k.toProc) (by rw [hg])
    unfold executeProgram at h
    simp only [hf, if_neg h1, if_neg h26, hg, Option.some.injEq, Prod.mk.injEq] at h
    rw [← h.2]
    exact iff_of_true (.refl k) (.inr (.inl hnone))
  rcases hp : freePCB k.toProc with _ | p
  · -- the segment has been taken, and there is no PCB for it
    have hmap : k'.memoryMap (Int16.ofNat i.val) = USED := by
      have hp' : freePCB { k.toProc with
          memoryMap := Function.update k.memoryMap (Int16.ofNat i.val) USED } = none := hp
      unfold executeProgram at h
      simp only [hf, if_neg h1, if_neg h26, hg, getFreePCB, hp', Option.some.injEq, Prod.mk.injEq] at h
      rw [← h.2]
      exact Function.update_self ..
    refine iff_of_false ?_ ?_
    · intro hu
      rw [hu.memoryMap, hi] at hmap
      exact absurd hmap (by decide)
    · rintro (hno | hno | ⟨j, hj⟩)
      · exact h1 (hfound.2 hno)
      · exact hno i hi
      · exact freePCB_none.1 hp j hj
  · -- the process is started
    rw [executeProgram_eq hf h1 h26 hg hp, Option.map_eq_some_iff] at h
    obtain ⟨s', -, h⟩ := h
    rw [Prod.mk.injEq] at h
    rw [← h.1] at hr
    exact absurd hr (by decide)

/-- A kernel with a disk of one file and free segments, but no free PCB. -/
def noFreePCB : Kernel := { oneFileKernel with
  pcb := fun x => { oneFileKernel.pcb x with state := .READY } }

/-- A missing file. -/
theorem failed_untouched_missing : ∃ k', executeProgram (letter 0x42) oneFileKernel = some (-1, k') ∧
    (Untouched oneFileKernel k' ↔ findFile (letter 0x42) (oneFileKernel.disk 2) = none ∨
      (∀ i : Fin 8, oneFileKernel.memoryMap (Int16.ofNat i.val) ≠ FREE) ∨
        ∃ i, (oneFileKernel.pcb (.pcbPool i)).state = .DEFUNCT) := by
  have h : executeProgram (letter 0x42) oneFileKernel = some (-1, oneFileKernel) := by
    have hf : findFile (letter 0x42) (oneFileKernel.disk 2) = none := by decide +kernel
    unfold executeProgram
    simp only [readFile_none hf, if_true]
  exact ⟨_, h, failed_untouched h (by decide)⟩

/-- **A segment is lost** when there is no PCB for the program. -/
theorem failed_takes_segment : ∃ k', executeProgram nameA noFreePCB = some (-2, k') ∧
    noFreePCB.memoryMap 0 = FREE ∧ k'.memoryMap 0 = USED ∧ ¬ Untouched noFreePCB k' := by
  have h : (executeProgram nameA noFreePCB).any fun x => x.1 = -2 ∧ x.2.memoryMap 0 = USED := by
    decide +kernel
  rcases he : executeProgram nameA noFreePCB with _ | ⟨r, k'⟩
  · rw [he] at h
    cases h
  · rw [he, Option.any_some, decide_eq_true_eq] at h
    obtain ⟨h1, h2⟩ : r = -2 ∧ k'.memoryMap 0 = USED := h
    refine ⟨k', by rw [h1], rfl, h2, ?_⟩
    intro hu
    rw [hu.memoryMap] at h2
    exact absurd h2 (by decide)

end TeamXtremeOS
