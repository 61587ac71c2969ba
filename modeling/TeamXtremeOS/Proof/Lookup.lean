/-
  The two searches for a file, in `findFile` and in `readFile`: which entry they
  find, and what `readFile` reads from it.
-/
import TeamXtremeOS.Proof.Files

namespace TeamXtremeOS

open Lib

variable {dir : Sector} {d : Disk} {e : Fin 16} {f : FileName} {k n fuel : ℕ} {l : List UInt8} {buf : Buffer}

/-! ## The entry -/

/-- The six bytes of the name of an entry are those of `f`. -/
theorem entryName_eq_iff : entryName dir e = f ↔ ∀ j : Fin 6, nameByte dir e j = f j := funext_iff

theorem entryName_ne_iff : entryName dir e ≠ f ↔ ∃ j : Fin 6, nameByte dir e j ≠ f j := by
  rw [Ne, entryName_eq_iff, not_forall]

theorem findFile_eq_none_iff : findFile f dir = none ↔ ∀ e, entryName dir e ≠ f := by
  refine ⟨findFile_none, ?_⟩
  intro h
  rcases hf : findFile f dir with _ | e
  · rfl
  · exact absurd (findFile_name hf) (h e)

/-- **The first of the entries with the name is found.** -/
theorem findFile_eq_some_iff : findFile f dir = some e ↔ entryName dir e = f ∧ ∀ e' < e, entryName dir e' ≠ f := by
  constructor
  · intro h
    refine ⟨findFile_name h, ?_⟩
    intro e' hlt hname
    rw [findFile_eq, List.find?_eq_some_iff_getElem] at h
    obtain ⟨-, i, hi, rfl, hbefore⟩ := h
    have := hbefore e'.val (by simpa [Fin.lt_def] using hlt)
    simp [hname] at this
  · rintro ⟨h, hfirst⟩
    exact findFile_first h hfirst

/-! ## The sectors -/

/-- The list of an entry with a zero among its bytes. -/
theorem sectors_eq_range (hn : n < 26) (hz : sectorByte dir e n = 0) (hne : ∀ j < n, sectorByte dir e j ≠ 0) :
    sectors dir e = (List.range n).map (sectorByte dir e) := by
  refine sectors_of_bytes ?_ ?_ ?_ ?_
  · intro j hj
    rw [List.getD_eq_getElem _ _ hj, List.getElem_map, List.getElem_range]
  · intro s hs
    obtain ⟨j, hj, rfl⟩ := List.mem_map.1 hs
    exact hne j (List.mem_range.1 hj)
  · rw [List.length_map, List.length_range]
    exact hn.le
  · intro _
    rw [List.length_map, List.length_range]
    exact hz

/-- The loop reads the sectors before the zero, one after the other. -/
theorem readLoop_requests (hf : 512 ≤ 32 * e.val + 6 + k + fuel)
    (hl : terminated 0 (bytesFrom dir (32 * e.val + 6 + k)) = some l) :
    (readLoop dir e fuel k buf).requests d = l.map fun s => .read s.toNat := by
  induction fuel generalizing k buf l with
  | zero =>
    rw [bytesFrom_of_le (by omega)] at hl
    cases hl
  | succ fuel ih =>
    by_cases hlt : 32 * e.val + 6 + k < 512
    · rw [bytesFrom_of_lt hlt, terminated] at hl
      simp only [readLoop, dif_pos hlt]
      split_ifs at hl ⊢ with hs
      · cases hl
        rfl
      · obtain ⟨l', hl', rfl⟩ := Option.map_eq_some_iff.1 hl
        rw [readSector_ofChar, Prog.read_bind, Prog.requests, Prog.ret_bind, List.map_cons,
          ih (k := k + 1) (by omega) hl']
    · rw [bytesFrom_of_le (not_lt.1 hlt)] at hl
      cases hl

theorem readFile_requests (hf : findFile f (d 2) = some e) (hl : walk (d 2) e = some l) :
    (readFile f buf).requests d = .read 2 :: l.map fun s => .read s.toNat := by
  have hl' : terminated 0 (bytesFrom (d 2) (32 * e.val + 6 + 0)) = some l := by rw [Nat.add_zero]; exact hl
  rw [readFile_eq, Prog.requests, readTail, hf]
  exact congrArg _ (readLoop_requests (by omega) hl')

theorem readFile_list (hf : findFile f (d 2) = some e) (hn : n < 26) (hz : sectorByte (d 2) e n = 0)
    (hne : ∀ j < n, sectorByte (d 2) e j ≠ 0) (buf : Buffer) :
    ∃ buf', (readFile f buf).exec d = some ((Int16.ofNat n, buf'), d) ∧
      (readFile f buf).requests d = .read 2 :: (List.range n).map (fun j => .read (sectorByte (d 2) e j).toNat) ∧
      (∀ j < n, ∀ o : Fin 512, buf' (j * 512 + o.val) = d (sectorByte (d 2) e j).toNat o) ∧
      ∀ o, n * 512 ≤ o → buf' o = buf o := by
  have hlist := sectors_eq_range hn hz hne
  have hlen : (sectors (d 2) e).length = n := by rw [hlist, List.length_map, List.length_range]
  have hwalk := walk_short (show (sectors (d 2) e).length ≤ 25 by omega)
  refine ⟨putChunks ((sectors (d 2) e).map fun s => d s.toNat) 0 buf, ?_, ?_, ?_, ?_⟩
  · rw [readFile_walk hf, hwalk, Option.map_some, hlen]
  · rw [readFile_requests hf hwalk, hlist, List.map_map]
    rfl
  · intro j hj o
    refine putChunks_place buf (by omega) ?_
    rw [hlist, List.getElem?_map, List.getElem?_range hj, Option.map_some]
  · intro o ho
    exact putChunks_of_le (by omega) (by rw [hlen]; exact ho)

/-- **The two lookups agree**: on the first entry with the six bytes of the
    name, and when there is none. -/
theorem lookups_agree (d : Disk) (f : FileName) (buf : Buffer) :
    (∀ e, findFile f (d 2) = some e ↔
      (∀ j : Fin 6, nameByte (d 2) e j = f j) ∧ ∀ e' < e, ∃ j : Fin 6, nameByte (d 2) e' j ≠ f j) ∧
    (findFile f (d 2) = none ↔ ∀ e, ∃ j : Fin 6, nameByte (d 2) e j ≠ f j) ∧
    ((∃ buf' d', (readFile f buf).exec d = some ((-1, buf'), d')) ↔ findFile f (d 2) = none) ∧
    (findFile f (d 2) = none → (readFile f buf).exec d = some ((-1, buf), d)) ∧
    ∀ e, findFile f (d 2) = some e → ∀ n < 26, sectorByte (d 2) e n = 0 →
      (∀ j < n, sectorByte (d 2) e j ≠ 0) → ∃ buf', (readFile f buf).exec d = some ((Int16.ofNat n, buf'), d) ∧
        (readFile f buf).requests d = .read 2 :: (List.range n).map (fun j => .read (sectorByte (d 2) e j).toNat) ∧
        (∀ j < n, ∀ o : Fin 512, buf' (j * 512 + o.val) = d (sectorByte (d 2) e j).toNat o) ∧
        ∀ o, n * 512 ≤ o → buf' o = buf o := by
  refine ⟨?_, ?_, ⟨?_, fun h => ⟨buf, d, readFile_none h buf⟩⟩, fun h => readFile_none h buf, ?_⟩
  · intro e
    rw [findFile_eq_some_iff, entryName_eq_iff]
    simp only [entryName_ne_iff]
  · rw [findFile_eq_none_iff]
    simp only [entryName_ne_iff]
  · rintro ⟨buf', d', h⟩
    exact (readFile_neg_one h).1 rfl
  · intro e hf n hn hz hne
    exact readFile_list hf hn hz hne buf

end TeamXtremeOS
