/-
  `deleteFile` behind `writeFile`: the sectors the one takes are those the other
  gives back.
-/
import TeamXtremeOS.Proof.Allocation

namespace TeamXtremeOS

open Lib

variable {dir : Sector} {d d' : Disk} {e e' : Fin 16} {f : FileName} {k n o : ℕ} {b : Buffer}
  {l : List UInt8} {s : UInt8}

/-- The map is what it was, the directory too, but for the name behind its first
    byte in entry `e`, and so is every sector that was marked. -/
structure Undone (d d' : Disk) (e : Fin 16) : Prop where
  map : d' 1 = d 1
  dir : ∀ e' o, o < 32 → ¬ (e' = e ∧ 1 ≤ o ∧ o < 6) → d' 2 (entryByte e' o) = d 2 (entryByte e' o)
  data : ∀ k, k ≠ 1 → k ≠ 2 → (∀ z : Fin 512, z.val = k → d 1 z ≠ 0) → d' k = d k

/-- An entry that is filled and erased: the name keeps its last five bytes. -/
theorem erased_entered (hf : ¬ InUse dir e) (hz : ∀ j < 26, sectorByte dir e j = 0) (hl : l.length ≤ 26)
    (hsec : sectors (entered e f l dir) e = l) (ho : o < 32) (hne : ¬ (e' = e ∧ 1 ≤ o ∧ o < 6)) :
    erased e (entered e f l dir) (entryByte e' o) = dir (entryByte e' o) := by
  rcases lt_or_ge o 6 with h6 | h6
  · have hname := congrFun (show entryName (erased e (entered e f l dir)) e' = _ from entryName_erased) ⟨o, h6⟩
    rw [entryName_entered hl, entryName_entered hl] at hname
    change erased e (entered e f l dir) (entryByte e' o) = _ at hname
    rw [hname]
    by_cases hee : e' = e
    · have h0 : o = 0 := by omega
      subst h0
      rw [if_pos hee, if_pos rfl, hee]
      rw [InUse, not_not] at hf
      exact (Function.update_self ..).trans hf.symm
    · rw [if_neg hee, if_neg hee]
      rfl
  · obtain ⟨j, rfl⟩ := Nat.exists_eq_add_of_le h6
    have hb : sectorByte (erased e (entered e f l dir)) e' j = _ := sectorByte_erased (by omega)
    rw [sectorByte_entered hl (by omega), hsec] at hb
    change erased e (entered e f l dir) (entryByte e' (6 + j)) = _ at hb
    rw [hb]
    split_ifs with h
    · rw [h.1]
      exact (hz j (by omega)).symm
    · rfl

/-- **`deleteFile` undoes `writeFile`** for a new file, when the first free entry
    has no sector bytes: but for the name that is left in that entry and the
    bytes of free sectors, the disk is what it was. -/
theorem write_delete (hres : ∀ i : Fin 512, i.val < 3 → d 1 i ≠ 0)
    (hnew : findFile f (d 2) = none) (he : freeEntry (d 2) = some e)
    (hz : ∀ j < 26, sectorByte (d 2) e j = 0) {n : Int16} (h1 : 1 ≤ n.toInt) (h25 : n.toInt ≤ 25)
    (hroom : n.toInt ≤ freeSectors (d 1)) (b : Buffer) (unusedSectors : ℕ → Int16) :
    ∃ d₁ d₂, (writeFile f b n unusedSectors).exec d = some (n, d₁) ∧
      (deleteFile f).exec d₁ = some (1, d₂) ∧ Undone d d₂ e := by
  have hw : writingEntry f (d 2) = some e := by rw [writingEntry, hnew, Option.none_or, he]
  have hroom' : n.toInt.toNat ≤ freeSectors (d 1) := by omega
  obtain ⟨hlen, hlow⟩ := unusedOf_below hroom'
  have hn : Int16.ofNat n.toInt.toNat = n := by
    rw [← Int16.toInt_inj, Int16.toInt_ofNat_of_lt (by omega)]
    omega
  generalize hm : n.toInt.toNat = m at hlen hlow hn
  have hL : ((unusedOf (d 1) m).map sectorNo).length = m := by rw [List.length_map, hlen]
  have hsec : sectors (entered e f ((unusedOf (d 1) m).map sectorNo) (d 2)) e =
      (unusedOf (d 1) m).map sectorNo := by
    refine sectors_entered_zero (by omega) ?_ hz
    intro s hs h0
    obtain ⟨z, hz', hzs⟩ := List.mem_map.1 hs
    refine hres z ?_ (unusedOf_free hz')
    have hval := congrArg UInt8.toNat (hzs.trans h0)
    rw [sectorNo_toNat, Nat.mod_eq_of_lt (hlow z hz')] at hval
    rw [hval]
    decide
  have hdir : Function.update (written e f b m d) 1 (setAll 0xFF (unusedOf (d 1) m) (d 1)) 2 =
      entered e f ((unusedOf (d 1) m).map sectorNo) (d 2) := by
    rw [Function.update_of_ne (by omega), written, Function.update_self]
  have hdel := deleteFile_some (f := f) (e := e)
    (d := Function.update (written e f b m d) 1 (setAll 0xFF (unusedOf (d 1) m) (d 1)))
    (by rw [hdir, hsec]; omega) (by rw [hdir]; exact findFile_entered hnew (by omega))
  rw [hdir, hsec] at hdel
  refine ⟨_, _, by rw [writeFile_some hw h25 hm.symm (by omega), hn], hdel, ?_⟩
  constructor
  · rw [Function.update_self, Function.update_self, map_mapIndex_sectorNo hlow]
    funext i
    rw [setAll_apply, setAll_apply]
    split_ifs with hi
    · exact (unusedOf_free hi).symm
    · rfl
  · intro e' o ho hne
    rw [Function.update_of_ne (by omega), Function.update_self]
    exact erased_entered (freeEntry_free he) hz (by omega) hsec ho hne
  · intro k hk1 hk2 hused
    rw [Function.update_of_ne hk1, Function.update_of_ne hk2, Function.update_of_ne hk1, written,
      Function.update_of_ne hk2]
    by_contra hne
    obtain ⟨s, hs, rfl⟩ := store_dataWrites_ne hne
    obtain ⟨z, hz', rfl⟩ := List.mem_map.1 hs
    refine hused z ?_ (unusedOf_free hz')
    rw [sectorNo_toNat, Nat.mod_eq_of_lt (hlow z hz')]

/-- A new file on a small disk. -/
theorem write_delete_two : ∃ d₁ d₂, (writeFile fileB (fun _ => 7) 2 fun _ => 0).exec twoSectorDisk =
    some (2, d₁) ∧ (deleteFile fileB).exec d₁ = some (1, d₂) ∧ Undone twoSectorDisk d₂ 1 :=
  write_delete (by decide +kernel) (by decide +kernel) (by decide +kernel) (by decide +kernel)
    (by decide) (by decide) (by decide +kernel) _ _

/-- The small disk with a sector number left behind the first byte of the first
    free entry. -/
def staleDisk : Disk := fun k i => if k = 2 ∧ i.val = 39 then 4 else twoSectorDisk k i

/-- **A stale number in the first free entry** comes into the list of the new
    file, and `deleteFile` frees a sector of another file.  A later free entry
    without sector bytes does not help. -/
theorem stale_freed : (∀ i : Fin 512, i.val < 3 → staleDisk 1 i ≠ 0) ∧
    (∀ e, InUse (staleDisk 2) e → (sectors (staleDisk 2) e).length ≤ 25) ∧
    (∀ e e', InUse (staleDisk 2) e → InUse (staleDisk 2) e' → e ≠ e' →
      ∀ s ∈ sectors (staleDisk 2) e, s ∉ sectors (staleDisk 2) e') ∧
    findFile fileB (staleDisk 2) = none ∧
    (∃ e, ¬ InUse (staleDisk 2) e ∧ ∀ j < 26, sectorByte (staleDisk 2) e j = 0) ∧
    1 ≤ freeSectors (staleDisk 1) ∧
    ¬ ∃ d₁ d₂ e, (writeFile fileB (fun _ => 7) 1 fun _ => 0).exec staleDisk = some (1, d₁) ∧
      (deleteFile fileB).exec d₁ = some (1, d₂) ∧ Undone staleDisk d₂ e := by
  refine ⟨by decide +kernel, by decide +kernel, by decide +kernel, by decide +kernel, by decide +kernel,
    by decide +kernel, ?_⟩
  rintro ⟨d₁, d₂, e, hw, hdel, hu⟩
  have h : ((writeFile fileB (fun _ => 7) 1 fun _ => 0).exec staleDisk).any (fun r =>
      ((deleteFile fileB).exec r.2).any fun x => x.2 1 4 = 0) = true := by decide +kernel
  rw [hw, Option.any_some, hdel, Option.any_some, decide_eq_true_eq] at h
  change d₂ 1 4 = 0 at h
  rw [hu.map] at h
  exact absurd h (by decide +kernel)

end TeamXtremeOS
