/-
  The disk map against the directory.  A write over an old version of a file
  takes new sectors and gives none back, so the map may go on marking sectors
  that no entry lists.
-/
import TeamXtremeOS.Proof.Files

namespace TeamXtremeOS

open Lib

variable {R : Set (Fin 512)} {dir diskMap : Sector} {d d' : Disk} {e e' : Fin 16} {f : FileName}
  {i : Fin 512} {n : ℕ} {s : UInt8} {l : List UInt8} {c : FileCall}

/-- An entry in use lists the sector. -/
def ListedAt (dir : Sector) (i : Fin 512) : Prop :=
  ∃ e, InUse dir e ∧ ∃ s ∈ sectors dir e, mapIndex s = i

instance (dir : Sector) (i : Fin 512) : Decidable (ListedAt dir i) :=
  inferInstanceAs (Decidable (∃ e, InUse dir e ∧ ∃ s ∈ sectors dir e, mapIndex s = i))

/-- The map marks the sectors of a reserved set, the first three among them, and
    those that are listed, and no other ones; the lists are short and disjoint,
    and a free entry has an empty one. -/
structure Accounted (R : Set (Fin 512)) (dir diskMap : Sector) : Prop where
  reserved : ∀ i : Fin 512, i.val < 3 → i ∈ R
  short : ∀ e, InUse dir e → (sectors dir e).length ≤ 25
  disjoint : ∀ e e', InUse dir e → InUse dir e' → e ≠ e' → ∀ s ∈ sectors dir e, s ∉ sectors dir e'
  free : ∀ e, ¬ InUse dir e → sectors dir e = []
  marked : ∀ i, diskMap i ≠ 0 ↔ i ∈ R ∨ ListedAt dir i

namespace Accounted

theorem lists (hd : Accounted R dir diskMap) : Lists dir := ⟨hd.short, hd.disjoint, hd.free⟩

theorem listed_of_mem (hd : Accounted R dir diskMap) (hs : s ∈ sectors dir e) : ListedAt dir (mapIndex s) :=
  ⟨e, hd.lists.inUse_of_mem hs, s, hs, rfl⟩

theorem marked_of_mem (hd : Accounted R dir diskMap) (hs : s ∈ sectors dir e) : diskMap (mapIndex s) ≠ 0 :=
  (hd.marked _).2 (.inr (hd.listed_of_mem hs))

theorem reserved_marked (hd : Accounted R dir diskMap) (hi : i.val < 3) : diskMap i ≠ 0 :=
  (hd.marked i).2 (.inl (hd.reserved i hi))

/-- The sectors a write takes are on no list, and none of them is sector 0. -/
theorem fresh (hd : Accounted R dir diskMap) (hz : n ≤ freeSectors diskMap)
    (hs : s ∈ (unusedOf diskMap n).map sectorNo) : diskMap (mapIndex s) = 0 ∧ s ≠ 0 := by
  obtain ⟨z, hz', rfl⟩ := List.mem_map.1 hs
  have h0 := unusedOf_free hz'
  rw [← mapIndex_sectorNo ((unusedOf_below hz).2 z hz')] at h0
  refine ⟨h0, ?_⟩
  intro hs0
  rw [hs0] at h0
  exact hd.reserved_marked (by decide) h0

/-! ## One write -/

/-- The entry lists the new sectors before what is left of the old list. -/
theorem sectors_entered (hd : Accounted R dir diskMap) (h25 : n ≤ 25) (hz : n ≤ freeSectors diskMap)
    (htail : (sectors dir e).length < n → sectorByte dir e n = 0) :
    sectors (entered e f ((unusedOf diskMap n).map sectorNo) dir) e' =
      if e' = e then (unusedOf diskMap n).map sectorNo ++ (sectors dir e).drop n else sectors dir e' := by
  have hL : ((unusedOf diskMap n).map sectorNo).length = n := by rw [List.length_map, (unusedOf_below hz).1]
  split_ifs with he
  · have hs : sectors (entered e f ((unusedOf diskMap n).map sectorNo) dir) e = _ :=
      sectors_entered_self (by omega) (fun s hs => (hd.fresh hz hs).2)
        (fun h _ => by rw [hL] at h ⊢; exact htail h)
    rw [he, hs, hL]
  · exact sectors_entered_of_ne (by omega) he

theorem disjoint_entered (hd : Accounted R dir diskMap) (hz : n ≤ freeSectors diskMap) (hne : e' ≠ e)
    (hs : s ∈ (unusedOf diskMap n).map sectorNo ++ (sectors dir e).drop n) : s ∉ sectors dir e' := by
  intro hs'
  rcases List.mem_append.1 hs with hs | hs
  · exact hd.marked_of_mem hs' (hd.fresh hz hs).1
  · exact hd.lists.notMem_of_mem hne hs' (List.mem_of_mem_drop hs)

/-- The entries list the sectors that they have listed before, but for those
    that the write takes out, and the new ones. -/
theorem listedAt_entered (hd : Accounted R dir diskMap) (hf : f 0 ≠ 0) (h25 : n ≤ 25)
    (hz : n ≤ freeSectors diskMap) (htail : (sectors dir e).length < n → sectorByte dir e n = 0) :
    ListedAt (entered e f ((unusedOf diskMap n).map sectorNo) dir) i ↔ i ∈ unusedOf diskMap n ∨
      (∃ s ∈ (sectors dir e).drop n, mapIndex s = i) ∨ ∃ e' ≠ e, ∃ s ∈ sectors dir e', mapIndex s = i := by
  obtain ⟨hlen, hlt⟩ := unusedOf_below hz
  have hlive : ∀ e', InUse (entered e f ((unusedOf diskMap n).map sectorNo) dir) e' ↔ e' = e ∨ InUse dir e' :=
    fun e' => inUse_entered hf (by rw [List.length_map]; omega)
  rw [← map_mapIndex_sectorNo hlt, List.mem_map, map_mapIndex_sectorNo hlt]
  simp only [ListedAt, hlive, hd.sectors_entered h25 hz htail]
  constructor
  · rintro ⟨e', -, s, hs, rfl⟩
    split_ifs at hs with he
    · rcases List.mem_append.1 hs with hs | hs
      · exact .inl ⟨s, hs, rfl⟩
      · exact .inr (.inl ⟨s, hs, rfl⟩)
    · exact .inr (.inr ⟨e', he, s, hs, rfl⟩)
  · rintro (⟨s, hs, rfl⟩ | ⟨s, hs, rfl⟩ | ⟨e', he, s, hs, rfl⟩)
    · exact ⟨e, .inl rfl, s, by rw [if_pos rfl]; exact List.mem_append_left _ hs, rfl⟩
    · exact ⟨e, .inl rfl, s, by rw [if_pos rfl]; exact List.mem_append_right _ hs, rfl⟩
    · exact ⟨e', .inr (hd.lists.inUse_of_mem hs), s, by rwa [if_neg he], rfl⟩

/-- **A write keeps the balance** if and only if every sector it takes out of
    the list is reserved or stands in the list once more.  (No byte behind the
    old list may come into the new one.) -/
theorem entered_iff (hd : Accounted R dir diskMap) (hf : f 0 ≠ 0) (h25 : n ≤ 25) (hz : n ≤ freeSectors diskMap)
    (htail : (sectors dir e).length < n → sectorByte dir e n = 0) :
    Accounted R (entered e f ((unusedOf diskMap n).map sectorNo) dir) (setAll 0xFF (unusedOf diskMap n) diskMap) ↔
      ∀ s ∈ (sectors dir e).take n, mapIndex s ∈ R ∨ s ∈ (sectors dir e).drop n := by
  have hlen : ((unusedOf diskMap n).map sectorNo).length = n := by rw [List.length_map, (unusedOf_below hz).1]
  have hsec : ∀ e', sectors (entered e f ((unusedOf diskMap n).map sectorNo) dir) e' = _ := fun e' =>
    hd.sectors_entered h25 hz htail
  have hlisted : ∀ i, ListedAt (entered e f ((unusedOf diskMap n).map sectorNo) dir) i ↔ _ := fun i =>
    hd.listedAt_entered hf h25 hz htail
  have hset : ∀ i, setAll 0xFF (unusedOf diskMap n) diskMap i ≠ 0 ↔ i ∈ unusedOf diskMap n ∨ diskMap i ≠ 0 := by
    intro i
    rw [setAll_apply]
    by_cases hi : i ∈ unusedOf diskMap n <;> simp [hi]
  constructor
  · intro h' s hs
    have hold := hd.marked_of_mem (List.mem_of_mem_take hs)
    refine ((h'.marked _).1 ((hset _).2 (.inr hold))).imp_right ?_
    intro hl
    rcases (hlisted _).1 hl with hi | ⟨s', hs', he⟩ | ⟨e', he', s', hs', he⟩
    · exact absurd (unusedOf_free hi) hold
    · exact mapIndex_injective he ▸ hs'
    · rw [mapIndex_injective he] at hs'
      exact absurd (List.mem_of_mem_take hs) (hd.lists.notMem_of_mem he' hs')
  · intro hbal
    refine ⟨hd.reserved, ?_, ?_, ?_, ?_⟩
    · intro e' _
      rw [hsec]
      split_ifs
      · have := hd.lists.length_le e
        rw [List.length_append, hlen, List.length_drop]
        omega
      · exact hd.lists.length_le e'
    · intro e₁ e₂ _ _ hne s hs
      rw [hsec] at hs ⊢
      split_ifs at hs ⊢ with h2 h1 h1
      · exact absurd (h1.trans h2.symm) hne
      · exact fun hs' => hd.disjoint_entered hz h1 hs' hs
      · exact hd.disjoint_entered hz h2 hs
      · exact hd.lists.notMem_of_mem hne hs
    · intro e' he'
      rw [inUse_entered hf (by omega), not_or] at he'
      rw [hsec, if_neg he'.1]
      exact hd.free e' he'.2
    · intro i
      rw [hset, hd.marked, hlisted]
      constructor
      · rintro (hi | hi | ⟨e', he', s, hs, rfl⟩)
        · exact .inr (.inl hi)
        · exact .inl hi
        · by_cases hee : e' = e
          · rw [hee, ← List.take_append_drop n (sectors dir e), List.mem_append] at hs
            have hs : mapIndex s ∈ R ∨ s ∈ (sectors dir e).drop n := hs.elim (hbal s) .inr
            exact hs.imp_right fun hs => .inr (.inl ⟨s, hs, rfl⟩)
          · exact .inr (.inr (.inr ⟨e', hee, s, hs, rfl⟩))
      · rintro (hi | hi | ⟨s, hs, rfl⟩ | ⟨e', -, s, hs, rfl⟩)
        · exact .inr (.inl hi)
        · exact .inl hi
        · exact .inr (.inr (hd.listed_of_mem (List.mem_of_mem_drop hs)))
        · exact .inr (.inr (hd.listed_of_mem hs))

/-! ## One deletion -/

/-- **A deletion keeps the balance** if and only if the file has no reserved
    sector. -/
theorem erased_iff (hd : Accounted R dir diskMap) (e : Fin 16) :
    Accounted R (erased e dir) (setAll 0 ((sectors dir e).map mapIndex) diskMap) ↔
      ∀ s ∈ sectors dir e, mapIndex s ∉ R := by
  have hset : ∀ i, setAll 0 ((sectors dir e).map mapIndex) diskMap i ≠ 0 ↔
      (¬ ∃ s ∈ sectors dir e, mapIndex s = i) ∧ diskMap i ≠ 0 := by
    intro i
    simp only [setAll_apply, List.mem_map]
    split_ifs with hi
    · simp [hi]
    · simp [hi]
  constructor
  · intro h' s hs hR
    exact ((hset _).1 ((h'.marked _).2 (.inl hR))).1 ⟨s, hs, rfl⟩
  · intro hbal
    refine ⟨hd.reserved, ?_, ?_, ?_, ?_⟩
    · intro e' _
      rw [sectors_erased]
      split_ifs
      · simp
      · exact hd.lists.length_le e'
    · intro e₁ e₂ _ _ hne s hs
      rw [sectors_erased] at hs ⊢
      by_cases h1 : e₁ = e
      · rw [if_pos h1] at hs
        cases hs
      · rw [if_neg h1] at hs
        split_ifs
        · simp
        · exact hd.lists.notMem_of_mem hne hs
    · intro e' he'
      rw [sectors_erased]
      split_ifs with hee
      · rfl
      · exact hd.free e' fun h => he' (inUse_erased.2 ⟨hee, h⟩)
    · intro i
      rw [hset, hd.marked]
      constructor
      · rintro ⟨hno, hR | ⟨e', he', s, hs, rfl⟩⟩
        · exact .inl hR
        · have hee : e' ≠ e := by
            rintro rfl
            exact hno ⟨s, hs, rfl⟩
          exact .inr ⟨e', inUse_erased.2 ⟨hee, he'⟩, s, by rwa [sectors_erased, if_neg hee], rfl⟩
      · rintro (hR | ⟨e', -, s, hs, rfl⟩)
        · refine ⟨?_, .inl hR⟩
          rintro ⟨s, hs, rfl⟩
          exact hbal s hs hR
        · rw [sectors_erased] at hs
          split_ifs at hs with hee
          · cases hs
          · refine ⟨?_, .inr (hd.listed_of_mem hs)⟩
            rintro ⟨s', hs', he'⟩
            rw [mapIndex_injective he'] at hs'
            exact hd.lists.notMem_of_mem hee hs hs'

end Accounted

/-! ## Runs -/

namespace FileCall

/-- A file has a name and between 1 and 25 sectors, and there is room for them. -/
def Sized (d : Disk) : FileCall → Prop
  | .writeFile fname _ sectors _ =>
    Named fname ∧ 1 ≤ sectors.toInt ∧ sectors.toInt ≤ 25 ∧ sectors.toInt ≤ freeSectors (d 1)
  | .deleteFile _ => True

instance : ∀ (d : Disk) (c : FileCall), Decidable (Sized d c)
  | _, .writeFile .. => inferInstanceAs (Decidable (_ ∧ _ ∧ _ ∧ _))
  | _, .deleteFile _ => inferInstanceAs (Decidable True)

/-- A write puts its `n` sectors over no sector of an old list, and before no
    byte that was behind it; a deleted file has no reserved sector.  A reserved
    sector, or one that stands in the list once more, may be overwritten. -/
def Balanced (R : Set (Fin 512)) (d : Disk) : FileCall → Prop
  | .writeFile fname _ sectors _ => ∀ e, writingEntry fname (d 2) = some e →
    (∀ s ∈ (TeamXtremeOS.sectors (d 2) e).take sectors.toInt.toNat,
      mapIndex s ∈ R ∨ s ∈ (TeamXtremeOS.sectors (d 2) e).drop sectors.toInt.toNat) ∧
    ((TeamXtremeOS.sectors (d 2) e).length < sectors.toInt.toNat →
      sectorByte (d 2) e sectors.toInt.toNat = 0)
  | .deleteFile fname => ∀ e, findFile fname (d 2) = some e →
    ∀ s ∈ TeamXtremeOS.sectors (d 2) e, mapIndex s ∉ R

instance (R : Set (Fin 512)) [DecidablePred (· ∈ R)] : ∀ (d : Disk) (c : FileCall), Decidable (Balanced R d c)
  | d, .writeFile fname _ n _ => inferInstanceAs (Decidable (∀ e, writingEntry fname (d 2) = some e →
    (∀ s ∈ (TeamXtremeOS.sectors (d 2) e).take n.toInt.toNat,
      mapIndex s ∈ R ∨ s ∈ (TeamXtremeOS.sectors (d 2) e).drop n.toInt.toNat) ∧
    ((TeamXtremeOS.sectors (d 2) e).length < n.toInt.toNat → sectorByte (d 2) e n.toInt.toNat = 0)))
  | d, .deleteFile fname => inferInstanceAs (Decidable (∀ e, findFile fname (d 2) = some e →
    ∀ s ∈ TeamXtremeOS.sectors (d 2) e, mapIndex s ∉ R))

/-- What a call does to the balance. -/
theorem step_accounted (hd : Accounted R (d 2) (d 1)) (hc : Sized d c) :
    ∃ d', step d c = some d' ∧ (Balanced R d c → Accounted R (d' 2) (d' 1)) := by
  cases c with
  | writeFile f b sectors unused =>
    obtain ⟨hf, -, h25, hz⟩ := hc
    rcases he : writingEntry f (d 2) with _ | e
    · exact ⟨d, by rw [step_writeFile, writeFile_none he, Option.map_some], fun _ => hd⟩
    · have hz' : sectors.toInt.toNat ≤ freeSectors (d 1) := by omega
      refine ⟨_, by rw [step_writeFile, writeFile_some he h25 rfl hz', Option.map_some], ?_⟩
      intro hbal
      obtain ⟨htake, htail⟩ := hbal e he
      dsimp only
      rw [Function.update_self, Function.update_of_ne (by omega), written, Function.update_self]
      exact (hd.entered_iff hf (by omega) hz' htail).2 htake
  | deleteFile f =>
    rcases hf : findFile f (d 2) with _ | e
    · exact ⟨d, by rw [step_deleteFile, deleteFile_none hf, Option.map_some], fun _ => hd⟩
    · refine ⟨_, by rw [step_deleteFile, deleteFile_some (hd.lists.length_le e) hf, Option.map_some], ?_⟩
      intro hbal
      dsimp only
      rw [Function.update_self, Function.update_of_ne (by omega), Function.update_self]
      exact (hd.erased_iff e).2 (hbal e hf)

end FileCall

/-- **No sector is lost or taken twice** in a run of balanced calls: a sector is
    marked exactly when it is reserved or listed. -/
theorem no_leak (hd : Accounted R (d 2) (d 1)) {cs : List FileCall}
    (hr : Run FileCall.step (fun d c => c.Sized d ∧ c.Balanced R d) d cs d') :
    (∀ i, d' 1 i ≠ 0 ↔ i ∈ R ∨ ListedAt (d' 2) i) ∧
      ∀ c, FileCall.Sized d' c → (FileCall.step d' c).isSome := by
  have hd' : Accounted R (d' 2) (d' 1) := by
    refine hr.invariant (I := fun d => Accounted R (d 2) (d 1)) ?_ hd
    rintro d c d₁ hd ⟨hc, hbal⟩ hs
    obtain ⟨d₂, hs₂, hd₂⟩ := FileCall.step_accounted hd hc
    rw [hs, Option.some.injEq] at hs₂
    exact hs₂ ▸ hd₂ hbal
  refine ⟨hd'.marked, ?_⟩
  intro c hc
  obtain ⟨_, hs, -⟩ := FileCall.step_accounted hd' hc
  rw [hs]
  rfl

/-- The first three sectors: boot, map and directory. -/
def firstThree : Set (Fin 512) := {i | i.val < 3}

instance : DecidablePred (· ∈ firstThree) := fun i => inferInstanceAs (Decidable (i.val < 3))

theorem twoSectorDisk_accounted : Accounted firstThree (twoSectorDisk 2) (twoSectorDisk 1) :=
  ⟨by decide +kernel, by decide +kernel, by decide +kernel, by decide +kernel, by decide +kernel⟩

/-- Files come and go. -/
theorem no_leak_two : ∃ d' : Disk, ∀ i, d' 1 i ≠ 0 ↔ i ∈ firstThree ∨ ListedAt (d' 2) i := by
  have h : (evalRun FileCall.step (fun d c => c.Sized d ∧ c.Balanced firstThree d) twoSectorDisk
      [.writeFile fileB (fun _ => 7) 2 fun _ => 0, .deleteFile fileA, .deleteFile fileB]).any
      (fun _ => true) = true := by decide +kernel
  obtain ⟨d', hr, -⟩ := Run.exists_of_evalRun h
  exact ⟨d', (no_leak twoSectorDisk_accounted hr).1⟩

/-- **Overwriting a file leaks its old sectors**: here sector 3 stays marked, and
    nobody lists it. -/
theorem leak_overwrite : Accounted firstThree (twoSectorDisk 2) (twoSectorDisk 1) ∧
    (∀ e, ¬ InUse (twoSectorDisk 2) e → ∀ j < 26, sectorByte (twoSectorDisk 2) e j = 0) ∧
    ∃ d', Run FileCall.step (fun d c => c.Sized d) twoSectorDisk
      [.writeFile fileA (fun _ => 7) 1 fun _ => 0] d' ∧
      ¬ ∀ i, d' 1 i ≠ 0 ↔ i ∈ firstThree ∨ ListedAt (d' 2) i := by
  refine ⟨twoSectorDisk_accounted, by decide +kernel, ?_⟩
  have h : (evalRun FileCall.step (fun d c => c.Sized d) twoSectorDisk
      [.writeFile fileA (fun _ => 7) 1 fun _ => 0]).any
      (fun d => d 1 3 ≠ 0 ∧ (3 : Fin 512) ∉ firstThree ∧ ¬ ListedAt (d 2) 3) = true := by decide +kernel
  obtain ⟨d', hr, hl⟩ := Run.exists_of_evalRun h
  obtain ⟨h1, h2, h3⟩ := of_decide_eq_true hl
  exact ⟨d', hr, fun hall => ((hall 3).1 h1).elim h2 h3⟩

end TeamXtremeOS
