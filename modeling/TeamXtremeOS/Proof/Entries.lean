/-
  What `writeFile` and `deleteFile` do to the map and the directory: the sectors
  that are taken, and the entry that is filled or cleared.
-/
import TeamXtremeOS.Proof.FileCalls

namespace TeamXtremeOS

open Lib

variable {dir dir' diskMap : Sector} {d d' : Disk} {e e' : Fin 16} {f h : FileName} {i j k n : ℕ}
  {l : List UInt8} {s v : UInt8} {b : Buffer} {z : Fin 512}

/-! ## Unused sectors -/

/-- The number of zero bytes among the first 256 of the map. -/
def freeSectors (diskMap : Sector) : ℕ :=
  (List.finRange 512).countP fun j => j.val < 256 ∧ diskMap j = 0

/-- The number of entries that are not in use. -/
def freeEntries (dir : Sector) : ℕ := (List.finRange 16).countP fun e => ¬ InUse dir e

theorem countP_le_add {α : Type} {l Z : List α} {p q : α → Bool} (hl : l.Nodup)
    (h : ∀ x, p x = true → q x = true ∨ x ∈ Z) : l.countP p ≤ l.countP q + Z.length := by
  rw [List.countP_eq_length_filter, List.countP_eq_length_filter, ← List.length_append]
  refine (List.subperm_of_subset (hl.filter _) ?_).length_le
  intro x hx
  obtain ⟨hx, hp⟩ := List.mem_filter.1 hx
  rw [List.mem_append, List.mem_filter]
  exact (h x hp).imp_left fun hq => ⟨hx, hq⟩

/-- Marking sectors leaves all other free ones. -/
theorem freeSectors_mark (Z : List (Fin 512)) (diskMap : Sector) :
    freeSectors diskMap ≤ freeSectors (setAll 0xFF Z diskMap) + Z.length := by
  refine countP_le_add (List.nodup_finRange 512) ?_
  intro x hx
  simp only [decide_eq_true_eq, setAll_apply] at hx ⊢
  by_cases hZ : x ∈ Z
  · exact .inr hZ
  · exact .inl (by rwa [if_neg hZ])

theorem freeSectors_release (Z : List (Fin 512)) (diskMap : Sector) :
    freeSectors diskMap ≤ freeSectors (setAll 0 Z diskMap) := by
  refine List.countP_mono_left ?_
  intro x _ hx
  simp only [decide_eq_true_eq, setAll_apply] at hx ⊢
  split_ifs
  · exact ⟨hx.1, rfl⟩
  · exact hx

/-- At most one entry is taken into use. -/
theorem freeEntries_le (h : ∀ e' ≠ e, InUse dir' e' → InUse dir e') :
    freeEntries dir ≤ freeEntries dir' + 1 := by
  refine countP_le_add (Z := [e]) (List.nodup_finRange 16) ?_
  intro x hx
  simp only [decide_eq_true_eq, List.mem_singleton] at hx ⊢
  by_cases hxe : x = e
  · exact .inr hxe
  · exact .inl fun hl => hx (h x hxe hl)

theorem filter_eq_takeWhile {l : List (Fin 512)} (hl : l.Pairwise (· < ·)) (c : ℕ) :
    (l.filter fun j => j.val < c) = l.takeWhile fun j => j.val < c := by
  induction l with
  | nil => rfl
  | cons x l ih =>
    obtain ⟨hx, hl⟩ := List.pairwise_cons.1 hl
    by_cases hc : x.val < c
    · rw [List.filter_cons_of_pos (by simpa using hc), List.takeWhile_cons_of_pos (by simpa using hc), ih hl]
    · rw [List.filter_cons_of_neg (by simpa using hc), List.takeWhile_cons_of_neg (by simpa using hc),
        List.filter_eq_nil_iff]
      intro y hy
      have := hx y hy
      simp only [decide_eq_true_eq]
      omega

theorem unusedOf_free (hz : z ∈ unusedOf diskMap n) : diskMap z = 0 := by
  simpa using (List.mem_filter.1 (List.mem_of_mem_take hz)).2

theorem unusedOf_nodup : (unusedOf diskMap n).Nodup :=
  ((List.nodup_finRange 512).filter _).sublist (List.take_sublist _ _)

/-- Enough free sectors below 256: that is where the search stops. -/
theorem unusedOf_below (hn : n ≤ freeSectors diskMap) :
    (unusedOf diskMap n).length = n ∧ ∀ z ∈ unusedOf diskMap n, z.val < 256 := by
  have hw := filter_eq_takeWhile ((List.pairwise_lt_finRange 512).filter fun j => diskMap j = 0) 256
  have hlen : (((List.finRange 512).filter fun j => diskMap j = 0).takeWhile fun j => j.val < 256).length =
      freeSectors diskMap := by
    rw [← hw, List.filter_filter, ← List.countP_eq_length_filter, freeSectors]
    simp only [Bool.decide_and]
  obtain ⟨t, ht⟩ : (((List.finRange 512).filter fun j => diskMap j = 0).takeWhile
      fun j => j.val < 256) <+: _ := List.takeWhile_prefix _
  have htake : unusedOf diskMap n = (((List.finRange 512).filter fun j => diskMap j = 0).takeWhile
      fun j => j.val < 256).take n := by
    rw [unusedOf, ← ht, List.take_append_of_le_length (by omega), ht]
  rw [htake]
  refine ⟨by rw [List.length_take, hlen]; omega, ?_⟩
  intro z hz
  simpa using List.mem_takeWhile_imp (List.mem_of_mem_take hz)

theorem sectorNo_toNat (z : Fin 512) : (sectorNo z).toNat = z.val % 256 := UInt8.toNat_ofNat' ..

theorem mapIndex_sectorNo (hz : z.val < 256) : mapIndex (sectorNo z) = z := by
  simp only [mapIndex, sectorNo, Fin.ext_iff, UInt8.toNat_ofNat']
  omega

theorem map_mapIndex_sectorNo {Z : List (Fin 512)} (hZ : ∀ z ∈ Z, z.val < 256) :
    (Z.map sectorNo).map mapIndex = Z := by
  rw [List.map_map]
  conv_rhs => rw [← List.map_id Z]
  exact List.map_congr_left fun z hz => mapIndex_sectorNo (hZ z hz)

theorem sectorNo_injOn {Z : List (Fin 512)} (hZ : ∀ z ∈ Z, z.val < 256) (hnd : Z.Nodup) :
    (Z.map sectorNo).Nodup :=
  hnd.map_on fun x hx y hy he => by
    rw [← mapIndex_sectorNo (hZ x hx), ← mapIndex_sectorNo (hZ y hy), he]

/-- The sectors `writeFile` takes are unused and behind the map. -/
theorem MapOK.mem_unusedOf (hm : MapOK dir diskMap) (hn : n ≤ freeSectors diskMap)
    (hs : s ∈ (unusedOf diskMap n).map sectorNo) : diskMap (mapIndex s) = 0 ∧ 3 ≤ s.toNat := by
  obtain ⟨z, hz, rfl⟩ := List.mem_map.1 hs
  have hlt := (unusedOf_below hn).2 z hz
  have h0 := unusedOf_free hz
  rw [mapIndex_sectorNo hlt]
  refine ⟨h0, ?_⟩
  by_contra h3
  refine hm.reserved z ?_ h0
  simp only [sectorNo, UInt8.toNat_ofNat'] at h3
  omega

/-! ## Entering a file -/

theorem foldl_name (ls : List (Fin 6)) (e : Fin 16) (f : FileName) (dir : Sector) (e' : Fin 16) {o : ℕ}
    (ho : o < 32) : ls.foldl (fun dir l => Function.update dir (entryByte e l.val) (f l)) dir
      (entryByte e' o) = if h : e' = e ∧ ∃ hl : o < 6, (⟨o, hl⟩ : Fin 6) ∈ ls then f ⟨o, h.2.1⟩
        else dir (entryByte e' o) := by
  induction ls generalizing dir with
  | nil => simp
  | cons l ls ih =>
    rw [List.foldl_cons, ih, Function.update_apply]
    simp only [entryByte_inj ho (show l.val < 32 by omega)]
    by_cases he : e' = e
    · by_cases hl : o = l.val
      · subst hl
        simp [he]
      · have hne : ∀ hlt : o < 6, (⟨o, hlt⟩ : Fin 6) ≠ l := fun hlt h => hl (by rw [← h])
        simp [he, hl, hne]
    · simp [he]

theorem entryName_setName : entryName (setName e f dir) e' = if e' = e then f else entryName dir e' := by
  funext i
  rw [entryName, nameByte, setName, foldl_name _ _ _ _ _ (by omega)]
  by_cases he : e' = e
  · rw [dif_pos ⟨he, i.isLt, List.mem_finRange _⟩, if_pos he]
  · rw [dif_neg fun h => he h.1, if_neg he]
    rfl

theorem sectorByte_setName (hj : j < 26) : sectorByte (setName e f dir) e' j = sectorByte dir e' j := by
  rw [sectorByte, setName, foldl_name _ _ _ _ _ (by omega), dif_neg fun h => ?_]
  · rfl
  · have := h.2.1
    omega

/-- Entry `e` is the entry for a file named `f`: it has that name, or nobody
    has and it is free. -/
def EntryFor (dir : Sector) (f : FileName) (e : Fin 16) : Prop :=
  entryName dir e = f ∨ ¬ InUse dir e ∧ ∀ e', entryName dir e' ≠ f

theorem writingEntry_for (he : writingEntry f dir = some e) : EntryFor dir f e := by
  rw [writingEntry, Option.or_eq_some_iff] at he
  rcases he with he | ⟨hf, he⟩
  · exact .inl (findFile_name he)
  · exact .inr ⟨freeEntry_free he, findFile_none hf⟩

theorem entryName_entered (hl : l.length ≤ 26) :
    entryName (entered e f l dir) e' = if e' = e then f else entryName dir e' := by
  rw [entered, entryName_putList (by omega), entryName_setName]

theorem inUse_entered (hf : f 0 ≠ 0) (hl : l.length ≤ 26) :
    InUse (entered e f l dir) e' ↔ e' = e ∨ InUse dir e' := by
  rw [inUse_iff, entryName_entered hl]
  split_ifs with he
  · simp [he, hf]
  · simp [he, inUse_iff]

/-- A new file is found in its entry. -/
theorem findFile_entered (hnew : findFile f dir = none) (hl : l.length ≤ 26) :
    findFile f (entered e f l dir) = some e := by
  refine findFile_unique (by rw [entryName_entered hl, if_pos rfl]) ?_
  intro e' he'
  by_contra hne
  rw [entryName_entered hl, if_neg hne] at he'
  exact findFile_none hnew e' he'

/-- The file is found in the entry it is written to, the first one with its name. -/
theorem findFile_writing (he : writingEntry f dir = some e) (hl : l.length ≤ 26) :
    findFile f (entered e f l dir) = some e := by
  rw [writingEntry, Option.or_eq_some_iff] at he
  rcases he with he | ⟨hnew, -⟩
  · have hname : ∀ e', entryName (entered e f l dir) e' = entryName dir e' := by
      intro e'
      rw [entryName_entered hl]
      split_ifs with hee
      · rw [hee, findFile_name he]
      · rfl
    rw [findFile_eq] at he ⊢
    simpa only [hname] using he
  · exact findFile_entered hnew hl

theorem sectorByte_entered (hl : l.length ≤ 26) (hj : j < 26) : sectorByte (entered e f l dir) e' j =
    if e' = e ∧ j < l.length then l.getD j 0 else sectorByte dir e' j := by
  rw [entered, sectorByte_putList (by omega) hj, sectorByte_setName hj]
  simp only [Nat.zero_le, Nat.zero_add, true_and, Nat.sub_zero]

/-- The list of an entry depends on its own bytes only. -/
theorem sectors_congr (hb : ∀ j < 26, sectorByte dir' e' j = sectorByte dir e' j) :
    sectors dir' e' = sectors dir e' := by
  rw [sectors, sectors, List.map_congr_left fun j hj => hb j (List.mem_range.1 hj)]

theorem sectors_entered_of_ne (hl : l.length ≤ 26) (hne : e' ≠ e) :
    sectors (entered e f l dir) e' = sectors dir e' :=
  sectors_congr fun j hj => by rw [sectorByte_entered hl hj, if_neg fun h => hne h.1]

/-- New sectors stand before what is left of the old list, if no other byte
    comes into it. -/
theorem sectors_entered_self (hl : l.length ≤ 26) (h0 : ∀ s ∈ l, s ≠ 0)
    (hend : (sectors dir e).length < l.length → l.length < 26 → sectorByte dir e l.length = 0) :
    sectors (entered e f l dir) e = l ++ (sectors dir e).drop l.length := by
  have hlen : (l ++ (sectors dir e).drop l.length).length = max l.length (sectors dir e).length := by
    rw [List.length_append, List.length_drop]
    omega
  have h26 := length_sectors_le dir e
  refine sectors_of_bytes ?_ ?_ (by omega) ?_
  · intro j hj
    rw [sectorByte_entered hl (by omega)]
    simp only [true_and]
    split_ifs with hjl
    · rw [List.getD_append _ _ _ _ hjl]
    · have hj' : j < (sectors dir e).length := by omega
      rw [List.getD_append_right _ _ _ _ (by omega), List.getD_eq_getElem?_getD, List.getElem?_drop,
        Nat.add_sub_cancel' (by omega), List.getElem?_eq_getElem hj', Option.getD_some,
        sectorByte_of_sectors (List.getElem?_eq_getElem hj')]
  · intro s hs
    rcases List.mem_append.1 hs with hs | hs
    · exact h0 s hs
    · exact ne_zero_of_mem_sectors (List.mem_of_mem_drop hs)
  · intro hlt
    rw [hlen] at hlt ⊢
    rw [sectorByte_entered hl hlt, if_neg (by omega)]
    rcases lt_or_ge (sectors dir e).length l.length with hlt' | hge
    · rw [max_eq_left hlt'.le]
      exact hend hlt' (by omega)
    · rw [max_eq_right hge]
      exact sectorByte_length (by omega)

/-- In an entry without sector bytes the new list is all there is. -/
theorem sectors_entered_zero (hl : l.length ≤ 26) (h0 : ∀ s ∈ l, s ≠ 0) (hz : ∀ j < 26, sectorByte dir e j = 0) :
    sectors (entered e f l dir) e = l := by
  have hnone : sectors dir e = [] :=
    Spelt.sectors_eq (fun j hj => by rw [hz j hj, List.getD_nil]) (by simp) (by simp)
  rw [sectors_entered_self hl h0 fun _ h => hz _ h, hnone, List.drop_nil, List.append_nil]

/-- **A new version of a file keeps the tail of the old list.** -/
theorem DirOK.entered (hd : DirOK dir) (hf : f 0 ≠ 0) (he : EntryFor dir f e) (hlen : l.length ≤ 25)
    (hdata : ∀ s ∈ l, 3 ≤ s.toNat) (hnd : l.Nodup) (hnew : ∀ e', ∀ s ∈ l, s ∉ sectors dir e') :
    DirOK (entered e f l dir) ∧ ∀ e', sectors (entered e f l dir) e' =
      if e' = e then l ++ (sectors dir e).drop l.length else sectors dir e' := by
  have hname : ∀ e', entryName (TeamXtremeOS.entered e f l dir) e' =
      if e' = e then f else entryName dir e' := fun e' => entryName_entered (by omega)
  have hlive : ∀ {e'}, e' ≠ e → (InUse (TeamXtremeOS.entered e f l dir) e' ↔ InUse dir e') := by
    intro e' hne
    rw [inUse_iff, inUse_iff, hname, if_neg hne]
  have hname' : ∀ {e'}, e' ≠ e → entryName dir e' ≠ f := by
    intro e' hne hn
    rcases he with he | ⟨-, he⟩
    · have hl : InUse dir e := by rw [inUse_iff, he]; exact hf
      have hl' : InUse dir e' := by rw [inUse_iff, hn]; exact hf
      exact hne (hd.names e' e hl' hl (hn.trans he.symm))
    · exact he e' hn
  refine DirOK.of_spelt (L := fun e' => if e' = e then l ++ (sectors dir e).drop l.length
    else sectors dir e') ?_ ?_ ?_ ?_
    ?_ ?_ ?_
  · intro e' j hj
    rw [sectorByte_entered (by omega) hj, hd.spelt e' j hj]
    by_cases hee : e' = e
    · simp only [hee, true_and, if_true]
      split_ifs with hjl
      · rw [List.getD_append _ _ _ _ hjl]
      · rw [List.getD_append_right _ _ _ _ (by omega), List.getD_eq_getElem?_getD,
          List.getD_eq_getElem?_getD, List.getElem?_drop, Nat.add_sub_cancel' (by omega)]
    · simp only [hee, false_and, if_false]
  · intro e'
    have := hd.lists.length_le e
    split_ifs
    · rw [List.length_append, List.length_drop]
      omega
    · exact hd.lists.length_le e'
  · intro e' s hs
    split_ifs at hs with hee
    · rcases List.mem_append.1 hs with hs | hs
      · exact hdata s hs
      · exact hd.three_le (List.mem_of_mem_drop hs)
    · exact hd.three_le hs
  · intro e'
    split_ifs
    · refine List.nodup_append.2 ⟨hnd, (hd.list_nodup e).sublist (List.drop_sublist _ _), ?_⟩
      rintro s hs _ hs' rfl
      exact hnew e s hs (List.mem_of_mem_drop hs')
    · exact hd.list_nodup e'
  · intro e₁ e₂ hne s hs
    split_ifs at hs ⊢ with h1 h2 h2
    · exact absurd (h2.trans h1.symm) hne
    · rw [List.mem_append]
      rintro (hs' | hs')
      · exact hnew e₁ s hs' hs
      · exact hd.lists.notMem_of_mem h2 hs (List.mem_of_mem_drop hs')
    · rcases List.mem_append.1 hs with hs | hs
      · exact hnew e₂ s hs
      · exact hd.lists.notMem_of_mem (fun he => h1 he.symm) (List.mem_of_mem_drop hs)
    · exact hd.lists.notMem_of_mem hne hs
  · intro e' hl
    by_cases hee : e' = e
    · rw [inUse_iff, hname, if_pos hee] at hl
      exact absurd hf hl
    · rw [if_neg hee]
      exact hd.lists.free _ ((hlive hee).not.1 hl)
  · intro e₁ e₂ h1 h2 hn
    rw [hname, hname] at hn
    split_ifs at hn with he1 he2 he2
    · rw [he1, he2]
    · exact absurd hn.symm (hname' he2)
    · exact absurd hn (hname' he1)
    · exact hd.names e₁ e₂ ((hlive he1).1 h1) ((hlive he2).1 h2) hn

/-! ## Erasing a file -/

theorem entryName_erased :
    entryName (erased e dir) e' = if e' = e then Function.update (entryName dir e) 0 0 else entryName dir e' := by
  have hlen := length_sectors_le dir e
  rw [erased, entryName_putList (by rw [List.length_replicate]; omega)]
  funext i
  rw [entryName, nameByte, Function.update_apply]
  simp only [entryByte_inj (show i.val < 32 by omega) (show 0 < 32 by omega)]
  by_cases he : e' = e
  · by_cases hi : i = 0
    · simp [he, hi]
    · have hi' : i.val ≠ 0 := fun h => hi (Fin.ext h)
      simp [he, hi, hi', entryName, nameByte]
  · simp [he, entryName, nameByte]

theorem inUse_erased : InUse (erased e dir) e' ↔ e' ≠ e ∧ InUse dir e' := by
  rw [inUse_iff, entryName_erased]
  split_ifs with he
  · simp [he]
  · simp [he, inUse_iff]

theorem sectorByte_erased (hj : j < 26) : sectorByte (erased e dir) e' j =
    if e' = e ∧ j < (sectors dir e).length then 0 else sectorByte dir e' j := by
  have hlen := length_sectors_le dir e
  have hb : sectorByte (Function.update dir (entryByte e 0) 0) e' j = sectorByte dir e' j := by
    rw [sectorByte, Function.update_of_ne]
    · rfl
    · rw [Ne, entryByte_inj (by omega) (by omega)]
      omega
  rw [erased, sectorByte_putList (by rw [List.length_replicate]; omega) hj, hb, List.length_replicate]
  simp only [Nat.zero_le, Nat.zero_add, true_and, Nat.sub_zero]
  split_ifs with h
  · rw [List.getD_replicate _ h.2]
  · rfl

theorem sectors_erased : sectors (erased e dir) e' = if e' = e then [] else sectors dir e' := by
  split_ifs with he
  · refine sectors_of_bytes (by simp) (by simp) (by simp) ?_
    intro _
    rw [List.length_nil, sectorByte_erased (by omega), he]
    split_ifs with h
    · rfl
    · have h0 : (sectors dir e).length = 0 := by simpa using h
      have hb : sectorByte dir e (sectors dir e).length = 0 := sectorByte_length (by omega)
      rwa [h0] at hb
  · exact sectors_congr fun j hj => by rw [sectorByte_erased hj, if_neg fun h => he h.1]

theorem DirOK.erased (hd : DirOK dir) (e : Fin 16) : DirOK (erased e dir) ∧
    ∀ e', sectors (erased e dir) e' = if e' = e then [] else sectors dir e' := by
  have hname : ∀ {e'}, e' ≠ e → entryName (TeamXtremeOS.erased e dir) e' = entryName dir e' := by
    intro e' hne
    rw [entryName_erased, if_neg hne]
  refine DirOK.of_spelt (L := fun e' => if e' = e then [] else sectors dir e')
    ?_ ?_ ?_ ?_
    ?_ ?_ ?_
  · intro e' j hj
    rw [sectorByte_erased hj, hd.spelt e' j hj]
    by_cases hee : e' = e
    · simp only [hee, true_and, if_true, List.getD_nil]
      split_ifs with hjl
      · rfl
      · rw [List.getD_eq_default _ _ (by omega)]
    · simp only [hee, false_and, if_false]
  · intro e'
    split_ifs
    · simp
    · exact hd.lists.length_le e'
  · intro e' s hs
    split_ifs at hs
    · cases hs
    · exact hd.three_le hs
  · intro e'
    split_ifs
    · exact List.nodup_nil
    · exact hd.list_nodup e'
  · intro e₁ e₂ hne s hs
    split_ifs at hs ⊢ with h1 h2 h2
    · simp
    · simp
    · cases hs
    · exact hd.lists.notMem_of_mem hne hs
  · intro e' hl
    by_cases hee : e' = e
    · rw [if_pos hee]
    · rw [if_neg hee]
      exact hd.lists.free _ fun h => hl (inUse_erased.2 ⟨hee, h⟩)
  · intro e₁ e₂ h1 h2 hn
    obtain ⟨hne₁, h1⟩ := inUse_erased.1 h1
    obtain ⟨hne₂, h2⟩ := inUse_erased.1 h2
    rw [hname hne₁, hname hne₂] at hn
    exact hd.names e₁ e₂ h1 h2 hn

end TeamXtremeOS
