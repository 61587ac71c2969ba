/-
  A write that runs out of room.  The loop that marks the sectors goes on to the
  number asked for, over entries of a local array that nobody has set.
-/
import TeamXtremeOS.Proof.Allocation

namespace TeamXtremeOS

open Lib

variable {dir diskMap : Sector} {d d' : Disk} {e e' : Fin 16} {f h : FileName} {k m n r : ℕ} {b : Buffer}
  {z : Fin 512} {G : List (Fin 512)} {s : UInt8} {l : List UInt8} {unusedSectors : ℕ → Int16}

/-- The disk when `writeFile` has written what it found, with `G` from the array
    behind it. -/
def filled (e : Fin 16) (f : FileName) (b : Buffer) (n : ℕ) (G : List (Fin 512)) (d : Disk) : Disk :=
  Function.update (Function.update (Prog.store (dataWrites b 0 ((unusedOf (d 1) n).map sectorNo)) d) 2
    (entered e f ((unusedOf (d 1) n ++ G).map sectorNo) (d 2))) 1 (setAll 0xFF (unusedOf (d 1) n ++ G) (d 1))

theorem filled_map : filled e f b n G d 1 = setAll 0xFF (unusedOf (d 1) n ++ G) (d 1) := Function.update_self ..

theorem filled_dir : filled e f b n G d 2 = entered e f ((unusedOf (d 1) n ++ G).map sectorNo) (d 2) := by
  rw [filled, Function.update_of_ne (by omega), Function.update_self]

theorem filled_data (h1 : k ≠ 1) (h2 : k ≠ 2) : filled e f b n G d k =
    Prog.store (dataWrites b 0 ((unusedOf (d 1) n).map sectorNo)) d k := by
  rw [filled, Function.update_of_ne h1, Function.update_of_ne h2]

theorem writeFile_filled {sectors : Int16} (he : writingEntry f (d 2) = some e) (h26 : sectors.toInt ≤ 26)
    (hn : n = sectors.toInt.toNat) (hlen : (unusedOf (d 1) n).length + G.length = n)
    (hG : ∀ i g, G[i]? = some g → unusedSectors ((unusedOf (d 1) n).length + i) = Int16.ofNat g.val) :
    (writeFile f b sectors unusedSectors).exec d = some (if (unusedOf (d 1) n).length < n then -2 else
      Int16.ofNat (unusedOf (d 1) n).length, filled e f b n G d) := by
  rw [writeFile_eq, Prog.exec, Prog.exec, writeTail_filled he h26 hn hlen hG, Prog.exec_writes,
    Prog.exec, Prog.exec, Prog.exec, filled]

/-- A list of witnesses. -/
theorem exists_list {α : Type*} {P : ℕ → α → Prop} (h : ∀ m < r, ∃ x, P m x) :
    ∃ l : List α, l.length = r ∧ ∀ i x, l[i]? = some x → P i x := by
  choose x hx using h
  refine ⟨List.ofFn fun i : Fin r => x i i.isLt, List.length_ofFn, ?_⟩
  intro i y hy
  obtain ⟨hi, rfl⟩ := List.getElem?_eq_some_iff.1 hy
  rw [List.getElem_ofFn]
  exact hx i _

/-- What the array must hold for the call to return. -/
theorem exists_garbage {sectors : Int16} {x : Int16} (he : writingEntry f (d 2) = some e)
    (h26 : sectors.toInt ≤ 26) (hn : n = sectors.toInt.toNat)
    (hw : (writeFile f b sectors unusedSectors).exec d = some (x, d')) :
    ∃ G : List (Fin 512), G.length = n - (unusedOf (d 1) n).length ∧
      ∀ i g, G[i]? = some g → unusedSectors ((unusedOf (d 1) n).length + i) = Int16.ofNat g.val := by
  rw [writeFile_eq, Prog.exec, Prog.exec] at hw
  refine exists_list ?_
  intro i hi
  obtain ⟨h0, hlt⟩ := writeTail_range he h26 hn hw ((unusedOf (d 1) n).length + i) (by omega) (by omega)
  refine ⟨⟨(unusedSectors ((unusedOf (d 1) n).length + i)).toInt.toNat, by omega⟩, ?_⟩
  rw [← Int16.toInt_inj, Int16.toInt_ofNat_of_lt (by simp only; omega)]
  simp only
  omega

/-- The file system after a write that has found `k` sectors only: they are all
    that is new in the map, the entry lists them, the file has as much of the
    buffer, and the other files are what they were. -/
structure Truthful (d d' : Disk) (f : FileName) (b : Buffer) (k : ℕ) : Prop where
  map : ∀ i, d' 1 i ≠ d 1 i ↔ d 1 i = 0
  entry : ∃ e l, ¬ InUse (d 2) e ∧ entryName (d' 2) e = f ∧ Spelt (d' 2) e l ∧ l.length = k ∧
    ∀ i, i ∈ l.map mapIndex ↔ d 1 i = 0
  read : ∀ buf, ∃ buf', (readFile f buf).exec d' = some ((Int16.ofNat k, buf'), d') ∧
    ∀ o < k * 512, buf' o = b o
  others : ∀ h, h 0 ≠ 0 → h ≠ f → ∀ buf, ∃ r, (readFile h buf).exec d = some (r, d) ∧
    (readFile h buf).exec d' = some (r, d')

/-! ## All free sectors are taken -/

theorem mem_unusedOf_iff (hk : zeroBytes diskMap < n) : z ∈ unusedOf diskMap n ↔ diskMap z = 0 := by
  rw [unusedOf, List.take_of_length_le (by rw [← List.countP_eq_length_filter]; exact hk.le), List.mem_filter]
  simp

theorem length_unusedOf_lt (hk : zeroBytes diskMap < n) : (unusedOf diskMap n).length = zeroBytes diskMap := by
  rw [length_unusedOf]
  omega

theorem findFile_filled (hnew : findFile f (d 2) = none) (hlen : (unusedOf (d 1) n ++ G).length ≤ 26) :
    findFile f (filled e f b n G d 2) = some e := by
  rw [filled_dir]
  exact findFile_entered hnew (by rwa [List.length_map])

theorem sectorByte_filled (hlen : (unusedOf (d 1) n ++ G).length = n) (h26 : n ≤ 26) (hk : k < 26) :
    sectorByte (filled e f b n G d 2) e k =
      if k < n then ((unusedOf (d 1) n ++ G).map sectorNo).getD k 0 else sectorByte (d 2) e k := by
  rw [filled_dir, sectorByte_entered (by rw [List.length_map]; omega) hk, List.length_map, hlen]
  simp only [true_and]

theorem entryName_filled (hlen : (unusedOf (d 1) n ++ G).length ≤ 26) :
    entryName (filled e f b n G d 2) e' = if e' = e then f else entryName (d 2) e' := by
  rw [filled_dir, entryName_entered (by rwa [List.length_map])]

/-- Numbers 0 from the array are no different from the bytes of an empty list. -/
theorem spelt_filled (hz : ∀ j < 26, sectorByte (d 2) e j = 0) (hk : zeroBytes (d 1) < n) (h26 : n ≤ 26)
    (hlen : (unusedOf (d 1) n ++ G).length = n) (hG : ∀ g ∈ G, sectorNo g = 0) :
    Spelt (filled e f b n G d 2) e ((unusedOf (d 1) n).map sectorNo) := by
  have hL : ((unusedOf (d 1) n).map sectorNo).length = zeroBytes (d 1) := by
    rw [List.length_map, length_unusedOf_lt hk]
  intro j hj
  rw [sectorByte_filled hlen h26 hj, List.map_append]
  rcases lt_or_ge j (zeroBytes (d 1)) with hjk | hjk
  · rw [if_pos (by omega), List.getD_append _ _ _ _ (by omega)]
  · rw [List.getD_eq_default _ _ (by omega : ((unusedOf (d 1) n).map sectorNo).length ≤ j)]
    split_ifs with hjn
    · rw [List.getD_append_right _ _ _ _ (by omega), List.getD_eq_getElem?_getD]
      rcases hg : (G.map sectorNo)[j - ((unusedOf (d 1) n).map sectorNo).length]? with _ | s
      · rw [Option.getD_none]
      · obtain ⟨g, hg', rfl⟩ := List.mem_map.1 (List.mem_of_getElem? hg)
        rw [Option.getD_some, hG g hg']
    · exact hz j hj

/-- The sectors that are taken are data sectors of nobody. -/
theorem fresh_sectors (hZ : ∀ z ∈ unusedOf (d 1) n, 3 ≤ z.val ∧ z.val < 256)
    (hs : s ∈ (unusedOf (d 1) n).map sectorNo) : 3 ≤ s.toNat ∧ d 1 (mapIndex s) = 0 := by
  obtain ⟨z, hz, rfl⟩ := List.mem_map.1 hs
  obtain ⟨h3, h256⟩ := hZ z hz
  rw [mapIndex_sectorNo h256, sectorNo_toNat, Nat.mod_eq_of_lt h256]
  exact ⟨h3, unusedOf_free hz⟩

theorem fresh_ne_zero (hZ : ∀ z ∈ unusedOf (d 1) n, 3 ≤ z.val ∧ z.val < 256)
    (hs : s ∈ (unusedOf (d 1) n).map sectorNo) : s ≠ 0 := by
  rintro rfl
  exact absurd (fresh_sectors hZ hs).1 (by decide)

/-- A new file is read back when its entry lists the sectors that were found. -/
theorem filled_read (hnew : findFile f (d 2) = none) (hZ : ∀ z ∈ unusedOf (d 1) n, 3 ≤ z.val ∧ z.val < 256)
    (hlen : (unusedOf (d 1) n ++ G).length ≤ 26)
    (hsec : sectors (filled e f b n G d 2) e = (unusedOf (d 1) n).map sectorNo)
    (h25 : (unusedOf (d 1) n).length ≤ 25) (buf : Buffer) : (readFile f buf).exec (filled e f b n G d) =
      some ((Int16.ofNat (unusedOf (d 1) n).length,
        putChunks ((List.range (unusedOf (d 1) n).length).map (chunk b)) 0 buf), filled e f b n G d) := by
  have hread : ((unusedOf (d 1) n).map sectorNo).map (fun s => filled e f b n G d s.toNat) =
      (List.range (unusedOf (d 1) n).length).map (chunk b) := by
    have hnd := sectorNo_injOn (fun z hz => (hZ z hz).2) (show (unusedOf (d 1) n).Nodup from unusedOf_nodup)
    rw [← List.length_map sectorNo, ← map_store_dataWrites hnd d]
    refine List.map_congr_left ?_
    intro s hs
    have := (fresh_sectors hZ hs).1
    exact filled_data (by omega) (by omega)
  rw [readFile_walk (findFile_filled hnew hlen), walk_short (by rw [hsec, List.length_map]; exact h25), hsec,
    Option.map_some, hread, List.length_map]

/-- A new file does not change the others. -/
theorem filled_others (hd : Sound d) (he : ¬ InUse (d 2) e)
    (hZ : ∀ z ∈ unusedOf (d 1) n, 3 ≤ z.val ∧ z.val < 256) (hlen : (unusedOf (d 1) n ++ G).length ≤ 26)
    (hh : h 0 ≠ 0) (hne : h ≠ f) (buf : Buffer) : ∃ r, (readFile h buf).exec d = some (r, d) ∧
      (readFile h buf).exec (filled e f b n G d) = some (r, filled e f b n G d) := by
  refine readFile_other (e := e) ?_ ?_ ?_ ?_ ?_
    (fun e' _ => hd.lists.length_le e') buf
  · intro e' he'
    rw [entryName_filled hlen, if_neg he']
  · intro e' he'
    rw [filled_dir, sectors_entered_of_ne (by rwa [List.length_map]) he']
  · intro hn
    rw [inUse_iff, hn] at he
    exact he hh
  · rw [entryName_filled hlen, if_pos rfl]
    exact fun h => hne h.symm
  · intro e' _ _ s hs
    obtain ⟨h3, hmark⟩ := hd.used e' (hd.lists.inUse_of_mem hs) s hs
    rw [filled_data (by omega) (by omega), store_dataWrites_of_notMem fun hs' => hmark (fresh_sectors hZ hs').2]

/-- **An unset array does no harm** where it happens to name index 0 or 256, and
    these are marked already: such a number ends the list. -/
theorem filled_truthful (hd : Sound d) (hnew : findFile f (d 2) = none) (he : ¬ InUse (d 2) e)
    (hk : zeroBytes (d 1) < n) (h26 : n ≤ 26) (hlow : ∀ i : Fin 512, d 1 i = 0 → i.val < 256)
    (hlen : (unusedOf (d 1) n ++ G).length = n) (hres : ∀ i : Fin 512, i.val < 3 → d 1 i ≠ 0)
    (hG : ∀ g ∈ G, (g.val = 0 ∨ g.val = 256) ∧ d 1 g = 0xFF) :
    Truthful d (filled e f b n G d) f b (zeroBytes (d 1)) := by
  have hZ : ∀ z ∈ unusedOf (d 1) n, 3 ≤ z.val ∧ z.val < 256 := by
    intro z hz
    have h0 := unusedOf_free hz
    exact ⟨not_lt.1 fun h3 => hres z h3 h0, hlow z h0⟩
  have hcount := length_unusedOf_lt hk
  have hL : ((unusedOf (d 1) n).map sectorNo).length = zeroBytes (d 1) := by
    rw [List.length_map, hcount]
  have hspelt : Spelt (filled e f b n G d 2) e ((unusedOf (d 1) n).map sectorNo) :=
    spelt_filled (hd.free e he) hk h26 hlen fun g hg => by
      rcases (hG g hg).1 with h0 | h0 <;> rw [sectorNo, h0] <;> rfl
  have hsec : sectors (filled e f b n G d 2) e = (unusedOf (d 1) n).map sectorNo :=
    hspelt.sectors_eq (by omega) fun s hs => fresh_ne_zero hZ hs
  constructor
  · intro i
    simp only [filled_map, setAll_apply, List.mem_append, mem_unusedOf_iff hk]
    by_cases h0 : d 1 i = 0
    · simp [h0]
    · by_cases hg : i ∈ G
      · simp [hg, (hG i hg).2]
      · simp [h0, hg]
  · refine ⟨e, _, he, by rw [entryName_filled (by omega), if_pos rfl], hspelt, hL, ?_⟩
    intro i
    rw [map_mapIndex_sectorNo fun z hz => (hZ z hz).2, mem_unusedOf_iff hk]
  · intro buf
    refine ⟨putChunks ((List.range (zeroBytes (d 1))).map (chunk b)) 0 buf, ?_, fun o ho =>
      putChunks_chunk (by omega) ho⟩
    rw [filled_read hnew hZ (by omega) hsec (by omega), hcount]
  · intro h hh hne buf
    exact filled_others hd he hZ (by omega) hh hne buf

/-! ## What the array must hold -/

/-- The entry that a truthful outcome speaks of is the one that has been written. -/
theorem Truthful.spelt_self (ht : Truthful d (filled e f b n G d) f b k) (hnew : findFile f (d 2) = none)
    (hlen : (unusedOf (d 1) n ++ G).length ≤ 26) : entryName (filled e f b n G d 2) e = f ∧
      ∃ l, Spelt (filled e f b n G d 2) e l ∧ l.length = k := by
  obtain ⟨e', l, -, hname, hspelt, hl, -⟩ := ht.entry
  have hee : e' = e := by
    by_contra hne
    rw [entryName_filled hlen, if_neg hne] at hname
    exact findFile_none hnew e' hname
  subst hee
  exact ⟨hname, l, hspelt, hl⟩

/-- With a buffer of zeros, all sectors that were found are read back as zeros. -/
theorem Truthful.read_zero (ht : Truthful d (filled e f (fun _ => 0) n G d) f (fun _ => 0) (zeroBytes (d 1)))
    (hnew : findFile f (d 2) = none) (hk : zeroBytes (d 1) < n) (h26 : n ≤ 26)
    (hlow : ∀ i : Fin 512, d 1 i = 0 → i.val < 256) (hlen : (unusedOf (d 1) n ++ G).length = n)
    (hzero : sectorByte (filled e f (fun _ => 0) n G d 2) e (zeroBytes (d 1)) = 0) (hz : z ∈ unusedOf (d 1) n) :
    z.val ≠ 0 ∧ ∀ o, filled e f (fun _ => 0) n G d z.val o = 0 := by
  have hshort := length_sectors_of_zero hzero
  obtain ⟨buf', hr, hb⟩ := ht.read fun _ => 0
  rw [readFile_walk (findFile_filled hnew (by omega)), walk_short (by omega), Option.map_some,
    Option.some.injEq, Prod.mk.injEq, Prod.mk.injEq] at hr
  obtain ⟨⟨hcount, rfl⟩, -⟩ := hr
  have hcount := congrArg Int16.toInt hcount
  rw [Int16.toInt_ofNat_of_lt (by omega), Int16.toInt_ofNat_of_lt (by omega)] at hcount
  obtain ⟨j, hj⟩ := List.mem_iff_getElem?.1 hz
  have hjk : j < (unusedOf (d 1) n).length := (List.getElem?_eq_some_iff.1 hj).1
  rw [length_unusedOf_lt hk] at hjk
  have hget := List.getElem?_eq_getElem
    (show j < (sectors (filled e f (fun _ => 0) n G d 2) e).length by omega)
  have hplace : (sectors (filled e f (fun _ => 0) n G d 2) e)[j]? = some (sectorNo z) := by
    rw [hget, ← sectorByte_of_sectors hget, sectorByte_filled hlen h26 (by omega), if_pos (by omega),
      List.map_append, List.getD_append _ _ _ _ (by rwa [List.length_map, length_unusedOf_lt hk]),
      List.getD_eq_getElem?_getD, List.getElem?_map, hj, Option.map_some, Option.getD_some]
  constructor
  · intro h0
    refine ne_zero_of_mem_sectors (List.mem_of_getElem? hplace) ?_
    rw [sectorNo, h0]
    rfl
  · intro o
    have := hb (j * 512 + o.val) (by omega)
    rwa [putChunks_place _ (by omega) hplace, sectorNo_toNat,
      Nat.mod_eq_of_lt (hlow z (unusedOf_free hz))] at this

/-- A truthful outcome for a buffer of zeros shows that the first three sectors
    are marked, and what the array holds. -/
theorem Truthful.array (hf : f 0 ≠ 0) (hnew : findFile f (d 2) = none) (hk : zeroBytes (d 1) < n) (h26 : n ≤ 26)
    (hlow : ∀ i : Fin 512, d 1 i = 0 → i.val < 256) (hlen : (unusedOf (d 1) n ++ G).length = n)
    (ht : Truthful d (filled e f (fun _ => 0) n G d) f (fun _ => 0) (zeroBytes (d 1))) :
    (∀ i : Fin 512, i.val < 3 → d 1 i ≠ 0) ∧ ∀ g ∈ G, (g.val = 0 ∨ g.val = 256) ∧ d 1 g = 0xFF := by
  have hL := length_unusedOf_lt hk
  obtain ⟨hname, l, hspelt, hl⟩ := ht.spelt_self hnew (by omega)
  have hzero : ∀ j < 26, zeroBytes (d 1) ≤ j → sectorByte (filled e f (fun _ => 0) n G d 2) e j = 0 :=
    fun j hj hkj => by rw [hspelt j hj, List.getD_eq_default _ _ (by omega)]
  have hres : ∀ i : Fin 512, i.val < 3 → d 1 i ≠ 0 := by
    intro i hi h0
    obtain ⟨hne, hbytes⟩ := ht.read_zero hnew hk h26 hlow hlen (hzero _ (by omega) le_rfl)
      ((mem_unusedOf_iff hk).2 h0)
    -- the zeros would be the map itself, or the name in the directory
    rcases (by omega : i.val = 1 ∨ i.val = 2) with h1 | h2
    · have hmark := (ht.map i).2 h0
      rw [h0, ← h1, hbytes i] at hmark
      exact hmark rfl
    · have hfirst : entryName (filled e f (fun _ => 0) n G d 2) e 0 = 0 := by
        rw [entryName, nameByte, ← h2, hbytes]
      rw [hname] at hfirst
      exact hf hfirst
  refine ⟨hres, ?_⟩
  intro g hg
  obtain ⟨j, hj⟩ := List.mem_iff_getElem?.1 hg
  have hjG := (List.getElem?_eq_some_iff.1 hj).1
  rw [List.length_append] at hlen
  have hmod : g.val % 256 = 0 := by
    have hbyte := hzero (zeroBytes (d 1) + j) (by omega) (by omega)
    rw [sectorByte_filled (by rw [List.length_append, hlen]) h26 (by omega), if_pos (by omega), List.map_append,
      List.getD_append_right _ _ _ _ (by rw [List.length_map]; omega), List.getD_eq_getElem?_getD,
      List.getElem?_map, List.length_map, hL, Nat.add_sub_cancel_left, hj, Option.map_some,
      Option.getD_some] at hbyte
    rw [← sectorNo_toNat, hbyte]
    rfl
  have hused : d 1 g ≠ 0 := fun h0 => hres g (by have := hlow g h0; omega) h0
  refine ⟨by omega, ?_⟩
  have hsame : filled e f (fun _ => 0) n G d 1 g = d 1 g := by
    by_contra hne
    exact hused ((ht.map g).1 hne)
  rw [← hsame, filled_map, setAll_apply, if_pos (List.mem_append_right _ hg)]

/-- **A write that runs out of room leaves a truthful file system** if the first
    three sectors are marked and the unset part of the array holds 0 or 256
    only, with `0xFF` in the map there, and only then. -/
theorem full_disk_iff (hd : Sound d) (hf : f 0 ≠ 0) (hnew : findFile f (d 2) = none)
    (hroom : ∃ e, ¬ InUse (d 2) e) {n : Int16} (h26 : n.toInt ≤ 26) (hk : zeroBytes (d 1) < n.toInt)
    (hlow : ∀ i : Fin 512, d 1 i = 0 → i.val < 256) (unusedSectors : ℕ → Int16) :
    (∀ b, ∃ d', (writeFile f b n unusedSectors).exec d = some (-2, d') ∧
      Truthful d d' f b (zeroBytes (d 1))) ↔
    (∀ i : Fin 512, i.val < 3 → d 1 i ≠ 0) ∧ ∀ m, zeroBytes (d 1) ≤ m → m < n.toInt →
      ∃ i : Fin 512, unusedSectors m = Int16.ofNat i.val ∧ (i.val = 0 ∨ i.val = 256) ∧ d 1 i = 0xFF := by
  obtain ⟨e, he, hfree⟩ := exists_unusedEntry hnew hroom
  have hk' : zeroBytes (d 1) < n.toInt.toNat := by omega
  have hL := length_unusedOf_lt hk'
  constructor
  · intro h
    obtain ⟨d', hw, ht⟩ := h fun _ => 0
    obtain ⟨G, hlen, hG⟩ := exists_garbage he h26 rfl hw
    rw [writeFile_filled he h26 rfl (by omega) hG, Option.some.injEq, Prod.mk.injEq] at hw
    rw [← hw.2] at ht
    obtain ⟨hres, hbad⟩ := ht.array hf hnew hk' (by omega) hlow (by rw [List.length_append]; omega)
    refine ⟨hres, ?_⟩
    intro m hkm hmn
    have hget := List.getElem?_eq_getElem (show m - zeroBytes (d 1) < G.length by omega)
    have hu := hG _ _ hget
    rw [hL, Nat.add_sub_cancel' hkm] at hu
    exact ⟨_, hu, hbad _ (List.getElem_mem _)⟩
  · rintro ⟨hres, hgood⟩ b
    obtain ⟨G, hlen, hG⟩ := exists_list (r := n.toInt.toNat - zeroBytes (d 1)) fun m hm =>
      hgood (zeroBytes (d 1) + m) (by omega) (by omega)
    have hbad : ∀ g ∈ G, (g.val = 0 ∨ g.val = 256) ∧ d 1 g = 0xFF := fun g hg => by
      obtain ⟨j, hj⟩ := List.mem_iff_getElem?.1 hg
      exact (hG j g hj).2
    refine ⟨_, ?_, filled_truthful hd hnew hfree hk' (by omega) hlow
      (by rw [List.length_append]; omega) hres hbad⟩
    rw [writeFile_filled (G := G) he h26 rfl (by omega) (fun i g hi => by rw [hL]; exact (hG i g hi).1),
      if_pos (by omega)]

/-- A disk with two free sectors, and the file `A` in sector 3. -/
def twoFreeDisk : Disk := fun k i =>
  if k = 1 then if i.val = 5 ∨ i.val = 6 then 0 else 0xFF
  else if k = 2 then if i.val = 0 then 0x41 else if i.val = 6 then 3 else 0
  else 0

/-- An array of zeros. -/
theorem full_disk_two : ∃ d', (writeFile fileB (fun _ => 7) 4 fun _ => 0).exec twoFreeDisk = some (-2, d') ∧
    Truthful twoFreeDisk d' fileB (fun _ => 7) (zeroBytes (twoFreeDisk 1)) :=
  (full_disk_iff (by decide +kernel) (by decide) (by decide +kernel) (by decide +kernel) (by decide)
    (by decide +kernel) (by decide +kernel) fun _ => 0).2
    ⟨by decide +kernel, fun _ _ _ => ⟨0, rfl, .inl rfl, by decide +kernel⟩⟩ _

/-- **A full disk gives away the sectors of other files**: the array holds 3, and
    so sector 3 is on the lists of both files. -/
theorem full_disk_lies : Sound twoFreeDisk ∧ findFile fileB (twoFreeDisk 2) = none ∧
    (∃ e, ¬ InUse (twoFreeDisk 2) e) ∧ zeroBytes (twoFreeDisk 1) = 2 ∧
    (∀ i : Fin 512, twoFreeDisk 1 i = 0 → i.val < 256) ∧
    ¬ ∃ d', (writeFile fileB (fun _ => 7) 3 fun _ => 3).exec twoFreeDisk = some (-2, d') ∧
      Truthful twoFreeDisk d' fileB (fun _ => 7) 2 := by
  refine ⟨by decide +kernel, by decide +kernel, by decide +kernel, by decide +kernel, by decide +kernel, ?_⟩
  rintro ⟨d', hw, ht⟩
  obtain ⟨buf', hr, -⟩ := ht.read fun _ => 0
  have h : ((writeFile fileB (fun _ => 7) 3 fun _ => 3).exec twoFreeDisk).any
      (fun r => ((readFile fileB fun _ => 0).exec r.2).any fun x => x.1.1 = 3) = true := by decide +kernel
  rw [hw, Option.any_some, hr, Option.any_some] at h
  simp at h

end TeamXtremeOS
