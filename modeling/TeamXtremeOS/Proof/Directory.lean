/-
  The directory sector: its entries, their names and sector lists, and what it
  means that a disk is consistent.
-/
import TeamXtremeOS.Lib.Terminated
import TeamXtremeOS.FileSystem

namespace TeamXtremeOS

open Lib

variable {dir dir' diskMap : Sector} {d d' : Disk} {e e' : Fin 16} {f h : FileName} {o o' j n : ℕ}
  {l : List UInt8} {s v : UInt8}

/-! ## The layout -/

theorem entryByte_inj (ho : o < 32) (ho' : o' < 32) :
    entryByte e o = entryByte e' o' ↔ e = e' ∧ o = o' := by
  simp only [entryByte, Fin.ext_iff, Fin.ofNat]
  omega

/-- Byte `o` of entry `e` has position `32 * e + o`. -/
theorem entryByte_eq (ho : 32 * e.val + o < 512) : entryByte e o = ⟨32 * e.val + o, ho⟩ := by
  simp only [entryByte, Fin.ext_iff, Fin.ofNat]
  omega

/-- The six bytes of the name of an entry. -/
def entryName (dir : Sector) (e : Fin 16) : FileName := fun j => nameByte dir e j

/-- The sector list of an entry: the bytes before the first zero among its 26. -/
def sectors (dir : Sector) (e : Fin 16) : List UInt8 :=
  ((List.range 26).map (sectorByte dir e)).takeWhile (· ≠ 0)

/-- Is the entry in use? -/
def InUse (dir : Sector) (e : Fin 16) : Prop := nameByte dir e 0 ≠ 0

instance (dir : Sector) (e : Fin 16) : Decidable (InUse dir e) := inferInstanceAs (Decidable (_ ≠ _))

theorem inUse_iff : InUse dir e ↔ entryName dir e 0 ≠ 0 := Iff.rfl

theorem ne_zero_of_mem_sectors (hs : s ∈ sectors dir e) : s ≠ 0 := by
  simpa using List.mem_takeWhile_imp hs

/-- The bytes of an entry spell its list. -/
def Spelt (dir : Sector) (e : Fin 16) (l : List UInt8) : Prop :=
  ∀ j < 26, sectorByte dir e j = l.getD j 0

/-- The bytes up to the first zero are the list. -/
theorem sectors_of_bytes (hb : ∀ j < l.length, sectorByte dir e j = l.getD j 0) (h0 : ∀ s ∈ l, s ≠ 0)
    (h26 : l.length ≤ 26) (hend : l.length < 26 → sectorByte dir e l.length = 0) : sectors dir e = l := by
  have hmap : (List.range l.length).map (sectorByte dir e) = l := by
    refine List.ext_getElem (by simp) ?_
    intro j hj hjl
    rw [List.getElem_map, List.getElem_range, hb j hjl, List.getD_eq_getElem _ _ hjl]
  obtain ⟨m, hm⟩ := Nat.exists_eq_add_of_le h26
  rw [sectors, hm, List.range_add, List.map_append, hmap,
    List.takeWhile_append_of_pos (by simpa using h0)]
  cases m with
  | zero => simp
  | succ m =>
    have hz : sectorByte dir e l.length = 0 := hend (by omega)
    rw [List.range_succ_eq_map, List.map_cons, List.map_cons, Nat.add_zero,
      List.takeWhile_cons_of_neg (by simp [hz]), List.append_nil]

theorem Spelt.sectors_eq (hl : Spelt dir e l) (h26 : l.length ≤ 26) (h0 : ∀ s ∈ l, s ≠ 0) :
    sectors dir e = l :=
  sectors_of_bytes (fun j hj => hl j (by omega)) h0 h26 fun h => by
    rw [hl _ h, List.getD_eq_default _ _ le_rfl]

/-! ## Walking a list -/

/-- The bytes of the directory from position `p` on. -/
def bytesFrom (dir : Sector) (p : ℕ) : List UInt8 := (List.ofFn dir).drop p

/-- What a loop over the list of an entry meets: without a zero among the 26
    bytes it runs on into the next entries, and from the last one out of the
    buffer. -/
def walk (dir : Sector) (e : Fin 16) : Option (List UInt8) :=
  terminated 0 (bytesFrom dir (32 * e.val + 6))

theorem length_bytesFrom (dir : Sector) (p : ℕ) : (bytesFrom dir p).length = 512 - p := by
  rw [bytesFrom, List.length_drop, List.length_ofFn]

theorem getElem_bytesFrom {p i : ℕ} (hi : i < (bytesFrom dir p).length) : (bytesFrom dir p)[i] =
    dir ⟨p + i, by rw [length_bytesFrom] at hi; omega⟩ := by
  simp only [bytesFrom, List.getElem_drop, List.getElem_ofFn]

theorem bytesFrom_of_lt {p : ℕ} (hp : p < 512) : bytesFrom dir p = dir ⟨p, hp⟩ :: bytesFrom dir (p + 1) := by
  rw [bytesFrom, List.drop_eq_getElem_cons (by rwa [List.length_ofFn]), List.getElem_ofFn, ← bytesFrom]

theorem bytesFrom_of_le {p : ℕ} (hp : 512 ≤ p) : bytesFrom dir p = [] :=
  List.drop_of_length_le (by rwa [List.length_ofFn])

theorem bytesFrom_update {p : ℕ} {i : Fin 512} (hi : i.val < p) :
    bytesFrom (Function.update dir i v) p = bytesFrom dir p := by
  refine List.ext_getElem (by rw [length_bytesFrom, length_bytesFrom]) ?_
  intro j hj hj'
  rw [getElem_bytesFrom, getElem_bytesFrom, Function.update_of_ne]
  intro he
  rw [← he] at hi
  exact absurd hi (by simp)

/-- The 26 sector bytes of an entry, and what is behind them. -/
theorem bytesFrom_entry (dir : Sector) (e : Fin 16) : bytesFrom dir (32 * e.val + 6) =
    (List.range 26).map (sectorByte dir e) ++ bytesFrom dir (32 * e.val + 32) := by
  have hcut : ∀ n ≤ 26, bytesFrom dir (32 * e.val + 6) =
      (List.range n).map (sectorByte dir e) ++ bytesFrom dir (32 * e.val + 6 + n) := by
    intro n hn
    induction n with
    | zero => rw [List.range_zero, List.map_nil, List.nil_append, Nat.add_zero]
    | succ n ih =>
      rw [ih (by omega), bytesFrom_of_lt (p := 32 * e.val + 6 + n) (by omega), List.range_succ,
        List.map_append, List.map_singleton, List.append_assoc, List.singleton_append, sectorByte,
        entryByte_eq (by omega)]
      simp only [Nat.add_assoc]
  exact hcut 26 le_rfl

theorem length_sectors_le (dir : Sector) (e : Fin 16) : (sectors dir e).length ≤ 26 := by
  have hp : sectors dir e <+: (List.range 26).map (sectorByte dir e) := List.takeWhile_prefix _
  simpa using hp.length_le

theorem sectorByte_of_sectors (hj : (sectors dir e)[j]? = some s) : sectorByte dir e j = s := by
  have hp : sectors dir e <+: (List.range 26).map (sectorByte dir e) := List.takeWhile_prefix _
  obtain ⟨hlt, rfl⟩ := List.getElem?_eq_some_iff.1 hj
  rw [hp.getElem hlt, List.getElem_map, List.getElem_range]

/-- The byte behind a list that does not fill its entry. -/
theorem sectorByte_length (hlen : (sectors dir e).length < 26) : sectorByte dir e (sectors dir e).length = 0 := by
  by_contra hne
  have hcut : sectors dir e ++ _ = (List.range 26).map (sectorByte dir e) := List.takeWhile_append_dropWhile
  have hget : ((List.range 26).map (sectorByte dir e))[(sectors dir e).length]? =
      some (sectorByte dir e (sectors dir e).length) := by
    rw [List.getElem?_map, List.getElem?_range hlen, Option.map_some]
  rw [← hcut, List.getElem?_append_right le_rfl, Nat.sub_self, ← List.head?_eq_getElem?] at hget
  have := List.head?_dropWhile_not (· ≠ (0 : UInt8)) ((List.range 26).map (sectorByte dir e))
  rw [hget] at this
  simp [hne] at this

theorem length_sectors_of_zero (h0 : sectorByte dir e j = 0) : (sectors dir e).length ≤ j := by
  by_contra hlt
  have hget := List.getElem?_eq_getElem (not_le.1 hlt)
  rw [sectorByte_of_sectors hget] at h0
  exact ne_zero_of_mem_sectors (List.getElem_mem _) h0

/-- A list that fills its entry has no zero byte. -/
theorem sectors_eq_map (hlen : (sectors dir e).length = 26) :
    sectors dir e = (List.range 26).map (sectorByte dir e) :=
  (List.takeWhile_prefix _).eq_of_length (by rw [List.length_map, List.length_range]; exact hlen)

/-- The list and the zero behind it are in the directory. -/
theorem length_walk (h : walk dir e = some l) : 32 * e.val + 6 + l.length < 512 := by
  have := length_lt_of_terminated h
  rw [length_bytesFrom] at this
  omega

/-- **A walk over a short list** stays in the entry. -/
theorem walk_short (hlen : (sectors dir e).length ≤ 25) : walk dir e = some (sectors dir e) := by
  have hmap : (List.range (sectors dir e).length).map (sectorByte dir e) = sectors dir e :=
    List.ext_getElem (by simp) fun j hj hj' => by
      rw [List.getElem_map, List.getElem_range, sectorByte_of_sectors (List.getElem?_eq_getElem hj')]
  obtain ⟨m, hm⟩ := Nat.exists_eq_add_of_lt (show (sectors dir e).length < 26 by omega)
  rw [walk, bytesFrom_entry, hm, Nat.add_assoc, List.range_add, List.map_append, hmap, List.append_assoc,
    List.range_succ_eq_map, List.map_cons, List.map_cons, Nat.add_zero, sectorByte_length (by omega)]
  exact terminated_eq_some.2 ⟨fun s hs => ne_zero_of_mem_sectors hs, _, rfl⟩

/-- **A walk over a list that fills its entry** runs on. -/
theorem walk_long (hlen : (sectors dir e).length = 26) : walk dir e =
    (terminated 0 (bytesFrom dir (32 * e.val + 32))).map (sectors dir e ++ ·) := by
  rw [walk, bytesFrom_entry, ← sectors_eq_map hlen]
  exact terminated_append fun s hs => ne_zero_of_mem_sectors hs

/-! ## Consistency -/

/-- A consistent directory: short, disjoint lists of sectors, zero bytes behind
    them and in the free entries, and distinct names. -/
structure DirOK (dir : Sector) : Prop where
  short : ∀ e, InUse dir e → (sectors dir e).length ≤ 25
  zeros : ∀ e, InUse dir e → ∀ j < 26, (sectors dir e).length ≤ j → sectorByte dir e j = 0
  free : ∀ e, ¬ InUse dir e → ∀ j < 26, sectorByte dir e j = 0
  data : ∀ e, InUse dir e → ∀ s ∈ sectors dir e, 3 ≤ s.toNat
  nodup : ∀ e, InUse dir e → (sectors dir e).Nodup
  disjoint : ∀ e e', InUse dir e → InUse dir e' → e ≠ e' → ∀ s ∈ sectors dir e, s ∉ sectors dir e'
  names : ∀ e e', InUse dir e → InUse dir e' → entryName dir e = entryName dir e' → e = e'

/-- The map marks the first three sectors and the sectors of the files. -/
structure MapOK (dir diskMap : Sector) : Prop where
  reserved : ∀ i : Fin 512, i.val < 3 → diskMap i ≠ 0
  used : ∀ e, InUse dir e → ∀ s ∈ sectors dir e, diskMap (mapIndex s) ≠ 0

/-- A consistent disk. -/
structure Consistent (d : Disk) : Prop where
  dir : DirOK (d 2)
  map : MapOK (d 2) (d 1)

instance (dir : Sector) : Decidable (DirOK dir) :=
  @decidable_of_iff _ ((∀ e, InUse dir e → (sectors dir e).length ≤ 25) ∧
    (∀ e, InUse dir e → ∀ j < 26, (sectors dir e).length ≤ j → sectorByte dir e j = 0) ∧
    (∀ e, ¬ InUse dir e → ∀ j < 26, sectorByte dir e j = 0) ∧
    (∀ e, InUse dir e → ∀ s ∈ sectors dir e, 3 ≤ s.toNat) ∧
    (∀ e, InUse dir e → (sectors dir e).Nodup) ∧
    (∀ e e', InUse dir e → InUse dir e' → e ≠ e' → ∀ s ∈ sectors dir e, s ∉ sectors dir e') ∧
    ∀ e e', InUse dir e → InUse dir e' → entryName dir e = entryName dir e' → e = e')
    ⟨fun ⟨h1, h2, h3, h4, h5, h6, h7⟩ => ⟨h1, h2, h3, h4, h5, h6, h7⟩,
      fun ⟨h1, h2, h3, h4, h5, h6, h7⟩ => ⟨h1, h2, h3, h4, h5, h6, h7⟩⟩
    (@instDecidableAnd _ _ inferInstance <| @instDecidableAnd _ _ inferInstance <|
      @instDecidableAnd _ _ inferInstance <| @instDecidableAnd _ _ inferInstance <|
      @instDecidableAnd _ _ inferInstance <| @instDecidableAnd _ _ inferInstance inferInstance)

instance (dir diskMap : Sector) : Decidable (MapOK dir diskMap) :=
  decidable_of_iff ((∀ i : Fin 512, i.val < 3 → diskMap i ≠ 0) ∧
    ∀ e, InUse dir e → ∀ s ∈ sectors dir e, diskMap (mapIndex s) ≠ 0)
    ⟨fun ⟨h1, h2⟩ => ⟨h1, h2⟩, fun ⟨h1, h2⟩ => ⟨h1, h2⟩⟩

instance (d : Disk) : Decidable (Consistent d) :=
  decidable_of_iff (DirOK (d 2) ∧ MapOK (d 2) (d 1))
    ⟨fun ⟨h1, h2⟩ => ⟨h1, h2⟩, fun ⟨h1, h2⟩ => ⟨h1, h2⟩⟩

/-- The entries in use have short, disjoint lists of used sectors from the third
    on, and the free ones have no list. -/
structure Sound (d : Disk) : Prop where
  short : ∀ e, InUse (d 2) e → (sectors (d 2) e).length ≤ 25
  used : ∀ e, InUse (d 2) e → ∀ s ∈ sectors (d 2) e, 3 ≤ s.toNat ∧ d 1 (mapIndex s) ≠ 0
  disjoint : ∀ e e', InUse (d 2) e → InUse (d 2) e' → e ≠ e' → ∀ s ∈ sectors (d 2) e, s ∉ sectors (d 2) e'
  free : ∀ e, ¬ InUse (d 2) e → ∀ j < 26, sectorByte (d 2) e j = 0

instance (d : Disk) : Decidable (Sound d) :=
  @decidable_of_iff _ ((∀ e, InUse (d 2) e → (sectors (d 2) e).length ≤ 25) ∧
    (∀ e, InUse (d 2) e → ∀ s ∈ sectors (d 2) e, 3 ≤ s.toNat ∧ d 1 (mapIndex s) ≠ 0) ∧
    (∀ e e', InUse (d 2) e → InUse (d 2) e' → e ≠ e' → ∀ s ∈ sectors (d 2) e, s ∉ sectors (d 2) e') ∧
    ∀ e, ¬ InUse (d 2) e → ∀ j < 26, sectorByte (d 2) e j = 0)
    ⟨fun ⟨h1, h2, h3, h4⟩ => ⟨h1, h2, h3, h4⟩, fun ⟨h1, h2, h3, h4⟩ => ⟨h1, h2, h3, h4⟩⟩
    (@instDecidableAnd _ _ inferInstance <| @instDecidableAnd _ _ inferInstance <|
      @instDecidableAnd _ _ inferInstance inferInstance)

theorem Consistent.sound (hd : Consistent d) : Sound d :=
  ⟨hd.dir.short, fun e he s hs => ⟨hd.dir.data e he s hs, hd.map.used e he s hs⟩, hd.dir.disjoint, hd.dir.free⟩

/-! ## Lists -/

/-- The lists of the entries in use are short and disjoint, and a free entry has
    none. -/
structure Lists (dir : Sector) : Prop where
  short : ∀ e, InUse dir e → (sectors dir e).length ≤ 25
  disjoint : ∀ e e', InUse dir e → InUse dir e' → e ≠ e' → ∀ s ∈ sectors dir e, s ∉ sectors dir e'
  free : ∀ e, ¬ InUse dir e → sectors dir e = []

namespace Lists

theorem inUse_of_mem (hl : Lists dir) (hs : s ∈ sectors dir e) : InUse dir e := by
  by_contra he
  rw [hl.free e he] at hs
  cases hs

theorem length_le (hl : Lists dir) (e : Fin 16) : (sectors dir e).length ≤ 25 := by
  by_cases he : InUse dir e
  · exact hl.short e he
  · simp [hl.free e he]

theorem notMem_of_mem (hl : Lists dir) (hne : e ≠ e') (hs : s ∈ sectors dir e) : s ∉ sectors dir e' :=
  fun hs' => hl.disjoint e e' (hl.inUse_of_mem hs) (hl.inUse_of_mem hs') hne s hs hs'

end Lists

theorem sectors_eq_nil (h0 : ∀ j < 26, sectorByte dir e j = 0) : sectors dir e = [] :=
  List.eq_nil_of_length_eq_zero (Nat.le_zero.1 (length_sectors_of_zero (h0 0 (by omega))))

theorem Sound.lists (hd : Sound d) : Lists (d 2) :=
  ⟨hd.short, hd.disjoint, fun e he => sectors_eq_nil (hd.free e he)⟩

namespace DirOK

theorem spelt (hd : DirOK dir) (e : Fin 16) : Spelt dir e (sectors dir e) := fun j hj => by
  by_cases hjl : j < (sectors dir e).length
  · have hp : sectors dir e <+: (List.range 26).map (sectorByte dir e) := List.takeWhile_prefix _
    rw [List.getD_eq_getElem _ _ hjl, hp.getElem hjl, List.getElem_map, List.getElem_range]
  · rw [List.getD_eq_default _ _ (by omega)]
    by_cases hl : InUse dir e
    · exact hd.zeros e hl j hj (by omega)
    · exact hd.free e hl j hj

theorem lists (hd : DirOK dir) : Lists dir :=
  ⟨hd.short, hd.disjoint, fun e he => sectors_eq_nil (hd.free e he)⟩

theorem three_le (hd : DirOK dir) (hs : s ∈ sectors dir e) : 3 ≤ s.toNat :=
  hd.data e (hd.lists.inUse_of_mem hs) s hs

theorem list_nodup (hd : DirOK dir) (e : Fin 16) : (sectors dir e).Nodup := by
  by_cases he : InUse dir e
  · exact hd.nodup e he
  · simp [hd.lists.free e he]

/-- A directory whose entries spell short, disjoint lists. -/
theorem of_spelt {L : Fin 16 → List UInt8} (hL : ∀ e, Spelt dir e (L e)) (hlen : ∀ e, (L e).length ≤ 25)
    (hdata : ∀ e, ∀ s ∈ L e, 3 ≤ s.toNat) (hnd : ∀ e, (L e).Nodup)
    (hdis : ∀ e e', e ≠ e' → ∀ s ∈ L e, s ∉ L e') (hfree : ∀ e, ¬ InUse dir e → L e = [])
    (hn : ∀ e e', InUse dir e → InUse dir e' → entryName dir e = entryName dir e' → e = e') :
    DirOK dir ∧ ∀ e, sectors dir e = L e := by
  have hs : ∀ e, sectors dir e = L e := fun e => (hL e).sectors_eq (by have := hlen e; omega)
    fun s hs h0 => by have := hdata e s hs; simp [h0] at this
  refine ⟨⟨?_, ?_, ?_, ?_, ?_, ?_, hn⟩, hs⟩
  · intro e _
    rw [hs]; exact hlen e
  · intro e _ j hj hl
    rw [hs] at hl
    rw [hL e j hj, List.getD_eq_default _ _ hl]
  · intro e he j hj
    rw [hL e j hj, hfree e he, List.getD_nil]
  · intro e _
    rw [hs]; exact hdata e
  · intro e _
    rw [hs]; exact hnd e
  · intro e e' _ _
    rw [hs, hs]; exact hdis e e'

end DirOK

/-! ## Searching -/

/-- The loop over the six bytes of a name. -/
theorem foldl_mismatch {l : List (Fin 6)} {P : Fin 6 → Prop} [DecidablePred P] {b z : Int16}
    (hb : b ≠ 0) :
    l.foldl (fun z j => if P j then b else z) z = 0 ↔ z = 0 ∧ ∀ j ∈ l, ¬ P j := by
  induction l generalizing z with
  | nil => simp
  | cons j l ih =>
    rw [List.foldl_cons, ih]
    split_ifs with hj <;> simp [hj, hb]

/-- The search of `findFile`, and of `readFile`. -/
theorem search_eq {b : Int16} (hb : b ≠ 0) (dir : Sector) (f : FileName) :
    ((List.finRange 16).find? fun i => nameByte dir i 0 = f 0 ∧
      (List.finRange 6).foldl (fun (z : Int16) j => if nameByte dir i j.val ≠ f j then b else z) 0 = 0) =
    (List.finRange 16).find? fun i => entryName dir i = f := by
  congr 1
  funext i
  have hiff : (nameByte dir i 0 = f 0 ∧ (List.finRange 6).foldl (fun (z : Int16) j =>
      if nameByte dir i j.val ≠ f j then b else z) 0 = 0) ↔ entryName dir i = f := by
    rw [foldl_mismatch hb, funext_iff]
    simp only [true_and, List.mem_finRange, forall_const, not_not]
    exact ⟨fun h => h.2, fun h => ⟨h 0, h⟩⟩
  simp only [hiff]

theorem findFile_eq : findFile f dir = (List.finRange 16).find? fun i => entryName dir i = f :=
  search_eq (by decide) dir f

theorem findFile_name (hf : findFile f dir = some e) : entryName dir e = f := by
  rw [findFile_eq] at hf
  simpa using List.find?_some hf

theorem findFile_none (hf : findFile f dir = none) (e : Fin 16) : entryName dir e ≠ f := by
  rw [findFile_eq] at hf
  simpa using List.find?_eq_none.1 hf e (List.mem_finRange e)

theorem findFile_unique (he : entryName dir e = f) (hu : ∀ e', entryName dir e' = f → e' = e) :
    findFile f dir = some e := by
  rcases hf : findFile f dir with _ | e'
  · exact absurd he (findFile_none hf e)
  · rw [hu e' (findFile_name hf)]

theorem DirOK.findFile_iff (hd : DirOK dir) (hf : f 0 ≠ 0) :
    findFile f dir = some e ↔ entryName dir e = f := by
  refine ⟨findFile_name, fun he => findFile_unique he ?_⟩
  intro e' he'
  have hl : InUse dir e := by rw [inUse_iff, he]; exact hf
  have hl' : InUse dir e' := by rw [inUse_iff, he']; exact hf
  exact hd.names e' e hl' hl (he'.trans he.symm)

/-- The first entry of that name is found. -/
theorem findFile_first (he : entryName dir e = f) (hb : ∀ e' < e, entryName dir e' ≠ f) :
    findFile f dir = some e := by
  rw [findFile_eq, List.find?_eq_some_iff_getElem]
  refine ⟨by simpa using he, e.val, by simp, by simp, ?_⟩
  intro j hj
  simpa using hb ⟨j, by omega⟩ hj

theorem inUse_of_lt_freeEntry (he : freeEntry dir = some e) (hlt : e' < e) : InUse dir e' := by
  rw [freeEntry, List.find?_eq_some_iff_getElem] at he
  obtain ⟨-, i, hi, rfl, hb⟩ := he
  have := hb e'.val (by simpa [Fin.lt_def] using hlt)
  simpa [InUse] using this

theorem freeEntry_free (he : freeEntry dir = some e) : ¬ InUse dir e := by
  have := List.find?_some he
  simpa [InUse] using this

end TeamXtremeOS
