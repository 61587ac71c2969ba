/-
  The host program and the kernel: what `loadFile` puts in the image is what
  `readFile` finds there.
-/
import TeamXtremeOS.LoadFile
import TeamXtremeOS.Proof.Files

namespace TeamXtremeOS

open Lib

variable {map dir : Sector} {d : Disk} {e e' : Fin 16} {f h : FileName} {i j k n o r room : ℕ} {b : Buffer}
  {cs : List UInt8} {data : Sector} {argv : Buffer} {x : UInt8} {l : Load} {z : Fin 512}
  {Z : List (Fin 512)} {fl : Disk}

/-! ## Filling a sector -/

theorem fillSector_eof : (fillSector r i ⟨cs, true⟩ data).1 = ⟨cs, true⟩ := by
  cases r <;> rfl

/-- A sector takes 512 bytes, or runs into the end of the file. -/
theorem fillSector_stream : (fillSector r i ⟨cs, false⟩ data).1 =
    if r ≤ cs.length then ⟨cs.drop r, false⟩ else ⟨[], true⟩ := by
  induction r generalizing i cs data with
  | zero => simp [fillSector]
  | succ r ih =>
    cases cs with
    | nil =>
      rw [if_neg (by simp)]
      exact fillSector_eof
    | cons x cs =>
      simp only [List.length_cons, Nat.add_le_add_iff_right, List.drop_succ_cons]
      exact ih

theorem fillSector_of_lt {p : Fin 512} (hir : i + r ≤ 512) (hp : p.val < i) (s : Stream) :
    (fillSector r i s data).2 p = data p := by
  induction r generalizing i data s with
  | zero => rfl
  | succ r ih =>
    rw [fillSector]
    split_ifs
    · exact if_neg hp.ne
    · exact (ih (by omega) (by omega) _).trans (if_neg hp.ne)

/-- The bytes of the file come one after the other. -/
theorem fillSector_bytes {p : Fin 512} (hir : i + r ≤ 512) (hj : j < r) (hp : p.val = i + j)
    (hx : cs[j]? = some x) : (fillSector r i ⟨cs, false⟩ data).2 p = x := by
  induction r generalizing i j cs data with
  | zero => omega
  | succ r ih =>
    cases cs with
    | nil => simp at hx
    | cons y cs =>
      cases j with
      | zero =>
        cases hx
        have hlater : (fillSector r (i + 1) ⟨cs, false⟩ (putByte data i x)).2 p = putByte data i x p :=
          fillSector_of_lt (by omega) (by omega) _
        exact hlater.trans (if_pos hp)
      | succ j => exact ih (by omega) (by omega) (by omega) hx

/-! ## Free sectors -/

/-- The free sectors the search can find, in its order. -/
def lowZeros (map : Sector) : List (Fin 512) := (List.finRange 512).filter fun i => i.val < 256 ∧ map i = 0

theorem length_lowZeros (map : Sector) : (lowZeros map).length = freeSectors map := by
  rw [lowZeros, freeSectors, List.countP_eq_length_filter]

theorem mem_lowZeros : z ∈ lowZeros map ↔ z.val < 256 ∧ map z = 0 := by
  rw [lowZeros, List.mem_filter, decide_eq_true_eq]
  exact and_iff_right (List.mem_finRange z)

theorem lowZeros_nodup : (lowZeros map).Nodup := (List.nodup_finRange 512).filter _

theorem freeSector_eq : freeSector map = (lowZeros map).head? := by
  unfold freeSector lowZeros
  exact List.head?_filter.symm

/-- The sector that is marked is the one the next search passes over. -/
theorem lowZeros_mark {t : List (Fin 512)} (h : lowZeros map = z :: t) :
    lowZeros (Function.update map z 0xFF) = t := by
  have hnd : (z :: t).Nodup := h ▸ lowZeros_nodup
  have hmark : lowZeros (Function.update map z 0xFF) = (lowZeros map).filter (· ≠ z) := by
    rw [lowZeros, lowZeros, List.filter_filter]
    refine List.filter_congr ?_
    intro y _
    rw [Function.update_apply]
    by_cases hy : y = z <;> simp [hy]
  rw [hmark, h, List.filter_cons_of_neg (by simp), List.filter_eq_self]
  intro y hy
  rw [decide_eq_true_eq]
  rintro rfl
  exact (List.nodup_cons.1 hnd).1 hy

/-! ## The loop over the sectors -/

theorem loadSectors_eof : loadSectors e room k ⟨cs, true⟩ l = (none, l) := by
  rw [loadSectors.eq_def]
  exact if_pos rfl

/-- One turn of the loop. -/
theorem loadSectors_succ (hz : freeSector l.map = some z) : loadSectors e (room + 1) k ⟨cs, false⟩ l =
    loadSectors e room (k + 1) (fillSector 512 0 ⟨cs, false⟩ (l.floppy z.val)).1
      { map := Function.update l.map z 0xFF
        dir := Function.update l.dir (entryByte e (6 + k)) (sectorNo z)
        floppy := Function.update l.floppy z.val (fillSector 512 0 ⟨cs, false⟩ (l.floppy z.val)).2 } := by
  conv_lhs => rw [loadSectors.eq_def]
  simp only [Bool.false_eq_true, if_false, hz]
  rfl

/-- What is loaded behind a turn that has found sector `z`. -/
def turned (e : Fin 16) (k : ℕ) (cs : List UInt8) (z : Fin 512) (l : Load) : Load where
  map := Function.update l.map z 0xFF
  dir := Function.update l.dir (entryByte e (6 + k)) (sectorNo z)
  floppy := Function.update l.floppy z.val (fillSector 512 0 ⟨cs, false⟩ (l.floppy z.val)).2

/-- The loop ends behind the first sector that the file does not fill. -/
theorem loadSectors_turn {t : List (Fin 512)} (hz : lowZeros l.map = z :: t) :
    loadSectors e (room + 1) k ⟨cs, false⟩ l =
      if 512 ≤ cs.length then loadSectors e room (k + 1) ⟨cs.drop 512, false⟩ (turned e k cs z l)
      else (none, turned e k cs z l) := by
  rw [loadSectors_succ (by rw [freeSector_eq, hz, List.head?_cons]), fillSector_stream]
  split_ifs
  · rfl
  · exact loadSectors_eof

/-- The turn stores the bytes of the file. -/
theorem turned_bytes {o : Fin 512} (hx : cs[o.val]? = some x) : (turned e k cs z l).floppy z.val o = x := by
  have hfilled : (turned e k cs z l).floppy z.val = (fillSector 512 0 ⟨cs, false⟩ (l.floppy z.val)).2 :=
    Function.update_self ..
  rw [hfilled]
  exact fillSector_bytes (by omega) o.isLt (by omega) hx

theorem turned_of_ne {a : ℕ} (ha : z.val ≠ a) : (turned e k cs z l).floppy a = l.floppy a :=
  Function.update_of_ne ha.symm ..

/-- **The loop copies the file** sector by sector, to the first free sectors,
    one more than its length has full ones. -/
theorem loadSectors_spec (hn : cs.length / 512 = n) (hroom : n + 1 ≤ room)
    (hfree : n + 1 ≤ (lowZeros l.map).length) : ∃ fl,
    loadSectors e room k ⟨cs, false⟩ l = (none,
      ⟨setAll 0xFF ((lowZeros l.map).take (n + 1)) l.map,
        putList e k (((lowZeros l.map).take (n + 1)).map sectorNo) l.dir, fl⟩) ∧
    (∀ (j : ℕ) (z : Fin 512), ((lowZeros l.map).take (n + 1))[j]? = some z → ∀ (o : Fin 512) (x : UInt8),
      cs[j * 512 + o.val]? = some x → fl z.val o = x) ∧
    ∀ a, (∀ z ∈ (lowZeros l.map).take (n + 1), z.val ≠ a) → fl a = l.floppy a := by
  induction n generalizing cs k room l with
  | zero =>
    obtain ⟨room, rfl⟩ : ∃ m, room = m + 1 := ⟨room - 1, by omega⟩
    obtain ⟨z, t, hz⟩ := List.exists_cons_of_length_pos hfree
    rw [loadSectors_turn hz, if_neg (by omega), hz]
    refine ⟨(turned e k cs z l).floppy, rfl, ?_, ?_⟩
    · intro j z' hj o x hx
      cases j with
      | zero =>
        obtain rfl : z = z' := by simpa using hj
        exact turned_bytes (by simpa using hx)
      | succ j => simp at hj
    · intro a ha
      exact turned_of_ne (ha z (by simp))
  | succ n ih =>
    obtain ⟨room, rfl⟩ : ∃ m, room = m + 1 := ⟨room - 1, by omega⟩
    obtain ⟨z, t, hz⟩ := List.exists_cons_of_length_pos (Nat.zero_lt_of_lt hfree)
    have ht : lowZeros (turned e k cs z l).map = t := lowZeros_mark hz
    have hnd : (z :: t).Nodup := hz ▸ lowZeros_nodup
    have hrest : (cs.drop 512).length / 512 = n := by
      rw [List.length_drop]
      omega
    rw [hz, List.length_cons] at hfree
    obtain ⟨fl, hl, hdata, hkeep⟩ := ih (k := k + 1) (l := turned e k cs z l) hrest
      (show n + 1 ≤ room by omega) (by rw [ht]; omega)
    rw [ht] at hl hdata hkeep
    rw [loadSectors_turn hz, if_pos (by omega), hz, List.take_succ_cons]
    refine ⟨fl, hl, ?_, ?_⟩
    · intro j z' hj o x hx
      cases j with
      | zero =>
        obtain rfl : z = z' := by simpa using hj
        rw [hkeep z.val fun y hy hv => ?_]
        · exact turned_bytes (by simpa using hx)
        · rw [Fin.ext hv] at hy
          exact (List.nodup_cons.1 hnd).1 (List.mem_of_mem_take hy)
      | succ j =>
        refine hdata j z' (by simpa using hj) o x ?_
        have hidx : 512 + (j * 512 + o.val) = (j + 1) * 512 + o.val := by
          rw [Nat.succ_mul]
          omega
        rw [List.getElem?_drop, hidx, hx]
    · intro a ha
      rw [hkeep a fun y hy => ha y (List.mem_cons_of_mem _ hy)]
      exact turned_of_ne (ha z List.mem_cons_self)

/-- **The loop stores in free sectors only**, whatever it ends with. -/
theorem loadSectors_keeps {a : ℕ} (ha : ∀ z ∈ lowZeros l.map, z.val ≠ a) (s : Stream) :
    (loadSectors e room k s l).2.floppy a = l.floppy a := by
  induction room generalizing k l s with
  | zero =>
    obtain ⟨cs, _ | _⟩ := s
    · rfl
    · rw [loadSectors_eof]
  | succ room ih =>
    obtain ⟨cs, _ | _⟩ := s
    · rcases hz : lowZeros l.map with _ | ⟨z, t⟩
      · have hnone : freeSector l.map = none := by rw [freeSector_eq, hz, List.head?_nil]
        rw [loadSectors.eq_def]
        simp only [Bool.false_eq_true, if_false, hnone]
      · rw [hz] at ha
        have hne : (turned e k cs z l).floppy a = l.floppy a := turned_of_ne (ha z List.mem_cons_self)
        rw [loadSectors_turn hz]
        split_ifs
        · -- the sectors that are free for the rest of the loop are those behind `z`
          have ht : lowZeros (turned e k cs z l).map = t := lowZeros_mark hz
          rw [ih (fun y hy => ha y (List.mem_cons_of_mem _ (ht ▸ hy))), hne]
        · exact hne
    · rw [loadSectors_eof]

/-! ## The name -/

/-- A name as it stands in the directory: six bytes, zeros from its end on. -/
def padName (argv : Buffer) : FileName := fun j => if ∀ i ≤ j.val, argv i ≠ 0 then argv j else 0

theorem exists_entryByte (p : Fin 512) : ∃ e o, o < 32 ∧ p = entryByte e o := by
  refine ⟨⟨p.val / 32, by omega⟩, p.val % 32, by omega, ?_⟩
  simp only [entryByte, Fin.ofNat, Fin.ext_iff]
  omega

theorem setName_apply (ho : o < 32) : setName e f dir (entryByte e' o) =
    if h : e' = e ∧ o < 6 then f ⟨o, h.2⟩ else dir (entryByte e' o) := by
  rw [setName, foldl_name _ _ _ _ _ ho]
  simp only [List.mem_finRange, exists_prop, and_true]

theorem copyName_apply (ho : o < 32) (hr : i + r ≤ 6) : copyName e argv r i dir (entryByte e' o) =
    if e' = e ∧ i ≤ o ∧ o < i + r ∧ ∀ m, i ≤ m → m ≤ o → argv m ≠ 0 then argv o
    else dir (entryByte e' o) := by
  induction r generalizing i dir with
  | zero => rw [copyName, if_neg fun h => by omega]
  | succ r ih =>
    rw [copyName]
    by_cases h0 : argv i = 0
    · rw [if_pos h0, if_neg fun h => h.2.2.2 i le_rfl h.2.1 h0]
    · rw [if_neg h0, ih (by omega), Function.update_apply]
      simp only [entryByte_inj ho (show i < 32 by omega)]
      by_cases he : e' = e
      · rcases lt_trichotomy o i with hlt | rfl | hlt
        · rw [if_neg fun h => by omega, if_neg (by omega), if_neg fun h => by omega]
        · rw [if_neg fun h => by omega, if_pos ⟨he, rfl⟩, if_pos]
          refine ⟨he, le_rfl, by omega, ?_⟩
          intro m h1 h2
          rwa [le_antisymm h2 h1]
        · have hiff : (∀ m, i ≤ m → m ≤ o → argv m ≠ 0) ↔ ∀ m, i + 1 ≤ m → m ≤ o → argv m ≠ 0 := by
            constructor
            · intro h m h1 h2
              exact h m (by omega) h2
            · intro h m h1 h2
              rcases Nat.eq_or_lt_of_le h1 with rfl | h1
              · exact h0
              · exact h m h1 h2
          rw [if_neg (show ¬ (e' = e ∧ o = i) by omega)]
          simp only [hiff, he, true_and, show i + 1 ≤ o by omega, show i ≤ o by omega,
            show o < i + 1 + r ↔ o < i + (r + 1) by omega]
      · simp only [he, false_and, if_false]

/-- Clearing the name field and copying the name to it. -/
theorem copyName_setName : copyName e argv 6 0 (setName e (fun _ => 0x00) dir) = setName e (padName argv) dir := by
  funext p
  obtain ⟨e', o, ho, rfl⟩ := exists_entryByte p
  rw [copyName_apply ho (by omega), setName_apply ho, setName_apply ho]
  by_cases h : e' = e ∧ o < 6
  · rw [dif_pos h, dif_pos h, padName]
    simp only [h, Nat.zero_le, Nat.zero_add, true_and, true_imp_iff]
  · rw [dif_neg h, dif_neg h, if_neg fun hc => h ⟨hc.1, by omega⟩]

/-! ## The image -/

/-- The image with a file in the sectors `Z`, where `fl` has the data. -/
def imageWith (e : Fin 16) (f : FileName) (Z : List (Fin 512)) (fl d : Disk) : Disk :=
  Function.update (Function.update fl 1 (setAll 0xFF Z (d 1))) 2 (entered e f (Z.map sectorNo) (d 2))

theorem imageWith_dir : imageWith e f Z fl d 2 = entered e f (Z.map sectorNo) (d 2) := Function.update_self ..

theorem imageWith_data (hk : 3 ≤ k) : imageWith e f Z fl d k = fl k := by
  rw [imageWith, Function.update_of_ne (by omega), Function.update_of_ne (by omega)]

theorem entryName_imageWith (h26 : Z.length ≤ 26) :
    entryName (imageWith e f Z fl d 2) e' = if e' = e then f else entryName (d 2) e' := by
  rw [imageWith_dir, entryName_entered (by rwa [List.length_map])]

theorem sectors_imageWith_of_ne (h26 : Z.length ≤ 26) (hne : e' ≠ e) :
    sectors (imageWith e f Z fl d 2) e' = sectors (d 2) e' := by
  rw [imageWith_dir, sectors_entered_of_ne (by rwa [List.length_map]) hne]

theorem sectors_imageWith (h26 : Z.length ≤ 26) (hZ : ∀ z ∈ Z, 3 ≤ z.val ∧ z.val < 256)
    (hz : ∀ j < 26, sectorByte (d 2) e j = 0) : sectors (imageWith e f Z fl d 2) e = Z.map sectorNo := by
  rw [imageWith_dir]
  refine sectors_entered_zero (by rwa [List.length_map]) ?_ hz
  intro s hs h0
  obtain ⟨z, hz', rfl⟩ := List.mem_map.1 hs
  obtain ⟨h3, hlt⟩ := hZ z hz'
  have hval := congrArg UInt8.toNat h0
  rw [sectorNo_toNat, Nat.mod_eq_of_lt hlt] at hval
  rw [hval] at h3
  simp at h3

/-- The image when the file has been copied. -/
theorem loadFile_spec (argv : Buffer) (he : freeEntry (d 2) = some e) (hn : cs.length / 512 + 1 ≤ 25)
    (hroom : cs.length / 512 + 1 ≤ freeSectors (d 1)) : ∃ fl,
    loadFile argv cs d = (none, imageWith e (padName argv) ((lowZeros (d 1)).take (cs.length / 512 + 1)) fl d) ∧
    (∀ (j : ℕ) (z : Fin 512), ((lowZeros (d 1)).take (cs.length / 512 + 1))[j]? = some z →
      ∀ (o : Fin 512) (x : UInt8), cs[j * 512 + o.val]? = some x → fl z.val o = x) ∧
    ∀ a, (∀ z ∈ (lowZeros (d 1)).take (cs.length / 512 + 1), z.val ≠ a) → fl a = d a := by
  obtain ⟨fl, hl, hdata, hkeep⟩ := loadSectors_spec (e := e) (k := 0) (l := ⟨d 1, setName e (padName argv) (d 2), d⟩)
    (rfl : cs.length / 512 = _) (show _ ≤ 26 from by omega) (by rw [length_lowZeros]; exact hroom)
  refine ⟨fl, ?_, hdata, hkeep⟩
  simp only [loadFile, he, copyName_setName, hl]
  rfl

/-- **The new file is read whole.** -/
theorem readFile_new (hlen : Z.length = cs.length / 512 + 1) (h25 : Z.length ≤ 25)
    (hZ : ∀ z ∈ Z, 3 ≤ z.val ∧ z.val < 256) (he : freeEntry (d 2) = some e)
    (hz : ∀ j < 26, sectorByte (d 2) e j = 0) (hname : ∀ e', InUse (d 2) e' → entryName (d 2) e' ≠ f)
    (hdata : ∀ (j : ℕ) (z : Fin 512), Z[j]? = some z → ∀ (o : Fin 512) (x : UInt8),
      cs[j * 512 + o.val]? = some x → fl z.val o = x) (buf : Buffer) :
    ∃ buf', (readFile f buf).exec (imageWith e f Z fl d) =
      some ((Int16.ofNat (cs.length / 512 + 1), buf'), imageWith e f Z fl d) ∧
      ∀ (o : ℕ) (x : UInt8), cs[o]? = some x → buf' o = x := by
  have hsec : sectors (imageWith e f Z fl d 2) e = Z.map sectorNo := sectors_imageWith (by omega) hZ hz
  have hL : (Z.map sectorNo).length = cs.length / 512 + 1 := by rw [List.length_map, hlen]
  have hfind : findFile f (imageWith e f Z fl d 2) = some e := by
    refine findFile_first (by rw [entryName_imageWith (by omega), if_pos rfl]) ?_
    intro e' hlt
    rw [entryName_imageWith (by omega), if_neg hlt.ne]
    exact hname e' (inUse_of_lt_freeEntry he hlt)
  refine ⟨_, by rw [readFile_walk hfind, walk_short (by rw [hsec]; omega), hsec, Option.map_some, hL], ?_⟩
  intro o x hx
  -- byte `o` is in the sector that the list has at `o / 512`
  have ho : o < cs.length := (List.getElem?_eq_some_iff.1 hx).1
  obtain ⟨z, hz'⟩ : ∃ z, Z[o / 512]? = some z := ⟨_, List.getElem?_eq_getElem (by omega)⟩
  obtain ⟨h3, hlt⟩ := hZ z (List.mem_of_getElem? hz')
  have hplace : (Z.map sectorNo)[o / 512]? = some (sectorNo z) := by
    rw [List.getElem?_map, hz', Option.map_some]
  have hsplit : o / 512 * 512 + o % 512 = o := Nat.div_add_mod' o 512
  have hbyte := putChunks_place (d := imageWith e f Z fl d) buf
    (o := ⟨o % 512, Nat.mod_lt _ (by omega)⟩) (by omega) hplace
  simp only [hsplit] at hbyte
  rw [hbyte, sectorNo_toNat, Nat.mod_eq_of_lt hlt, imageWith_data h3]
  exact hdata _ z hz' _ x (by simp only [hsplit]; exact hx)

/-- The files in use have short lists of used sectors from the third on. -/
def ListsUsed (d : Disk) : Prop :=
  ∀ e, InUse (d 2) e → (sectors (d 2) e).length ≤ 25 ∧
    ∀ s ∈ sectors (d 2) e, 3 ≤ s.toNat ∧ d 1 (mapIndex s) ≠ 0

instance (d : Disk) : Decidable (ListsUsed d) :=
  inferInstanceAs (Decidable (∀ e, InUse (d 2) e → (sectors (d 2) e).length ≤ 25 ∧
    ∀ s ∈ sectors (d 2) e, 3 ≤ s.toNat ∧ d 1 (mapIndex s) ≠ 0))

/-- **The old files are read as before**: their sectors are marked, and only
    unmarked ones have been written. -/
theorem ListsUsed.readFile_old (hlists : ListsUsed d) (h26 : Z.length ≤ 26) (hfree : ∀ z ∈ Z, d 1 z = 0)
    (he : freeEntry (d 2) = some e) (hkeep : ∀ a, (∀ z ∈ Z, z.val ≠ a) → fl a = d a)
    (hlive : InUse (d 2) e') (hne : entryName (d 2) e' ≠ f) (buf : Buffer) :
    ∃ r, (readFile (entryName (d 2) e') buf).exec d = some (r, d) ∧
      (readFile (entryName (d 2) e') buf).exec (imageWith e f Z fl d) = some (r, imageWith e f Z fl d) := by
  have hinuse : ∀ {e''}, entryName (d 2) e'' = entryName (d 2) e' → InUse (d 2) e'' := by
    intro e'' hn
    rw [inUse_iff, hn]
    exact hlive
  refine readFile_other (e := e) ?_ ?_ ?_ ?_ ?_
    (fun e'' hn => (hlists e'' (hinuse hn)).1) buf
  · intro e'' he'
    rw [entryName_imageWith h26, if_neg he']
  · intro e'' he'
    exact sectors_imageWith_of_ne h26 he'
  · exact fun hn => freeEntry_free he (hinuse hn)
  · rw [entryName_imageWith h26, if_pos rfl]
    exact hne.symm
  · intro e'' _ hn s hs
    obtain ⟨h3, hmark⟩ := (hlists e'' (hinuse hn)).2 s hs
    rw [imageWith_data h3, hkeep]
    intro z hz hval
    have hidx : mapIndex s = z := Fin.ext hval.symm
    rw [hidx] at hmark
    exact hmark (hfree z hz)

/-- **The kernel reads what the host program has loaded**, with the sector its
    end of data is in, and the other files as before. -/
theorem load_read (hres : ∀ i : Fin 512, i.val < 3 → d 1 i ≠ 0) (hlists : ListsUsed d)
    (he : freeEntry (d 2) = some e) (hz : ∀ j < 26, sectorByte (d 2) e j = 0)
    (hname : ∀ e', InUse (d 2) e' → entryName (d 2) e' ≠ padName argv)
    (hn : cs.length / 512 + 1 ≤ 25) (hroom : cs.length / 512 + 1 ≤ freeSectors (d 1)) :
    ∃ d', loadFile argv cs d = (none, d') ∧
    (∀ buf, ∃ buf', (readFile (padName argv) buf).exec d' =
      some ((Int16.ofNat (cs.length / 512 + 1), buf'), d') ∧ ∀ (o : ℕ) (x : UInt8), cs[o]? = some x → buf' o = x) ∧
    ∀ e', InUse (d 2) e' → ∀ buf, ∃ r, (readFile (entryName (d 2) e') buf).exec d = some (r, d) ∧
      (readFile (entryName (d 2) e') buf).exec d' = some (r, d') := by
  obtain ⟨fl, hl, hdata, hkeep⟩ := loadFile_spec argv he hn hroom
  generalize hZ : (lowZeros (d 1)).take (cs.length / 512 + 1) = Z at hl hdata hkeep
  have hlen : Z.length = cs.length / 512 + 1 := by
    rw [← hZ, List.length_take, length_lowZeros]
    omega
  have hlow : ∀ z ∈ Z, z.val < 256 ∧ d 1 z = 0 := fun z hz' =>
    mem_lowZeros.1 (List.mem_of_mem_take (hZ ▸ hz'))
  have h3 : ∀ z ∈ Z, 3 ≤ z.val ∧ z.val < 256 := fun z hz' =>
    ⟨not_lt.1 fun h => hres z h (hlow z hz').2, (hlow z hz').1⟩
  refine ⟨_, hl, ?_, ?_⟩
  · intro buf
    exact readFile_new hlen (by omega) h3 he hz hname hdata buf
  · intro e' hlive buf
    exact hlists.readFile_old (by omega) (fun z hz' => (hlow z hz').2) he hkeep hlive (hname e' hlive) buf

/-- A load that stops has stored to sectors only that are free in the map. -/
theorem loadFile_message {message : String} {d' : Disk} (h : loadFile argv cs d = (some message, d'))
    {i : Fin 512} (hi : d 1 i ≠ 0) : d' i.val = d i.val := by
  rcases he : freeEntry (d 2) with _ | e
  · simp only [loadFile, he] at h
    cases h
    rfl
  · have hfree : ∀ z ∈ lowZeros (d 1), z.val ≠ i.val := by
      intro z hz hval
      rw [Fin.ext hval] at hz
      exact hi (mem_lowZeros.1 hz).2
    obtain ⟨l, hl⟩ : ∃ l : Load, l = ⟨d 1, setName e (padName argv) (d 2), d⟩ := ⟨_, rfl⟩
    have hi' : (loadSectors e 26 0 ⟨cs, false⟩ l).2.floppy i.val = l.floppy i.val :=
      loadSectors_keeps (by rw [hl]; exact hfree) _
    simp only [loadFile, he, copyName_setName, ← hl] at h
    rcases hload : loadSectors e 26 0 ⟨cs, false⟩ l with ⟨_ | text, l'⟩
    · rw [hload] at h
      cases h
    · rw [hload] at h hi'
      cases h
      rw [hi', hl]

/-- **A load that stops leaves the image intact**: what it has stored is in
    sectors that are free in the map. -/
theorem loadFile_stopped {message : String} {d' : Disk} (hres : ∀ i : Fin 512, i.val < 3 → d 1 i ≠ 0)
    (h : loadFile argv cs d = (some message, d')) :
    d' 1 = d 1 ∧ d' 2 = d 2 ∧ ∀ i : Fin 512, d 1 i ≠ 0 → d' i.val = d i.val := by
  refine ⟨?_, ?_, fun i hi => loadFile_message h hi⟩
  · exact loadFile_message h (i := 1) (hres 1 (by decide))
  · exact loadFile_message h (i := 2) (hres 2 (by decide))

/-- The word `B` on a command line. -/
def wordB : Buffer := fun j => if j = 0 then 0x42 else 0

/-- A file of three bytes. -/
theorem load_read_three : ∃ d', loadFile wordB [7, 8, 9] twoSectorDisk = (none, d') ∧
    (∀ buf, ∃ buf', (readFile (padName wordB) buf).exec d' = some ((1, buf'), d') ∧
      ∀ (o : ℕ) (x : UInt8), [7, 8, 9][o]? = some x → buf' o = x) ∧
    ∀ e', InUse (twoSectorDisk 2) e' → ∀ buf, ∃ r,
      (readFile (entryName (twoSectorDisk 2) e') buf).exec twoSectorDisk = some (r, twoSectorDisk) ∧
      (readFile (entryName (twoSectorDisk 2) e') buf).exec d' = some (r, d') :=
  load_read (e := 1) (by decide +kernel) (by decide +kernel) (by decide +kernel) (by decide +kernel)
    (by decide +kernel) (by decide) (by decide +kernel)

/-- A disk with one free sector. -/
def oneFreeDisk : Disk := fun k i => if k = 1 ∧ i.val ≠ 5 then 0xFF else 0

/-- A file of 512 bytes: the sector is written before the search finds no other. -/
theorem loadFile_stopped_oneFree : ∃ d',
    loadFile wordB (List.replicate 512 7) oneFreeDisk = (some "Not enough room for file", d') ∧
    d' 1 = oneFreeDisk 1 ∧ d' 2 = oneFreeDisk 2 ∧
    ∀ i : Fin 512, oneFreeDisk 1 i ≠ 0 → d' i.val = oneFreeDisk i.val := by
  have hmessage : (loadFile wordB (List.replicate 512 7) oneFreeDisk).1 = some "Not enough room for file" := by
    decide +kernel
  rcases hrun : loadFile wordB (List.replicate 512 7) oneFreeDisk with ⟨_, d'⟩
  rw [hrun] at hmessage
  cases hmessage
  exact ⟨d', rfl, loadFile_stopped (by decide +kernel) hrun⟩

/-- A disk with the file `A` in the sector of the map. -/
def mapFileDisk : Disk := fun k i => if k = 2 ∧ i.val = 6 then 1 else if k = 2 ∧ i.val = 7 then 0 else twoSectorDisk k i

/-- **A file that lists the map** is another file after every load. -/
theorem load_map_file : (∀ i : Fin 512, i.val < 3 → mapFileDisk 1 i ≠ 0) ∧
    (∀ e, InUse (mapFileDisk 2) e → (sectors (mapFileDisk 2) e).length ≤ 25 ∧
      ∀ s ∈ sectors (mapFileDisk 2) e, mapFileDisk 1 (mapIndex s) ≠ 0) ∧
    (∃ e, freeEntry (mapFileDisk 2) = some e ∧ ∀ j < 26, sectorByte (mapFileDisk 2) e j = 0) ∧
    (∀ e', InUse (mapFileDisk 2) e' → entryName (mapFileDisk 2) e' ≠ padName wordB) ∧
    1 ≤ freeSectors (mapFileDisk 1) ∧ InUse (mapFileDisk 2) 0 ∧
    ¬ ∃ r, (readFile (entryName (mapFileDisk 2) 0) fun _ => 0).exec mapFileDisk = some (r, mapFileDisk) ∧
      (readFile (entryName (mapFileDisk 2) 0) fun _ => 0).exec (loadFile wordB [] mapFileDisk).2 =
        some (r, (loadFile wordB [] mapFileDisk).2) := by
  refine ⟨by decide +kernel, by decide +kernel, by decide +kernel, by decide +kernel, by decide +kernel,
    by decide +kernel, ?_⟩
  rintro ⟨r, h1, h2⟩
  have hold : ((readFile (entryName (mapFileDisk 2) 0) fun _ => 0).exec mapFileDisk).any
      (fun x => x.1.2 5 = 0) = true := by decide +kernel
  have hnew : ((readFile (entryName (mapFileDisk 2) 0) fun _ => 0).exec (loadFile wordB [] mapFileDisk).2).any
      (fun x => x.1.2 5 = 0xFF) = true := by decide +kernel
  rw [h1, Option.any_some, decide_eq_true_eq] at hold
  rw [h2, Option.any_some, decide_eq_true_eq] at hnew
  rw [hold] at hnew
  exact absurd hnew (by decide)

end TeamXtremeOS
