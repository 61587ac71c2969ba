/-
  What `readFile`, `deleteFile` and `writeFile` ask of the disk, as lists of
  requests with the values they send.
-/
import TeamXtremeOS.Proof.Addressing
import TeamXtremeOS.Proof.Directory

namespace TeamXtremeOS

open Lib

variable {dir diskMap : Sector} {d : Disk} {e e' : Fin 16} {f : FileName} {i j k n fuel : ℕ}
  {l : List UInt8} {s v : UInt8} {buf b : Buffer} {cs : List Sector}

theorem readSector_ofChar (buf : Sector) (s : UInt8) : readSector buf (ofChar s) = .read s.toNat .ret :=
  readSector_ofNat (by have := s.toNat_lt; omega) buf

theorem writeSector_ofChar (data : Sector) (s : UInt8) :
    writeSector data (ofChar s) = .write s.toNat data (.ret ()) :=
  writeSector_ofNat (by have := s.toNat_lt; omega) data

/-! ## Stores to an entry and to the map -/

/-- Store a list in the sector bytes of an entry, from the `j`-th on. -/
def putList (e : Fin 16) : ℕ → List UInt8 → Sector → Sector
  | _, [], dir => dir
  | j, s :: l, dir => putList e (j + 1) l (Function.update dir (entryByte e (6 + j)) s)

/-- Set bytes of the map. -/
def setAll (v : UInt8) (l : List (Fin 512)) (diskMap : Sector) : Sector :=
  l.foldl (fun diskMap i => Function.update diskMap i v) diskMap

theorem setAll_apply (v : UInt8) (l : List (Fin 512)) (diskMap : Sector) (i : Fin 512) :
    setAll v l diskMap i = if i ∈ l then v else diskMap i := by
  induction l generalizing diskMap with
  | nil => simp [setAll]
  | cons x l ih =>
    rw [setAll, List.foldl_cons, ← setAll, ih, Function.update_apply]
    by_cases hl : i ∈ l <;> by_cases hx : i = x <;> simp [hl, hx]

theorem sectorByte_update (hi : i < 26) (hj : j < 26) :
    sectorByte (Function.update dir (entryByte e (6 + j)) v) e' i =
      if e' = e ∧ i = j then v else sectorByte dir e' i := by
  rw [sectorByte, Function.update_apply]
  simp only [entryByte_inj (show 6 + i < 32 by omega) (show 6 + j < 32 by omega),
    Nat.add_left_cancel_iff]
  rfl

theorem sectorByte_putList (hl : j + l.length ≤ 26) (hi : i < 26) :
    sectorByte (putList e j l dir) e' i =
      if e' = e ∧ j ≤ i ∧ i < j + l.length then l.getD (i - j) 0 else sectorByte dir e' i := by
  induction l generalizing j dir with
  | nil =>
    rw [putList, if_neg]
    rw [List.length_nil]
    omega
  | cons s l ih =>
    rw [List.length_cons] at hl
    rw [putList, ih (by omega), sectorByte_update hi (by omega), List.length_cons]
    by_cases he : e' = e
    · simp only [he, true_and]
      rcases lt_trichotomy i j with hij | rfl | hij
      · rw [if_neg (by omega), if_neg (by omega), if_neg (by omega)]
      · rw [if_neg (by omega), if_pos rfl, if_pos (by omega), Nat.sub_self, List.getD_cons_zero]
      · by_cases hlt : i < j + (l.length + 1)
        · rw [if_pos (by omega), if_pos (by omega), show i - j = i - (j + 1) + 1 by omega,
            List.getD_cons_succ]
        · rw [if_neg (by omega), if_neg (by omega), if_neg (by omega)]
    · simp only [he, false_and, if_false]

theorem nameByte_update (hi : i < 6) (hj : j < 26) :
    nameByte (Function.update dir (entryByte e (6 + j)) v) e' i = nameByte dir e' i := by
  rw [nameByte, Function.update_of_ne, nameByte]
  rw [Ne, entryByte_inj (by omega) (by omega)]
  omega

theorem nameByte_putList (hl : j + l.length ≤ 26) (hi : i < 6) :
    nameByte (putList e j l dir) e' i = nameByte dir e' i := by
  induction l generalizing j dir with
  | nil => rfl
  | cons s l ih =>
    rw [List.length_cons] at hl
    rw [putList, ih (by omega), nameByte_update hi (by omega)]

theorem entryName_putList (hl : j + l.length ≤ 26) : entryName (putList e j l dir) e' = entryName dir e' :=
  funext fun i => nameByte_putList hl i.isLt

/-! ## Reading -/

/-- Store sectors in a buffer, from `&buf[k*512]` on. -/
def putChunks : List Sector → ℕ → Buffer → Buffer
  | [], _, buf => buf
  | c :: cs, k, buf => putChunks cs (k + 1) (putChunk buf k c)

theorem readLoop_exec {buf : Buffer} (hf : 512 ≤ 32 * e.val + 6 + k + fuel) :
    (readLoop dir e fuel k buf).exec d = (terminated 0 (bytesFrom dir (32 * e.val + 6 + k))).map
      fun l => ((Int16.ofNat (k + l.length), putChunks (l.map fun s => d s.toNat) k buf), d) := by
  induction fuel generalizing k buf with
  | zero =>
    rw [bytesFrom_of_le (by omega)]
    rfl
  | succ fuel ih =>
    by_cases hlt : 32 * e.val + 6 + k < 512
    · simp only [readLoop, dif_pos hlt, bytesFrom_of_lt hlt, terminated]
      split_ifs with hs
      · rfl
      · rw [readSector_ofChar, Prog.exec_bind]
        simp only [Prog.exec, Option.bind_some]
        rw [ih (by omega), Option.map_map]
        congr 1
        funext l
        simp [putChunks, show k + 1 + l.length = k + (l.length + 1) by omega]
    · simp only [readLoop, dif_neg hlt, bytesFrom_of_le (not_lt.1 hlt)]
      rfl

theorem readSector_dir (buf : Sector) : readSector buf 2 = .read 2 .ret :=
  readSector_ofNat (n := 2) (by omega) buf

theorem readSector_map (buf : Sector) : readSector buf 1 = .read 1 .ret :=
  readSector_ofNat (n := 1) (by omega) buf

theorem writeSector_dir (data : Sector) : writeSector data 2 = .write 2 data (.ret ()) :=
  writeSector_ofNat (n := 2) (by omega) data

theorem writeSector_map (data : Sector) : writeSector data 1 = .write 1 data (.ret ()) :=
  writeSector_ofNat (n := 1) (by omega) data

/-- The sectors of a file, in order. -/
def contents (d : Disk) (f : FileName) : Option (List Sector) :=
  (findFile f (d 2)).map fun e => (sectors (d 2) e).map fun s => d s.toNat

/-- `readFile` behind the read of the directory. -/
def readTail (f : FileName) (buf : Buffer) (dir : Sector) : DiskProg (Int16 × Buffer) :=
  match findFile f dir with
  | some e => readLoop dir e 512 0 buf
  | none => .ret (-1, buf)

/-- Both searches find the same entry. -/
theorem readFile_eq (f : FileName) (buf : Buffer) : readFile f buf = .read 2 (readTail f buf) := by
  simp only [readFile, readSector_dir, search_eq (b := 1) (by decide), ← findFile_eq]
  rfl

theorem readFile_none (hf : findFile f (d 2) = none) (buf : Buffer) :
    (readFile f buf).exec d = some ((-1, buf), d) := by
  rw [readFile_eq, Prog.exec, readTail, hf]
  rfl

theorem readFile_some (hf : findFile f (d 2) = some e) (buf : Buffer) :
    (readFile f buf).exec d = (readLoop (d 2) e 512 0 buf).exec d := by
  rw [readFile_eq, Prog.exec, readTail, hf]

/-- What `readFile` returns for an entry, on any disk: it walks over the list. -/
theorem readFile_walk (hf : findFile f (d 2) = some e) (buf : Buffer) : (readFile f buf).exec d =
    (walk (d 2) e).map fun l => ((Int16.ofNat l.length, putChunks (l.map fun s => d s.toNat) 0 buf), d) := by
  rw [readFile_some hf, readLoop_exec (by omega)]
  simp only [Nat.add_zero, Nat.zero_add, walk]

/-- The number of sectors a file has is not the `-1` of a file that is not found. -/
theorem ofNat_ne_neg_one (hn : n < 32768) : Int16.ofNat n ≠ -1 := by
  intro h
  have hi := congrArg Int16.toInt h
  have hneg : (-1 : Int16).toInt = -1 := rfl
  rw [Int16.toInt_ofNat_of_lt hn, hneg] at hi
  omega

theorem lt_ofNat_iff (hn : n < 32768) : 26 < Int16.ofNat n ↔ 26 < n :=
  ofNat_lt_ofNat (m := 26) (by omega) hn

/-- `readFile` returns `-1` when there is no such file, and only then. -/
theorem readFile_neg_one {d' : Disk} {r : Int16} {buf' : Buffer}
    (h : (readFile f buf).exec d = some ((r, buf'), d')) : r = -1 ↔ findFile f (d 2) = none := by
  rcases hf : findFile f (d 2) with _ | e
  · rw [readFile_none hf, Option.some.injEq, Prod.mk.injEq, Prod.mk.injEq] at h
    simp [h.1.1]
  · rw [readFile_walk hf, Option.map_eq_some_iff] at h
    obtain ⟨l, hl, h⟩ := h
    rw [Prod.mk.injEq, Prod.mk.injEq] at h
    have hlen := length_walk hl
    have hne := ofNat_ne_neg_one (show l.length < 32768 by omega)
    rw [h.1.1] at hne
    simp [hne]

/-- `readFile` of a file with a short list. -/
theorem readFile_contents (hlen : ∀ e, findFile f (d 2) = some e → (sectors (d 2) e).length ≤ 25)
    (buf : Buffer) : (readFile f buf).exec d = some (match contents d f with
      | some cs => (Int16.ofNat cs.length, putChunks cs 0 buf)
      | none => (-1, buf), d) := by
  rw [contents]
  rcases hf : findFile f (d 2) with _ | e
  · rw [readFile_none hf]
    rfl
  · rw [readFile_walk hf, walk_short (hlen e hf)]
    simp only [Option.map_some, List.length_map]

/-- **`readFile` returns the contents of the file.** -/
theorem readFile_exec (hd : DirOK (d 2)) (f : FileName) (buf : Buffer) :
    (readFile f buf).exec d = some (match contents d f with
      | some cs => (Int16.ofNat cs.length, putChunks cs 0 buf)
      | none => (-1, buf), d) :=
  readFile_contents (fun e _ => hd.lists.length_le e) buf

/-! ## Deleting -/

theorem deleteLoop_eq (hf : 512 ≤ 32 * e.val + 6 + j + fuel) : deleteLoop e fuel j dir diskMap =
    (terminated 0 (bytesFrom dir (32 * e.val + 6 + j))).map fun l =>
      (putList e j (List.replicate l.length 0) dir, setAll 0 (l.map mapIndex) diskMap) := by
  induction fuel generalizing j dir diskMap with
  | zero =>
    rw [bytesFrom_of_le (by omega)]
    rfl
  | succ fuel ih =>
    by_cases hlt : 32 * e.val + 6 + j < 512
    · simp only [deleteLoop, dif_pos hlt, bytesFrom_of_lt hlt, terminated]
      split_ifs with hs
      · rfl
      · have hpos : entryByte e (6 + j) = ⟨32 * e.val + 6 + j, hlt⟩ := by
          rw [entryByte_eq (by omega)]; simp only [Nat.add_assoc]
        rw [ih (by omega), ← Nat.add_assoc, bytesFrom_update (Nat.lt_succ_self _), Option.map_map]
        congr 1
        funext l
        rw [Function.comp_apply, List.length_cons, List.replicate_succ, putList, hpos]
        rfl
    · simp only [deleteLoop, dif_neg hlt, bytesFrom_of_le (not_lt.1 hlt)]
      rfl

/-- The directory without the file of entry `e`. -/
def erased (e : Fin 16) (dir : Sector) : Sector :=
  putList e 0 (List.replicate (sectors dir e).length 0) (Function.update dir (entryByte e 0) 0)

/-- `deleteFile` behind its two reads. -/
def deleteTail (f : FileName) (dir diskMap : Sector) : DiskProg Int16 :=
  match findFile f dir with
  | none => .ret (-1)
  | some e => do
    let (dir, diskMap) ←
      Prog.ofOption (deleteLoop e 512 0 (Function.update dir (entryByte e 0) 0) diskMap)
    writeSector dir 2
    writeSector diskMap 1
    return 1

theorem deleteFile_eq (f : FileName) :
    deleteFile f = .read 2 fun dir => .read 1 fun diskMap => deleteTail f dir diskMap := by
  simp only [deleteFile, readSector_dir, readSector_map]
  rfl

theorem deleteTail_none (hf : findFile f dir = none) : deleteTail f dir diskMap = .ret (-1) := by
  rw [deleteTail, hf]

theorem walk_update (e : Fin 16) : walk (Function.update dir (entryByte e 0) v) e = walk dir e := by
  rw [walk, bytesFrom_update (by rw [entryByte_eq (by omega)]; simp only; omega), walk]

/-- The requests of `deleteFile` for an entry, on any disk: it clears what it
    walks over. -/
theorem deleteTail_walk (hf : findFile f dir = some e) (hl : walk dir e = some l) :
    deleteTail f dir diskMap =
      .write 2 (putList e 0 (List.replicate l.length 0) (Function.update dir (entryByte e 0) 0))
        (.write 1 (setAll 0 (l.map mapIndex) diskMap) (.ret 1)) := by
  simp only [deleteTail, hf]
  rw [deleteLoop_eq (by omega), Nat.add_zero, ← walk, walk_update, hl]
  simp only [Option.map_some, Prog.ofOption, Prog.ret_bind, writeSector_dir, writeSector_map]
  rfl

theorem deleteTail_some (hd : DirOK dir) (hf : findFile f dir = some e) :
    deleteTail f dir diskMap = .write 2 (erased e dir)
      (.write 1 (setAll 0 ((sectors dir e).map mapIndex) diskMap) (.ret 1)) :=
  deleteTail_walk hf (walk_short (hd.lists.length_le e))

/-! ## Writing -/

/-- The first `n` unused sectors of the map. -/
def unusedOf (diskMap : Sector) (n : ℕ) : List (Fin 512) :=
  ((List.finRange 512).filter fun j => diskMap j = 0).take n

theorem findUnused_spec (diskMap : Sector) (n k : ℕ) (js : List (Fin 512)) (unused : ℕ → Int16) :
    (findUnused diskMap n js k unused).1 =
      k + ((js.filter fun j => diskMap j = 0).take (n - k)).length ∧
    (∀ i < k, (findUnused diskMap n js k unused).2 i = unused i) ∧
    ∀ i z, ((js.filter fun j => diskMap j = 0).take (n - k))[i]? = some z →
      (findUnused diskMap n js k unused).2 (k + i) = Int16.ofNat z.val := by
  induction js generalizing k unused with
  | nil => simp [findUnused]
  | cons j js ih =>
    simp only [findUnused]
    by_cases hk : k < n
    · rw [if_pos hk]
      by_cases hj : diskMap j = 0
      · obtain ⟨h1, h2, h3⟩ := ih (k + 1) (Function.update unused k (Int16.ofNat j.val))
        have htake : ((j :: js).filter fun j => diskMap j = 0).take (n - k) =
            j :: (js.filter fun j => diskMap j = 0).take (n - (k + 1)) := by
          rw [List.filter_cons_of_pos (by simpa using hj), show n - k = n - (k + 1) + 1 by omega,
            List.take_succ_cons]
        rw [if_pos hj]
        refine ⟨by rw [h1, htake, List.length_cons]; omega, ?_, ?_⟩
        · intro i hi
          rw [h2 i (by omega), Function.update_of_ne (by omega)]
        · intro i z hi
          rw [htake] at hi
          cases i with
          | zero =>
            rw [List.getElem?_cons_zero, Option.some.injEq] at hi
            subst hi
            have hk' := h2 k (by omega)
            rw [Function.update_self] at hk'
            exact hk'
          | succ i =>
            rw [List.getElem?_cons_succ] at hi
            rw [show k + (i + 1) = k + 1 + i by omega, h3 i z hi]
      · rw [if_neg hj, List.filter_cons_of_neg (by simpa using hj)]
        exact ih k unused
    · rw [if_neg hk, show n - k = 0 by omega]
      simp

/-- What was in the array behind the sectors that are found stays there. -/
theorem findUnused_rest {js : List (Fin 512)} {unused : ℕ → Int16}
    (hi : (findUnused diskMap n js k unused).1 ≤ i) : (findUnused diskMap n js k unused).2 i = unused i := by
  induction js generalizing k unused with
  | nil => rfl
  | cons j js ih =>
    simp only [findUnused] at hi ⊢
    split_ifs at hi ⊢
    · have := (findUnused_spec diskMap n (k + 1) js (Function.update unused k (Int16.ofNat j.val))).1
      rw [ih hi, Function.update_of_ne (by omega)]
    · exact ih hi
    · rfl

/-- A sector number as it stands in a list. -/
def sectorNo (z : Fin 512) : UInt8 := UInt8.ofNat z.val

theorem markSectors_eq {unused : ℕ → Int16} {Z : List (Fin 512)}
    (hZ : ∀ i z, Z[i]? = some z → unused (j + i) = Int16.ofNat z.val) :
    markSectors e unused Z.length j dir diskMap =
      some (putList e j (Z.map sectorNo) dir, setAll 0xFF Z diskMap) := by
  induction Z generalizing j dir diskMap with
  | nil => rfl
  | cons z Z ih =>
    have hz : unused j = Int16.ofNat z.val := hZ 0 z rfl
    have hint := Int16.toInt_ofNat_of_lt (show z.val < 2 ^ 15 by omega)
    rw [List.length_cons, markSectors, dif_pos (by rw [hz, hint]; omega),
      ih fun i z hi => ?_]
    · simp only [hz, hint, toChar_ofNat, Int.toNat_natCast]
      rfl
    · rw [← hZ (i + 1) z (by simpa using hi)]
      congr 1
      omega

theorem markSectors_range {unused : ℕ → Int16} {r : ℕ} {x : Sector × Sector}
    (h : markSectors e unused r j dir diskMap = some x) :
    ∀ i < r, 0 ≤ (unused (j + i)).toInt ∧ (unused (j + i)).toInt < 512 := by
  induction r generalizing j dir diskMap with
  | zero => exact fun i hi => absurd hi (Nat.not_lt_zero i)
  | succ r ih =>
    intro i hi
    rw [markSectors] at h
    split_ifs at h with hj
    cases i with
    | zero => exact hj
    | succ i =>
      rw [show j + (i + 1) = j + 1 + i by omega]
      exact ih h i (by omega)

/-- The requests that write a buffer to a list of sectors. -/
def dataWrites (b : Buffer) (j : ℕ) (l : List UInt8) : List (ℕ × Sector) :=
  (l.zipIdx j).map fun x => (x.1.toNat, chunk b x.2)

theorem writeData_eq (hl : ∀ i s, l[i]? = some s → sectorByte dir e (j + i) = s) :
    writeData b dir e l.length j = Prog.writes (dataWrites b j l) (.ret ()) := by
  induction l generalizing j with
  | nil => rfl
  | cons s l ih =>
    have hs : sectorByte dir e j = s := hl 0 s rfl
    rw [List.length_cons, writeData, hs, writeSector_ofChar, Prog.write_bind, Prog.ret_bind,
      ih fun i s hi => ?_]
    · rfl
    · rw [← hl (i + 1) s (by simpa using hi)]
      congr 1
      omega

/-- The entry `writeFile` uses. -/
def writingEntry (f : FileName) (dir : Sector) : Option (Fin 16) :=
  (findFile f dir).or (freeEntry dir)

/-- The directory with the name `f` and the sectors `l` in entry `e`. -/
def entered (e : Fin 16) (f : FileName) (l : List UInt8) (dir : Sector) : Sector :=
  putList e 0 l (setName e f dir)

/-- `writeFile` behind its two reads. -/
def writeTail (f : FileName) (b : Buffer) (sectors : Int16) (unusedSectors : ℕ → Int16)
    (dir diskMap : Sector) : DiskProg Int16 :=
  let sectors := if sectors > 26 then 26 else sectors
  match writingEntry f dir with
  | none => .ret (-1)
  | some e => do
    let n := sectors.toNatClampNeg
    let (k, unused) := findUnused diskMap n (List.finRange 512) 0 unusedSectors
    let (dir, diskMap) ← Prog.ofOption (markSectors e unused n 0 (setName e f dir) diskMap)
    writeData b dir e k 0
    writeSector dir 2
    writeSector diskMap 1
    if k < n then return -2 else return Int16.ofNat k

theorem writeFile_eq (f : FileName) (b : Buffer) (sectors : Int16) (unusedSectors : ℕ → Int16) :
    writeFile f b sectors unusedSectors =
      .read 2 fun dir => .read 1 fun diskMap => writeTail f b sectors unusedSectors dir diskMap := by
  simp only [writeFile, readSector_dir, readSector_map, Prog.read_bind, Prog.ret_bind]
  congr 1
  funext dir
  congr 1
  funext diskMap
  simp only [writeTail, writingEntry]
  cases findFile f dir <;> rfl

theorem writeTail_none {sectors : Int16} {unusedSectors : ℕ → Int16} (he : writingEntry f dir = none) :
    writeTail f b sectors unusedSectors dir diskMap = .ret (-1) := by
  simp only [writeTail, he]

theorem gt_26_iff {sectors : Int16} : sectors > 26 ↔ 26 < sectors.toInt := by
  rw [gt_iff_lt, Int16.lt_iff_toInt_lt]
  rfl

theorem not_gt_26 {sectors : Int16} (h26 : sectors.toInt ≤ 26) : ¬ sectors > 26 := fun h =>
  not_lt.2 h26 (gt_26_iff.1 h)

/-- **The requests of `writeFile`**, when there is an entry for the file.  Where
    the search has found too few sectors, the entry and the map get what the
    array happened to hold. -/
theorem writeTail_filled {sectors : Int16} {unusedSectors : ℕ → Int16} {G : List (Fin 512)}
    (he : writingEntry f dir = some e) (h26 : sectors.toInt ≤ 26) (hn : n = sectors.toInt.toNat)
    (hlen : (unusedOf diskMap n).length + G.length = n)
    (hG : ∀ i g, G[i]? = some g → unusedSectors ((unusedOf diskMap n).length + i) = Int16.ofNat g.val) :
    writeTail f b sectors unusedSectors dir diskMap =
      Prog.writes (dataWrites b 0 ((unusedOf diskMap n).map sectorNo))
        (.write 2 (entered e f ((unusedOf diskMap n ++ G).map sectorNo) dir)
          (.write 1 (setAll 0xFF (unusedOf diskMap n ++ G) diskMap)
            (.ret (if (unusedOf diskMap n).length < n then -2 else
              Int16.ofNat (unusedOf diskMap n).length)))) := by
  have hnat : sectors.toNatClampNeg = n := hn.symm
  obtain ⟨h1, -, h3⟩ := findUnused_spec diskMap n 0 (List.finRange 512) unusedSectors
  have hrest : ∀ i, (findUnused diskMap n (List.finRange 512) 0 unusedSectors).1 ≤ i →
      (findUnused diskMap n (List.finRange 512) 0 unusedSectors).2 i = unusedSectors i :=
    fun i hi => findUnused_rest hi
  simp only [Nat.sub_zero, Nat.zero_add] at h1 h3
  rw [← unusedOf] at h1 h3
  rcases hu : findUnused diskMap n (List.finRange 512) 0 unusedSectors with ⟨k, unused⟩
  rw [hu] at h1 h3 hrest
  simp only at h1 h3 hrest
  subst h1
  have hmark : markSectors e unused (unusedOf diskMap n ++ G).length 0 (setName e f dir) diskMap =
      some (entered e f ((unusedOf diskMap n ++ G).map sectorNo) dir,
        setAll 0xFF (unusedOf diskMap n ++ G) diskMap) := by
    refine markSectors_eq ?_
    intro i z hi
    rw [Nat.zero_add]
    rcases lt_or_ge i (unusedOf diskMap n).length with hlt | hge
    · rw [List.getElem?_append_left hlt] at hi
      exact h3 i z hi
    · rw [List.getElem?_append_right hge] at hi
      rw [hrest i hge, ← hG _ z hi, Nat.add_sub_cancel' hge]
  rw [List.length_append, hlen] at hmark
  have hlist : ∀ i s, ((unusedOf diskMap n).map sectorNo)[i]? = some s →
      sectorByte (entered e f ((unusedOf diskMap n ++ G).map sectorNo) dir) e (0 + i) = s := by
    intro i s hi
    have hin : i < ((unusedOf diskMap n).map sectorNo).length := (List.getElem?_eq_some_iff.1 hi).1
    have hL : ((unusedOf diskMap n ++ G).map sectorNo).length = n := by
      rw [List.length_map, List.length_append, hlen]
    rw [List.length_map] at hin
    rw [Nat.zero_add, entered, sectorByte_putList (by omega) (by omega),
      if_pos ⟨rfl, by omega, by omega⟩, Nat.sub_zero, List.map_append,
      List.getD_append _ _ _ _ (by rwa [List.length_map]), List.getD_eq_getElem?_getD, hi, Option.getD_some]
  have hdata := writeData_eq (b := b) hlist
  rw [List.length_map] at hdata
  simp only [writeTail, he, if_neg (not_gt_26 h26), hnat, hu, hmark, Prog.ofOption, Prog.ret_bind,
    writeSector_dir, writeSector_map]
  rw [hdata, Prog.writes_bind]
  simp only [Prog.ret_bind, Prog.write_bind]
  split_ifs <;> rfl

/-- The array is good for `writeFile` where it names indices of the map. -/
theorem writeTail_range {sectors : Int16} {unusedSectors : ℕ → Int16} {r : Int16} {d' : Disk}
    (he : writingEntry f dir = some e) (h26 : sectors.toInt ≤ 26) (hn : n = sectors.toInt.toNat)
    (h : (writeTail f b sectors unusedSectors dir diskMap).exec d = some (r, d')) :
    ∀ m, (unusedOf diskMap n).length ≤ m → m < n →
      0 ≤ (unusedSectors m).toInt ∧ (unusedSectors m).toInt < 512 := by
  intro m hkm hmn
  have hnat : sectors.toNatClampNeg = n := hn.symm
  have h1 := (findUnused_spec diskMap n 0 (List.finRange 512) unusedSectors).1
  simp only [Nat.sub_zero, Nat.zero_add] at h1
  rw [← unusedOf] at h1
  have hrest : (findUnused diskMap n (List.finRange 512) 0 unusedSectors).2 m = unusedSectors m :=
    findUnused_rest (by omega)
  rcases hu : findUnused diskMap n (List.finRange 512) 0 unusedSectors with ⟨k, unused⟩
  rw [hu] at hrest
  change unused m = unusedSectors m at hrest
  simp only [writeTail, he, if_neg (not_gt_26 h26), hnat, hu] at h
  rcases hm : markSectors e unused n 0 (setName e f dir) diskMap with _ | x
  · rw [hm, Prog.ofOption, Prog.fail_bind, Prog.exec] at h
    cases h
  · have := markSectors_range hm m hmn
    rwa [Nat.zero_add, hrest] at this

theorem writeTail_some {sectors : Int16} {unusedSectors : ℕ → Int16} (he : writingEntry f dir = some e)
    (h26 : sectors.toInt ≤ 26) (hn : n = sectors.toInt.toNat)
    (hlen : (unusedOf diskMap n).length = n) :
    writeTail f b sectors unusedSectors dir diskMap =
      Prog.writes (dataWrites b 0 ((unusedOf diskMap n).map sectorNo))
        (.write 2 (entered e f ((unusedOf diskMap n).map sectorNo) dir)
          (.write 1 (setAll 0xFF (unusedOf diskMap n) diskMap) (.ret (Int16.ofNat n)))) := by
  have hG : ∀ i g, ([] : List (Fin 512))[i]? = some g →
      unusedSectors ((unusedOf diskMap n).length + i) = Int16.ofNat g.val := by simp
  have h := writeTail_filled (b := b) he h26 hn (by rw [hlen, List.length_nil, Nat.add_zero]) hG
  rw [h, List.append_nil, if_neg (by omega), hlen]

end TeamXtremeOS
