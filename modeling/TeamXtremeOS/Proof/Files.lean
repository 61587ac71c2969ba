/-
  What `writeFile` and `deleteFile` do to the files of a disk, alone and in
  runs.
-/
import TeamXtremeOS.Lib.Run
import TeamXtremeOS.Proof.Entries

namespace TeamXtremeOS

open Lib

variable {dir diskMap : Sector} {d d' : Disk} {e e' : Fin 16} {f h : FileName} {i j k n : ℕ}
  {l : List UInt8} {s : UInt8} {b : Buffer}

/-! ## Contents -/

theorem contents_entry (hd : DirOK (d 2)) (hf : f 0 ≠ 0) (he : entryName (d 2) e = f) :
    contents d f = some ((sectors (d 2) e).map fun s => d s.toNat) := by
  rw [contents, (hd.findFile_iff hf).2 he, Option.map_some]

theorem contents_none (hn : ∀ e, entryName (d 2) e ≠ f) : contents d f = none := by
  rw [contents, findFile_eq, List.find?_eq_none.2 fun e _ => by simpa using hn e, Option.map_none]

theorem contents_eq_none (hd : DirOK (d 2)) (hf : f 0 ≠ 0) :
    contents d f = none ↔ ∀ e, entryName (d 2) e ≠ f := by
  refine ⟨?_, contents_none⟩
  intro hc e he
  rw [contents_entry hd hf he] at hc
  cases hc

/-- A file is not changed by what happens to another entry. -/
theorem contents_other (hname : ∀ e' ≠ e, entryName (d' 2) e' = entryName (d 2) e')
    (hsec : ∀ e' ≠ e, sectors (d' 2) e' = sectors (d 2) e') (hn : entryName (d 2) e ≠ f)
    (hn' : entryName (d' 2) e ≠ f)
    (hdata : ∀ e' ≠ e, entryName (d 2) e' = f → ∀ s ∈ sectors (d 2) e', d' s.toNat = d s.toNat) :
    contents d' f = contents d f := by
  have hfind : findFile f (d' 2) = findFile f (d 2) := by
    rw [findFile_eq, findFile_eq]
    congr 1
    funext e'
    by_cases he : e' = e
    · simp only [he, hn, hn']
    · rw [hname e' he]
  rw [contents, contents, hfind]
  rcases hf : findFile f (d 2) with _ | e'
  · rfl
  · have hef := findFile_name hf
    have he : e' ≠ e := fun he => hn (he ▸ hef)
    simp only [Option.map_some, hsec e' he]
    rw [List.map_congr_left fun s hs => hdata e' he hef s hs]

/-- What happens to another entry is not seen by a read, either. -/
theorem readFile_other (hname : ∀ e' ≠ e, entryName (d' 2) e' = entryName (d 2) e')
    (hsec : ∀ e' ≠ e, sectors (d' 2) e' = sectors (d 2) e') (hn : entryName (d 2) e ≠ f)
    (hn' : entryName (d' 2) e ≠ f)
    (hdata : ∀ e' ≠ e, entryName (d 2) e' = f → ∀ s ∈ sectors (d 2) e', d' s.toNat = d s.toNat)
    (hshort : ∀ e', entryName (d 2) e' = f → (sectors (d 2) e').length ≤ 25) (buf : Buffer) :
    ∃ r, (readFile f buf).exec d = some (r, d) ∧ (readFile f buf).exec d' = some (r, d') := by
  refine ⟨_, readFile_contents (fun e' hf => hshort e' (findFile_name hf)) buf, ?_⟩
  rw [readFile_contents (fun e' hf => ?_) buf, contents_other hname hsec hn hn' hdata]
  have hef := findFile_name hf
  have he : e' ≠ e := fun he => hn' (he ▸ hef)
  rw [hsec e' he]
  exact hshort e' (by rwa [← hname e' he])

/-- The map is no part of a file. -/
theorem contents_congr (hd : DirOK (d 2)) (heq : ∀ k, k ≠ 1 → d' k = d k) (f : FileName) :
    contents d' f = contents d f := by
  rw [contents, contents, heq 2 (by omega)]
  congr 1
  funext e
  refine List.map_congr_left fun s hs => heq _ ?_
  have := hd.three_le hs
  omega

/-! ## Deleting -/

/-- **`deleteFile` removes the file** and changes no other one. -/
theorem erased_contents (hd : DirOK (d 2)) (hf : entryName (d 2) e = f) (hh : h 0 ≠ 0) :
    contents (Function.update d 2 (erased e (d 2))) h = if h = f then none else contents d h := by
  have hsec := (hd.erased e).2
  have h2 : Function.update d 2 (erased e (d 2)) 2 = erased e (d 2) := Function.update_self ..
  have hdead : entryName (erased e (d 2)) e ≠ h := fun hn => by
    rw [entryName_erased, if_pos rfl] at hn
    rw [← hn, Function.update_self] at hh
    exact hh rfl
  split_ifs with hhf
  · refine contents_none ?_
    intro e' hn
    rw [h2] at hn
    by_cases he : e' = e
    · exact hdead (he ▸ hn)
    · have hn' := hn
      rw [entryName_erased, if_neg he] at hn'
      have hl : InUse (d 2) e' := by rw [inUse_iff, hn']; exact hh
      have hl' : InUse (d 2) e := by rw [inUse_iff, hf, ← hhf]; exact hh
      exact he (hd.names e' e hl hl' (by rw [hn', hf, hhf]))
  · refine contents_other (e := e) ?_ ?_ ?_ ?_ ?_
    · intro e' he
      rw [h2, entryName_erased, if_neg he]
    · intro e' he
      rw [h2, hsec, if_neg he]
    · rw [hf]
      exact fun he => hhf he.symm
    · rw [h2]
      exact hdead
    · intro e' he _ s hs
      have := hd.three_le hs
      rw [Function.update_of_ne (by omega)]

/-! ## Writing -/

theorem fst_dataWrites (b : Buffer) (j : ℕ) (l : List UInt8) :
    (dataWrites b j l).map Prod.fst = l.map UInt8.toNat := by
  rw [dataWrites, List.map_map]
  change (l.zipIdx j).map (UInt8.toNat ∘ Prod.fst) = _
  rw [← List.map_map, List.zipIdx_map_fst]

theorem store_dataWrites_of_notMem (hs : s ∉ l) (d : Disk) :
    Prog.store (dataWrites b j l) d s.toNat = d s.toNat := by
  refine Prog.store_of_notMem (fun w hw he => hs ?_) d
  have hm : w.1 ∈ (dataWrites b j l).map Prod.fst := List.mem_map_of_mem hw
  rw [fst_dataWrites, he] at hm
  obtain ⟨s', hs', he'⟩ := List.mem_map.1 hm
  exact UInt8.toNat_inj.1 he' ▸ hs'

theorem store_dataWrites_of_getElem (hnd : l.Nodup) (hi : l[i]? = some s) (d : Disk) :
    Prog.store (dataWrites b 0 l) d s.toNat = chunk b i := by
  have hkeys : ((dataWrites b 0 l).map Prod.fst).Nodup := by
    rw [fst_dataWrites]
    exact hnd.map fun _ _ h => UInt8.toNat_inj.1 h
  refine Prog.store_of_mem hkeys (w := (s.toNat, chunk b i)) ?_ d
  exact List.mem_map.2 ⟨(s, i), by simpa [List.mk_mem_zipIdx_iff_getElem?] using hi, rfl⟩

theorem map_store_dataWrites (hnd : l.Nodup) (d : Disk) :
    (l.map fun s => Prog.store (dataWrites b 0 l) d s.toNat) = (List.range l.length).map (chunk b) := by
  refine List.ext_getElem (by simp) ?_
  intro i hi _
  rw [List.length_map] at hi
  rw [List.getElem_map, List.getElem_map, List.getElem_range,
    store_dataWrites_of_getElem hnd (List.getElem?_eq_getElem hi)]

/-- The disk when `writeFile` has written the data and the directory. -/
def written (e : Fin 16) (f : FileName) (b : Buffer) (n : ℕ) (d : Disk) : Disk :=
  let l := (unusedOf (d 1) n).map sectorNo
  Function.update (Prog.store (dataWrites b 0 l) d) 2 (entered e f l (d 2))

/-- The files after a write of `n` sectors: of the old version, the tail stays. -/
def rewritten (f : FileName) (b : Buffer) (n : ℕ) (files : FileName → Option (List Sector)) :
    FileName → Option (List Sector) := fun h =>
  if h = f then some ((List.range n).map (chunk b) ++ ((files f).getD []).drop n) else files h

theorem EntryFor.contents_getD (he : EntryFor (d 2) f e) (hd : DirOK (d 2)) (hf : f 0 ≠ 0) :
    (contents d f).getD [] = (sectors (d 2) e).map fun s => d s.toNat := by
  rcases he with he | ⟨hl, hn⟩
  · rw [contents_entry hd hf he, Option.getD_some]
  · rw [contents_none hn, hd.lists.free _ hl]
    rfl

/-- The sectors `writeFile` takes are on no list. -/
theorem Consistent.notMem_sectors (hd : Consistent d) (hz : n ≤ freeSectors (d 1))
    (hs : s ∈ (unusedOf (d 1) n).map sectorNo) (e : Fin 16) : s ∉ sectors (d 2) e := fun hs' =>
  hd.map.used e (hd.dir.lists.inUse_of_mem hs') s hs' (hd.map.mem_unusedOf hz hs).1

theorem written_sectors (hd : Consistent d) (hf : f 0 ≠ 0) (he : EntryFor (d 2) f e) (h25 : n ≤ 25)
    (hz : n ≤ freeSectors (d 1)) : DirOK (written e f b n d 2) ∧ ∀ e',
      sectors (written e f b n d 2) e' = if e' = e then
        (unusedOf (d 1) n).map sectorNo ++ (sectors (d 2) e).drop n else sectors (d 2) e' := by
  obtain ⟨hlen, hlt⟩ := unusedOf_below hz
  have hL : ((unusedOf (d 1) n).map sectorNo).length = n := by rw [List.length_map, hlen]
  have h2 := hd.dir.entered hf he (l := (unusedOf (d 1) n).map sectorNo) (by omega)
    (fun s hs => (hd.map.mem_unusedOf hz hs).2) (sectorNo_injOn hlt unusedOf_nodup)
    (fun e' s hs => hd.notMem_sectors hz hs e')
  rw [hL] at h2
  rwa [written, Function.update_self]

/-- **`writeFile` writes the file** and changes no other one. -/
theorem written_contents (hd : Consistent d) (hf : f 0 ≠ 0) (he : EntryFor (d 2) f e) (h25 : n ≤ 25)
    (hz : n ≤ freeSectors (d 1)) (hh : h 0 ≠ 0) :
    contents (written e f b n d) h = rewritten f b n (contents d) h := by
  obtain ⟨hlen, hlt⟩ := unusedOf_below hz
  have hnd := sectorNo_injOn hlt unusedOf_nodup
  have hL : ((unusedOf (d 1) n).map sectorNo).length = n := by rw [List.length_map, hlen]
  obtain ⟨hdir, hsec⟩ := written_sectors (b := b) hd hf he h25 hz
  have h2 : written e f b n d 2 = entered e f ((unusedOf (d 1) n).map sectorNo) (d 2) := by
    rw [written, Function.update_self]
  have hname : ∀ e', entryName (written e f b n d 2) e' = if e' = e then f else entryName (d 2) e' :=
    fun e' => by rw [h2, entryName_entered (by omega)]
  have hdata : ∀ s : UInt8, 3 ≤ s.toNat → written e f b n d s.toNat =
      Prog.store (dataWrites b 0 ((unusedOf (d 1) n).map sectorNo)) d s.toNat := fun s hs => by
    rw [written, Function.update_of_ne (by omega)]
  have hold : ∀ e', ∀ s ∈ sectors (d 2) e', written e f b n d s.toNat = d s.toNat := fun e' s hs => by
    rw [hdata s (hd.dir.three_le hs),
      store_dataWrites_of_notMem fun hs' => hd.notMem_sectors hz hs' e' hs]
  rw [rewritten]
  split_ifs with hhf
  · have hne : entryName (written e f b n d 2) e = h := by rw [hname, if_pos rfl, hhf]
    rw [contents_entry hdir hh hne, hsec, if_pos rfl, List.map_append,
      he.contents_getD hd.dir hf, ← List.map_drop]
    congr 2
    · rw [← hL, ← map_store_dataWrites hnd d, hL]
      exact List.map_congr_left fun s hs => hdata s (hd.map.mem_unusedOf hz hs).2
    · exact List.map_congr_left fun s hs => hold e s (List.mem_of_mem_drop hs)
  · refine contents_other (e := e) ?_ ?_ ?_ ?_ fun e' _ _ s hs => hold e' s hs
    · intro e' hne
      rw [hname, if_neg hne]
    · intro e' hne
      rw [hsec, if_neg hne]
    · rcases he with he | ⟨hl, -⟩
      · rw [he]
        exact fun hfh => hhf hfh.symm
      · intro hn
        rw [inUse_iff, hn] at hl
        exact hl hh
    · rw [hname, if_pos rfl]
      exact fun hfh => hhf hfh.symm

theorem written_map (hd : Consistent d) (hf : f 0 ≠ 0) (he : EntryFor (d 2) f e) (h25 : n ≤ 25)
    (hz : n ≤ freeSectors (d 1)) :
    MapOK (written e f b n d 2) (setAll 0xFF (unusedOf (d 1) n) (d 1)) := by
  refine ⟨?_, ?_⟩
  · intro i hi
    rw [setAll_apply]
    split_ifs
    · decide
    · exact hd.map.reserved i hi
  · intro e' _ s hs
    rw [setAll_apply]
    split_ifs with hm
    · decide
    · have hold : s ∈ sectors (d 2) e' := by
        rw [(written_sectors hd hf he h25 hz).2] at hs
        split_ifs at hs with hee
        · rcases List.mem_append.1 hs with hs | hs
          · obtain ⟨z, hz', rfl⟩ := List.mem_map.1 hs
            rw [mapIndex_sectorNo ((unusedOf_below hz).2 z hz')] at hm
            exact absurd hz' hm
          · rw [hee]
            exact List.mem_of_mem_drop hs
        · exact hs
      exact hd.map.used e' (hd.dir.lists.inUse_of_mem hold) s hold

theorem mapIndex_injective : Function.Injective mapIndex := fun _ _ h =>
  UInt8.toNat_inj.1 (Fin.mk.inj h)

/-- Writing the map. -/
theorem consistent_update (hd : DirOK (d 2)) (hm : MapOK (d 2) diskMap) :
    Consistent (Function.update d 1 diskMap) := by
  have h2 : Function.update d 1 diskMap 2 = d 2 := Function.update_of_ne (by omega) ..
  exact ⟨h2 ▸ hd, by rwa [h2, Function.update_self]⟩

theorem erased_map (hd : Consistent d) (e : Fin 16) :
    MapOK (erased e (d 2)) (setAll 0 ((sectors (d 2) e).map mapIndex) (d 1)) := by
  refine ⟨?_, ?_⟩
  · intro i hi
    rw [setAll_apply, if_neg]
    · exact hd.map.reserved i hi
    · rintro hm
      obtain ⟨s, hs, rfl⟩ := List.mem_map.1 hm
      have := hd.dir.three_le hs
      simp only [mapIndex] at hi
      omega
  · intro e' hl s hs
    rw [(hd.dir.erased e).2] at hs
    split_ifs at hs with hee
    · cases hs
    · rw [setAll_apply, if_neg]
      · exact hd.map.used e' (hd.dir.lists.inUse_of_mem hs) s hs
      · rw [List.mem_map_of_injective mapIndex_injective]
        exact hd.dir.lists.notMem_of_mem hee hs

/-! ## The calls -/

theorem deleteFile_none (hf : findFile f (d 2) = none) : (deleteFile f).exec d = some (-1, d) := by
  rw [deleteFile_eq, Prog.exec, Prog.exec, deleteTail_none hf, Prog.exec]

/-- `deleteFile` on any disk clears what it walks over. -/
theorem deleteFile_walk (hf : findFile f (d 2) = some e) (hl : walk (d 2) e = some l) :
    (deleteFile f).exec d = some (1, Function.update (Function.update d 2
      (putList e 0 (List.replicate l.length 0) (Function.update (d 2) (entryByte e 0) 0))) 1
      (setAll 0 (l.map mapIndex) (d 1))) := by
  rw [deleteFile_eq, Prog.exec, Prog.exec, deleteTail_walk hf hl, Prog.exec, Prog.exec, Prog.exec]

theorem deleteFile_some (hlen : (sectors (d 2) e).length ≤ 25) (hf : findFile f (d 2) = some e) :
    (deleteFile f).exec d = some (1, Function.update (Function.update d 2 (erased e (d 2))) 1
      (setAll 0 ((sectors (d 2) e).map mapIndex) (d 1))) :=
  deleteFile_walk hf (walk_short hlen)

theorem writeFile_none {sectors : Int16} {unusedSectors : ℕ → Int16} (he : writingEntry f (d 2) = none) :
    (writeFile f b sectors unusedSectors).exec d = some (-1, d) := by
  rw [writeFile_eq, Prog.exec, Prog.exec, writeTail_none he, Prog.exec]

/-- `writeFile` when there is an entry and the search finds enough sectors. -/
theorem writeFile_found {sectors : Int16} {unusedSectors : ℕ → Int16}
    (he : writingEntry f (d 2) = some e) (h26 : sectors.toInt ≤ 26) (hn : n = sectors.toInt.toNat)
    (hlen : (unusedOf (d 1) n).length = n) :
    (writeFile f b sectors unusedSectors).exec d = some (Int16.ofNat n,
      Function.update (written e f b n d) 1 (setAll 0xFF (unusedOf (d 1) n) (d 1))) := by
  rw [writeFile_eq, Prog.exec, Prog.exec, writeTail_some he h26 hn hlen,
    Prog.exec_writes, Prog.exec, Prog.exec, Prog.exec, written]

theorem writeFile_some {sectors : Int16} {unusedSectors : ℕ → Int16}
    (he : writingEntry f (d 2) = some e) (h25 : sectors.toInt ≤ 25) (hn : n = sectors.toInt.toNat)
    (hz : n ≤ freeSectors (d 1)) :
    (writeFile f b sectors unusedSectors).exec d = some (Int16.ofNat n,
      Function.update (written e f b n d) 1 (setAll 0xFF (unusedOf (d 1) n) (d 1))) :=
  writeFile_found he (by omega) hn (unusedOf_below hz).1

/-- The calls that change the disk. -/
inductive FileCall where
  | writeFile (fname : FileName) (buffer : Buffer) (sectors : Int16) (unusedSectors : ℕ → Int16)
  | deleteFile (fname : FileName)

namespace FileCall

def fname : FileCall → FileName
  | .writeFile fname .. | .deleteFile fname => fname

def prog : FileCall → DiskProg Int16
  | .writeFile fname buffer sectors unusedSectors =>
    TeamXtremeOS.writeFile fname buffer sectors unusedSectors
  | .deleteFile fname => TeamXtremeOS.deleteFile fname

/-- The disk after a call. -/
def step (d : Disk) (c : FileCall) : Option Disk := (c.prog.exec d).map Prod.snd

theorem step_writeFile (d : Disk) (f : FileName) (b : Buffer) (sectors : Int16)
    (unusedSectors : ℕ → Int16) : step d (.writeFile f b sectors unusedSectors) =
      ((TeamXtremeOS.writeFile f b sectors unusedSectors).exec d).map Prod.snd := rfl

theorem step_deleteFile (d : Disk) (f : FileName) :
    step d (.deleteFile f) = ((TeamXtremeOS.deleteFile f).exec d).map Prod.snd := rfl

/-- A file has a name and at most 25 sectors, and there is room for them. -/
def Permitted (d : Disk) : FileCall → Prop
  | .writeFile fname _ sectors _ =>
    Named fname ∧ sectors.toInt ≤ 25 ∧ sectors.toInt ≤ freeSectors (d 1)
  | .deleteFile _ => True

instance : ∀ (d : Disk) (c : FileCall), Decidable (Permitted d c)
  | _, .writeFile .. => inferInstanceAs (Decidable (_ ∧ _ ∧ _))
  | _, .deleteFile _ => inferInstanceAs (Decidable True)

/-- **A call** on a consistent disk succeeds, keeps it consistent, and keeps the
    files it does not name. -/
theorem step_consistent (hd : Consistent d) {c : FileCall} (hc : Permitted d c) :
    ∃ d', step d c = some d' ∧ Consistent d' ∧
      ∀ h, h 0 ≠ 0 → c.fname ≠ h → contents d' h = contents d h := by
  cases c with
  | writeFile f b sectors unused =>
    obtain ⟨hf, h25, hz⟩ := hc
    rcases he : writingEntry f (d 2) with _ | e
    · exact ⟨d, by rw [step_writeFile, writeFile_none he, Option.map_some], hd, fun _ _ _ => rfl⟩
    · have hfor := writingEntry_for he
      have hz' : sectors.toInt.toNat ≤ freeSectors (d 1) := by omega
      have h25' : sectors.toInt.toNat ≤ 25 := by omega
      have hdir := (written_sectors (b := b) hd hf hfor h25' hz').1
      refine ⟨_, by rw [step_writeFile, writeFile_some he h25 rfl hz', Option.map_some],
        consistent_update hdir (written_map hd hf hfor h25' hz'), ?_⟩
      intro h hh hne
      rw [contents_congr hdir fun k hk => Function.update_of_ne hk .., written_contents hd hf hfor
        h25' hz' hh, rewritten, if_neg fun he => hne he.symm]
  | deleteFile f =>
    rcases hf : findFile f (d 2) with _ | e
    · exact ⟨d, by rw [step_deleteFile, deleteFile_none hf, Option.map_some], hd, fun _ _ _ => rfl⟩
    · have h2 : Function.update d 2 (erased e (d 2)) 2 = erased e (d 2) := Function.update_self ..
      have hdir : DirOK (Function.update d 2 (erased e (d 2)) 2) := h2 ▸ (hd.dir.erased e).1
      refine ⟨_, by rw [step_deleteFile, deleteFile_some (hd.dir.lists.length_le e) hf, Option.map_some],
        consistent_update hdir (h2 ▸ erased_map hd e), ?_⟩
      intro h hh hne
      rw [contents_congr hdir fun k hk => Function.update_of_ne hk ..,
        erased_contents hd.dir (findFile_name hf) hh, if_neg fun he => hne he.symm]

end FileCall

/-- **Every run of calls keeps the disk consistent**, none of them fails, and the
    files they do not name stay what they are. -/
theorem files_run (hd : Consistent d) {cs : List FileCall}
    (hr : Run FileCall.step FileCall.Permitted d cs d') :
    Consistent d' ∧ (∀ c, FileCall.Permitted d' c → (FileCall.step d' c).isSome) ∧
    ∀ h, h 0 ≠ 0 → (∀ c ∈ cs, c.fname ≠ h) → ∀ buf,
      ∃ r, (readFile h buf).exec d = some (r, d) ∧ (readFile h buf).exec d' = some (r, d') := by
  have hrun : Consistent d' ∧ ∀ h, h 0 ≠ 0 → (∀ c ∈ cs, c.fname ≠ h) →
      contents d' h = contents d h := by
    induction hr with
    | nil => exact ⟨hd, fun _ _ _ => rfl⟩
    | cons hc hs _ ih =>
      obtain ⟨d₁, hs₁, hd₁, hkeep⟩ := FileCall.step_consistent hd hc
      rw [hs, Option.some.injEq] at hs₁
      obtain ⟨hd', hrest⟩ := ih (hs₁ ▸ hd₁)
      refine ⟨hd', ?_⟩
      intro h hh hn
      rw [hrest h hh fun c hc => hn c (List.mem_cons_of_mem _ hc), hs₁,
        hkeep h hh (hn _ List.mem_cons_self)]
  obtain ⟨hd', hkeep⟩ := hrun
  refine ⟨hd', ?_, fun h hh hn buf => ⟨_, readFile_exec hd.dir h buf, ?_⟩⟩
  · intro c hc
    obtain ⟨_, hs, -⟩ := FileCall.step_consistent hd' hc
    rw [hs]
    rfl
  · rw [readFile_exec hd'.dir, hkeep h hh hn]

/-- A disk with the file `A` in sectors 3 and 4. -/
def twoSectorDisk : Disk := fun k i =>
  if k = 1 then if i.val < 5 then 0xFF else 0
  else if k = 2 then if i.val = 0 then 0x41 else if i.val = 6 then 3 else if i.val = 7 then 4 else 0
  else 0

def fileA : FileName := letter 0x41
def fileB : FileName := letter 0x42

theorem twoSectorDisk_consistent : Consistent twoSectorDisk := by decide +kernel

/-- A file is written and deleted again; the other one is still there. -/
theorem files_run_two : ∃ d', Consistent d' ∧ ∀ buf, ∃ r,
    (readFile fileA buf).exec twoSectorDisk = some (r, twoSectorDisk) ∧
    (readFile fileA buf).exec d' = some (r, d') := by
  have h : (evalRun FileCall.step FileCall.Permitted twoSectorDisk
      [.writeFile fileB (fun _ => 7) 2 fun _ => 0, .deleteFile fileB]).any (fun _ => true) = true := by
    decide +kernel
  obtain ⟨d', hr, -⟩ := Run.exists_of_evalRun h
  have hrun := files_run twoSectorDisk_consistent hr
  exact ⟨d', hrun.1, hrun.2.2 fileA (by decide) (by decide)⟩

/-! ## What is written and what is read -/

theorem bufOffset_eq (hk : k < 128) : bufOffset k = k * 512 := by
  rw [bufOffset]
  omega

theorem putChunk_apply {data : Sector} {buf : Buffer} {o : ℕ} (hk : k < 128) : putChunk buf k data o =
    if h : k * 512 ≤ o ∧ o < k * 512 + 512 then data ⟨o - k * 512, by omega⟩ else buf o := by
  simp only [putChunk, bufOffset_eq hk]

/-- The bytes of a buffer when sectors have been stored in it. -/
theorem putChunks_apply {cs : List Sector} {buf : Buffer} {o : ℕ} (hk : k + cs.length ≤ 128) :
    putChunks cs k buf o = if o < k * 512 then buf o else
      (cs[o / 512 - k]?).elim (buf o) fun c => c ⟨o % 512, Nat.mod_lt _ (by omega)⟩ := by
  induction cs generalizing k buf with
  | nil => simp [putChunks]
  | cons c cs ih =>
    rw [List.length_cons] at hk
    rw [putChunks, ih (by omega), putChunk_apply (by omega)]
    rcases lt_or_ge o (k * 512) with h1 | h1
    · have h2 : o < (k + 1) * 512 := h1.trans_le (Nat.mul_le_mul_right _ (Nat.le_succ k))
      have hout : ¬ (k * 512 ≤ o ∧ o < k * 512 + 512) := fun h => absurd h.1 (not_le.2 h1)
      rw [if_pos h2, if_pos h1, dif_neg hout]
    · rw [if_neg (not_lt.2 h1)]
      rcases lt_or_ge o ((k + 1) * 512) with h2 | h2
      · have h0 : o / 512 - k = 0 := by omega
        have hin : k * 512 ≤ o ∧ o < k * 512 + 512 := by omega
        rw [if_pos h2, dif_pos hin, h0, List.getElem?_cons_zero, Option.elim_some]
        congr 2
        omega
      · have h0 : o / 512 - k = o / 512 - (k + 1) + 1 := by omega
        have hout : ¬ (k * 512 ≤ o ∧ o < k * 512 + 512) := by omega
        rw [if_neg (not_lt.2 h2), dif_neg hout, h0, List.getElem?_cons_succ]

/-- The bytes a read stores from the sector at place `k` of a list. -/
theorem putChunks_place (buf : Buffer) {o : Fin 512} (hlen : l.length ≤ 128) (hk : l[k]? = some s) :
    putChunks (l.map fun s => d s.toNat) 0 buf (k * 512 + o) = d s.toNat o := by
  have hdiv : (k * 512 + o.val) / 512 = k := by omega
  rw [putChunks_apply (by rw [List.length_map]; omega), if_neg (by omega), hdiv, Nat.sub_zero,
    List.getElem?_map, hk, Option.map_some, Option.elim_some]
  congr 1
  exact Fin.ext (by simp only; omega)

/-- Behind the sectors the buffer is as before. -/
theorem putChunks_of_le {buf : Buffer} {o : ℕ} (hlen : l.length ≤ 128) (ho : l.length * 512 ≤ o) :
    putChunks (l.map fun s => d s.toNat) 0 buf o = buf o := by
  have hi : l.length ≤ o / 512 := by omega
  rw [putChunks_apply (by rwa [List.length_map, Nat.zero_add]), if_neg (by omega), Nat.sub_zero,
    List.getElem?_map, List.getElem?_eq_none hi, Option.map_none, Option.elim_none]

/-- What a read brings back of a write, whatever the old version leaves behind
    it. -/
theorem putChunks_written {cs : List Sector} {buf : Buffer} {o : ℕ} (hlen : n + cs.length ≤ 128) (ho : o < n * 512) :
    putChunks ((List.range n).map (chunk b) ++ cs) 0 buf o = b o := by
  have hi : o / 512 < n := by omega
  have hi' : o / 512 < ((List.range n).map (chunk b)).length := by rwa [List.length_map, List.length_range]
  rw [putChunks_apply (by rw [List.length_append, List.length_map, List.length_range]; omega), if_neg (by omega),
    Nat.sub_zero, List.getElem?_append_left hi', List.getElem?_map, List.getElem?_range hi, Option.map_some,
    Option.elim_some, chunk, bufOffset_eq (by omega)]
  congr 1
  simp only
  omega

theorem putChunks_chunk {buf : Buffer} {o : ℕ} (hn : n ≤ 128) (ho : o < n * 512) :
    putChunks ((List.range n).map (chunk b)) 0 buf o = b o := by
  have h : putChunks ((List.range n).map (chunk b) ++ []) 0 buf o = b o := putChunks_written (by simpa using hn) ho
  rwa [List.append_nil] at h

/-- There is an entry for a file that exists, or for a new one if there is a
    free entry. -/
theorem exists_writingEntry (h : (∃ e, entryName dir e = f) ∨ ∃ e, ¬ InUse dir e) :
    ∃ e, writingEntry f dir = some e := by
  rcases hw : writingEntry f dir with _ | e
  · rw [writingEntry, Option.or_eq_none_iff] at hw
    rcases h with ⟨e, he⟩ | ⟨e, he⟩
    · exact absurd he (findFile_none hw.1 e)
    · have := List.find?_eq_none.1 hw.2 e (List.mem_finRange e)
      exact absurd he (by simpa [InUse] using this)
  · exact ⟨e, rfl⟩

/-- A file that is not there gets a free entry. -/
theorem exists_unusedEntry (hnew : findFile f dir = none) (hroom : ∃ e, ¬ InUse dir e) :
    ∃ e, writingEntry f dir = some e ∧ ¬ InUse dir e := by
  obtain ⟨e, he⟩ := exists_writingEntry (.inr hroom)
  refine ⟨e, he, ?_⟩
  rw [writingEntry, hnew, Option.none_or] at he
  exact freeEntry_free he

/-- The sectors a write takes are data sectors. -/
theorem three_le_unusedOf (hres : ∀ i : Fin 512, i.val < 3 → d 1 i ≠ 0) (hz : n ≤ freeSectors (d 1))
    (hs : s ∈ (unusedOf (d 1) n).map sectorNo) : 3 ≤ s.toNat := by
  obtain ⟨z, hz', rfl⟩ := List.mem_map.1 hs
  rw [sectorNo_toNat, Nat.mod_eq_of_lt ((unusedOf_below hz).2 z hz')]
  exact not_lt.1 fun h3 => hres z h3 (unusedOf_free hz')

/-- The new list ends where the byte behind it is zero. -/
theorem sectors_written_self (hres : ∀ i : Fin 512, i.val < 3 → d 1 i ≠ 0) (h25 : n ≤ 25)
    (hz : n ≤ freeSectors (d 1)) (hend : sectorByte (d 2) e n = 0) :
    sectors (entered e f ((unusedOf (d 1) n).map sectorNo) (d 2)) e = (unusedOf (d 1) n).map sectorNo := by
  have hlen : ((unusedOf (d 1) n).map sectorNo).length = n := by rw [List.length_map, (unusedOf_below hz).1]
  rw [sectors_entered_self (by omega) ?_ fun _ _ => by rw [hlen]; exact hend, hlen,
    List.drop_of_length_le (length_sectors_of_zero hend), List.append_nil]
  rintro s hs rfl
  exact absurd (three_le_unusedOf hres hz hs) (by decide)

theorem written_dir (diskMap : Sector) : Function.update (written e f b n d) 1 diskMap 2 =
    entered e f ((unusedOf (d 1) n).map sectorNo) (d 2) := by
  rw [Function.update_of_ne (by omega), written, Function.update_self]

/-- **A write is read back** if the byte behind the new list is zero. -/
theorem written_read (hres : ∀ i : Fin 512, i.val < 3 → d 1 i ≠ 0) (he : writingEntry f (d 2) = some e)
    (h25 : n ≤ 25) (hz : n ≤ freeSectors (d 1)) (hend : sectorByte (d 2) e n = 0) (diskMap : Sector) (buf : Buffer) :
    (readFile f buf).exec (Function.update (written e f b n d) 1 diskMap) =
      some ((Int16.ofNat n, putChunks ((List.range n).map (chunk b)) 0 buf),
        Function.update (written e f b n d) 1 diskMap) := by
  obtain ⟨hlen, hlt⟩ := unusedOf_below hz
  have hL : ((unusedOf (d 1) n).map sectorNo).length = n := by rw [List.length_map, hlen]
  have hfind : findFile f (Function.update (written e f b n d) 1 diskMap 2) = some e := by
    rw [written_dir]
    exact findFile_writing he (by omega)
  have hsec : sectors (Function.update (written e f b n d) 1 diskMap 2) e = (unusedOf (d 1) n).map sectorNo := by
    rw [written_dir]
    exact sectors_written_self hres h25 hz hend
  have hdata : ((unusedOf (d 1) n).map sectorNo).map (fun s => Function.update (written e f b n d) 1 diskMap s.toNat) =
      (List.range n).map (chunk b) := by
    rw [← hL, ← map_store_dataWrites (sectorNo_injOn hlt unusedOf_nodup) d, hL]
    refine List.map_congr_left ?_
    intro s hs
    have h3 := three_le_unusedOf hres hz hs
    rw [Function.update_of_ne (by omega), written, Function.update_of_ne (by omega)]
  rw [readFile_walk hfind, walk_short (by rw [hsec]; omega), hsec, Option.map_some, hdata, hL]

/-- As many sectors are read back as have been written only if that byte is
    zero. -/
theorem written_end {buf : Buffer} {r : Buffer × Disk} (he : writingEntry f (d 2) = some e) (h25 : n ≤ 25)
    (hz : n ≤ freeSectors (d 1)) {diskMap : Sector}
    (hr : (readFile f buf).exec (Function.update (written e f b n d) 1 diskMap) = some ((Int16.ofNat n, r.1), r.2)) :
    sectorByte (d 2) e n = 0 := by
  have hL : ((unusedOf (d 1) n).map sectorNo).length = n := by rw [List.length_map, (unusedOf_below hz).1]
  have hfind : findFile f (Function.update (written e f b n d) 1 diskMap 2) = some e := by
    rw [written_dir]
    exact findFile_writing he (by omega)
  rw [readFile_walk hfind, Option.map_eq_some_iff] at hr
  obtain ⟨l, hl, hr⟩ := hr
  rw [Prod.mk.injEq, Prod.mk.injEq] at hr
  have hlast := length_walk hl
  have hcount := congrArg Int16.toInt hr.1.1
  rw [Int16.toInt_ofNat_of_lt (by omega), Int16.toInt_ofNat_of_lt (by omega)] at hcount
  rw [written_dir] at hl
  -- a walk of `n` steps has not left the entry
  have hsec := length_sectors_le (entered e f ((unusedOf (d 1) n).map sectorNo) (d 2)) e
  have hshort : (sectors (entered e f ((unusedOf (d 1) n).map sectorNo) (d 2)) e).length ≤ 25 := by
    by_contra h26
    rw [walk_long (by omega)] at hl
    obtain ⟨u, -, rfl⟩ := Option.map_eq_some_iff.1 hl
    rw [List.length_append] at hcount
    omega
  rw [walk_short hshort, Option.some.injEq] at hl
  have hlt : (sectors (entered e f ((unusedOf (d 1) n).map sectorNo) (d 2)) e).length < 26 := by omega
  have hzero := sectorByte_length hlt
  rwa [hl, show l.length = n by omega, sectorByte_entered (by omega) (by omega), if_neg (by omega)] at hzero

/-- **What is written is what is read** when the file is new, or when its old
    version has at most as many sectors as the new one and no other byte comes
    into the list; and only then. -/
theorem write_read (hd : Sound d) (hres : ∀ i : Fin 512, i.val < 3 → d 1 i ≠ 0) {n : Int16}
    (h1 : 1 ≤ n.toInt) (h25 : n.toInt ≤ 25) (hz : n.toInt ≤ freeSectors (d 1))
    (hroom : (∃ e, entryName (d 2) e = f) ∨ ∃ e, ¬ InUse (d 2) e) (unusedSectors : ℕ → Int16) :
    (∃ d', (writeFile f b n unusedSectors).exec d = some (n, d') ∧ ∀ buf, ∃ buf',
      (readFile f buf).exec d' = some ((n, buf'), d') ∧ ∀ o < n.toInt.toNat * 512, buf' o = b o) ↔
    ∀ e, findFile f (d 2) = some e → (sectors (d 2) e).length ≤ n.toInt ∧
      ((sectors (d 2) e).length < n.toInt → sectorByte (d 2) e n.toInt.toNat = 0) := by
  obtain ⟨e, he⟩ := exists_writingEntry hroom
  obtain ⟨m, hm⟩ : ∃ m : ℕ, n.toInt = m := ⟨n.toInt.toNat, by omega⟩
  have hn : Int16.ofNat m = n := by
    rw [← Int16.toInt_inj, Int16.toInt_ofNat_of_lt (by omega), hm]
  have hexec : (writeFile f b n unusedSectors).exec d = _ := writeFile_some (n := m) he h25 (by omega) (by omega)
  rw [hn] at hexec
  have hm25 : m ≤ 25 := by omega
  have hmz : m ≤ freeSectors (d 1) := by omega
  -- the entry is the one that is found, or a free one
  have hentry : findFile f (d 2) = some e ∨ findFile f (d 2) = none ∧ ¬ InUse (d 2) e := by
    have hor := he
    rw [writingEntry, Option.or_eq_some_iff] at hor
    exact hor.imp_right fun h => ⟨h.1, freeEntry_free h.2⟩
  simp only [hm, Int.toNat_natCast, Nat.cast_le, Nat.cast_lt]
  constructor
  · rintro ⟨d', hw, hr⟩ e' he'
    rw [hexec, Option.some.injEq, Prod.mk.injEq] at hw
    obtain ⟨buf', hbuf, -⟩ := hr fun _ => 0
    rw [← hw.2, ← hn] at hbuf
    have hzero : sectorByte (d 2) e m = 0 := written_end (r := (buf', _)) he hm25 hmz hbuf
    rcases hentry with hf' | ⟨hf', -⟩
    · obtain rfl : e' = e := Option.some.inj (he'.symm.trans hf')
      exact ⟨length_sectors_of_zero hzero, fun _ => hzero⟩
    · rw [hf'] at he'
      cases he'
  · intro hold
    have hzero : sectorByte (d 2) e m = 0 := by
      rcases hentry with hf' | ⟨-, hfree⟩
      · obtain ⟨hle, hlt⟩ := hold e hf'
        rcases hle.lt_or_eq with hlt' | heq
        · exact hlt hlt'
        · rw [← heq]
          exact sectorByte_length (by omega)
      · exact hd.free e hfree m (by omega)
    refine ⟨_, hexec, ?_⟩
    intro buf
    refine ⟨putChunks ((List.range m).map (chunk b)) 0 buf, ?_, fun o ho => putChunks_chunk (by omega) ho⟩
    rw [written_read hres he hm25 hmz hzero, hn]

/-- A new file is read back. -/
theorem write_read_new : ∃ d', (writeFile fileB (fun _ => 7) 1 fun _ => 0).exec twoSectorDisk =
    some (1, d') ∧ ∀ buf, ∃ buf', (readFile fileB buf).exec d' = some ((1, buf'), d') ∧
      ∀ o < (1 : Int16).toInt.toNat * 512, buf' o = 7 :=
  (write_read twoSectorDisk_consistent.sound (by decide +kernel) (by decide) (by decide) (by decide +kernel)
    (by decide +kernel) _).2 (by decide +kernel)

/-- A file of two sectors is overwritten with one sector, and two are read. -/
theorem write_read_old : Consistent twoSectorDisk ∧ 1 ≤ freeSectors (twoSectorDisk 1) ∧
    (∃ e, entryName (twoSectorDisk 2) e = fileA) ∧
    ¬ ∃ d', (writeFile fileA (fun _ => 7) 1 fun _ => 0).exec twoSectorDisk = some (1, d') ∧
      ∀ buf, ∃ buf', (readFile fileA buf).exec d' = some ((1, buf'), d') ∧
        ∀ o < 512, buf' o = 7 := by
  refine ⟨twoSectorDisk_consistent, by decide +kernel, by decide +kernel, ?_⟩
  rintro ⟨d', hw, hr⟩
  obtain ⟨buf', hb, -⟩ := hr fun _ => 0
  have h : ((writeFile fileA (fun _ => 7) 1 fun _ => 0).exec twoSectorDisk).any
      (fun r => ((readFile fileA fun _ => 0).exec r.2).any fun r => r.1.1 = 2) = true := by
    decide +kernel
  rw [hw, Option.any_some, hb, Option.any_some] at h
  simp at h

end TeamXtremeOS
