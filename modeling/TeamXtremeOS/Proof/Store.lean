/-
  What the file system is for: files with names, in 16 places, and room for some
  more sectors.  Every run of `writeFile` and `deleteFile` is one of this store,
  with the values the calls return.
-/
import TeamXtremeOS.Lib.Table
import TeamXtremeOS.Proof.Files

namespace TeamXtremeOS

open Lib

variable {dir diskMap : Sector} {d d' : Disk} {e : Fin 16} {f h : FileName} {n : ℕ} {l : List UInt8}
  {Z : List (Fin 512)} {b : Buffer} {c : FileCall} {cs : List FileCall}

/-! ## The store -/

/-- The files, by name, and the number of sectors that are left. -/
structure Store where
  files : Table FileName (List Sector) 16
  room : ℕ

namespace Store

/-- A new version of a file keeps what the old one has beyond it. -/
def write (st : Store) (f : FileName) (b : Buffer) (n : ℕ) : Int16 × Store :=
  match st.files.put f ((List.range n).map (chunk b) ++ ((st.files.get f).getD []).drop n) with
  | none => (-1, st)
  | some files => (Int16.ofNat n, ⟨files, st.room - n⟩)

def delete (st : Store) (f : FileName) : Int16 × Store :=
  match st.files.get f with
  | none => (-1, st)
  | some cs => (1, ⟨st.files.erase f, st.room + cs.length⟩)

/-- The value of a call, and the store afterwards. -/
def call (st : Store) : FileCall → Int16 × Store
  | .writeFile f b sectors _ => st.write f b sectors.toInt.toNat
  | .deleteFile f => st.delete f

def read (st : Store) (f : FileName) (buf : Buffer) : Int16 × Buffer :=
  match st.files.get f with
  | none => (-1, buf)
  | some cs => (Int16.ofNat cs.length, putChunks cs 0 buf)

end Store

/-- The file in an entry of the directory. -/
def fileAt (d : Disk) (e : Fin 16) : Option (FileName × List Sector) :=
  if InUse (d 2) e then some (entryName (d 2) e, (sectors (d 2) e).map fun s => d s.toNat) else none

/-- The disk carries the store. -/
structure Carries (d : Disk) (st : Store) : Prop extends Consistent d where
  slot : ∀ e, st.files.slot e = fileAt d e
  room : st.room = freeSectors (d 1)

/-- The store a consistent disk carries. -/
def storeOf (d : Disk) (hd : Consistent d) : Store where
  files :=
    { slot := fileAt d
      distinct := by
        intro e e' x y hx hy he
        unfold fileAt at hx hy
        split_ifs at hx hy with hl hl'
        cases hx
        cases hy
        exact hd.dir.names e e' hl hl' he }
  room := freeSectors (d 1)

theorem storeOf_carries (hd : Consistent d) : Carries d (storeOf d hd) :=
  ⟨hd, fun _ => by simp only [storeOf], by simp only [storeOf]⟩

/-! ## Names -/

namespace Carries
variable {st : Store}

theorem get_eq (hs : Carries d st) (hf : Named f) : st.files.get f = contents d f := by
  ext cs
  rw [Table.get_eq_some]
  constructor
  · rintro ⟨e, he⟩
    rw [hs.slot, fileAt] at he
    split_ifs at he
    cases he
    exact contents_entry hs.dir hf rfl
  · intro hc
    rw [contents, Option.map_eq_some_iff] at hc
    obtain ⟨e, he, rfl⟩ := hc
    have hn := findFile_name he
    exact ⟨e, by rw [hs.slot, fileAt, if_pos (by rw [inUse_iff, hn]; exact hf), hn]⟩

theorem find_eq (hs : Carries d st) (hf : Named f) : st.files.find f = findFile f (d 2) := by
  ext e
  rw [Table.find_eq_some, hs.dir.findFile_iff hf, hs.slot, fileAt]
  constructor
  · rintro ⟨cs, he⟩
    split_ifs at he
    cases he
    rfl
  · intro hn
    exact ⟨_, by rw [if_pos (by rw [inUse_iff, hn]; exact hf), hn]⟩

theorem vacant_eq (hs : Carries d st) : st.files.vacant = freeEntry (d 2) := by
  rw [Table.vacant, freeEntry]
  congr 1
  funext e
  rw [hs.slot, fileAt]
  split_ifs with he
  · exact (decide_eq_false he).symm
  · exact (decide_eq_true (not_not.1 he)).symm

/-- The entry that `writeFile` uses is the place of the file. -/
theorem place_eq (hs : Carries d st) (hf : Named f) : st.files.place f = writingEntry f (d 2) := by
  rw [Table.place, hs.find_eq hf, hs.vacant_eq, writingEntry]

theorem read_eq (hs : Carries d st) (hf : Named f) (buf : Buffer) :
    (readFile f buf).exec d = some (st.read f buf, d) := by
  rw [readFile_exec hs.dir, Store.read, hs.get_eq hf]
  rcases contents d f with _ | cs <;> rfl

end Carries

/-! ## Room -/

theorem freeSectors_eq_card (diskMap : Sector) :
    freeSectors diskMap = (Finset.univ.filter fun j : Fin 512 => j.val < 256 ∧ diskMap j = 0).card := by
  rw [freeSectors, List.countP_eq_length_filter,
    ← List.toFinset_card_of_nodup ((List.nodup_finRange 512).filter _), List.toFinset_filter,
    List.toFinset_finRange]
  refine congrArg Finset.card (Finset.filter_congr ?_)
  intro j _
  exact decide_eq_true_iff

/-- Marking free sectors takes them away. -/
theorem freeSectors_marked (hZ : Z.Nodup) (hfree : ∀ z ∈ Z, z.val < 256 ∧ diskMap z = 0) :
    freeSectors (setAll 0xFF Z diskMap) = freeSectors diskMap - Z.length := by
  rw [freeSectors_eq_card, freeSectors_eq_card, ← List.toFinset_card_of_nodup hZ,
    ← Finset.card_sdiff_of_subset]
  · refine congrArg Finset.card ?_
    ext j
    simp only [Finset.mem_filter, Finset.mem_univ, true_and, Finset.mem_sdiff, List.mem_toFinset, setAll_apply]
    by_cases hj : j ∈ Z <;> simp [hj]
  · intro z hz
    rw [List.mem_toFinset] at hz
    simpa using hfree z hz

/-- Clearing marked sectors gives them back. -/
theorem freeSectors_cleared (hZ : Z.Nodup) (hused : ∀ z ∈ Z, z.val < 256 ∧ diskMap z ≠ 0) :
    freeSectors (setAll 0 Z diskMap) = freeSectors diskMap + Z.length := by
  rw [freeSectors_eq_card, freeSectors_eq_card, ← List.toFinset_card_of_nodup hZ, ← Finset.card_union_of_disjoint]
  · refine congrArg Finset.card ?_
    ext j
    simp only [Finset.mem_filter, Finset.mem_univ, true_and, Finset.mem_union, List.mem_toFinset, setAll_apply]
    by_cases hj : j ∈ Z
    · simp [hj, (hused j hj).1]
    · simp [hj]
  · rw [Finset.disjoint_right]
    intro z hz hz'
    rw [List.mem_toFinset] at hz
    exact (hused z hz).2 (by simpa using (Finset.mem_filter.1 hz').2.2)

/-! ## Calls -/

/-- The file in an entry, by its name. -/
theorem fileAt_eq (hd : DirOK (d 2)) : fileAt d e =
    if InUse (d 2) e then some (entryName (d 2) e, (contents d (entryName (d 2) e)).getD []) else none := by
  rw [fileAt]
  split_ifs with he
  · rw [contents_entry hd (inUse_iff.1 he) rfl, Option.getD_some]
  · rfl

/-- The values of the new disk, where a write has put them. -/
theorem Carries.write {st : Store} (hs : Carries d st) (hf : Named f) (he : writingEntry f (d 2) = some e)
    (h25 : n ≤ 25) (hz : n ≤ freeSectors (d 1)) :
    (st.write f b n).1 = Int16.ofNat n ∧
    Carries (Function.update (written e f b n d) 1 (setAll 0xFF (unusedOf (d 1) n) (d 1))) (st.write f b n).2 := by
  obtain ⟨hlen, hlt⟩ := unusedOf_below hz
  have hfor := writingEntry_for he
  obtain ⟨hdir, -⟩ := written_sectors (b := b) hs.toConsistent hf hfor h25 hz
  have hcons := consistent_update hdir (written_map (b := b) hs.toConsistent hf hfor h25 hz)
  have hL : ((unusedOf (d 1) n).map sectorNo).length ≤ 26 := by rw [List.length_map, hlen]; omega
  generalize hd' : Function.update (written e f b n d) 1 (setAll 0xFF (unusedOf (d 1) n) (d 1)) = d' at hcons ⊢
  have h2 : d' 2 = entered e f ((unusedOf (d 1) n).map sectorNo) (d 2) := by
    rw [← hd', Function.update_of_ne (by omega), written, Function.update_self]
  have hlive : ∀ e', InUse (d' 2) e' ↔ e' = e ∨ InUse (d 2) e' := fun e' => by rw [h2, inUse_entered hf hL]
  have hname : ∀ e', entryName (d' 2) e' = if e' = e then f else entryName (d 2) e' := fun e' => by
    rw [h2, entryName_entered hL]
  have hcont : ∀ h, h 0 ≠ 0 → contents d' h = rewritten f b n (contents d) h := by
    intro h hh
    rw [← hd', contents_congr hdir fun k hk => Function.update_of_ne hk ..,
      written_contents hs.toConsistent hf hfor h25 hz hh]
  have hplace := (hs.place_eq hf).trans he
  -- the table of the store takes the file in the same place
  rcases hput : st.files.put f ((List.range n).map (chunk b) ++ ((st.files.get f).getD []).drop n) with _ | t
  · rw [Table.put_eq_none] at hput
    rw [Table.place, Table.find_eq_none.2 (Table.get_eq_none.1 hput.1), Table.vacant_eq_none.2 hput.2] at hplace
    cases hplace
  · rw [Store.write, hput]
    refine ⟨rfl, hcons, ?_, ?_⟩
    · intro e'
      obtain ⟨i, hi, hslot⟩ := Table.put_eq_some.1 hput
      rw [hplace, Option.some.injEq] at hi
      subst hi
      change t.slot e' = _
      rw [hslot, fileAt_eq hcons.dir, hname]
      simp only [hlive]
      by_cases hee : e' = e
      · rw [if_pos hee, if_pos (.inl hee), if_pos hee, hcont f hf, rewritten, if_pos rfl, Option.getD_some,
          hs.get_eq hf]
      · rw [if_neg hee, if_neg hee, hs.slot, fileAt_eq hs.dir]
        by_cases hl : InUse (d 2) e'
        · have hne : entryName (d 2) e' ≠ f := by
            intro hn
            rcases hfor with hn' | ⟨-, hnone⟩
            · exact hee (hs.dir.names e' e hl (by rw [inUse_iff, hn']; exact hf) (hn.trans hn'.symm))
            · exact hnone e' hn
          rw [if_pos hl, if_pos (.inr hl), hcont _ (inUse_iff.1 hl), rewritten, if_neg hne]
        · rw [if_neg hl, if_neg (not_or.2 ⟨hee, hl⟩)]
    · change st.room - n = freeSectors (d' 1)
      rw [← hd', Function.update_self,
        freeSectors_marked unusedOf_nodup fun z hz' => ⟨hlt z hz', unusedOf_free hz'⟩, hs.room, hlen]

theorem Carries.delete {st : Store} (hs : Carries d st) (hf : Named f) (he : findFile f (d 2) = some e) :
    (st.delete f).1 = 1 ∧ Carries (Function.update (Function.update d 2 (erased e (d 2))) 1
      (setAll 0 ((sectors (d 2) e).map mapIndex) (d 1))) (st.delete f).2 := by
  have hn := findFile_name he
  have hdir : DirOK (Function.update d 2 (erased e (d 2)) 2) := by
    rw [Function.update_self]
    exact (hs.dir.erased e).1
  have hmap := erased_map hs.toConsistent e
  rw [← Function.update_self 2 (erased e (d 2)) d] at hmap
  have hcons := consistent_update hdir hmap
  generalize hd' : Function.update (Function.update d 2 (erased e (d 2))) 1
    (setAll 0 ((sectors (d 2) e).map mapIndex) (d 1)) = d' at hcons ⊢
  have h2 : d' 2 = erased e (d 2) := by rw [← hd', Function.update_of_ne (by omega), Function.update_self]
  have hcont : ∀ h, h 0 ≠ 0 → contents d' h = if h = f then none else contents d h := by
    intro h hh
    rw [← hd', contents_congr hdir fun k hk => Function.update_of_ne hk .., erased_contents hs.dir hn hh]
  have hget := (hs.get_eq hf).trans (contents_entry hs.dir hf hn)
  rw [Store.delete, hget]
  refine ⟨rfl, hcons, ?_, ?_⟩
  · intro e'
    change (st.files.erase f).slot e' = _
    ext x
    rw [Table.erase_slot_eq_some, hs.slot, fileAt_eq hs.dir, fileAt_eq hcons.dir]
    by_cases hee : e' = e
    · have hdead : ¬ InUse (d' 2) e' := by
        rw [h2, inUse_erased]
        exact fun h => h.1 hee
      rw [if_neg hdead, hee]
      constructor
      · rintro ⟨hx, hne⟩
        split_ifs at hx
        cases hx
        exact absurd hn hne
      · intro hx
        cases hx
    · have hlive : InUse (d' 2) e' ↔ InUse (d 2) e' := by rw [h2, inUse_erased, and_iff_right hee]
      have hname : entryName (d' 2) e' = entryName (d 2) e' := by rw [h2, entryName_erased, if_neg hee]
      rw [hname]
      by_cases hl : InUse (d 2) e'
      · have hne : entryName (d 2) e' ≠ f := fun h =>
          hee (hs.dir.names e' e hl (by rw [inUse_iff, hn]; exact hf) (h.trans hn.symm))
        rw [if_pos hl, if_pos (hlive.2 hl), hcont _ (inUse_iff.1 hl), if_neg hne]
        refine and_iff_left_of_imp ?_
        intro hx
        cases hx
        exact hne
      · rw [if_neg hl, if_neg fun h => hl (hlive.1 h)]
        exact and_iff_left_of_imp fun hx => nomatch hx
  · change st.room + _ = freeSectors (d' 1)
    have hnd : ((sectors (d 2) e).map mapIndex).Nodup := (hs.dir.list_nodup e).map mapIndex_injective
    have hused : ∀ z ∈ (sectors (d 2) e).map mapIndex, z.val < 256 ∧ d 1 z ≠ 0 := by
      intro z hz
      obtain ⟨s, hs', rfl⟩ := List.mem_map.1 hz
      exact ⟨s.toNat_lt, hs.map.used e (hs.dir.lists.inUse_of_mem hs') s hs'⟩
    rw [← hd', Function.update_self, freeSectors_cleared hnd hused, hs.room, List.length_map, List.length_map]

/-! ## Runs -/

/-- A permitted call for a file that has a name. -/
def FileCall.Proper (d : Disk) (c : FileCall) : Prop := c.Permitted d ∧ Named c.fname

instance (d : Disk) (c : FileCall) : Decidable (c.Proper d) := inferInstanceAs (Decidable (_ ∧ _))

/-- **A call is one of the store**, with the value it returns. -/
theorem Carries.call {st : Store} (hs : Carries d st) (hc : c.Proper d) :
    ∃ d', c.prog.exec d = some ((st.call c).1, d') ∧ Carries d' (st.call c).2 := by
  obtain ⟨hc, hn⟩ := hc
  cases c with
  | writeFile f b sectors unused =>
    obtain ⟨hf, h25, hz⟩ := hc
    rcases he : writingEntry f (d 2) with _ | e
    · have hp := (hs.place_eq hf).trans he
      rw [Table.place, Option.or_eq_none_iff, Table.find_eq_none, ← Table.get_eq_none, Table.vacant_eq_none] at hp
      have hw : st.write f b sectors.toInt.toNat = (-1, st) := by
        rw [Store.write, Table.put_eq_none.2 hp]
      refine ⟨d, ?_, ?_⟩
      · rw [FileCall.prog, writeFile_none he, Store.call, hw]
      · rw [Store.call, hw]
        exact hs
    · obtain ⟨hv, hs'⟩ := hs.write (b := b) (n := sectors.toInt.toNat) hf he (by omega) (by omega)
      refine ⟨_, ?_, hs'⟩
      rw [FileCall.prog, writeFile_some he h25 rfl (by omega), Store.call, hv]
  | deleteFile f =>
    have hn : Named f := hn
    rcases he : findFile f (d 2) with _ | e
    · have hg : st.files.get f = none := by
        rw [hs.get_eq hn, contents]
        exact Option.map_eq_none_iff.2 he
      have hw : st.delete f = (-1, st) := by rw [Store.delete, hg]
      refine ⟨d, ?_, ?_⟩
      · rw [FileCall.prog, deleteFile_none he, Store.call, hw]
      · rw [Store.call, hw]
        exact hs
    · obtain ⟨hv, hs'⟩ := hs.delete hn he
      refine ⟨_, ?_, hs'⟩
      rw [FileCall.prog, deleteFile_some (hs.dir.lists.length_le e) he, Store.call, hv]

/-- The store after some calls. -/
def Store.calls (st : Store) (cs : List FileCall) : Store := cs.foldl (fun st c => (st.call c).2) st

theorem Carries.calls {st : Store} (hs : Carries d st) (hr : Run FileCall.step FileCall.Proper d cs d') :
    Carries d' (st.calls cs) := by
  have hstep : ∀ d (st : Store) c d', Carries d st → FileCall.Proper d c → FileCall.step d c = some d' →
      Carries d' (st.call c).2 := by
    intro d st c d' hs hc hstep
    obtain ⟨d'', he, hs'⟩ := hs.call hc
    rw [FileCall.step, he, Option.map_some, Option.some.injEq] at hstep
    exact hstep ▸ hs'
  have h := @Run.simulate _ _ _ _ FileCall.step _ d d' cs Carries (fun st c => (st.call c).2) (fun _ c => c) hstep hr _ hs
  rwa [hr.labels_id] at h

/-- **The file system is the store.**  After every run of calls, the next one
    returns what it does on the store, and so does every read. -/
theorem store_run (hd : Consistent d) (hr : Run FileCall.step FileCall.Proper d cs d') :
    Carries d' ((storeOf d hd).calls cs) ∧
    (∀ c, FileCall.Proper d' c → (c.prog.exec d').map Prod.fst = some (((storeOf d hd).calls cs).call c).1) ∧
    ∀ f buf, Named f → (readFile f buf).exec d' = some (((storeOf d hd).calls cs).read f buf, d') := by
  have hs := (storeOf_carries hd).calls hr
  refine ⟨hs, ?_, fun f buf hf => hs.read_eq hf buf⟩
  intro c hc
  obtain ⟨d'', he, -⟩ := hs.call hc
  rw [he, Option.map_some]

/-- A file is written, written again and deleted. -/
theorem store_run_two : ∃ d', Carries d' ((storeOf twoSectorDisk twoSectorDisk_consistent).calls
    [.writeFile fileB (fun _ => 7) 2 fun _ => 0, .writeFile fileB (fun _ => 9) 1 fun _ => 0, .deleteFile fileA]) := by
  have h : (evalRun FileCall.step FileCall.Proper twoSectorDisk
      [.writeFile fileB (fun _ => 7) 2 fun _ => 0, .writeFile fileB (fun _ => 9) 1 fun _ => 0,
        .deleteFile fileA]).any (fun _ => true) = true := by decide +kernel
  obtain ⟨d', hr, -⟩ := Run.exists_of_evalRun h
  exact ⟨d', (store_run twoSectorDisk_consistent hr).1⟩

/-! ## Space -/

/-- The number of sectors in files. -/
def Store.stored (st : Store) : ℕ := st.files.total List.length

/-- The sectors a call loses: those of the old version that the new one takes
    out of the list. -/
def Store.loses (st : Store) : FileCall → ℕ
  | .writeFile f _ sectors _ => min sectors.toInt.toNat (st.files.sizeOf List.length f)
  | .deleteFile _ => 0

/-- The sectors that calls lose, one after the other. -/
def Store.lost (st : Store) : List FileCall → ℕ
  | [] => 0
  | c :: cs => st.loses c + (st.call c).2.lost cs

/-- **Nothing but overwriting loses a sector.** -/
theorem Store.space {st : Store} (hroom : ∀ f b sectors u, c = .writeFile f b sectors u → sectors.toInt.toNat ≤ st.room) :
    (st.call c).2.room + (st.call c).2.stored + st.loses c = st.room + st.stored := by
  cases c with
  | writeFile f b sectors u =>
    have hn := hroom f b sectors u rfl
    have hold : ((st.files.get f).getD []).length = st.files.sizeOf List.length f := by
      rw [Table.sizeOf]
      rcases st.files.get f with _ | cs <;> rfl
    rcases hput : st.files.put f ((List.range sectors.toInt.toNat).map (chunk b) ++
        ((st.files.get f).getD []).drop sectors.toInt.toNat) with _ | t
    · have hw : st.call (.writeFile f b sectors u) = (-1, st) := by rw [call, write, hput]
      rw [hw, loses, Table.sizeOf, (Table.put_eq_none.1 hput).1, Option.elim_none, Nat.min_zero, Nat.add_zero]
    · have hw : st.call (.writeFile f b sectors u) =
          (Int16.ofNat sectors.toInt.toNat, ⟨t, st.room - sectors.toInt.toNat⟩) := by rw [call, write, hput]
      have ht := Table.total_put (w := List.length) hput
      simp only [List.length_append, List.length_map, List.length_range, List.length_drop, hold] at ht
      rw [hw, loses, stored, stored]
      dsimp only
      omega
  | deleteFile f =>
    rcases hget : st.files.get f with _ | cs
    · have hw : st.call (.deleteFile f) = (-1, st) := by rw [call, delete, hget]
      rw [hw, loses, Nat.add_zero]
    · have hw : st.call (.deleteFile f) = (1, ⟨st.files.erase f, st.room + cs.length⟩) := by rw [call, delete, hget]
      have ht := Table.total_erase (w := List.length) (t := st.files) (f := f)
      rw [Table.sizeOf, hget, Option.elim_some] at ht
      rw [hw, loses, stored, stored]
      dsimp only
      omega

theorem Carries.stored_eq {st : Store} (hs : Carries d st) : ∑ e, (sectors (d 2) e).length = st.stored := by
  rw [Store.stored, Table.total]
  refine Finset.sum_congr rfl ?_
  intro e _
  rw [Table.sizeAt, hs.slot, fileAt]
  split_ifs with he
  · rw [Option.elim_some, List.length_map]
  · rw [hs.dir.lists.free _ he, List.length_nil, Option.elim_none]

theorem Carries.room_le {st : Store} (hs : Carries d st) (hc : c.Proper d) {f : FileName} {b : Buffer} {sectors : Int16}
    {u : ℕ → Int16} (he : c = .writeFile f b sectors u) : sectors.toInt.toNat ≤ st.room := by
  subst he
  obtain ⟨⟨-, -, hz⟩, -⟩ := hc
  rw [hs.room]
  omega

/-- **The space on a disk**, in every run: free sectors, sectors in files, and
    exactly those that have been lost when files were overwritten. -/
theorem space_run {st : Store} (hs : Carries d st) (hr : Run FileCall.step FileCall.Proper d cs d') :
    freeSectors (d' 1) + (∑ e, (sectors (d' 2) e).length) + st.lost cs =
      freeSectors (d 1) + ∑ e, (sectors (d 2) e).length := by
  induction hr generalizing st with
  | nil => rw [Store.lost, Nat.add_zero]
  | @cons d c d₁ cs d' hc hstep hr ih =>
    obtain ⟨d₂, he, hs'⟩ := hs.call hc
    rw [FileCall.step, he, Option.map_some, Option.some.injEq] at hstep
    subst hstep
    have hspace : (st.call c).2.room + (st.call c).2.stored + st.loses c = st.room + st.stored :=
      Store.space fun f b sectors u he => hs.room_le hc he
    have hrest := ih hs'
    rw [← hs'.room, hs'.stored_eq] at hrest
    rw [Store.lost, hs.stored_eq, ← hs.room]
    omega

/-- One sector is lost when the file is written again. -/
theorem space_run_two : ∃ d' : Disk, freeSectors (d' 1) + (∑ e, (sectors (d' 2) e).length) +
    (storeOf twoSectorDisk twoSectorDisk_consistent).lost
      [.writeFile fileB (fun _ => 7) 2 fun _ => 0, .writeFile fileB (fun _ => 9) 1 fun _ => 0] =
    freeSectors (twoSectorDisk 1) + ∑ e, (sectors (twoSectorDisk 2) e).length := by
  have h : (evalRun FileCall.step FileCall.Proper twoSectorDisk
      [.writeFile fileB (fun _ => 7) 2 fun _ => 0, .writeFile fileB (fun _ => 9) 1 fun _ => 0]).any
      (fun _ => true) = true := by decide +kernel
  obtain ⟨d', hr, -⟩ := Run.exists_of_evalRun h
  exact ⟨d', space_run (storeOf_carries twoSectorDisk_consistent) hr⟩

end TeamXtremeOS
