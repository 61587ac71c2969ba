/-
  The floppy image: what `loadFile` leaves on the host is what `writeFile` would
  have left, and an image that has been built with it boots.
-/
import TeamXtremeOS.Proof.LoadFile
import TeamXtremeOS.Proof.Switch

namespace TeamXtremeOS

open Lib

variable {diskMap : Sector} {d d' fl : Disk} {e : Fin 16} {f : FileName} {n j : ℕ} {cs : List UInt8} {argv buf : Buffer}
  {Z : List (Fin 512)} {z : Fin 512} {x : UInt8} {u : ℕ → Int16}

/-! ## The host program and the kernel -/

/-- The two searches find the same sectors. -/
theorem unusedOf_eq_lowZeros (hn : n ≤ freeSectors diskMap) : unusedOf diskMap n = (lowZeros diskMap).take n := by
  have hw := filter_eq_takeWhile ((List.pairwise_lt_finRange 512).filter fun j => diskMap j = 0) 256
  have hlow : lowZeros diskMap = ((List.finRange 512).filter fun j => diskMap j = 0).takeWhile fun j => j.val < 256 := by
    rw [← hw, List.filter_filter, lowZeros]
    simp only [Bool.decide_and]
  obtain ⟨t, ht⟩ : lowZeros diskMap <+: (List.finRange 512).filter fun j => diskMap j = 0 :=
    hlow ▸ List.takeWhile_prefix _
  rw [unusedOf, ← ht, List.take_append_of_le_length (by rwa [length_lowZeros])]

/-- A buffer with the data of some sectors. -/
def bufferOf (Z : List (Fin 512)) (fl : Disk) : Buffer := fun o =>
  (Z[o / 512]?).elim 0 fun z => fl z.val ⟨o % 512, Nat.mod_lt _ (by omega)⟩

theorem chunk_bufferOf (hj : j < 128) (hz : Z[j]? = some z) : chunk (bufferOf Z fl) j = fl z.val := by
  funext i
  have hdiv : (j * 512 + i.val) / 512 = j := by omega
  have hmod : (⟨(j * 512 + i.val) % 512, Nat.mod_lt _ (by omega)⟩ : Fin 512) = i := Fin.ext (by simp only; omega)
  rw [chunk, bufOffset_eq hj, bufferOf, hdiv, hz, Option.elim_some, hmod]

theorem bufferOf_eq {o : ℕ} (hdata : ∀ (j : ℕ) (z : Fin 512), Z[j]? = some z → ∀ (o : Fin 512) (x : UInt8),
    cs[j * 512 + o.val]? = some x → fl z.val o = x) (hlen : Z.length = cs.length / 512 + 1) (hx : cs[o]? = some x) :
    bufferOf Z fl o = x := by
  have ho := (List.getElem?_eq_some_iff.1 hx).1
  obtain ⟨z, hz⟩ : ∃ z, Z[o / 512]? = some z := ⟨_, List.getElem?_eq_getElem (by omega)⟩
  rw [bufferOf, hz, Option.elim_some]
  refine hdata _ _ hz _ x ?_
  rw [← hx]
  simp only
  congr 1
  omega

/-- The image is the disk that a write leaves. -/
theorem imageWith_eq (hres : ∀ i : Fin 512, i.val < 3 → d 1 i ≠ 0) (hn : n ≤ freeSectors (d 1)) (h26 : n ≤ 26)
    (hkeep : ∀ a, (∀ z ∈ (lowZeros (d 1)).take n, z.val ≠ a) → fl a = d a) :
    imageWith e f ((lowZeros (d 1)).take n) fl d =
      Function.update (written e f (bufferOf ((lowZeros (d 1)).take n) fl) n d) 1
        (setAll 0xFF (unusedOf (d 1) n) (d 1)) := by
  obtain ⟨hlen, hlt⟩ := unusedOf_below hn
  have hnd : (unusedOf (d 1) n).Nodup := unusedOf_nodup
  rw [written, imageWith]
  have hfree : ∀ z ∈ unusedOf (d 1) n, 3 ≤ z.val := fun z hz => not_lt.1 fun h => hres z h (unusedOf_free hz)
  rw [← unusedOf_eq_lowZeros hn] at hkeep ⊢
  generalize unusedOf (d 1) n = Z at hlen hlt hnd hfree hkeep ⊢
  have hnd' := sectorNo_injOn hlt hnd
  ext a : 1
  by_cases h1 : a = 1
  · rw [h1, Function.update_of_ne (by omega), Function.update_self, Function.update_self]
  · rw [Function.update_of_ne h1 _ (Function.update _ _ _)]
    by_cases h2 : a = 2
    · rw [h2, Function.update_self, Function.update_self]
    · rw [Function.update_of_ne h2, Function.update_of_ne h1, Function.update_of_ne h2]
      by_cases hz : ∃ z ∈ Z, z.val = a
      · obtain ⟨z, hz, rfl⟩ := hz
        obtain ⟨j, hj⟩ := List.mem_iff_getElem?.1 hz
        have hj' := (List.getElem?_eq_some_iff.1 hj).1
        have hstore := store_dataWrites_of_getElem (b := bufferOf Z fl) hnd' (i := j) (s := sectorNo z)
          (by rw [List.getElem?_map, hj, Option.map_some]) d
        rw [sectorNo_toNat, Nat.mod_eq_of_lt (hlt z hz)] at hstore
        rw [hstore, chunk_bufferOf (by omega) hj]
      · have hne : ∀ z ∈ Z, z.val ≠ a := fun z hz' he => hz ⟨z, hz', he⟩
        rw [hkeep a hne, Prog.store_of_notMem]
        intro w hw he
        have hm : w.1 ∈ (dataWrites (bufferOf Z fl) 0 (Z.map sectorNo)).map Prod.fst := List.mem_map_of_mem hw
        rw [fst_dataWrites, List.map_map, he] at hm
        obtain ⟨z, hz', hza⟩ := List.mem_map.1 hm
        rw [Function.comp_apply, sectorNo_toNat, Nat.mod_eq_of_lt (hlt z hz')] at hza
        exact hne z hz' hza

/-- What a load has written, as the data of a buffer. -/
theorem loadFile_written (hres : ∀ i : Fin 512, i.val < 3 → d 1 i ≠ 0) (hnew : findFile (padName argv) (d 2) = none)
    (he : freeEntry (d 2) = some e) (hn : cs.length / 512 + 1 ≤ 25) (hroom : cs.length / 512 + 1 ≤ freeSectors (d 1)) :
    ∃ fl, loadFile argv cs d = (none, imageWith e (padName argv) ((lowZeros (d 1)).take (cs.length / 512 + 1)) fl d) ∧
    (∀ (o : ℕ) (x : UInt8), cs[o]? = some x →
      bufferOf ((lowZeros (d 1)).take (cs.length / 512 + 1)) fl o = x) ∧
    ∀ u, (writeFile (padName argv) (bufferOf ((lowZeros (d 1)).take (cs.length / 512 + 1)) fl)
      (Int16.ofNat (cs.length / 512 + 1)) u).exec d = some (Int16.ofNat (cs.length / 512 + 1),
        imageWith e (padName argv) ((lowZeros (d 1)).take (cs.length / 512 + 1)) fl d) := by
  obtain ⟨fl, hl, hdata, hkeep⟩ := loadFile_spec argv he hn hroom
  have hlen : ((lowZeros (d 1)).take (cs.length / 512 + 1)).length = cs.length / 512 + 1 := by
    rw [List.length_take, length_lowZeros]
    omega
  have hint : (Int16.ofNat (cs.length / 512 + 1)).toInt = (cs.length / 512 + 1 : ℕ) :=
    Int16.toInt_ofNat_of_lt (by omega)
  refine ⟨fl, hl, fun o x hx => bufferOf_eq hdata hlen hx, ?_⟩
  intro u
  rw [imageWith_eq hres hroom (by omega) hkeep]
  exact writeFile_some (by rw [writingEntry, hnew, Option.none_or, he]) (by omega) (by omega) hroom

/-- **A load is a write.**  On the same disk, `loadFile` leaves what `writeFile`
    leaves when it is given a buffer that starts with the file. -/
theorem load_writes (hres : ∀ i : Fin 512, i.val < 3 → d 1 i ≠ 0) (hnew : findFile (padName argv) (d 2) = none)
    (he : freeEntry (d 2) = some e) (hn : cs.length / 512 + 1 ≤ 25) (hroom : cs.length / 512 + 1 ≤ freeSectors (d 1)) :
    ∃ b d', (∀ (o : ℕ) (x : UInt8), cs[o]? = some x → b o = x) ∧ loadFile argv cs d = (none, d') ∧
      ∀ u, (writeFile (padName argv) b (Int16.ofNat (cs.length / 512 + 1)) u).exec d =
        some (Int16.ofNat (cs.length / 512 + 1), d') := by
  obtain ⟨fl, hl, hb, hw⟩ := loadFile_written hres hnew he hn hroom
  exact ⟨_, _, hb, hl, hw⟩

/-- Three bytes, on a disk with another file. -/
theorem load_writes_three : ∃ b d', (∀ (o : ℕ) (x : UInt8), [7, 8, 9][o]? = some x → b o = x) ∧
    loadFile wordB [7, 8, 9] twoSectorDisk = (none, d') ∧
    ∀ u, (writeFile (padName wordB) b 1 u).exec twoSectorDisk = some (1, d') :=
  load_writes (e := 1) (by decide +kernel) (by decide +kernel) (by decide +kernel) (by decide) (by decide +kernel)

/-! ## Loads one after the other -/

/-- The loop needs a free sector for every one it fills. -/
theorem loadSectors_room {room k : ℕ} {l : Load} (h : (loadSectors e room k ⟨cs, false⟩ l).1 = none) :
    cs.length / 512 + 1 ≤ (lowZeros l.map).length := by
  induction room generalizing k cs l with
  | zero => cases h
  | succ room ih =>
    rcases hz : lowZeros l.map with _ | ⟨z, t⟩
    · have hnone : freeSector l.map = none := by rw [freeSector_eq, hz, List.head?_nil]
      rw [loadSectors.eq_def] at h
      simp only [Bool.false_eq_true, if_false, hnone] at h
      cases h
    · rw [loadSectors_turn hz] at h
      rw [List.length_cons]
      split_ifs at h with hlen
      · have hrest := ih h
        rw [show lowZeros (turned e k cs z l).map = t from lowZeros_mark hz, List.length_drop] at hrest
        omega
      · omega

theorem loadFile_room (h : (loadFile argv cs d).1 = none) :
    (∃ e, freeEntry (d 2) = some e) ∧ cs.length / 512 + 1 ≤ freeSectors (d 1) := by
  rcases he : freeEntry (d 2) with _ | e
  · simp only [loadFile, he] at h
    cases h
  · refine ⟨⟨e, rfl⟩, ?_⟩
    rw [← length_lowZeros]
    refine @loadSectors_room e cs 26 0 ⟨d 1, setName e (padName argv) (d 2), d⟩ ?_
    simp only [loadFile, he, copyName_setName] at h
    rcases hl : loadSectors e 26 0 ⟨cs, false⟩ ⟨d 1, setName e (padName argv) (d 2), d⟩ with ⟨_ | text, l⟩
    · rfl
    · rw [hl] at h
      cases h

/-- A word on the command line of `loadFile`, and the file it names. -/
structure HostFile where
  argv : Buffer
  contents : List UInt8

namespace HostFile

/-- The image after `loadFile`, whatever it says. -/
def step (d : Disk) (c : HostFile) : Option Disk := some (loadFile c.argv c.contents d).2

/-- The file is short enough, and its name is not in the image yet. -/
def Fits (d : Disk) (c : HostFile) : Prop :=
  c.argv 0 ≠ 0 ∧ findFile (padName c.argv) (d 2) = none ∧ c.contents.length / 512 + 1 ≤ 25

instance (d : Disk) (c : HostFile) : Decidable (c.Fits d) := inferInstanceAs (Decidable (_ ∧ _ ∧ _))

/-- The files that have been copied without a message. -/
def loaded : Disk → List HostFile → List HostFile
  | _, [] => []
  | d, c :: cs =>
    (if (loadFile c.argv c.contents d).1.isNone then [c] else []) ++ loaded (loadFile c.argv c.contents d).2 cs

/-- The kernel reads the file, with the sector its end is in. -/
def Stored (d : Disk) (c : HostFile) : Prop :=
  ∀ buf, ∃ buf', (readFile (padName c.argv) buf).exec d =
    some ((Int16.ofNat (c.contents.length / 512 + 1), buf'), d) ∧
    ∀ (o : ℕ) (x : UInt8), c.contents[o]? = some x → buf' o = x

variable {c : HostFile} {es : List HostFile}

theorem Fits.named (h : c.Fits d) : Named (padName c.argv) := by
  have h0 : padName c.argv 0 = c.argv 0 := by
    rw [padName, if_pos]
    · rfl
    · intro i hi
      obtain rfl : i = 0 := by simpa using hi
      exact h.1
  rw [Named, h0]
  exact h.1

/-- A load that stops: the files are where they have been. -/
theorem stopped (hd : Consistent d) {message : String} (h : loadFile c.argv c.contents d = (some message, d')) :
    Consistent d' ∧ ∀ f, Named f → TeamXtremeOS.contents d' f = TeamXtremeOS.contents d f := by
  have h1 : d' 1 = d 1 := loadFile_message h (i := 1) (hd.map.reserved 1 (by decide))
  have h2 : d' 2 = d 2 := loadFile_message h (i := 2) (hd.map.reserved 2 (by decide))
  refine ⟨⟨h2 ▸ hd.dir, h1 ▸ h2 ▸ hd.map⟩, ?_⟩
  intro f hf
  rw [TeamXtremeOS.contents, TeamXtremeOS.contents, h2]
  rcases hfind : findFile f (d 2) with _ | e
  · rfl
  · rw [Option.map_some, Option.map_some]
    refine congrArg some (List.map_congr_left fun s hs => ?_)
    have hlive : InUse (d 2) e := by rw [inUse_iff, findFile_name hfind]; exact hf
    exact loadFile_message h (i := mapIndex s) (hd.map.used e hlive s hs)

/-- **One load** keeps the image consistent and the files in it. -/
theorem load_step (hd : Consistent d) (hc : c.Fits d) : Consistent (loadFile c.argv c.contents d).2 ∧
    ((loadFile c.argv c.contents d).1 = none → Stored (loadFile c.argv c.contents d).2 c) ∧
    ∀ f, Named f → TeamXtremeOS.contents d f ≠ none →
      TeamXtremeOS.contents (loadFile c.argv c.contents d).2 f = TeamXtremeOS.contents d f := by
  rcases hl : loadFile c.argv c.contents d with ⟨_ | message, d'⟩
  · obtain ⟨⟨e, he⟩, hroom⟩ := loadFile_room (congrArg Prod.fst hl)
    obtain ⟨fl, hl', hb, hw⟩ := loadFile_written hd.map.reserved hc.2.1 he hc.2.2 hroom
    rw [hl, Prod.mk.injEq] at hl'
    rw [← hl'.2] at hw
    generalize bufferOf _ fl = b at hb hw
    have hlen := hc.2.2
    have hint : (Int16.ofNat (c.contents.length / 512 + 1)).toInt = (c.contents.length / 512 + 1 : ℕ) :=
      Int16.toInt_ofNat_of_lt (by omega)
    have hplace : writingEntry (padName c.argv) (d 2) = some e := by rw [writingEntry, hc.2.1, Option.none_or, he]
    obtain ⟨d₁, hs, hd₁, hkeep⟩ := FileCall.step_consistent hd
      (c := .writeFile (padName c.argv) b (Int16.ofNat (c.contents.length / 512 + 1)) fun _ => 0)
      ⟨hc.named, by omega, by omega⟩
    rw [FileCall.step_writeFile, hw, Option.map_some, Option.some.injEq] at hs
    subst hs
    refine ⟨hd₁, ?_, ?_⟩
    · intro _ buf
      have hw₂ : (writeFile (padName c.argv) b (Int16.ofNat (c.contents.length / 512 + 1)) fun _ => 0).exec d = _ :=
        writeFile_some (n := c.contents.length / 512 + 1) hplace (by omega) (by omega) hroom
      rw [hw, Option.some.injEq, Prod.mk.injEq] at hw₂
      rw [hw₂.2]
      have hend := hd.dir.free e (freeEntry_free he) (c.contents.length / 512 + 1) (by omega)
      refine ⟨_, written_read hd.map.reserved hplace hlen hroom hend _ buf, ?_⟩
      intro o x hx
      have ho := (List.getElem?_eq_some_iff.1 hx).1
      rw [putChunks_chunk (by omega) (by omega), hb o x hx]
    · intro f hf hne
      refine hkeep f hf ?_
      rintro rfl
      exact hne (by rw [TeamXtremeOS.contents, FileCall.fname, hc.2.1]; rfl)
  · obtain ⟨hd', hkeep⟩ := stopped hd hl
    refine ⟨hd', ?_, fun f hf _ => hkeep f hf⟩
    intro h
    cases h

theorem Stored.congr (hs : Stored d c) (hd : Consistent d) (hd' : Consistent d')
    (hsame : TeamXtremeOS.contents d' (padName c.argv) = TeamXtremeOS.contents d (padName c.argv)) : Stored d' c := by
  intro buf
  obtain ⟨buf', hr, hx⟩ := hs buf
  refine ⟨buf', ?_, hx⟩
  rw [readFile_exec hd.dir, Option.some.injEq, Prod.mk.injEq] at hr
  rw [readFile_exec hd'.dir, hsame, hr.1]

theorem Stored.contents_ne (hs : Stored d c) (hd : Consistent d) (h25 : c.contents.length / 512 + 1 ≤ 25) :
    TeamXtremeOS.contents d (padName c.argv) ≠ none := by
  intro hnone
  obtain ⟨buf', hr, -⟩ := hs fun _ => 0
  rw [readFile_exec hd.dir, hnone, Option.some.injEq, Prod.mk.injEq, Prod.mk.injEq] at hr
  exact ofNat_ne_neg_one (by omega) hr.1.1.symm

/-- **An image that is built by loads**, in any order, some of which may stop: it
    is consistent, the kernel reads every file that has been copied, and the
    files that have been there before are what they have been. -/
theorem image_run (hd : Consistent d) (h : Run step (fun d c => c.Fits d) d es d') : Consistent d' ∧
    (∀ c ∈ loaded d es, Stored d' c) ∧
    ∀ f, Named f → TeamXtremeOS.contents d f ≠ none → TeamXtremeOS.contents d' f = TeamXtremeOS.contents d f := by
  induction h with
  | nil => exact ⟨hd, fun c hc => (by cases hc), fun f _ _ => rfl⟩
  | @cons d c d₁ es d' hc hs _ ih =>
    cases hs
    obtain ⟨hd₁, hstored, hkeep⟩ := load_step hd hc
    obtain ⟨hd', hfiles, hrest⟩ := ih hd₁
    refine ⟨hd', ?_, ?_⟩
    · intro c' hc'
      rw [loaded, List.mem_append] at hc'
      rcases hc' with hc' | hc'
      · split_ifs at hc' with hnone
        · obtain rfl : c' = c := by simpa using hc'
          have hst := hstored (Option.isNone_iff_eq_none.1 hnone)
          exact hst.congr hd₁ hd' (hrest _ hc.named (hst.contents_ne hd₁ hc.2.2))
        · cases hc'
      · exact hfiles c' hc'
    · intro f hf hne
      have h₁ := hkeep f hf hne
      rw [hrest f hf (h₁ ▸ hne), h₁]

/-- A program for the name `shell`. -/
def shell : HostFile := ⟨fun j => [0x73, 0x68, 0x65, 0x6C, 0x6C].getD j 0, [0xEB, 0xFE]⟩

theorem shell_fits : shell.Fits twoSectorDisk := by decide +kernel

/-- The image with the program. -/
def builtDisk : Disk := (loadFile shell.argv shell.contents twoSectorDisk).2

/-- Two loads, the second of which is of a file that is empty. -/
theorem image_run_two : ∃ d', Consistent d' ∧ shell.Stored d' := by
  have h : (evalRun step (fun d c => c.Fits d) twoSectorDisk [shell, ⟨wordB, []⟩]).any (fun _ => true) = true := by
    decide +kernel
  obtain ⟨d', hr, -⟩ := Run.exists_of_evalRun h
  obtain ⟨hd', hfiles, -⟩ := image_run twoSectorDisk_consistent hr
  refine ⟨d', hd', hfiles shell ?_⟩
  rw [loaded, if_pos (by decide +kernel)]
  exact List.mem_append_left _ List.mem_cons_self

end HostFile

/-! ## What has been loaded runs -/

section Running
variable {m m₁ m' : Computer} {ev : Happening} {evs evs' : List Happening} {k k' : Kernel} {i p : Fin 8} {y : PCBRef}
  {c : HostFile} {v : PCBRef → View} {reg reg₁ : Regs} {bytes : UInt16 → UInt8}

/-- What `executeProgram` has put into a segment is the file that has been
    loaded. -/
theorem started_bytes {mem : UInt16 → UInt8} (hs : c.Stored k.disk) (h25 : c.contents.length / 512 + 1 ≤ 25)
    (he : executeProgram (padName c.argv) k = some (1, k')) (hp : freePCB k.toProc = some p)
    (hmem : ∀ off : UInt16, off.toNat < 0xff00 → mem off = k'.mem (k'.pcb (.pcbPool p)).segment off)
    {o : ℕ} (hx : c.contents[o]? = some x) : mem (UInt16.ofNat o) = x := by
  obtain ⟨i, q, found, buf, d, hst, hread, -, -, hput⟩ := executeProgram_started he
  obtain rfl : q = p := Option.some.inj (hst.free.symm.trans hp)
  have hseg : (k'.pcb (.pcbPool q)).segment = segmentOf (Int16.ofNat i.val) := (hst.segment _).trans (if_pos rfl)
  obtain ⟨buf', hread', hbuf⟩ := hs fun _ => 0
  rw [hread, Option.some.injEq, Prod.mk.injEq, Prod.mk.injEq] at hread'
  obtain ⟨⟨rfl, rfl⟩, -⟩ := hread'
  have ho := (List.getElem?_eq_some_iff.1 hx).1
  have hoff : (UInt16.ofNat o).toNat = o := by
    rw [UInt16.toNat_ofNat']
    omega
  have hlow : ¬ (0xff00 : UInt16) ≤ UInt16.ofNat o := by
    rw [UInt16.le_iff_toNat_le, hoff]
    simp
    omega
  have hsize : (Int16.ofNat (c.contents.length / 512 + 1) * 512).toNatClampNeg = (c.contents.length / 512 + 1) * 512 := by
    have hmul : Int16.ofNat (c.contents.length / 512 + 1) * 512 = Int16.ofNat ((c.contents.length / 512 + 1) * 512) := by
      rw [Int16.ofNat_mul]
      rfl
    rw [hmul, Int16.toNatClampNeg, Int16.toInt_ofNat_of_lt (by omega)]
    rfl
  rw [hmem _ (by omega), hput, hseg, initializeProgram, if_neg fun h => hlow h.2.1, putProgram, hoff, hsize,
    if_pos ⟨rfl, by omega⟩]
  exact hbuf o x hx

theorem Computer.views_append (h : Run Computer.step Computer.MayHappen m evs m') (evs' : List Happening)
    (v : PCBRef → View) : m.views (evs ++ evs') v = m'.views evs' (m.views evs v) := by
  rw [Computer.views, h.labels_append, List.foldl_append]
  rfl

/-- A process has not had its turn yet. -/
def Unborn (p : Fin 8) (m : Computer) (ev : Happening) : Prop :=
  m.MayHappen ev ∧ Live m.proc p ∧ m.proc.running ≠ .pcbPool p

instance (p : Fin 8) (m : Computer) (ev : Happening) : Decidable (Unborn p m ev) :=
  inferInstanceAs (Decidable (_ ∧ _ ∧ _))

/-- Nobody but a process itself changes what it sees. -/
theorem noted_unborn (h : Unborn p m ev) : m.noted ev v (.pcbPool p) = v (.pcbPool p) := by
  obtain ⟨-, hlive, hne⟩ := h
  cases ev with
  | compute reg bytes => exact Function.update_of_ne (Ne.symm hne) ..
  | fileCall c => rfl
  | timer reg bytes => rfl
  | sleep seconds reg bytes => rfl
  | call c =>
    cases c with
    | executeProgram name =>
      rcases hb : born name m.machine.kernel with _ | ⟨y, w⟩
      · simp only [Computer.noted, hb]
      · have hy : y ≠ .pcbPool p := by
          rintro rfl
          rw [born] at hb
          split at hb
          · next r k' q he hq =>
            simp only at hb
            split_ifs at hb
            cases hb
            exact hlive (freePCB_defunct hq)
          · cases hb
        simp only [Computer.noted, hb, Function.update_of_ne (Ne.symm hy)]
    | terminate => rfl
    | kill segment => rfl
    | yield => rfl
    | sleep seconds sp => rfl
    | timer sp => rfl

theorem views_unborn (h : Run Computer.step (Unborn p) m evs m') : m.views evs v (.pcbPool p) = v (.pcbPool p) := by
  induction h generalizing v with
  | nil => rfl
  | @cons m ev m₁ evs m' hok hs _ ih =>
    have hcons : m.views (ev :: evs) v = m₁.views evs (m.noted ev v) := by
      simp only [Computer.views, labels, hs, List.foldl_cons]
    rw [hcons, ih, noted_unborn hok]

/-- The first turn of a process: it finds the registers of a new program, and what
    `executeProgram` has put into its segment. -/
theorem first_turn {name : FileName} (h : Run Computer.step Computer.MayHappen (.init k reg) evs m)
    (hok : m.MayHappen (.call (.executeProgram name))) (he : executeProgram name m.machine.kernel = some (1, k'))
    (hp : freePCB m.proc = some p) (hm : m.step (.call (.executeProgram name)) = some m₁)
    (h' : Run Computer.step (Unborn p) m₁ evs' m') (hrun : m'.proc.running = .pcbPool p) :
    m'.reg = initial (k'.pcb (.pcbPool p)).segment ∧ ∀ off : UInt16, off.toNat < 0xff00 →
      m'.machine.kernel.mem (k'.pcb (.pcbPool p)).segment off = k'.mem (k'.pcb (.pcbPool p)).segment off := by
  obtain ⟨i, q, -, -, -, hst, -⟩ := executeProgram_started he
  obtain rfl : q = p := Option.some.inj (hst.free.symm.trans hp)
  have hseg : (k'.pcb (.pcbPool q)).segment = segmentOf (Int16.ofNat i.val) := (hst.segment _).trans (if_pos rfl)
  have hview := (Virtual.run (h.append (.cons hok hm (h'.mono fun _ _ hx => hx.1)))).seen
  rw [hrun, Computer.views_append h] at hview
  have hcons : ∀ v, m.views (.call (.executeProgram name) :: evs') v =
      m₁.views evs' (m.noted (.call (.executeProgram name)) v) := by
    intro v
    simp only [Computer.views, labels, hm, List.foldl_cons]
  rw [hcons, views_unborn h', Computer.noted, hst.born he, ← hseg] at hview
  simp only [Function.update_self] at hview
  obtain ⟨hreg, hmem⟩ := hview
  refine ⟨hreg, ?_⟩
  intro off hoff
  have hdepth : 24 ≤ Halves.depth (initial (k'.pcb (.pcbPool q)).segment .sp).toUInt16 off := by
    change 24 ≤ Halves.depth 0xff18 off
    simp only [Halves.depth, UInt16.toNat_sub]
    simp
    omega
  have hss : m'.reg .ss = (k'.pcb (.pcbPool q)).segment := by rw [show m'.reg = _ from hreg]; rfl
  have hb := hmem off hdepth
  rw [Computer.view] at hb
  simpa only [hss] using hb

/-- **What has been loaded is what runs.**  A program that `loadFile` has copied
    into the image is started in some run; whatever happens until it has its
    first turn, it then has the registers of a new program, and the bytes of
    its file from offset 0 on. -/
theorem loaded_runs (h : Run Computer.step Computer.MayHappen (.init k reg) evs m) (hs : c.Stored m.machine.kernel.disk)
    (h25 : c.contents.length / 512 + 1 ≤ 25) (hok : m.MayHappen (.call (.executeProgram (padName c.argv))))
    (h1 : Succeeds (padName c.argv) m.machine.kernel) (hp : freePCB m.proc = some p)
    (hm : m.step (.call (.executeProgram (padName c.argv))) = some m₁) (h' : Run Computer.step (Unborn p) m₁ evs' m')
    (hrun : m'.proc.running = .pcbPool p) : m'.reg = initial (m₁.proc.pcb (.pcbPool p)).segment ∧
    ∀ (o : ℕ) (x : UInt8), c.contents[o]? = some x →
      m'.machine.kernel.mem (m₁.proc.pcb (.pcbPool p)).segment (UInt16.ofNat o) = x := by
  obtain ⟨⟨r, k'⟩, he, hr⟩ := Option.map_eq_some_iff.1 h1
  obtain rfl : r = 1 := hr
  obtain ⟨hreg, hmem⟩ := first_turn h hok he hp hm h' hrun
  have hm₁ : m₁.proc = k'.toProc := by
    simp only [Computer.step, Machine.step, he, Option.map_some, Option.some.injEq] at hm
    rw [← hm]
    rfl
  rw [hm₁]
  exact ⟨hreg, fun o x hx => started_bytes hs h25 he hp hmem hx⟩

theorem shell_stored : HostFile.shell.Stored HostFile.builtDisk :=
  (HostFile.load_step twoSectorDisk_consistent HostFile.shell_fits).2.1 (by decide +kernel)

/-- A kernel with the image. -/
def builtKernel : Kernel := { oneFileKernel with disk := HostFile.builtDisk }

/-- The program is started, and the timer comes. -/
theorem loaded_runs_shell : ∃ m₁ m' : Computer, m'.reg = initial (m₁.proc.pcb (.pcbPool 0)).segment ∧
    ∀ (o : ℕ) (x : UInt8), [0xEB, 0xFE][o]? = some x →
      m'.machine.kernel.mem (m₁.proc.pcb (.pcbPool 0)).segment (UInt16.ofNat o) = x := by
  have h : ((Computer.init builtKernel (initial 0)).step (.call (.executeProgram (padName HostFile.shell.argv)))).any
      (fun m₁ => (evalRun Computer.step (Unborn 0) m₁ [.timer (initial 0) fun _ => 0]).any
        fun m' => decide (m'.proc.running = .pcbPool 0)) = true := by decide +kernel
  rcases hm : (Computer.init builtKernel (initial 0)).step (.call (.executeProgram (padName HostFile.shell.argv))) with
    _ | m₁
  · rw [hm] at h
    cases h
  · rw [hm, Option.any_some] at h
    obtain ⟨m', hr, hrun⟩ := Run.exists_of_evalRun h
    have hs : HostFile.shell.Stored (Computer.init builtKernel (initial 0)).machine.kernel.disk := shell_stored
    exact ⟨m₁, m', loaded_runs .nil hs (by decide +kernel) (by decide +kernel) (by decide +kernel)
      (by decide +kernel) hm hr (of_decide_eq_true hrun)⟩

/-! ## Booting -/

theorem find_first {P : Fin 8 → Prop} [DecidablePred P] (h : P 0) : (List.finRange 8).find? (fun i => P i) = some 0 := by
  have hrange : List.finRange 8 = 0 :: (List.finRange 7).map Fin.succ := List.finRange_succ
  rw [hrange]
  exact List.find?_cons_of_pos (decide_eq_true h)

/-- The first program gets the first segment and the first PCB. -/
theorem Booted.first {s : Proc} (hb : Booted s k.toProc) {found : Int16} {buf : Buffer} {name : FileName}
    (hf : (readFile name fun _ => 0).exec k.disk = some ((found, buf), d)) (h1 : found ≠ -1) (h26 : ¬ 26 < found) :
    ∃ k', executeProgram name k = some (1, k') ∧ Started name 0 0 k.toProc k'.toProc := by
  have hp : freePCB k.toProc = some 0 := find_first (P := fun i => (k.pcb (.pcbPool i)).state = .DEFUNCT) (hb.defunct 0)
  have hg : getFreeMemorySegment k.toProc = (some 0,
      { k.toProc with memoryMap := Function.update k.memoryMap (Int16.ofNat (0 : Fin 8).val) USED }) := by
    rw [getFreeMemorySegment, find_first (P := fun i : Fin 8 => k.memoryMap (Int16.ofNat i.val) = FREE) (hb.free 0)]
  have hlinks : SameLinks k.toProc (prepared name 0 0 k.toProc) := prepared_links
  have hq := queueInv_queue.queue (queueInv_queue.congr hb.queue hlinks)
  obtain ⟨s', hs', -⟩ := hq.add (p := .pcbPool 0) (by simp)
  have he := executeProgram_eq hf h1 h26 hg hp
  rw [hs', Option.map_some] at he
  exact ⟨_, he, prepared_started (by rw [hg]) (hb.free 0) hp hs'⟩

/-- **The computer boots.**  If the image has been built with the shell in it, then
    `main` starts it, and with the first tick of the timer it runs. -/
theorem boot_shell (hs : c.Stored k.disk) (hname : padName c.argv = Computer.shellName)
    (h25 : c.contents.length / 512 + 1 ≤ 25) (reg reg₁ : Regs) (bytes : UInt16 → UInt8) : ∃ m m',
    Computer.main k reg = some m ∧ m.step (.timer reg₁ bytes) = some m' ∧ m'.proc.running = .pcbPool 0 ∧
    m'.reg = initial 0x2000 ∧ ∀ (o : ℕ) (x : UInt8), c.contents[o]? = some x →
      m'.machine.kernel.mem 0x2000 (UInt16.ofNat o) = x := by
  have hb := initializeProcStructures_booted k.toProc
  have hlt : ¬ 26 < Int16.ofNat (c.contents.length / 512 + 1) := by
    rw [lt_ofNat_iff (by omega)]
    omega
  obtain ⟨buf, hread, -⟩ := hs fun _ => 0
  obtain ⟨k', he, hst⟩ := @Booted.first _ (Machine.init k).kernel _ hb _ _ _ hread (ofNat_ne_neg_one (by omega)) hlt
  -- the shell is alone on the ready queue
  have hq := (hb.readyQueue hb.queue).started queueInv_queue hst (by rw [hb.running]; simp)
  have hidle : k'.running = .idleProc := hst.running.trans hb.running
  have hw : k'.running ∉ woken k'.toProc := hidle ▸ idleProc_notMem_woken
  have hdis : dispatched k'.toProc = some (.pcbPool 0) := by rw [hq.queue.dispatched_eq]; rfl
  have hseg : (k'.pcb (.pcbPool 0)).segment = 0x2000 := by
    rw [hst.segment, if_pos rfl]
    decide
  have hlive : Live k'.toProc 0 := by
    rw [Live, hst.state, if_pos rfl]
    decide
  have hhead : HeadLive k'.toProc := by
    intro j hj
    rw [hq.queue.head] at hj
    cases hj
    exact hlive
  have he' : executeProgram (padName c.argv) (Computer.init k reg).machine.kernel = some (1, k') := he
  obtain ⟨m₁, hm₁, hproc⟩ : ∃ m₁,
      (Computer.init k reg).step (.call (.executeProgram (padName c.argv))) = some m₁ ∧ m₁.proc = k'.toProc := by
    rw [Computer.step, Machine.step, he']
    exact ⟨_, rfl, rfl⟩
  obtain ⟨r, s', htick, ht, -⟩ :=
    hq.tick queueInv_queue hw (m₁.entered.word 0x1000 0xdfec) (m₁.entered.word 0x1000 0xdfee)
  obtain ⟨m', hm', hs'⟩ : ∃ m', m₁.step (.timer reg₁ bytes) = some m' ∧ m'.proc = s' := by
    rw [Computer.step, Computer.interrupt, hproc, htick]
    exact ⟨_, rfl, rfl⟩
  have hfirst : m'.proc.running = .pcbPool 0 := by rw [hs', ht.running_iff, hdis]
  have hok : Unborn 0 m₁ (.timer reg₁ bytes) := by
    rw [Unborn, hproc, hidle]
    refine ⟨?_, hlive, by simp⟩
    rw [Computer.MayHappen, hproc]
    exact ⟨hhead, 0, hdis⟩
  obtain ⟨hreg, hmem⟩ := first_turn (m := .init k reg) .nil
    ⟨rfl, rfl, fun i hi => absurd (hb.running.symm.trans hi) (by simp), trivial⟩ he' hst.free hm₁
    (.single hok hm') hfirst
  have hbytes := fun (o : ℕ) (x : UInt8) (hx : c.contents[o]? = some x) =>
    started_bytes (k := (Machine.init k).kernel) hs h25 he hst.free hmem hx
  rw [hseg] at hreg hbytes
  exact ⟨m₁, m', by rw [Computer.main, ← hname, hm₁], hm', hfirst, hreg, hbytes⟩

/-- The image boots. -/
theorem boot_shell_built : ∃ m m', Computer.main builtKernel (initial 0) = some m ∧
    m.step (.timer (initial 0) fun _ => 0) = some m' ∧ m'.proc.running = .pcbPool 0 ∧ m'.reg = initial 0x2000 ∧
    ∀ (o : ℕ) (x : UInt8), [0xEB, 0xFE][o]? = some x → m'.machine.kernel.mem 0x2000 (UInt16.ofNat o) = x :=
  boot_shell (k := builtKernel) shell_stored (by decide +kernel)
    (by decide +kernel) (initial 0) (initial 0) fun _ => 0

end Running

end TeamXtremeOS
