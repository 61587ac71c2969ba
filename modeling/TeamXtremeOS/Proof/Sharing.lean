/-
  Two processes that use the file system at the same time.  There is no lock:
  nothing is lost when one of them has written the directory before the other
  one reads it and, if both write a file, the map too.
-/
import TeamXtremeOS.Proof.Files

namespace TeamXtremeOS

open Lib

variable {dir diskMap M : Sector} {d d' d₁ : Disk} {e e' : Fin 16} {f h : FileName} {i j k n : ℕ}
  {l : List UInt8} {s : UInt8} {b : Buffer} {c c₁ c₂ : FileCall} {tr : List (Bool × Prog.Request ℕ)}
  {a r : Int16}

/-! ## The programs -/

theorem noRead_writeSector (data : Sector) (sector : Int16) :
    Prog.NoRead k (writeSector data sector) := by
  simp only [writeSector]
  rcases sectorRegisters sector with _ | ⟨cx, dx⟩
  · trivial
  · simp only [Prog.ofOption, Prog.ret_bind, int13]
    refine Prog.NoRead.bind ?_ fun _ => trivial
    split
    · trivial
    · exact trivial

theorem noRead_writeData (b : Buffer) (dir : Sector) (e : Fin 16) (m j : ℕ) :
    Prog.NoRead k (writeData b dir e m j) := by
  induction m generalizing j with
  | zero => trivial
  | succ m ih => exact (noRead_writeSector _ _).bind fun _ => ih _

theorem noRead_ofOption {α : Type} (o : Option α) : Prog.NoRead k (Prog.ofOption o : DiskProg α) := by
  cases o <;> trivial

namespace FileCall

/-- A call behind its two reads. -/
def tail : FileCall → Sector → Sector → DiskProg Int16
  | .writeFile fname buffer sectors unusedSectors => writeTail fname buffer sectors unusedSectors
  | .deleteFile fname => deleteTail fname

theorem prog_eq (c : FileCall) :
    c.prog = .read 2 fun dir => .read 1 fun diskMap => c.tail dir diskMap := by
  cases c with
  | writeFile f b sectors unused => rw [prog, writeFile_eq]; rfl
  | deleteFile f => rw [prog, deleteFile_eq]; rfl

theorem noRead_tail (c : FileCall) (dir diskMap : Sector) : Prog.NoRead k (c.tail dir diskMap) := by
  cases c with
  | writeFile f b sectors unused =>
    simp only [tail, writeTail]
    split
    · trivial
    · generalize findUnused _ _ _ _ _ = found
      refine Prog.NoRead.bind (noRead_ofOption _) ?_
      intro _
      refine Prog.NoRead.bind (noRead_writeData _ _ _ _ _) ?_
      intro _
      refine Prog.NoRead.bind (noRead_writeSector _ _) ?_
      intro _
      refine Prog.NoRead.bind (noRead_writeSector _ _) ?_
      intro _
      split_ifs <;> trivial
  | deleteFile f =>
    simp only [tail, deleteTail]
    split
    · trivial
    · refine Prog.NoRead.bind (noRead_ofOption _) ?_
      intro _
      refine Prog.NoRead.bind (noRead_writeSector _ _) ?_
      intro _
      exact Prog.NoRead.bind (noRead_writeSector _ _) fun _ => trivial

/-! ## What a call does to the files -/

/-- The files after a call that succeeds. -/
def effect : FileCall → (FileName → Option (List Sector)) → FileName → Option (List Sector)
  | .writeFile fname buffer sectors _, files => rewritten fname buffer sectors.toInt.toNat files
  | .deleteFile fname, files => fun h => if h = fname then none else files h

/-- The call finds what it needs: a file to be deleted needs a consistent
    directory only. -/
def Ready (d : Disk) : FileCall → Prop
  | .writeFile fname _ sectors _ => Consistent d ∧ Named fname ∧ sectors.toInt ≤ 25 ∧
      sectors.toInt ≤ freeSectors (d 1) ∧ ∃ e, writingEntry fname (d 2) = some e
  | .deleteFile fname => DirOK (d 2) ∧ ∃ e, entryName (d 2) e = fname ∧ InUse (d 2) e

def IsWrite : FileCall → Prop
  | .writeFile .. => True
  | .deleteFile _ => False

/-- The sectors a call takes. -/
def sectorsNeeded : FileCall → ℕ
  | .writeFile _ _ sectors _ => sectors.toInt.toNat
  | .deleteFile _ => 0

/-- The free entries a call takes, when its file is new. -/
def entriesNeeded : FileCall → ℕ
  | .writeFile .. => 1
  | .deleteFile _ => 0

theorem sectorsNeeded_writeFile {n : Int16} {unusedSectors : ℕ → Int16} :
    sectorsNeeded (.writeFile f b n unusedSectors) = n.toInt.toNat := rfl

theorem entriesNeeded_writeFile {n : Int16} {unusedSectors : ℕ → Int16} :
    entriesNeeded (.writeFile f b n unusedSectors) = 1 := rfl

/-- The disk when a call has written the directory and has only the map `M`
    left to write. -/
structure Published (c : FileCall) (d d₁ : Disk) (M : Sector) : Prop where
  dir : DirOK (d₁ 2)
  map : Consistent d → MapOK (d₁ 2) M
  stale : ¬ c.IsWrite → Consistent d → MapOK (d₁ 2) (d 1)
  old : d₁ 1 = d 1
  files : ∀ h, h 0 ≠ 0 → contents d₁ h = c.effect (contents d) h
  sectors : freeSectors (d 1) ≤ freeSectors M + c.sectorsNeeded
  entries : freeEntries (d 2) ≤ freeEntries (d₁ 2) + c.entriesNeeded

/-- **A call up to its write of the directory.** -/
theorem untilWrite_prog (hc : c.Ready d) : ∃ tr₀ M r d₁,
    Prog.untilWrite 2 c.prog d = some (tr₀, .write 1 M (.ret r), d₁) ∧ .write 1 ∉ tr₀ ∧
      c.Published d d₁ M := by
  rw [prog_eq]
  cases c with
  | writeFile f b sectors unused =>
    obtain ⟨hd, hf, h25, hz, e, he⟩ := hc
    have hfor := writingEntry_for he
    have hz' : sectors.toInt.toNat ≤ freeSectors (d 1) := by omega
    have h25' : sectors.toInt.toNat ≤ 25 := by omega
    have hkeys : ∀ w ∈ dataWrites b 0 ((unusedOf (d 1) sectors.toInt.toNat).map sectorNo), 3 ≤ w.1 := by
      intro w hw
      have hm := List.mem_map_of_mem (f := Prod.fst) hw
      rw [fst_dataWrites] at hm
      obtain ⟨s, hs, hsw⟩ := List.mem_map.1 hm
      rw [← hsw]
      exact (hd.map.mem_unusedOf hz' hs).2
    refine ⟨_, _, _, written e f b sectors.toInt.toNat d, by
      rw [Prog.untilWrite, Prog.untilWrite, tail, writeTail_some he (by omega) rfl
        (unusedOf_below hz').1, Prog.untilWrite_writes fun w hw => by have := hkeys w hw; omega]
      rfl, ?_, ?_⟩
    · simp only [List.mem_cons, List.mem_append, List.mem_map, reduceCtorEq, false_or, not_or,
        List.not_mem_nil, or_false, Prog.Request.write.injEq]
      refine ⟨?_, by omega⟩
      rintro ⟨w, hw, hw1⟩
      have := hkeys w hw
      omega
    · refine ⟨(written_sectors hd hf hfor h25' hz').1, fun _ => written_map hd hf hfor h25' hz',
        fun hw => absurd trivial hw, ?_, fun h hh => written_contents hd hf hfor h25' hz' hh, ?_,
        freeEntries_le (e := e) ?_⟩
      · rw [written, Function.update_of_ne (by omega), Prog.store_of_notMem fun w hw => by
          have := hkeys w hw; omega]
      · have hfree := freeSectors_mark (unusedOf (d 1) sectors.toInt.toNat) (d 1)
        rw [(unusedOf_below hz').1] at hfree
        rw [sectorsNeeded]
        exact hfree
      · intro e' hne hl
        rw [written, Function.update_self, inUse_iff, entryName_entered (by
          rw [List.length_map, (unusedOf_below hz').1]; omega), if_neg hne] at hl
        exact hl
  | deleteFile f =>
    obtain ⟨hd, e, he, hl⟩ := hc
    have hf : f 0 ≠ 0 := by rw [← he]; exact hl
    have h2 : Function.update d 2 (erased e (d 2)) 2 = erased e (d 2) := Function.update_self ..
    refine ⟨_, _, _, Function.update d 2 (erased e (d 2)), by
      rw [Prog.untilWrite, Prog.untilWrite, tail, deleteTail_some hd ((hd.findFile_iff hf).2 he),
        Prog.untilWrite, if_pos rfl]
      rfl, by simp, ⟨h2 ▸ (hd.erased e).1, fun hd => h2 ▸ erased_map hd e, fun _ hd => ?_,
        Function.update_of_ne (by omega) .., fun h hh => erased_contents hd he hh,
        by rw [sectorsNeeded, Nat.add_zero]; exact freeSectors_release _ _, ?_⟩⟩
    · refine ⟨hd.map.reserved, ?_⟩
      intro e' _ s hs
      rw [h2, (hd.dir.erased e).2] at hs
      split_ifs at hs
      · cases hs
      · exact hd.map.used e' (hd.dir.lists.inUse_of_mem hs) s hs
    · rw [entriesNeeded, Nat.add_zero]
      refine List.countP_mono_left ?_
      intro x _ hx
      simp only [decide_eq_true_eq, h2] at hx ⊢
      rw [inUse_iff, entryName_erased]
      split_ifs
      · simp
      · exact hx

/-- **A call alone.** -/
theorem exec_ready (hc : c.Ready d) : ∃ r d', c.prog.exec d = some (r, d') ∧ DirOK (d' 2) ∧
    ∀ h, h 0 ≠ 0 → contents d' h = c.effect (contents d) h := by
  obtain ⟨tr₀, M, r, d₁, hu, -, hp⟩ := untilWrite_prog hc
  refine ⟨r, Function.update d₁ 1 M, ?_, ?_, ?_⟩
  · rw [Prog.exec_of_untilWrite hu, Prog.exec, Prog.exec]
  · rw [Function.update_of_ne (by omega)]
    exact hp.dir
  · intro h hh
    rw [contents_congr hp.dir fun k hk => Function.update_of_ne hk .., hp.files h hh]

/-- The calls two processes may make at the same time: a new file of 1 to 25
    sectors, or the deletion of a file. -/
def Fits (d : Disk) : FileCall → Prop
  | .writeFile fname _ sectors _ => Named fname ∧ (∀ e, entryName (d 2) e ≠ fname) ∧
      1 ≤ sectors.toInt ∧ sectors.toInt ≤ 25
  | .deleteFile fname => ∃ e, entryName (d 2) e = fname ∧ InUse (d 2) e

instance : ∀ (d : Disk) (c : FileCall), Decidable (Fits d c)
  | _, .writeFile .. => inferInstanceAs (Decidable (_ ∧ _ ∧ _ ∧ _))
  | d, .deleteFile fname =>
    inferInstanceAs (Decidable (∃ e, entryName (d 2) e = fname ∧ InUse (d 2) e))

theorem Fits.ready (hc : c.Fits d) (hd : Consistent d) (hs : c.sectorsNeeded ≤ freeSectors (d 1))
    (he : c.entriesNeeded ≤ freeEntries (d 2)) : c.Ready d := by
  cases c with
  | writeFile f b sectors unused =>
    rw [sectorsNeeded_writeFile] at hs
    rw [entriesNeeded_writeFile] at he
    obtain ⟨e, -, hl⟩ := List.countP_pos_iff.1 (show 0 < freeEntries (d 2) by omega)
    exact ⟨hd, hc.1, hc.2.2.2, by omega, exists_writingEntry (.inr ⟨e, by simpa using hl⟩)⟩
  | deleteFile f => exact ⟨hd.dir, hc⟩

/-- What the other call finds: the map may be the old one, if not both calls
    write a file. -/
theorem Published.ready (hp : c₁.Published d d₁ M) (hd : Consistent d) (hne : c₁.fname ≠ c₂.fname)
    (hc : c₂.Fits d) (hs : c₁.sectorsNeeded + c₂.sectorsNeeded ≤ freeSectors (d 1))
    (he : c₁.entriesNeeded + c₂.entriesNeeded ≤ freeEntries (d 2)) {u : Sector}
    (hu : u = M ∨ u = d 1 ∧ ¬ (c₁.IsWrite ∧ c₂.IsWrite)) : c₂.Ready (Function.update d₁ 1 u) := by
  have h2 : Function.update d₁ 1 u 2 = d₁ 2 := Function.update_of_ne (by omega) ..
  cases c₂ with
  | writeFile f b sectors unused =>
    rw [sectorsNeeded_writeFile] at hs
    rw [entriesNeeded_writeFile] at he
    have hmap : MapOK (d₁ 2) u := by
      rcases hu with rfl | ⟨rfl, hu⟩
      · exact hp.map hd
      · exact hp.stale (fun hw => hu ⟨hw, trivial⟩) hd
    have hroom : sectors.toInt ≤ freeSectors u := by
      have := hp.sectors
      rcases hu with rfl | ⟨rfl, -⟩ <;> omega
    have hfree := hp.entries
    obtain ⟨e, -, hl⟩ := List.countP_pos_iff.1 (show 0 < freeEntries (d₁ 2) by omega)
    refine ⟨consistent_update hp.dir hmap, hc.1, hc.2.2.2, by rwa [Function.update_self], ?_⟩
    rw [h2]
    exact exists_writingEntry (.inr ⟨e, by simpa using hl⟩)
  | deleteFile f =>
    obtain ⟨e, he, hl⟩ := hc
    have hf : f 0 ≠ 0 := by rw [← he]; exact hl
    have hkeep : contents d₁ f = contents d f := by
      rw [hp.files f hf]
      cases c₁ with
      | writeFile g => exact if_neg fun hfg => hne hfg.symm
      | deleteFile g => exact if_neg fun hfg => hne hfg.symm
    have hsome : contents d₁ f ≠ none := by
      rw [hkeep, contents_entry hd.dir hf he]
      simp
    rw [Ne, contents_eq_none hp.dir hf] at hsome
    push Not at hsome
    obtain ⟨e', he'⟩ := hsome
    refine ⟨h2 ▸ hp.dir, e', h2 ▸ he', ?_⟩
    rw [h2, inUse_iff, he']
    exact hf

/-- One call (of the process `first`) has written the directory before the other
    one reads it, and the map too if both of them write a file. -/
def Precedes (c₁ c₂ : FileCall) (first : Bool) (tr : List (Bool × Prog.Request ℕ)) : Prop :=
  [(first, .write 2), (!first, .read 2)].Sublist tr ∧
    (c₁.IsWrite → c₂.IsWrite → [(first, .write 1), (!first, .read 1)].Sublist tr)

theorem Fits.name_ne (hc : c.Fits d) : c.fname 0 ≠ 0 := by
  cases c with
  | writeFile f b n unused => exact hc.1
  | deleteFile f =>
    obtain ⟨e, he, hl⟩ := hc
    rw [fname, ← he]
    exact hl

theorem effect_congr {F G : FileName → Option (List Sector)} (hc : c.fname 0 ≠ 0) (hh : h 0 ≠ 0)
    (hFG : ∀ h, h 0 ≠ 0 → F h = G h) : c.effect F h = c.effect G h := by
  cases c with
  | writeFile f b n unused => simp only [effect, rewritten, hFG f hc, hFG h hh]
  | deleteFile f => simp only [effect, hFG h hh]

theorem sublist_of_notMem {α : Type} {x y : α} {u v : List α} (hx : x ∉ u)
    (h : [x, y].Sublist (u ++ v)) : [x, y].Sublist v := by
  obtain ⟨l₁, l₂, hl, h1, h2⟩ := List.sublist_append_iff.1 h
  cases l₁ with
  | nil =>
    rw [List.nil_append] at hl
    rwa [hl]
  | cons z l₁ =>
    rw [List.cons_append, List.cons.injEq] at hl
    exact absurd (h1.subset (hl.1 ▸ List.mem_cons_self)) hx

instance : ∀ (c : FileCall), Decidable c.IsWrite
  | .writeFile .. => inferInstanceAs (Decidable True)
  | .deleteFile _ => inferInstanceAs (Decidable False)

instance (c₁ c₂ : FileCall) (first : Bool) (tr : List (Bool × Prog.Request ℕ)) :
    Decidable (Precedes c₁ c₂ first tr) := inferInstanceAs (Decidable (_ ∧ (_ → _ → _)))

/-- **Two calls, the first one ahead**: the files are those of the sequential
    order. -/
theorem interleaved (hd : Consistent d) (hne : c₁.fname ≠ c₂.fname) (h₁ : c₁.Fits d) (h₂ : c₂.Fits d)
    (hs : c₁.sectorsNeeded + c₂.sectorsNeeded ≤ freeSectors (d 1))
    (he : c₁.entriesNeeded + c₂.entriesNeeded ≤ freeEntries (d 2))
    (hi : Prog.Interleaves c₁.prog c₂.prog d tr a r d') (hp : Precedes c₁ c₂ false tr) :
    DirOK (d' 2) ∧ ∀ h, h 0 ≠ 0 → contents d' h = c₂.effect (c₁.effect (contents d)) h := by
  rw [c₂.prog_eq] at hi
  obtain ⟨tr₀, p₁, d₁, tr₁, hu, rfl, hi⟩ :=
    Prog.Interleaves.solo (c := fun dir => .read 1 fun diskMap => c₂.tail dir diskMap)
      (fun v => ⟨by omega, fun w => c₂.noRead_tail v w⟩) hi hp.1
  obtain ⟨tr₀', M, r', d₁', hu', hno, hpub⟩ := untilWrite_prog (h₁.ready hd (by omega) (by omega))
  rw [hu', Option.some.injEq, Prod.mk.injEq, Prod.mk.injEq] at hu
  obtain ⟨rfl, rfl, rfl⟩ := hu
  obtain ⟨u, hu, e, hex, heq⟩ := hi.last_write_read (by omega) fun x y => c₂.noRead_tail x y
  have hu : u = M ∨ u = d 1 ∧ ¬ (c₁.IsWrite ∧ c₂.IsWrite) := by
    refine hu.imp_right fun ⟨hu, hb⟩ => ⟨hu.trans hpub.old, fun hw => hb ?_⟩
    exact sublist_of_notMem (by simpa using hno) (hp.2 hw.1 hw.2)
  obtain ⟨r'', e', hex', hdir, hfiles⟩ := exec_ready (hpub.ready hd hne h₂ hs he hu)
  rw [← c₂.prog_eq, hex', Option.some.injEq, Prod.mk.injEq] at hex
  obtain ⟨-, rfl⟩ := hex
  refine ⟨by rw [heq 2 (by omega)]; exact hdir, ?_⟩
  intro h hh
  rw [contents_congr hdir heq, hfiles h hh]
  refine effect_congr h₂.name_ne hh ?_
  intro h' hh'
  rw [contents_congr hpub.dir fun k hk => Function.update_of_ne hk .., hpub.files h' hh']

/-- The two calls one after the other. -/
theorem sequential (hd : Consistent d) (hne : c₁.fname ≠ c₂.fname) (h₁ : c₁.Fits d) (h₂ : c₂.Fits d)
    (hs : c₁.sectorsNeeded + c₂.sectorsNeeded ≤ freeSectors (d 1))
    (he : c₁.entriesNeeded + c₂.entriesNeeded ≤ freeEntries (d 2)) :
    ∃ dA dB, step d c₁ = some dA ∧ step dA c₂ = some dB ∧ DirOK (dB 2) ∧
      ∀ h, h 0 ≠ 0 → contents dB h = c₂.effect (c₁.effect (contents d)) h := by
  obtain ⟨tr₀, M, r, d₁, hu, -, hpub⟩ := untilWrite_prog (h₁.ready hd (by omega) (by omega))
  obtain ⟨r', dB, hex, hdir, hfiles⟩ := exec_ready (hpub.ready hd hne h₂ hs he (.inl rfl))
  refine ⟨Function.update d₁ 1 M, dB, ?_, ?_, hdir, ?_⟩
  · rw [step, Prog.exec_of_untilWrite hu]
    rfl
  · rw [step, hex, Option.map_some]
  · intro h hh
    rw [hfiles h hh]
    refine effect_congr h₂.name_ne hh ?_
    intro h' hh'
    rw [contents_congr hpub.dir fun k hk => Function.update_of_ne hk .., hpub.files h' hh']

theorem effect_other {F : FileName → Option (List Sector)} (hh : h ≠ c.fname) : c.effect F h = F h := by
  cases c with
  | writeFile f b n unused => exact if_neg hh
  | deleteFile f => exact if_neg hh

/-- What a call promises of the disk afterwards. -/
def Done (d' : Disk) : FileCall → Prop
  | .writeFile fname buffer sectors _ => ∀ buf, ∃ buf',
      (readFile fname buf).exec d' = some ((sectors, buf'), d') ∧
      ∀ o < sectors.toInt.toNat * 512, buf' o = buffer o
  | .deleteFile fname => ∀ buf, ∃ buf', (readFile fname buf).exec d' = some ((-1, buf'), d')

theorem Fits.done (hc : c.Fits d) (hdir : DirOK (d' 2)) {F : FileName → Option (List Sector)}
    (hF : F c.fname = contents d c.fname) (hfile : contents d' c.fname = c.effect F c.fname) :
    c.Done d' := by
  cases c with
  | writeFile f b n unused =>
    obtain ⟨-, hnew, h1, h25⟩ := hc
    intro buf
    have hfile : contents d' f = some ((List.range n.toInt.toNat).map (chunk b)) := by
      rw [show contents d' f = _ from hfile]
      simp only [effect, fname, rewritten, if_true] at hF ⊢
      rw [hF, contents_none hnew, Option.getD_none, List.drop_nil, List.append_nil]
    refine ⟨putChunks ((List.range n.toInt.toNat).map (chunk b)) 0 buf, ?_,
      fun o ho => putChunks_chunk (by omega) ho⟩
    have hn : Int16.ofNat n.toInt.toNat = n := by
      rw [← Int16.toInt_inj, Int16.toInt_ofNat_of_lt (by omega)]
      omega
    rw [readFile_exec hdir, hfile]
    simp only [List.length_map, List.length_range, hn]
  | deleteFile f =>
    intro buf
    have hfile : contents d' f = none := hfile.trans (if_pos rfl)
    exact ⟨buf, by rw [readFile_exec hdir, hfile]⟩

/-- The outcome of two calls: both have done what they promise, no sector is on
    two lists, the other files are what they were, and all files are those of
    one of the sequential orders. -/
structure Outcome (d : Disk) (c₁ c₂ : FileCall) (d' : Disk) : Prop where
  left : c₁.Done d'
  right : c₂.Done d'
  disjoint : ∀ e e', InUse (d' 2) e → InUse (d' 2) e' → e ≠ e' →
    ∀ s ∈ sectors (d' 2) e, s ∉ sectors (d' 2) e'
  others : ∀ h, h 0 ≠ 0 → h ≠ c₁.fname → h ≠ c₂.fname → ∀ buf,
    ∃ r, (readFile h buf).exec d = some (r, d) ∧ (readFile h buf).exec d' = some (r, d')
  sequential : ∃ dA dB, (step d c₁ = some dA ∧ step dA c₂ = some dB ∨
    step d c₂ = some dA ∧ step dA c₁ = some dB) ∧
    ∀ h, h 0 ≠ 0 → ∀ buf, ∃ r, (readFile h buf).exec dB = some (r, dB) ∧
      (readFile h buf).exec d' = some (r, d')

theorem Outcome.symm (ho : Outcome d c₂ c₁ d') : Outcome d c₁ c₂ d' where
  left := ho.right
  right := ho.left
  disjoint := ho.disjoint
  others h hh h₁ h₂ := ho.others h hh h₂ h₁
  sequential := by
    obtain ⟨dA, dB, hseq, hfiles⟩ := ho.sequential
    exact ⟨dA, dB, hseq.symm, hfiles⟩

theorem outcome_first (hd : Consistent d) (hne : c₁.fname ≠ c₂.fname) (h₁ : c₁.Fits d) (h₂ : c₂.Fits d)
    (hs : c₁.sectorsNeeded + c₂.sectorsNeeded ≤ freeSectors (d 1))
    (he : c₁.entriesNeeded + c₂.entriesNeeded ≤ freeEntries (d 2))
    (hi : Prog.Interleaves c₁.prog c₂.prog d tr a r d') (hp : Precedes c₁ c₂ false tr) :
    Outcome d c₁ c₂ d' := by
  obtain ⟨hdir, hfiles⟩ := interleaved hd hne h₁ h₂ hs he hi hp
  obtain ⟨dA, dB, hA, hB, hdirB, hseq⟩ := sequential hd hne h₁ h₂ hs he
  refine ⟨h₁.done hdir rfl ?_, h₂.done hdir (effect_other hne.symm) (hfiles _ h₂.name_ne), hdir.disjoint,
    fun h hh hn₁ hn₂ buf => ⟨_, readFile_exec hd.dir h buf, ?_⟩, dA, dB, .inl ⟨hA, hB⟩,
    fun h hh buf => ⟨_, readFile_exec hdirB h buf, ?_⟩⟩
  · rw [hfiles _ h₁.name_ne, effect_other hne]
  · rw [readFile_exec hdir, hfiles h hh, effect_other hn₂, effect_other hn₁]
  · rw [readFile_exec hdir, hfiles h hh, hseq h hh]

end FileCall

/-- **No lost update** when one of the calls is ahead of the other. -/
theorem sharing (hd : Consistent d) (hne : c₁.fname ≠ c₂.fname) (h₁ : c₁.Fits d) (h₂ : c₂.Fits d)
    (hs : c₁.sectorsNeeded + c₂.sectorsNeeded ≤ freeSectors (d 1))
    (he : c₁.entriesNeeded + c₂.entriesNeeded ≤ freeEntries (d 2))
    (hi : Prog.Interleaves c₁.prog c₂.prog d tr a r d')
    (hp : FileCall.Precedes c₁ c₂ false tr ∨ FileCall.Precedes c₁ c₂ true tr) :
    FileCall.Outcome d c₁ c₂ d' := by
  rcases hp with hp | ⟨hp2, hp1⟩
  · exact FileCall.outcome_first hd hne h₁ h₂ hs he hi hp
  · refine (FileCall.outcome_first hd hne.symm h₂ h₁ (by omega) (by omega) hi.symm ⟨?_, ?_⟩).symm
    · exact hp2.map Prog.other
    · intro hw₂ hw₁
      exact (hp1 hw₁ hw₂).map Prog.other

/-- A file is deleted while another one is written: the deletion reads the
    directory before the map of the write is on the disk.  Nothing is lost of
    the map either. -/
theorem sharing_two : ∃ d', FileCall.Outcome twoSectorDisk
    (.writeFile fileB (fun _ => 7) 1 fun _ => 0) (.deleteFile fileA) d' ∧
    d' 1 3 = 0 ∧ d' 1 4 = 0 ∧ d' 1 5 ≠ 0 := by
  have h : (Prog.interleave [false, false, false, false, true, false, true, true, true]
      (FileCall.writeFile fileB (fun _ => 7) 1 fun _ => 0).prog (FileCall.deleteFile fileA).prog
      twoSectorDisk).any (fun r => FileCall.Precedes (.writeFile fileB (fun _ => 7) 1 fun _ => 0)
        (.deleteFile fileA) false r.1 ∧
        r.2.2.2 1 3 = 0 ∧ r.2.2.2 1 4 = 0 ∧ r.2.2.2 1 5 ≠ 0) = true := by decide +kernel
  simp only [Option.any_eq_true, Prod.exists, decide_eq_true_eq] at h
  obtain ⟨tr, a, r, d', hi, hp, hmap⟩ := h
  exact ⟨d', sharing twoSectorDisk_consistent (by decide) (by decide +kernel) (by decide +kernel)
    (by decide +kernel) (by decide +kernel) (.of_interleave hi) (.inl hp), hmap⟩

/-! ## Without an order -/

/-- The entries in use have short, disjoint lists of used sectors. -/
def Listed (d : Disk) : Prop :=
  (∀ e, InUse (d 2) e → (sectors (d 2) e).length ≤ 25 ∧
    ∀ s ∈ sectors (d 2) e, 3 ≤ s.toNat ∧ d 1 (mapIndex s) ≠ 0) ∧
  ∀ e e', InUse (d 2) e → InUse (d 2) e' → e ≠ e' → ∀ s ∈ sectors (d 2) e, s ∉ sectors (d 2) e'

instance (d : Disk) : Decidable (Listed d) := @instDecidableAnd _ _ inferInstance inferInstance

namespace FileCall

/-- What `readFile` returns when a call has done what it promises. -/
def count : FileCall → Int16
  | .writeFile _ _ sectors _ => sectors
  | .deleteFile _ => -1

theorem Done.count_eq (hc : c.Done d') (buf : Buffer) :
    ∃ buf', (readFile c.fname buf).exec d' = some ((c.count, buf'), d') := by
  cases c with
  | writeFile f b n unused => obtain ⟨buf', hb, -⟩ := hc buf; exact ⟨buf', hb⟩
  | deleteFile f => exact hc buf

/-- Two calls that fit on the disk, and an order of their requests, `l`, after
    which one of them has not done what it promises. -/
def Fails (d : Disk) (c₁ c₂ : FileCall) : Prop :=
  Listed d ∧ c₁.Fits d ∧ c₂.Fits d ∧ c₁.fname ≠ c₂.fname ∧
  c₁.sectorsNeeded + c₂.sectorsNeeded ≤ freeSectors (d 1) ∧
  c₁.entriesNeeded + c₂.entriesNeeded ≤ freeEntries (d 2) ∧
  ∃ tr a r d', Prog.Interleaves c₁.prog c₂.prog d tr a r d' ∧ ¬ (c₁.Done d' ∧ c₂.Done d')

theorem fails_of (l : List Bool) (hd : Listed d ∧ c₁.Fits d ∧ c₂.Fits d ∧ c₁.fname ≠ c₂.fname ∧
    c₁.sectorsNeeded + c₂.sectorsNeeded ≤ freeSectors (d 1) ∧
    c₁.entriesNeeded + c₂.entriesNeeded ≤ freeEntries (d 2)) (hc : c = c₁ ∨ c = c₂)
    (h : (Prog.interleave l c₁.prog c₂.prog d).any (fun r =>
      ((readFile c.fname fun _ => 0).exec r.2.2.2).any fun x => x.1.1 ≠ c.count) = true) :
    Fails d c₁ c₂ := by
  obtain ⟨h1, h2, h3, h4, h5, h6⟩ := hd
  simp only [Option.any_eq_true, Prod.exists, decide_eq_true_eq] at h
  obtain ⟨tr, a, r, d', hi, n, buf, e, hr, hn⟩ := h
  refine ⟨h1, h2, h3, h4, h5, h6, tr, a, r, d', .of_interleave hi, fun ⟨hd₁, hd₂⟩ => ?_⟩
  have hdone : c.Done d' := by rcases hc with rfl | rfl <;> assumption
  obtain ⟨buf', hb⟩ := hdone.count_eq fun _ => 0
  rw [hr, Option.some.injEq, Prod.mk.injEq, Prod.mk.injEq] at hb
  exact hn hb.1.1

end FileCall

/-- Replace a byte of a disk. -/
def patch (d : Disk) (k : ℕ) (i : Fin 512) (v : UInt8) : Disk :=
  Function.update d k (Function.update (d k) i v)

def fileC : FileName := letter 0x43

/-- **Two processes that write at the same time lose a file**, on a consistent
    disk.  And even one after the other the calls need a consistent disk: no
    stale byte in a free entry or behind a list, no unmarked sector before the
    third one, no two files of one name. -/
theorem update_lost :
    (Consistent twoSectorDisk ∧ FileCall.Fails twoSectorDisk
      (.writeFile fileB (fun _ => 7) 1 fun _ => 0) (.writeFile fileC (fun _ => 8) 1 fun _ => 0)) ∧
    FileCall.Fails (patch twoSectorDisk 2 39 9)
      (.writeFile fileB (fun _ => 7) 1 fun _ => 0) (.deleteFile fileA) ∧
    FileCall.Fails (patch twoSectorDisk 2 9 9)
      (.deleteFile fileA) (.writeFile fileB (fun _ => 7) 3 fun _ => 0) ∧
    FileCall.Fails (patch twoSectorDisk 1 0 0)
      (.writeFile fileB (fun _ => 7) 1 fun _ => 0) (.deleteFile fileA) ∧
    FileCall.Fails (patch twoSectorDisk 2 32 0x41)
      (.writeFile fileB (fun _ => 7) 1 fun _ => 0) (.deleteFile fileA) := by
  refine ⟨⟨twoSectorDisk_consistent, FileCall.fails_of
    [false, false, true, true, false, false, false, true, true, true]
    (by decide +kernel) (.inl rfl) (by decide +kernel)⟩, ?_, ?_, ?_, ?_⟩
  · exact FileCall.fails_of [false, false, false, false, false, true, true, true, true]
      (by decide +kernel) (.inl rfl) (by decide +kernel)
  · exact FileCall.fails_of [false, false, false, false, true, true, true, true, true, true, true]
      (by decide +kernel) (.inr rfl) (by decide +kernel)
  · exact FileCall.fails_of [false, false, false, false, false, true, true, true, true]
      (by decide +kernel) (.inl rfl) (by decide +kernel)
  · exact FileCall.fails_of [false, false, false, false, false, true, true, true, true]
      (by decide +kernel) (.inr rfl) (by decide +kernel)

end TeamXtremeOS
