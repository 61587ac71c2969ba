/-
  What a user has of the shell: a line, a screen and a store of files.  Every
  session with the shell is one with this desk.
-/
import TeamXtremeOS.Session
import TeamXtremeOS.Proof.Store
import TeamXtremeOS.Proof.Copy

namespace TeamXtremeOS

open Lib

variable {dir : Sector} {d d' : Disk} {e : Fin 16} {f : FileName} {buf buffer : Buffer} {sh sh' : Shell}
  {t : Entry} {ts : List Entry} {c : Command} {u : ℕ → Int16} {name : Int16} {out : List UInt8}

/-! ## The desk -/

/-- The line that has been typed, the buffer for files, and the store. -/
structure Desk where
  line : Buffer
  buffer : Buffer
  store : Store

/-- The characters of a name. -/
def nameText (f : FileName) : List UInt8 := (List.ofFn f).takeWhile (· ≠ 0)

namespace Desk

/-- The buffer, if the file is read into it. -/
def loaded (k : Desk) (o : ℕ) : Buffer := (k.store.read (window o k.line) k.buffer).2

/-- The value and the store of `copy`. -/
def copied (k : Desk) : Int16 × Store :=
  k.store.write (window 12 k.line) (k.loaded 5) (k.store.read (window 5 k.line) k.buffer).1.toInt.toNat

/-- What a command that names files does. -/
def file (k : Desk) : Command → Desk
  | .type => { k with buffer := k.loaded 5 }
  | .execute => k
  | .delete => { k with store := (k.store.delete (window 7 k.line)).2 }
  | .copy => { k with buffer := k.loaded 5, store := k.copied.2 }

/-- What it shows; it is not known for a program. -/
def fileShows (k : Desk) : Command → Option (List UInt8)
  | .type =>
    match k.store.files.get (window 5 k.line) with
    | none => some (text "\n\rfile not found")
    | some _ => (printString (k.loaded 5)).map (text "\n\r" ++ ·)
  | .execute => none
  | .delete => some (text "\r" ++ if (k.store.delete (window 7 k.line)).1 = -1 then text "\nfile not found" else [])
  | .copy => some (text "\n\r" ++
      (if k.store.files.get (window 5 k.line) = none then text "program not found" else []) ++
        if k.copied.1 = -1 then text "Disk Directory is full" else [])

/-- What is done with the line. -/
def obey (k : Desk) : Desk :=
  match Command.ofLine k.line with
  | some c => k.file c
  | none => k

/-- What is shown; processes are no matter of the desk. -/
def shows (k : Desk) : Option (List UInt8) :=
  match Command.ofLine k.line with
  | some c => k.fileShows c
  | none =>
    match Builtin.ofLine k.line with
    | some .dir => some (text "\n\r" ++ k.store.files.names.flatMap fun f => nameText f ++ text "\n\r")
    | some .help => some helpText
    | some _ => none
    | none => some (text "\n\rUnrecognized Command")

def read (k : Desk) (t : Entry) : Desk := { k with line := stored t.keys k.line }

def turn (k : Desk) (t : Entry) : Desk := (k.read t).obey

end Desk

/-- The shell is at the desk. -/
structure At (sh : Shell) (k : Desk) : Prop where
  line : sh.line = k.line
  buffer : sh.buffer = k.buffer
  store : Carries sh.kernel.disk k.store

/-! ## What may be typed -/

/-- A command names files by names that files can have, and there is room for a
    copy. -/
def Command.Fits (line : Buffer) (d : Disk) : Command → Prop
  | type => Named (window 5 line)
  | execute => True
  | delete => Named (window 7 line)
  | copy => Named (window 5 line) ∧ Named (window 12 line) ∧
      ((contents d (window 5 line)).getD []).length ≤ freeSectors (d 1)

instance (line : Buffer) (d : Disk) : ∀ c : Command, Decidable (c.Fits line d)
  | .type | .delete => inferInstanceAs (Decidable (Named _))
  | .execute => inferInstanceAs (Decidable True)
  | .copy => inferInstanceAs (Decidable (_ ∧ _ ∧ _))

/-- `kill` gets the address `name`: it finds no process, or another one, by an
    index of the memory map.  A shell that has killed itself makes no turn, and
    what is outside the map is not part of the model. -/
def KillsAnother (name : Int16) (s : Proc) : Prop :=
  ∀ i, victim name s = some i → (0 ≤ name ∧ name ≤ 7) ∧ s.running ≠ .pcbPool i

instance (name : Int16) (s : Proc) : Decidable (KillsAnother name s) :=
  inferInstanceAs (Decidable (∀ i, victim name s = some i → _))

/-- The line fits into its array, and its command to the disk and the
    processes. -/
def Shell.MayType (name : Int16) (sh : Shell) (t : Entry) : Prop :=
  (∀ key ∈ t.keys, key ≠ 0x0D) ∧ reach t.keys < 40 ∧
    (∀ c ∈ Command.ofLine (stored t.keys sh.line), c.Fits (stored t.keys sh.line) sh.kernel.disk) ∧
    (Builtin.ofLine (stored t.keys sh.line) = some .kill → KillsAnother name sh.kernel.toProc)

instance (name : Int16) (sh : Shell) (t : Entry) : Decidable (sh.MayType name t) :=
  inferInstanceAs (Decidable (_ ∧ _ ∧ _ ∧ _))

/-! ## Listing -/

theorem flatMap_filterMap {α β γ : Type*} (l : List α) (p : α → Option β) (g : β → List γ) :
    (l.filterMap p).flatMap g = l.flatMap fun x => (p x).elim [] g := by
  induction l with
  | nil => rfl
  | cons x l ih =>
    rw [List.filterMap_cons, List.flatMap_cons, ← ih]
    rcases p x with _ | y
    · rfl
    · rfl

/-- The bytes of a name, with a zero behind them. -/
theorem printed_name (hd : dir (entryByte e 6) = 0) :
    terminated 0 ((List.ofFn dir).drop (32 * e.val)) = some (nameText (entryName dir e)) := by
  have hb : ∀ o < 32, 32 * e.val + o < 512 := by
    intro o ho
    omega
  have hbyte : ∀ (o : ℕ) (ho : o < 32), dir ⟨32 * e.val + o, hb o ho⟩ = dir (entryByte e o) := fun o ho => by
    rw [entryByte_eq (hb o ho)]
  have hof : List.ofFn (entryName dir e) = [dir (entryByte e 0), dir (entryByte e 1), dir (entryByte e 2),
      dir (entryByte e 3), dir (entryByte e 4), dir (entryByte e 5)] := rfl
  change terminated 0 (bytesFrom dir (32 * e.val + 0)) = _
  rw [bytesFrom_of_lt (hb 0 (by omega)), bytesFrom_of_lt (hb 1 (by omega)), bytesFrom_of_lt (hb 2 (by omega)),
    bytesFrom_of_lt (hb 3 (by omega)), bytesFrom_of_lt (hb 4 (by omega)), bytesFrom_of_lt (hb 5 (by omega)),
    bytesFrom_of_lt (hb 6 (by omega)), hbyte 0 (by omega), hbyte 1 (by omega), hbyte 2 (by omega),
    hbyte 3 (by omega), hbyte 4 (by omega), hbyte 5 (by omega), hbyte 6 (by omega), hd, nameText, hof]
  exact terminated_takeWhile (z := (0 : UInt8)) [_, _, _, _, _, _] _

theorem dirLoop_eq (js : List (Fin 16)) (dir : Sector) : dirLoop js dir =
    some (js.flatMap fun e => if InUse dir e then nameText (entryName dir e) ++ text "\n\r" else []) := by
  induction js generalizing dir with
  | nil => rfl
  | cons j js ih =>
    have hname : ∀ e, entryName (Function.update dir (entryByte j 6) 0) e = entryName dir e :=
      fun e => funext fun i => nameByte_update (j := 0) i.isLt (by omega)
    have hlive : ∀ e, InUse (Function.update dir (entryByte j 6) 0) e ↔ InUse dir e := fun e => by
      rw [inUse_iff, hname, inUse_iff]
    rw [dirLoop, List.flatMap_cons]
    by_cases hj : InUse dir j
    · have hp := printed_name (e := j) (Function.update_self (entryByte j 6) (0 : UInt8) dir)
      rw [if_pos hj, if_pos (show nameByte dir j 0 ≠ 0x00 from hj)]
      simp only [hp, ih, Option.bind_eq_bind, Option.bind_some, Option.map_some, hname, hlive]
    · rw [if_neg hj, if_neg (show ¬ nameByte dir j 0 ≠ 0x00 from hj), ih]
      rfl

/-- **`dir` lists the files of the store.** -/
theorem Carries.listing {st : Store} (hs : Carries d st) : dirLoop (List.finRange 16) (d 2) =
    some (st.files.names.flatMap fun f => nameText f ++ text "\n\r") := by
  rw [dirLoop_eq, Table.names, flatMap_filterMap]
  refine congrArg (fun g => some ((List.finRange 16).flatMap g)) (funext fun e => ?_)
  rw [hs.slot, fileAt]
  split_ifs <;> rfl

/-! ## Commands -/

theorem putChunks_idem {cs : List Sector} (hlen : cs.length ≤ 128) (buf : Buffer) :
    putChunks cs 0 (putChunks cs 0 buf) = putChunks cs 0 buf := by
  funext o
  rw [putChunks_apply (by omega), if_neg (by omega), putChunks_apply (by omega), if_neg (by omega)]
  rcases cs[o / 512 - 0]? with _ | c <;> rfl

theorem Carries.length_le {st : Store} {cs : List Sector} (hs : Carries d st) (hf : Named f)
    (hg : st.files.get f = some cs) : cs.length ≤ 25 := by
  rw [hs.get_eq hf, contents, Option.map_eq_some_iff] at hg
  obtain ⟨e, -, rfl⟩ := hg
  rw [List.length_map]
  exact hs.dir.lists.length_le e

theorem executeProgram_disk {k k' : Kernel} {r : Int16} (h : executeProgram f k = some (r, k')) :
    k'.disk = k.disk := by
  unfold executeProgram at h
  split at h
  · cases h
  · split_ifs at h
    · cases h
      rfl
    · split at h
      · cases h
        rfl
      · simp only at h
        split at h
        · cases h
          rfl
        · split at h
          · cases h
          · cases h
            rfl

namespace At
variable {k : Desk}

theorem readInto_eq (h : At sh k) (hf : Named f) : readInto f k.buffer sh.kernel.disk = (k.store.read f k.buffer).2 := by
  rw [readInto, h.store.read_eq hf, Option.elim_some]

/-- What `readFile` returns, by whether there is the file. -/
theorem read_none (h : At sh k) (hf : Named f) (hg : k.store.files.get f = none) :
    (readFile f k.buffer).exec sh.kernel.disk = some ((-1, k.buffer), sh.kernel.disk) := by
  rw [h.store.read_eq hf, Store.read, hg]

theorem read_some (h : At sh k) (hf : Named f) {cs : List Sector} (hg : k.store.files.get f = some cs) (buf : Buffer) :
    (readFile f buf).exec sh.kernel.disk = some ((Int16.ofNat cs.length, putChunks cs 0 buf), sh.kernel.disk) := by
  rw [h.store.read_eq hf, Store.read, hg]

theorem type (h : At sh k) (hf : Named (window 5 k.line)) :
    sh.file u .type = (k.fileShows .type).map fun out => ({ sh with buffer := k.loaded 5 }, out) := by
  rw [Shell.file, if_neg (by simp), Command.run, Command.fills, Desk.fileShows, Desk.loaded, h.line, h.buffer,
    typeFile]
  rcases hg : k.store.files.get (window 5 k.line) with _ | cs
  · simp only [h.read_none hf hg, if_pos, Option.map_some, readInto, Option.elim_some, Store.read, hg]
  · have hlen := h.store.length_le hf hg
    have hne : Int16.ofNat cs.length ≠ -1 := ofNat_ne_neg_one (by omega)
    have h26 : ¬ 26 < Int16.ofNat cs.length := by
      rw [lt_ofNat_iff (by omega)]
      omega
    simp only [h.read_some hf hg, if_neg hne, if_neg h26, readInto, Option.elim_some, Store.read, hg,
      putChunks_idem (show cs.length ≤ 128 by omega), Option.map_map, Function.comp_def]

theorem execute (h : At sh k) (hs : sh.file u .execute = some (sh', out)) : At sh' k := by
  rw [Shell.file] at hs
  split_ifs at hs
  rw [Option.map_eq_some_iff] at hs
  obtain ⟨⟨k', out'⟩, hr, he⟩ := hs
  cases he
  rw [Command.run, executeFile, Option.map_eq_some_iff] at hr
  obtain ⟨⟨r, k''⟩, hx, he⟩ := hr
  cases he
  exact ⟨h.line, h.buffer, (congrArg (Carries · k.store) (executeProgram_disk hx)).mpr h.store⟩

theorem delete (h : At sh k) (hf : Named (window 7 k.line)) : ∃ d', Carries d' (k.file .delete).store ∧
    sh.file u .delete = (k.fileShows .delete).map fun out =>
      ({ sh with kernel := { sh.kernel with disk := d' } }, out) := by
  obtain ⟨d', he, hd'⟩ := h.store.call (c := .deleteFile (window 7 k.line)) ⟨trivial, hf⟩
  rw [FileCall.prog] at he
  refine ⟨d', hd', ?_⟩
  rw [Shell.file, if_neg (by simp), Command.run, removeFile, h.line, he]
  rfl

theorem copy (h : At sh k) (hA : Named (window 5 k.line)) (hB : Named (window 12 k.line))
    (hroom : ((contents sh.kernel.disk (window 5 k.line)).getD []).length ≤ freeSectors (sh.kernel.disk 1)) :
    ∃ d', Carries d' (k.file .copy).store ∧ sh.file u .copy = (k.fileShows .copy).map fun out =>
      ({ sh with buffer := k.loaded 5, kernel := { sh.kernel with disk := d' } }, out) := by
  have hnum : ∀ n : Int16, (k.store.read (window 5 k.line) k.buffer).1 = n →
      n.toInt ≤ 25 ∧ n.toInt ≤ freeSectors (sh.kernel.disk 1) ∧ ¬ 26 < n ∧
      (n = -1 ↔ k.store.files.get (window 5 k.line) = none) := by
    rintro n rfl
    rw [← h.store.get_eq hA] at hroom
    rcases hg : k.store.files.get (window 5 k.line) with _ | cs
    · simp only [Store.read, hg]
      exact ⟨by decide, by have : (-1 : Int16).toInt = -1 := rfl; omega, by decide, by simp⟩
    · have hlen := h.store.length_le hA hg
      rw [hg, Option.getD_some] at hroom
      have hn : (Int16.ofNat cs.length).toInt = cs.length := Int16.toInt_ofNat_of_lt (by omega)
      simp only [Store.read, hg]
      refine ⟨by omega, by omega, ?_, ?_⟩
      · rw [lt_ofNat_iff (by omega)]
        omega
      · simp [ofNat_ne_neg_one (show cs.length < 32768 by omega)]
  generalize hr : k.store.read (window 5 k.line) k.buffer = r at hnum
  obtain ⟨n, buf⟩ := r
  obtain ⟨h25, hfree, h26, hneg⟩ := hnum n rfl
  obtain ⟨d', he, hd'⟩ := h.store.call (c := .writeFile (window 12 k.line) buf n u) ⟨⟨hB, h25, hfree⟩, hB⟩
  rw [FileCall.prog] at he
  have hcopied : k.copied = k.store.call (.writeFile (window 12 k.line) buf n u) := by
    rw [Desk.copied, Desk.loaded, hr, Store.call]
  have hread : (readFile (window 5 k.line) k.buffer).exec sh.kernel.disk = some ((n, buf), sh.kernel.disk) := by
    rw [h.store.read_eq hA, hr]
  -- with enough room the disk does not become full
  have hfull : k.copied.1 ≠ -2 := by
    rw [Desk.copied, Store.write]
    split
    · exact (show (-1 : Int16) ≠ -2 by decide)
    · intro hx
      have hlt : n.toInt.toNat < 32768 := by omega
      have hi := congrArg Int16.toInt hx
      rw [hr, Int16.toInt_ofNat_of_lt hlt] at hi
      have hneg : (-2 : Int16).toInt = -2 := rfl
      omega
  refine ⟨d', ?_, ?_⟩
  · rw [Desk.file, hcopied]
    exact hd'
  · rw [Shell.file, if_neg (by simp), Command.run, copyFile, Command.fills, h.line, h.buffer, h.readInto_eq hA, Desk.loaded]
    simp only [hread, if_neg h26, he, Option.map_some, Desk.fileShows, ← hcopied, if_neg hfull, hneg]

/-- **A command that names files does what it does at the desk.** -/
theorem file (h : At sh k) (hc : c.Fits k.line sh.kernel.disk) :
    (∀ sh' out, sh.file u c = some (sh', out) → At sh' (k.file c)) ∧
    ∀ out, k.fileShows c = some out → ∃ sh', sh.file u c = some (sh', out) := by
  -- what is shown decides whether the turn ends
  have done : ∀ {sh₁ : Shell}, sh.file u c = (k.fileShows c).map (fun out => (sh₁, out)) → At sh₁ (k.file c) →
      (∀ sh' out, sh.file u c = some (sh', out) → At sh' (k.file c)) ∧
      ∀ out, k.fileShows c = some out → ∃ sh', sh.file u c = some (sh', out) := by
    intro sh₁ hs h₁
    rw [hs]
    refine ⟨?_, fun out ho => ⟨sh₁, by rw [ho, Option.map_some]⟩⟩
    intro sh' out hs'
    obtain ⟨out', -, he⟩ := Option.map_eq_some_iff.1 hs'
    cases he
    exact h₁
  cases c with
  | type => exact done (h.type hc) ⟨h.line, rfl, h.store⟩
  | execute => exact ⟨fun sh' out hs => h.execute hs, fun out ho => nomatch ho⟩
  | delete =>
    obtain ⟨d', hd', hs⟩ := h.delete (u := u) hc
    exact done hs ⟨h.line, h.buffer, hd'⟩
  | copy =>
    obtain ⟨d', hd', hs⟩ := h.copy (u := u) hc.1 hc.2.1 hc.2.2
    exact done hs ⟨h.line, rfl, hd'⟩

theorem builtin (h : At sh k) {b : Builtin} (hs : sh.builtin name b = some (sh', out)) : At sh' k := by
  cases b with
  | dir =>
    rw [Shell.builtin] at hs
    split at hs
    · cases hs
    · obtain ⟨out', -, he⟩ := Option.map_eq_some_iff.1 hs
      cases he
      exact h
  | ps =>
    obtain ⟨out', -, he⟩ := Option.map_eq_some_iff.1 hs
    cases he
    exact h
  | kill =>
    cases hs
    exact ⟨h.line, h.buffer, h.store⟩
  | help =>
    cases hs
    exact h

theorem listing (h : At sh k) : sh.builtin name .dir =
    some (sh, text "\n\r" ++ k.store.files.names.flatMap fun f => nameText f ++ text "\n\r") := by
  rw [Shell.builtin, readSector_dir, Prog.exec, Prog.exec]
  simp only [h.store.listing, Option.map_some]

/-! ## Turns -/

/-- What becomes of a line is what becomes of it at the desk. -/
theorem obey (h : At sh k) (hc : ∀ c ∈ Command.ofLine k.line, c.Fits k.line sh.kernel.disk) :
    (∀ sh' out, sh.obey name u = some (sh', out) → At sh' k.obey) ∧
    ∀ out, k.shows = some out → ∃ sh', sh.obey name u = some (sh', out) := by
  rw [Shell.obey, h.line, Desk.obey, Desk.shows]
  rcases hl : Command.ofLine k.line with _ | c
  · rcases Builtin.ofLine k.line with _ | b
    · exact ⟨fun sh' out hs => by cases hs; exact h, fun out ho => ⟨sh, by rw [Option.some.inj ho]⟩⟩
    · refine ⟨fun sh' out hs => h.builtin hs, ?_⟩
      intro out ho
      cases b with
      | dir =>
        cases ho
        exact ⟨sh, h.listing⟩
      | help =>
        cases ho
        exact ⟨sh, rfl⟩
      | ps => cases ho
      | kill => cases ho
  · exact h.file (hc c hl)

theorem read (h : At sh k) (t : Entry) : At { sh with line := stored t.keys sh.line } (k.read t) :=
  ⟨congrArg (stored t.keys) h.line, h.buffer, h.store⟩

theorem turn_eq (sh : Shell) (ht : sh.MayType name t) : sh.turn name t =
    ({ sh with line := stored t.keys sh.line }.obey name t.unusedSectors).map fun (sh', out) =>
      (sh', text "\n\rShell>" ++ echoed [] t.keys ++ out) := by
  obtain ⟨hk, hr, -⟩ := ht
  rw [Shell.turn, readString_spec hk (by omega)]
  simp only [Option.bind_eq_bind, Option.bind_some]
  rcases Shell.obey { sh with line := stored t.keys sh.line } name t.unusedSectors with _ | ⟨sh', out⟩ <;> rfl

theorem turn (h : At sh k) (ht : sh.MayType name t) :
    (∀ sh' out, sh.turn name t = some (sh', out) → At sh' (k.turn t)) ∧
    ∀ out, (k.read t).shows = some out →
      ∃ sh', sh.turn name t = some (sh', text "\n\rShell>" ++ echoed [] t.keys ++ out) := by
  have hline : (k.read t).line = stored t.keys sh.line := by rw [h.line]; rfl
  have hfits : ∀ c ∈ Command.ofLine (k.read t).line, c.Fits (k.read t).line sh.kernel.disk := by
    rw [hline]
    exact ht.2.2.1
  obtain ⟨h1, h2⟩ := @obey _ t.unusedSectors name _ (h.read t) hfits
  rw [turn_eq sh ht]
  constructor
  · intro sh' out hs
    obtain ⟨⟨sh₁, out₁⟩, ho, he⟩ := Option.map_eq_some_iff.1 hs
    cases he
    exact h1 _ _ ho
  · intro out ho
    obtain ⟨sh', hs⟩ := h2 out ho
    exact ⟨sh', by rw [hs, Option.map_some]⟩

end At

/-! ## Sessions -/

/-- The desk of a shell whose disk is consistent. -/
def deskOf (sh : Shell) (hd : Consistent sh.kernel.disk) : Desk := ⟨sh.line, sh.buffer, storeOf sh.kernel.disk hd⟩

/-- **Every session with the shell is one with the desk**, programs that are
    started and killed included: the files are those of the store, and each
    turn that shows something at the desk ends, and shows it on the screen. -/
theorem session_run (hd : Consistent sh.kernel.disk) (hr : Run (Shell.step name) (Shell.MayType name) sh ts sh') :
    At sh' (ts.foldl Desk.turn (deskOf sh hd)) ∧
    ∀ t out, sh'.MayType name t → ((ts.foldl Desk.turn (deskOf sh hd)).read t).shows = some out →
      ∃ sh'', sh'.turn name t = some (sh'', text "\n\rShell>" ++ echoed [] t.keys ++ out) := by
  have h0 : At sh (deskOf sh hd) := ⟨rfl, rfl, storeOf_carries hd⟩
  have hstep : ∀ sh k t sh', At sh k → sh.MayType name t → sh.step name t = some sh' → At sh' (k.turn t) := by
    intro sh k t sh' h ht hs
    rw [Shell.step, Option.map_eq_some_iff] at hs
    obtain ⟨⟨sh₁, out⟩, hs, rfl⟩ := hs
    exact (h.turn ht).1 _ _ hs
  have h := @Run.simulate _ _ _ _ (Shell.step name) _ sh sh' ts At Desk.turn (fun _ t => t) hstep hr _ h0
  rw [hr.labels_id] at h
  exact ⟨h, fun t out ht ho => (h.turn ht).2 out ho⟩

/-- A shell whose disk has the file `A`. -/
def shellA : Shell := ⟨fun _ => 0, fun _ => 0, { oneFileKernel with disk := twoSectorDisk }⟩

/-- The file is deleted, and the files are listed. -/
theorem session_run_delete : ∃ sh', At sh'
    ([⟨text "delete A", fun _ => 0⟩, ⟨text "dir", fun _ => 0⟩].foldl Desk.turn
      (deskOf shellA twoSectorDisk_consistent)) := by
  have h : (evalRun (Shell.step 0) (Shell.MayType 0) shellA
      [⟨text "delete A", fun _ => 0⟩, ⟨text "dir", fun _ => 0⟩]).any (fun _ => true) = true := by
    decide +kernel
  obtain ⟨sh', hr, -⟩ := Run.exists_of_evalRun h
  exact ⟨sh', (session_run twoSectorDisk_consistent hr).1⟩

end TeamXtremeOS
