/-
  The `copy` command.  The number of sectors that `readFile` returns is passed
  on to `writeFile`, `-1` for a file that is not found included.
-/
import TeamXtremeOS.Proof.FullDisk
import TeamXtremeOS.Proof.Shell
import TeamXtremeOS.Proof.Boot

namespace TeamXtremeOS

open Lib

variable {d d' : Disk} {dir : Sector} {e : Fin 16} {f h A B : FileName} {n : ℕ} {k : Kernel} {l : List UInt8}
  {line buffer b : Buffer} {keys : List UInt8} {unusedSectors : ℕ → Int16}

/-! ## The line -/

/-- The line `copy A B`. -/
def copyLine (A B : FileName) : List UInt8 := text "copy " ++ (List.ofFn A ++ (0x20 :: List.ofFn B))

theorem copyLine_word : Command.copy.word <+: copyLine A B := ⟨0x20 :: (List.ofFn A ++ (0x20 :: List.ofFn B)), rfl⟩

theorem length_copyLine : (copyLine A B).length = 18 := by
  simp [copyLine, text]

theorem copyLine_names (i : Fin 6) : (copyLine A B).getD (i.val + 5) 0 = A i ∧
    (copyLine A B).getD (i.val + 12) 0 = B i := by
  have h5 : (text "copy ").length = 5 := rfl
  have hA : (List.ofFn A).length = 6 := List.length_ofFn
  have hB : (List.ofFn B).length = 6 := List.length_ofFn
  constructor
  · rw [copyLine, List.getD_append_right _ _ _ _ (by omega), h5, Nat.add_sub_cancel,
      List.getD_append _ _ _ _ (by omega), List.getD_eq_getElem _ _ (by omega), List.getElem_ofFn]
  · rw [copyLine, List.getD_append_right _ _ _ _ (by omega), List.getD_append_right _ _ _ _ (by omega), h5, hA,
      show i.val + 12 - 5 - 6 = i.val + 1 by omega, List.getD_cons_succ, List.getD_eq_getElem _ _ (by omega),
      List.getElem_ofFn]

/-- The names the command copies from the line. -/
theorem window_copyLine (ht : typed keys = copyLine A B) :
    window 5 (stored keys line) = A ∧ window 12 (stored keys line) = B := by
  have hlen := length_typed_le keys
  rw [ht, length_copyLine] at hlen
  constructor
  all_goals
    funext i
    rw [window, stored, if_pos (.inl (by omega)), ht]
  · exact (copyLine_names i).1
  · exact (copyLine_names i).2

/-! ## Writing a file that does not exist -/

theorem setName_self (he : entryName dir e = f) : setName e f dir = dir := by
  have hfold : ∀ ls : List (Fin 6),
      ls.foldl (fun dir l => Function.update dir (entryByte e l.val) (f l)) dir = dir := by
    intro ls
    induction ls with
    | nil => rfl
    | cons l ls ih =>
      have hl : f l = dir (entryByte e l.val) := by rw [← he]; rfl
      rw [List.foldl_cons, hl, Function.update_eq_self]
      exact ih
  exact hfold _

/-- A write of no sectors under a name that is there changes nothing. -/
theorem filled_zero (he : entryName (d 2) e = f) : filled e f b 0 [] d = d := by
  have hu : unusedOf (d 1) 0 = [] := List.take_zero
  have hdata : Prog.store (dataWrites b 0 []) d = d := rfl
  rw [filled, hu, List.append_nil, List.map_nil, hdata, entered, putList, setName_self he, setAll]
  funext k
  by_cases h1 : k = 1
  · rw [h1, Function.update_self]
    rfl
  · rw [Function.update_of_ne h1]
    by_cases h2 : k = 2
    · rw [h2, Function.update_self]
    · rw [Function.update_of_ne h2]

/-- A write of `-1` sectors enters the name. -/
theorem writeFile_neg_one (he : writingEntry f (d 2) = some e) :
    (writeFile f b (-1) unusedSectors).exec d = some (0, filled e f b 0 [] d) := by
  have hu : unusedOf (d 1) 0 = [] := List.take_zero
  have hw : (writeFile f b (-1) unusedSectors).exec d = _ := writeFile_filled (n := 0) (G := []) he (by decide)
    (by decide) (by rw [hu]; rfl) (by simp)
  rw [hu] at hw
  exact hw

/-- With a free entry, it makes a file of no sectors. -/
theorem filled_zero_ne (he : ¬ InUse (d 2) e) (hf : Named f) : filled e f b 0 [] d ≠ d := by
  intro heq
  have hu : unusedOf (d 1) 0 = [] := List.take_zero
  have hname : entryName (filled e f b 0 [] d 2) e = f := by
    rw [entryName_filled (by rw [hu]; simp), if_pos rfl]
  rw [heq] at hname
  rw [inUse_iff, hname] at he
  exact he hf

/-! ## The command -/

/-- The command `copy` comes to an end, with the disk `d'`. -/
def CopyEnds (keys : List UInt8) (unusedSectors : ℕ → Int16) (line buffer : Buffer) (k : Kernel) (d' : Disk) :
    Prop :=
  ∃ answer k' out, shellTurn (keys ++ [0x0D]) unusedSectors line buffer k = some answer ∧
    answer.result = some (k', out) ∧ k'.disk = d'

theorem readFile_disk {r : Int16 × Buffer} (h : (readFile f b).exec d = some (r, d')) : d' = d := by
  rcases hf : findFile f (d 2) with _ | e
  · rw [readFile_none hf, Option.some.injEq, Prod.mk.injEq] at h
    exact h.2.symm
  · rw [readFile_walk hf, Option.map_eq_some_iff] at h
    obtain ⟨l, -, h⟩ := h
    rw [Prod.mk.injEq] at h
    exact h.2.symm

theorem copyEnds_iff (hk : ∀ key ∈ keys, key ≠ 0x0D) (ht : typed keys = copyLine A B) (hm : reach keys < 40) :
    CopyEnds keys unusedSectors line buffer k d' ↔
      ∃ n buf r, (readFile A buffer).exec k.disk = some ((n, buf), k.disk) ∧ ¬ 26 < n ∧
        (writeFile B buf n unusedSectors).exec k.disk = some (r, d') := by
  obtain ⟨hA, hB⟩ : window 5 (stored keys line) = A ∧ window 12 (stored keys line) = B := window_copyLine ht
  have hturn : shellTurn (keys ++ [0x0D]) unusedSectors line buffer k = _ :=
    shellTurn_eq hk (by omega) (ht ▸ copyLine_word) line buffer k
  rw [CopyEnds, hturn]
  simp only [Option.some.injEq, Command.run, copyFile, hA, hB]
  rcases hr : (readFile A buffer).exec k.disk with _ | ⟨⟨n, buf⟩, d₁⟩
  · simp
  obtain rfl := readFile_disk hr
  by_cases h26 : 26 < n
  · simp [h26]
  have hle := Int16.not_lt.1 h26
  rcases hw : (writeFile B buf n unusedSectors).exec k.disk with _ | ⟨r, d₂⟩
  · simp [h26, hw]
  · simp [h26, hle, hw]

/-- `B` reads as `A` did, and the other files as they did. -/
def Copied (A B : FileName) (d d' : Disk) : Prop :=
  (∀ buf, ∃ r, (readFile A buf).exec d = some (r, d) ∧ (readFile B buf).exec d' = some (r, d')) ∧
  ∀ h, Named h → h ≠ B → ∀ buf,
    ∃ r, (readFile h buf).exec d = some (r, d) ∧ (readFile h buf).exec d' = some (r, d')

/-- What the command is for: a missing file is left missing, with the disk as it
    was, and a file is copied where there is room. -/
structure CopyRight (A B : FileName) (keys : List UInt8) (unusedSectors : ℕ → Int16) (line buffer : Buffer)
    (k : Kernel) : Prop where
  missing : findFile A (k.disk 2) = none → CopyEnds keys unusedSectors line buffer k k.disk
  copied : ∀ a, findFile A (k.disk 2) = some a → findFile B (k.disk 2) = none → (∃ e, ¬ InUse (k.disk 2) e) →
    (sectors (k.disk 2) a).length ≤ freeSectors (k.disk 1) →
    ∃ d', CopyEnds keys unusedSectors line buffer k d' ∧ Copied A B k.disk d'

/-- The buffer holds the sectors that have been read into it. -/
theorem map_chunk_putChunks (hlen : l.length ≤ 128) (buf : Buffer) :
    (List.range l.length).map (chunk (putChunks (l.map fun s => d s.toNat) 0 buf)) = l.map fun s => d s.toNat := by
  refine List.ext_getElem (by simp) ?_
  intro i hi hi'
  rw [List.length_map] at hi'
  funext o
  rw [List.getElem_map, List.getElem_range, List.getElem_map, chunk, bufOffset_eq (by omega),
    putChunks_place buf hlen (List.getElem?_eq_getElem hi')]

/-- A file is copied to a free entry. -/
theorem copy_copied (hd : Sound k.disk) (hres : ∀ i : Fin 512, i.val < 3 → k.disk 1 i ≠ 0) {a : Fin 16}
    (hA : findFile A (k.disk 2) = some a) (hB : findFile B (k.disk 2) = none) (hroom : ∃ e, ¬ InUse (k.disk 2) e)
    (hfree : (sectors (k.disk 2) a).length ≤ freeSectors (k.disk 1)) (unusedSectors : ℕ → Int16) (buffer : Buffer) :
    ∃ n buf r d', (readFile A buffer).exec k.disk = some ((n, buf), k.disk) ∧ ¬ 26 < n ∧
      (writeFile B buf n unusedSectors).exec k.disk = some (r, d') ∧ Copied A B k.disk d' := by
  have h25 := hd.lists.length_le a
  have hread : ∀ buf, (readFile A buf).exec k.disk = some ((Int16.ofNat (sectors (k.disk 2) a).length,
      putChunks ((sectors (k.disk 2) a).map fun s => k.disk s.toNat) 0 buf), k.disk) := fun buf => by
    rw [readFile_walk hA, walk_short h25, Option.map_some]
  obtain ⟨e, he, hunused⟩ := exists_unusedEntry hB hroom
  obtain ⟨hcount, hbelow⟩ := unusedOf_below hfree
  have hZ : ∀ z ∈ unusedOf (k.disk 1) (sectors (k.disk 2) a).length, 3 ≤ z.val ∧ z.val < 256 := fun z hz =>
    ⟨not_lt.1 fun h3 => hres z h3 (unusedOf_free hz), hbelow z hz⟩
  have hlen : (unusedOf (k.disk 1) (sectors (k.disk 2) a).length ++ []).length ≤ 26 := by
    rw [List.append_nil]
    omega
  have hint := Int16.toInt_ofNat_of_lt (show (sectors (k.disk 2) a).length < 2 ^ 15 by omega)
  refine ⟨_, _, _, _, hread buffer, ?_, writeFile_filled (n := (sectors (k.disk 2) a).length) (G := []) he
    (by omega) (by omega) ?_ (by simp), ?_, ?_⟩
  · rw [lt_ofNat_iff (by omega)]
    omega
  · rw [hcount, List.length_nil, Nat.add_zero]
  · intro buf
    refine ⟨_, hread buf, ?_⟩
    have hsec : sectors (entered e B ((unusedOf (k.disk 1) (sectors (k.disk 2) a).length ++ []).map sectorNo)
        (k.disk 2)) e = (unusedOf (k.disk 1) (sectors (k.disk 2) a).length).map sectorNo := by
      rw [List.append_nil]
      exact sectors_entered_zero (by rw [List.length_map]; omega) (fun s hs => fresh_ne_zero hZ hs)
        (hd.free e hunused)
    rw [filled_read hB hZ hlen (by rw [filled_dir]; exact hsec) (by omega), hcount,
      map_chunk_putChunks (by omega)]
  · exact fun h hh hne buf => filled_others hd hunused hZ hlen hh hne buf

/-- A missing file does not leave a disk with a free entry as it was, if the
    other name is not there either. -/
theorem copy_missing (hB : Named B) (hk : ∀ key ∈ keys, key ≠ 0x0D) (ht : typed keys = copyLine A B)
    (hm : reach keys < 40) (hA : findFile A (k.disk 2) = none) (hfind : findFile B (k.disk 2) = none)
    (hroom : ∃ e, ¬ InUse (k.disk 2) e) : ¬ CopyEnds keys unusedSectors line buffer k k.disk := by
  intro h
  obtain ⟨n, buf, r, hr, -, hw⟩ := (copyEnds_iff hk ht hm).1 h
  rw [readFile_none hA, Option.some.injEq, Prod.mk.injEq, Prod.mk.injEq] at hr
  obtain ⟨⟨rfl, rfl⟩, -⟩ := hr
  obtain ⟨e, he, hunused⟩ := exists_unusedEntry hfind hroom
  rw [writeFile_neg_one he, Option.some.injEq, Prod.mk.injEq] at hw
  exact filled_zero_ne hunused hB hw.2

/-- **`copy` is right** unless neither name is found and an entry is free: the
    missing file is written then, as a file of no sectors. -/
theorem copy_exact (hd : Sound k.disk) (hres : ∀ i : Fin 512, i.val < 3 → k.disk 1 i ≠ 0) (hB : Named B)
    (hk : ∀ key ∈ keys, key ≠ 0x0D) (ht : typed keys = copyLine A B) (hm : reach keys < 40)
    (unusedSectors : ℕ → Int16) (line buffer : Buffer) : CopyRight A B keys unusedSectors line buffer k ↔
      findFile A (k.disk 2) ≠ none ∨ findFile B (k.disk 2) ≠ none ∨ ∀ e, InUse (k.disk 2) e := by
  have hneg : ¬ 26 < (-1 : Int16) := by decide
  constructor
  · intro h
    by_contra! hno
    obtain ⟨hA, hfind, hroom⟩ := hno
    exact copy_missing hB hk ht hm hA hfind hroom (h.missing hA)
  · intro h
    constructor
    · intro hA
      rw [copyEnds_iff hk ht hm]
      refine ⟨-1, buffer, ?_⟩
      simp only [readFile_none hA, hneg, not_false_eq_true, true_and]
      rcases hfind : findFile B (k.disk 2) with _ | e
      · have hfull : ∀ e, InUse (k.disk 2) e := by
          rcases h with h | h | h
          · exact absurd hA h
          · exact absurd hfind h
          · exact h
        refine ⟨-1, writeFile_none ?_⟩
        rw [writingEntry, hfind, Option.none_or, freeEntry, List.find?_eq_none]
        exact fun e _ => by simpa [InUse] using hfull e
      · refine ⟨0, ?_⟩
        rw [writeFile_neg_one (by rw [writingEntry, hfind, Option.some_or]), filled_zero (findFile_name hfind)]
    · intro a hA hB' hroom hfree
      obtain ⟨n, buf, r, d', hr, h26, hw, hc⟩ := copy_copied hd hres hA hB' hroom hfree unusedSectors buffer
      exact ⟨d', (copyEnds_iff hk ht hm).2 ⟨n, buf, r, hr, h26, hw⟩, hc⟩

/-- A name of six times the same letter. -/
def six (c : UInt8) : FileName := fun _ => c

/-- A kernel with one file, `AAAAAA`. -/
def sixKernel : Kernel := namedKernel (six 0x41)

/-- The line `copy AAAAAA BBBBBB`. -/
theorem copy_exact_six : CopyRight (six 0x41) (six 0x42) (copyLine (six 0x41) (six 0x42)) (fun _ => 0) (fun _ => 0)
    (fun _ => 0) sixKernel :=
  (copy_exact (by decide +kernel) (by decide +kernel) (by decide) (by decide +kernel) (by decide +kernel)
    (by decide +kernel) _ _ _).2 (.inl (by decide +kernel))

/-- **A missing file is made**: `copy CCCCCC BBBBBB` does not leave the disk as
    it was. -/
theorem copy_makes : Sound sixKernel.disk ∧ (∀ i : Fin 512, i.val < 3 → sixKernel.disk 1 i ≠ 0) ∧
    findFile (six 0x43) (sixKernel.disk 2) = none ∧
    ¬ CopyEnds (copyLine (six 0x43) (six 0x42)) (fun _ => 0) (fun _ => 0) (fun _ => 0) sixKernel sixKernel.disk := by
  have hA : findFile (six 0x43) (sixKernel.disk 2) = none := by decide +kernel
  exact ⟨by decide +kernel, by decide +kernel, hA, copy_missing (B := six 0x42) (by decide) (by decide +kernel)
    (by decide +kernel) (by decide +kernel) hA (by decide +kernel) ⟨1, by decide +kernel⟩⟩

end TeamXtremeOS
