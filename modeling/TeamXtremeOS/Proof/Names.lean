/-
  File names stay unique.  A write puts its name where the name is, or where no
  name is; a deletion may run on into other entries, but a name it has cleared
  bytes of has lost the first one.
-/
import TeamXtremeOS.Proof.Allocation

namespace TeamXtremeOS

open Lib

variable {dir : Sector} {d d' : Disk} {e e' : Fin 16} {f : FileName} {l : List UInt8} {k n : ℕ} {b : Buffer}
  {i : Fin 512} {cs : List FileCall} {unusedSectors : ℕ → Int16}

/-- No two entries in use have the same name. -/
def NamesUnique (dir : Sector) : Prop :=
  ∀ e e', InUse dir e → InUse dir e' → entryName dir e = entryName dir e' → e = e'

instance (dir : Sector) : Decidable (NamesUnique dir) :=
  inferInstanceAs (Decidable (∀ e e', InUse dir e → InUse dir e' → entryName dir e = entryName dir e' → e = e'))

/-! ## Writing -/

theorem NamesUnique.entered (hd : NamesUnique dir) (he : EntryFor dir f e) (hl : l.length ≤ 26) :
    NamesUnique (entered e f l dir) := by
  intro e₁ e₂ h1 h2 hn
  rw [inUse_iff, entryName_entered hl] at h1 h2
  rw [entryName_entered hl, entryName_entered hl] at hn
  rcases he with rfl | ⟨-, hnew⟩
  · -- the name was there before
    have hsame : ∀ e' : Fin 16, (if e' = e then entryName dir e else entryName dir e') = entryName dir e' := by
      intro e'
      split_ifs with h
      · rw [h]
      · rfl
    rw [hsame] at h1 h2
    rw [hsame, hsame] at hn
    exact hd e₁ e₂ h1 h2 hn
  · split_ifs at h1 h2 hn with he1 he2 he2
    · rw [he1, he2]
    · exact absurd hn.symm (hnew e₂)
    · exact absurd hn (hnew e₁)
    · exact hd e₁ e₂ h1 h2 hn

/-- More than 26 sectors are cut to 26. -/
theorem writeFile_cut {sectors : Int16} (h : sectors > 26) :
    writeFile f b sectors unusedSectors = writeFile f b 26 unusedSectors := by
  simp only [writeFile, if_pos h]
  rfl

/-- A write that finds its sectors leaves the directory alone, or enters the file. -/
theorem writeFile_dir {sectors : Int16} (hz : min sectors.toInt 26 ≤ zeroBytes (d 1)) : ∃ r d',
    (writeFile f b sectors unusedSectors).exec d = some (r, d') ∧ (d' = d ∨
      ∃ e l, writingEntry f (d 2) = some e ∧ l.length ≤ 26 ∧ d' 2 = entered e f l (d 2)) := by
  have hcut : ∃ n : Int16, n.toInt ≤ 26 ∧ n.toInt ≤ zeroBytes (d 1) ∧
      writeFile f b sectors unusedSectors = writeFile f b n unusedSectors := by
    by_cases h : sectors > 26
    · refine ⟨26, le_rfl, ?_, writeFile_cut h⟩
      rwa [min_eq_right (gt_26_iff.1 h).le] at hz
    · rw [gt_26_iff, not_lt] at h
      rw [min_eq_left h] at hz
      exact ⟨sectors, h, hz, rfl⟩
  obtain ⟨n, h26, hz, heq⟩ := hcut
  rw [heq]
  rcases he : writingEntry f (d 2) with _ | e
  · exact ⟨_, _, writeFile_none he, .inl rfl⟩
  · have hlen : (unusedOf (d 1) n.toInt.toNat).length = n.toInt.toNat := by
      rw [length_unusedOf]
      omega
    refine ⟨_, _, writeFile_found he h26 rfl hlen, .inr ⟨e, (unusedOf (d 1) n.toInt.toNat).map sectorNo, rfl, ?_, ?_⟩⟩
    · rw [List.length_map]
      omega
    · rw [Function.update_of_ne (by omega), written, Function.update_self]

/-! ## Deleting -/

theorem putList_zeros (hn : 32 * e.val + 6 + k + n ≤ 512) : putList e k (List.replicate n 0) dir i =
    if 32 * e.val + 6 + k ≤ i.val ∧ i.val < 32 * e.val + 6 + k + n then 0 else dir i := by
  induction n generalizing k dir with
  | zero => rw [List.replicate_zero, putList, if_neg (by omega)]
  | succ n ih =>
    have hpos : i = entryByte e (6 + k) ↔ i.val = 32 * e.val + (6 + k) := by
      rw [entryByte_eq (by omega), Fin.ext_iff]
    rw [List.replicate_succ, putList, ih (by omega), Function.update_apply]
    simp only [hpos]
    split_ifs <;> first | rfl | omega

/-- **A walk that clears a byte of a name** has cleared its first one: it starts
    behind the name of its own entry. -/
theorem entryName_walked (hl : walk dir e = some l) (hlive : InUse (putList e 0 (List.replicate l.length 0)
      (Function.update dir (entryByte e 0) 0)) e') :
    e' ≠ e ∧ entryName (putList e 0 (List.replicate l.length 0) (Function.update dir (entryByte e 0) 0)) e' =
      entryName dir e' := by
  have hlen := length_walk hl
  have hpos : (entryByte e' 0).val = 32 * e'.val := by
    rw [entryByte_eq (by omega)]
    rfl
  rw [InUse, nameByte, putList_zeros (by omega), hpos, Nat.add_zero] at hlive
  split_ifs at hlive with h0
  · exact absurd rfl hlive
  have hne : e' ≠ e := by
    rintro rfl
    rw [Function.update_self] at hlive
    exact hlive rfl
  have hval : e'.val ≠ e.val := fun h => hne (Fin.ext h)
  refine ⟨hne, funext fun i => ?_⟩
  rw [entryName, nameByte, putList_zeros (by omega), entryByte_eq (by omega), if_neg (by simp only; omega),
    Function.update_of_ne]
  · rw [← entryByte_eq, entryName, nameByte]
  · rw [← entryByte_eq, Ne, entryByte_inj (by omega) (by omega)]
    exact fun h => hne h.1

theorem NamesUnique.walked (hd : NamesUnique dir) (hl : walk dir e = some l) :
    NamesUnique (putList e 0 (List.replicate l.length 0) (Function.update dir (entryByte e 0) 0)) := by
  intro e₁ e₂ h1 h2 hn
  have hn1 := (entryName_walked hl h1).2
  have hn2 := (entryName_walked hl h2).2
  rw [inUse_iff, hn1] at h1
  rw [inUse_iff, hn2] at h2
  rw [hn1, hn2] at hn
  exact hd e₁ e₂ h1 h2 hn

/-! ## The calls -/

namespace FileCall

/-- A write finds as many zero bytes in the map as it asks for, and the walk of
    a deletion ends in the directory. -/
def InBounds (d : Disk) : FileCall → Prop
  | .writeFile _ _ sectors _ => min sectors.toInt 26 ≤ zeroBytes (d 1)
  | .deleteFile fname => ∀ e, findFile fname (d 2) = some e → (walk (d 2) e).isSome

instance : ∀ (d : Disk) (c : FileCall), Decidable (InBounds d c)
  | _, .writeFile .. => inferInstanceAs (Decidable (_ ≤ _))
  | d, .deleteFile fname =>
    inferInstanceAs (Decidable (∀ e, findFile fname (d 2) = some e → (walk (d 2) e).isSome))

/-- **A call** comes to an end, and names stay unique. -/
theorem step_names (hd : NamesUnique (d 2)) {c : FileCall} (hc : InBounds d c) :
    ∃ d', step d c = some d' ∧ NamesUnique (d' 2) := by
  cases c with
  | writeFile f b sectors unusedSectors =>
    obtain ⟨r, d', hw, hdir⟩ : ∃ r d', (TeamXtremeOS.writeFile f b sectors unusedSectors).exec d = some (r, d') ∧ _ :=
      writeFile_dir hc
    refine ⟨d', by rw [step_writeFile, hw, Option.map_some], ?_⟩
    rcases hdir with rfl | ⟨e, l, he, hl, hdir⟩
    · exact hd
    · rw [hdir]
      exact hd.entered (writingEntry_for he) hl
  | deleteFile f =>
    rcases hf : findFile f (d 2) with _ | e
    · exact ⟨d, by rw [step_deleteFile, deleteFile_none hf, Option.map_some], hd⟩
    · obtain ⟨l, hl⟩ := Option.isSome_iff_exists.1 (hc e hf)
      refine ⟨_, by rw [step_deleteFile, deleteFile_walk hf hl, Option.map_some], ?_⟩
      simp only
      rw [Function.update_of_ne (by omega), Function.update_self]
      exact hd.walked hl

end FileCall

/-- **File names stay unique** in every run of calls, whatever they are called
    with; no call fails to come to an end. -/
theorem names_unique (hd : NamesUnique (d 2)) (hr : Run FileCall.step FileCall.InBounds d cs d') :
    NamesUnique (d' 2) ∧ ∀ c, FileCall.InBounds d' c → (FileCall.step d' c).isSome := by
  have hinv : NamesUnique (d' 2) := by
    refine hr.invariant (I := fun d => NamesUnique (d 2)) ?_ hd
    intro d c d₁ hd hc hs
    obtain ⟨d₂, hs₂, hd₂⟩ := FileCall.step_names hd hc
    rw [hs, Option.some.injEq] at hs₂
    rwa [hs₂]
  refine ⟨hinv, ?_⟩
  intro c hc
  obtain ⟨d₂, hs, -⟩ := FileCall.step_names hinv hc
  rw [hs]
  rfl

/-- A file is written at full length, a name that starts with a zero byte, a
    file without sectors; and the first one is deleted. -/
theorem names_unique_full : ∃ d', Run FileCall.step FileCall.InBounds twoSectorDisk
    [.writeFile fileA (fun _ => 7) 40 fun _ => 0, .writeFile (letter 0) (fun _ => 7) (-3) fun _ => 0,
      .writeFile fileB (fun _ => 7) 0 fun _ => 0, .deleteFile fileA] d' ∧
    NamesUnique (d' 2) := by
  have h : (evalRun FileCall.step FileCall.InBounds twoSectorDisk
      [.writeFile fileA (fun _ => 7) 40 fun _ => 0, .writeFile (letter 0) (fun _ => 7) (-3) fun _ => 0,
        .writeFile fileB (fun _ => 7) 0 fun _ => 0, .deleteFile fileA]).any (fun _ => true) = true := by
    decide +kernel
  obtain ⟨d', hr, -⟩ := Run.exists_of_evalRun h
  exact ⟨d', hr, (names_unique (by decide +kernel) hr).1⟩

end TeamXtremeOS
