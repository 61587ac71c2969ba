/-
  Lists that fill their entry.  The loops of `readFile` and `deleteFile` stop
  at a zero byte only: behind 26 sectors it is the first byte of the next entry.
-/
import TeamXtremeOS.Proof.Files

namespace TeamXtremeOS

open Lib

variable {dir : Sector} {d d' : Disk} {e e' : Fin 16} {f : FileName} {o k : ℕ} {l : List UInt8}
  {buf : Buffer}

/-- The walk ends behind the 26 bytes if the next entry is not in use. -/
theorem terminated_next : terminated 0 (bytesFrom dir (32 * e.val + 32)) = some [] ↔
    ∃ e' : Fin 16, e'.val = e.val + 1 ∧ ¬ InUse dir e' := by
  by_cases hlt : 32 * e.val + 32 < 512
  · have hpos : entryByte ⟨e.val + 1, by omega⟩ 0 = ⟨32 * e.val + 32, hlt⟩ := by
      rw [entryByte_eq (by simp only; omega)]
      simp only [Fin.mk.injEq]
      omega
    rw [bytesFrom_of_lt hlt, terminated]
    constructor
    · intro h
      refine ⟨⟨e.val + 1, by omega⟩, rfl, ?_⟩
      split_ifs at h with h0
      · rw [InUse, nameByte, hpos, h0]
        simp
      · simp at h
    · rintro ⟨e', he', hl⟩
      have hee : e' = ⟨e.val + 1, by omega⟩ := Fin.ext he'
      rw [hee, InUse, nameByte, hpos, not_not] at hl
      rw [if_pos hl]
  · rw [bytesFrom_of_le (by omega)]
    constructor
    · intro h
      cases h
    · rintro ⟨e', he', -⟩
      omega

/-- **A walk meets the list and nothing else** if the list is short or the next
    entry is not in use. -/
theorem walk_exact : (∃ l, walk dir e = some l ∧ l.length = (sectors dir e).length) ↔
    (sectors dir e).length ≤ 25 ∨ ∃ e' : Fin 16, e'.val = e.val + 1 ∧ ¬ InUse dir e' := by
  constructor
  · rintro ⟨l, hl, hlen⟩
    refine or_iff_not_imp_left.2 ?_
    intro h25
    have h26 := length_sectors_le dir e
    rw [walk_long (by omega)] at hl
    obtain ⟨u, hu, rfl⟩ := Option.map_eq_some_iff.1 hl
    rw [List.length_append] at hlen
    rw [← terminated_next, hu, List.length_eq_zero_iff.1 (show u.length = 0 by omega)]
  · rintro (h25 | hnext)
    · exact ⟨_, walk_short h25, rfl⟩
    · by_cases h25 : (sectors dir e).length ≤ 25
      · exact ⟨_, walk_short h25, rfl⟩
      · have h26 := length_sectors_le dir e
        refine ⟨_, by rw [walk_long (by omega), terminated_next.2 hnext, Option.map_some], ?_⟩
        rw [List.append_nil]

theorem walk_eq_sectors (h : walk dir e = some l) (hlen : l.length = (sectors dir e).length) :
    l = sectors dir e := by
  have h26 := length_sectors_le dir e
  by_cases h25 : (sectors dir e).length ≤ 25
  · rw [walk_short h25, Option.some.injEq] at h
    exact h.symm
  · rw [walk_long (by omega)] at h
    obtain ⟨u, -, rfl⟩ := Option.map_eq_some_iff.1 h
    rw [List.length_append] at hlen
    rw [List.length_eq_zero_iff.1 (show u.length = 0 by omega), List.append_nil]

/-- `readFile` and `deleteFile` keep to the list of entry `e`: as many sectors
    are read as it has, none of them behind the 26th place of the buffer, and
    just these are freed, by stores to no other entry. -/
structure StaysInside (d : Disk) (f : FileName) (e : Fin 16) : Prop where
  read : ∀ buf, ∃ buf', (readFile f buf).exec d = some ((Int16.ofNat (sectors (d 2) e).length, buf'), d) ∧
    ∀ o, 26 * 512 ≤ o → buf' o = buf o
  delete : ∃ d', (deleteFile f).exec d = some (1, d') ∧
    (∀ i, d' 1 i = if i ∈ (sectors (d 2) e).map mapIndex then 0 else d 1 i) ∧
    ∀ e' ≠ e, ∀ o < 32, d' 2 (entryByte e' o) = d 2 (entryByte e' o)

theorem putList_other (hl : k + l.length ≤ 26) (hne : e' ≠ e) (ho : o < 32) :
    putList e k l dir (entryByte e' o) = dir (entryByte e' o) := by
  induction l generalizing k dir with
  | nil => rfl
  | cons s l ih =>
    rw [List.length_cons] at hl
    rw [putList, ih (by omega), Function.update_of_ne]
    rw [Ne, entryByte_inj ho (by omega)]
    exact fun h => hne h.1

theorem erased_other (hne : e' ≠ e) (ho : o < 32) : erased e dir (entryByte e' o) = dir (entryByte e' o) := by
  have h26 := length_sectors_le dir e
  rw [erased, putList_other (by rw [List.length_replicate]; omega) hne ho, Function.update_of_ne]
  rw [Ne, entryByte_inj ho (by omega)]
  exact fun h => hne h.1

/-- **The loops stay in the entry** if the file has at most 25 sectors or the
    next entry exists and is not in use, and only then. -/
theorem staysInside_iff (hf : findFile f (d 2) = some e) : StaysInside d f e ↔
    (sectors (d 2) e).length ≤ 25 ∨ ∃ e' : Fin 16, e'.val = e.val + 1 ∧ ¬ InUse (d 2) e' := by
  have h26 := length_sectors_le (d 2) e
  constructor
  · intro h
    rw [← walk_exact]
    obtain ⟨buf', hr, -⟩ := h.read fun _ => 0
    rw [readFile_walk hf, Option.map_eq_some_iff] at hr
    obtain ⟨l, hl, hr⟩ := hr
    simp only [Prod.mk.injEq] at hr
    have hlen := congrArg Int16.toInt hr.1.1
    have := length_walk hl
    rw [Int16.toInt_ofNat_of_lt (by omega), Int16.toInt_ofNat_of_lt (by omega)] at hlen
    exact ⟨l, hl, by omega⟩
  · intro h
    obtain ⟨l, hl, hlen⟩ := walk_exact.2 h
    obtain rfl := walk_eq_sectors hl hlen
    constructor
    · intro buf
      refine ⟨_, by rw [readFile_walk hf, hl, Option.map_some], ?_⟩
      intro o ho
      rw [putChunks_apply (by rw [List.length_map]; omega), if_neg (by omega),
        List.getElem?_eq_none (by rw [List.length_map]; omega), Option.elim_none]
    · refine ⟨_, deleteFile_walk hf hl, ?_, ?_⟩
      · intro i
        rw [Function.update_self, setAll_apply]
      · intro e' hne o ho
        rw [Function.update_of_ne (by omega), Function.update_self]
        exact erased_other hne ho

/-- A file that ends in its entry. -/
theorem staysInside_two : StaysInside twoSectorDisk fileA 0 :=
  (staysInside_iff (by decide +kernel)).2 (by decide +kernel)

/-- Files of 1 to 26 distinct used sectors, with zeros behind them, on disjoint
    lists. -/
def FilesOK (d : Disk) : Prop :=
  (∀ e, InUse (d 2) e → 1 ≤ (sectors (d 2) e).length ∧
    (∀ j < 26, (sectors (d 2) e).length ≤ j → sectorByte (d 2) e j = 0) ∧ (sectors (d 2) e).Nodup ∧
    ∀ s ∈ sectors (d 2) e, 3 ≤ s.toNat ∧ d 1 (mapIndex s) ≠ 0) ∧
  ∀ e e', InUse (d 2) e → InUse (d 2) e' → e ≠ e' → ∀ s ∈ sectors (d 2) e, s ∉ sectors (d 2) e'

instance (d : Disk) : Decidable (FilesOK d) := @instDecidableAnd _ _ inferInstance inferInstance

/-- A disk with the file `A` in the 26 sectors from 3 on, and the file `B` behind
    it. -/
def fullEntryDisk : Disk := fun k i =>
  if k = 1 then if i.val < 30 then 0xFF else 0
  else if k = 2 then
    if i.val = 0 then 0x41 else if 6 ≤ i.val ∧ i.val < 32 then UInt8.ofNat (i.val - 3)
    else if i.val = 32 then 0x42 else if i.val = 38 then 29 else 0
  else 0

/-- **A file of 26 sectors before another file** is read with a sector too many:
    the first letter of the other name is taken for its number. -/
theorem runs_on : FilesOK fullEntryDisk ∧ findFile fileA (fullEntryDisk 2) = some 0 ∧
    InUse (fullEntryDisk 2) 0 ∧ ¬ StaysInside fullEntryDisk fileA 0 := by
  refine ⟨by decide +kernel, by decide +kernel, by decide +kernel, ?_⟩
  intro h
  obtain ⟨buf', hr, -⟩ := h.read fun _ => 0
  have hcount : ((readFile fileA fun _ => 0).exec fullEntryDisk).any (fun r => r.1.1 = 27) = true := by
    decide +kernel
  have hlen : (sectors (fullEntryDisk 2) 0).length = 26 := by decide +kernel
  rw [hr, Option.any_some, hlen] at hcount
  simp at hcount

end TeamXtremeOS
