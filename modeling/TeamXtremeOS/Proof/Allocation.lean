/-
  Which sectors `writeFile` takes.  Its search goes over all 512 bytes of the
  map, but an entry has one byte for a sector: the number that is stored, and
  written to, is the index modulo 256.
-/
import TeamXtremeOS.Proof.Files

namespace TeamXtremeOS

open Lib

variable {diskMap : Sector} {d d' : Disk} {e : Fin 16} {f : FileName} {k n : ℕ} {b : Buffer}
  {z w : Fin 512} {l : List UInt8}

/-- The number of zero bytes of the map. -/
def zeroBytes (diskMap : Sector) : ℕ := (List.finRange 512).countP fun j => diskMap j = 0

theorem length_unusedOf (diskMap : Sector) (n : ℕ) :
    (unusedOf diskMap n).length = min n (zeroBytes diskMap) := by
  rw [unusedOf, List.length_take, zeroBytes, List.countP_eq_length_filter]

/-- The search takes the first zero bytes: those before a sector that is taken
    are taken too. -/
theorem mem_unusedOf_of_lt (hz : z ∈ unusedOf diskMap n) (hlt : w < z) (hw : diskMap w = 0) :
    w ∈ unusedOf diskMap n := by
  have hsorted := (List.pairwise_lt_finRange 512).filter fun j => diskMap j = 0
  have hmem : w ∈ (List.finRange 512).filter fun j => diskMap j = 0 := by
    rw [List.mem_filter]
    exact ⟨List.mem_finRange w, by simpa using hw⟩
  rw [← List.take_append_drop n ((List.finRange 512).filter fun j => diskMap j = 0)] at hsorted hmem
  rcases List.mem_append.1 hmem with h | h
  · exact h
  · exact absurd ((List.pairwise_append.1 hsorted).2.2 z hz w h) (not_lt.2 hlt.le)

theorem store_dataWrites_ne (h : Prog.store (dataWrites b 0 l) d k ≠ d k) : ∃ s ∈ l, s.toNat = k := by
  by_contra hno
  refine h (Prog.store_of_notMem (fun w hw he => hno ?_) d)
  have hm : w.1 ∈ (dataWrites b 0 l).map Prod.fst := List.mem_map_of_mem hw
  rw [fst_dataWrites, he] at hm
  exact List.mem_map.1 hm

/-- A write changes the map, the directory and free sectors only, and what it
    stores in the entry are sectors it has marked. -/
structure TakesFree (d d' : Disk) (f : FileName) (n : ℕ) : Prop where
  changed : ∀ k, k ≠ 1 → k ≠ 2 → d' k ≠ d k → ∃ z : Fin 512, z.val = k ∧ d 1 z = 0
  stored : ∀ e, writingEntry f (d 2) = some e → ∀ j < n,
    ∃ z : Fin 512, z.val = (sectorByte (d' 2) e j).toNat ∧ d 1 z = 0 ∧ d' 1 z ≠ 0

/-- **A write takes free sectors only** if the map byte 256 places before each
    taken one that is at 256 or above is zero as well, and only then. -/
theorem takesFree_iff {n : Int16} {unusedSectors : ℕ → Int16} (h1 : 1 ≤ n.toInt) (h26 : n.toInt ≤ 26)
    (hz : n.toInt ≤ zeroBytes (d 1)) (hw : (writeFile f b n unusedSectors).exec d = some (n, d')) :
    TakesFree d d' f n.toInt.toNat ↔ ∀ z ∈ unusedOf (d 1) n.toInt.toNat,
      ∀ w : Fin 512, w.val + 256 = z.val → d 1 w = 0 := by
  have hlen : (unusedOf (d 1) n.toInt.toNat).length = n.toInt.toNat := by
    rw [length_unusedOf]
    omega
  rcases he : writingEntry f (d 2) with _ | e
  · rw [writeFile_none he, Option.some.injEq, Prod.mk.injEq] at hw
    have : n.toInt = -1 := by rw [← hw.1]; rfl
    omega
  rw [writeFile_found he h26 rfl hlen, Option.some.injEq, Prod.mk.injEq] at hw
  obtain ⟨-, rfl⟩ := hw
  generalize hm : n.toInt.toNat = m at hlen ⊢
  have hdir : Function.update (written e f b m d) 1 (setAll 0xFF (unusedOf (d 1) m) (d 1)) 2 =
      entered e f ((unusedOf (d 1) m).map sectorNo) (d 2) := by
    rw [Function.update_of_ne (by omega), written, Function.update_self]
  have hbyte : ∀ j z, (unusedOf (d 1) m)[j]? = some z →
      sectorByte (entered e f ((unusedOf (d 1) m).map sectorNo) (d 2)) e j = sectorNo z := by
    intro j z hj
    obtain ⟨hlt, rfl⟩ := List.getElem?_eq_some_iff.1 hj
    rw [sectorByte_entered (by rw [List.length_map]; omega) (by omega),
      if_pos ⟨rfl, by rwa [List.length_map]⟩, List.getD_eq_getElem _ _ (by rwa [List.length_map]),
      List.getElem_map]
  constructor
  · intro h z hz w hw
    obtain ⟨j, hj⟩ := List.mem_iff_getElem?.1 hz
    have hjm : j < m := hlen ▸ (List.getElem?_eq_some_iff.1 hj).1
    obtain ⟨z', hz', hfree, -⟩ := h.stored e he j hjm
    rw [hdir, hbyte j z hj, sectorNo_toNat] at hz'
    rwa [show w = z' from Fin.ext (by omega)]
  · intro h
    -- the number of a taken sector is the index of a taken sector
    have hno : ∀ z ∈ unusedOf (d 1) m, ∃ w ∈ unusedOf (d 1) m, w.val = (sectorNo z).toNat := by
      intro z hz
      rw [sectorNo_toNat]
      by_cases hlt : z.val < 256
      · exact ⟨z, hz, (Nat.mod_eq_of_lt hlt).symm⟩
      · have hw := h z hz ⟨z.val - 256, by omega⟩ (by simp only; omega)
        exact ⟨_, mem_unusedOf_of_lt hz (Fin.mk_lt_of_lt_val (by omega)) hw, by simp only; omega⟩
    constructor
    · intro k hk1 hk2 hne
      rw [Function.update_of_ne hk1, written, Function.update_of_ne hk2] at hne
      obtain ⟨s, hs, rfl⟩ := store_dataWrites_ne hne
      obtain ⟨z, hz, rfl⟩ := List.mem_map.1 hs
      obtain ⟨w, hw, hval⟩ := hno z hz
      exact ⟨w, hval, unusedOf_free hw⟩
    · intro e' he' j hj
      rw [he, Option.some.injEq] at he'
      subst he'
      obtain ⟨z, hz⟩ : ∃ z, (unusedOf (d 1) m)[j]? = some z :=
        ⟨_, List.getElem?_eq_getElem (by omega)⟩
      obtain ⟨w, hw, hval⟩ := hno z (List.mem_of_getElem? hz)
      refine ⟨w, ?_, unusedOf_free hw, ?_⟩
      · rw [hdir, hbyte j z hz, hval]
      · rw [Function.update_self, setAll_apply, if_pos hw]
        decide

/-- The free sectors of a small disk. -/
theorem takesFree_two : ∃ d', TakesFree twoSectorDisk d' fileB 2 := by
  have h : ((writeFile fileB (fun _ => 7) 2 fun _ => 0).exec twoSectorDisk).any (fun r => r.1 = 2) = true := by
    decide +kernel
  simp only [Option.any_eq_true, Prod.exists, decide_eq_true_eq] at h
  obtain ⟨_, d', hw, rfl⟩ := h
  exact ⟨d', (takesFree_iff (by decide) (by decide) (by decide +kernel) hw).2 (by decide +kernel)⟩

/-- A disk whose free sectors are those from 256 on. -/
def highDisk : Disk := fun k i => if k = 1 ∧ i.val < 256 then 0xFF else 0

/-- **A write to a disk that is full below 256** takes index 256 and writes to
    sector 0. -/
theorem boot_overwritten : (∀ i : Fin 512, i.val < 3 → highDisk 1 i ≠ 0) ∧ 1 ≤ zeroBytes (highDisk 1) ∧
    ∃ d', (writeFile fileA (fun _ => 7) 1 fun _ => 0).exec highDisk = some (1, d') ∧
      ¬ TakesFree highDisk d' fileA 1 := by
  refine ⟨by decide +kernel, by decide +kernel, ?_⟩
  have h : ((writeFile fileA (fun _ => 7) 1 fun _ => 0).exec highDisk).any
      (fun r => r.1 = 1 ∧ r.2 0 ≠ highDisk 0) = true := by decide +kernel
  simp only [Option.any_eq_true, Prod.exists, decide_eq_true_eq] at h
  obtain ⟨_, d', hw, rfl, hne⟩ := h
  refine ⟨d', hw, ?_⟩
  intro ht
  obtain ⟨z, hz, h0⟩ := ht.changed 0 (by omega) (by omega) hne
  obtain rfl : z = 0 := Fin.ext hz
  exact absurd h0 (by decide)

end TeamXtremeOS
