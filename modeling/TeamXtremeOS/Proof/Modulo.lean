/-
  `mod` of `kernel.c`: where its loop ends and what it has computed by then, in
  its safe range and where its sums leave 16 bits.

  In 16 bits `modulo + temp` stays `modulo + number`, so the loop can end with
  the remainder only at the first multiple of `modulo` above `number`.
-/
import TeamXtremeOS.Disk
import TeamXtremeOS.Lib.While

namespace TeamXtremeOS

open Lib

variable {number modulo div m t r : Int16} {s : Int16 × Int16} {fuel n : ℕ}

/-! ## Numbers -/

theorem ofNat_succ (n : ℕ) : Int16.ofNat n + 1 = Int16.ofNat (n + 1) := by
  rw [Int16.ofNat_add]
  rfl

theorem ofNat_lt_ofNat {m n : ℕ} (hm : m < 2 ^ 15) (hn : n < 2 ^ 15) : Int16.ofNat m < Int16.ofNat n ↔ m < n := by
  rw [Int16.lt_iff_toInt_lt, Int16.toInt_ofNat_of_lt hm, Int16.toInt_ofNat_of_lt hn, Nat.cast_lt]

theorem div_ofNat {n m : ℕ} (hn : n < 2 ^ 15) (hm : m < 2 ^ 15) :
    Int16.ofNat n / Int16.ofNat m = Int16.ofNat (n / m) := by
  have hm' := Int16.toInt_ofNat_of_lt hm
  rw [← Int16.toInt_inj, Int16.toInt_div_of_ne_right, Int16.toInt_ofNat_of_lt hn, hm',
    Int16.toInt_ofNat_of_lt (lt_of_le_of_lt (Nat.div_le_self n m) hn)]
  · rfl
  · intro h; rw [h] at hm'; simp at hm'

/-- Addition wraps around, so it is right modulo `2 ^ 16`. -/
theorem toInt_add_emod (a b : Int16) : (a + b).toInt % 65536 = (a.toInt + b.toInt) % 65536 := by
  rw [Int16.toInt_add]
  exact Int.bmod_emod (m := 65536)

/-! ## The loop -/

/-- One turn of the loop of `mod`, on `modulo` and `temp`. -/
def modTurn (div : Int16) (s : Int16 × Int16) : Int16 × Int16 := (s.1 + div, s.2 - div)

theorem modLoop_eq : modLoop number div fuel m t =
    (whileLoop (fun s => s.1 ≤ number) (modTurn div) fuel (m, t)).map Prod.snd := by
  induction fuel generalizing m t with
  | zero => rfl
  | succ fuel ih =>
    rw [modLoop, whileLoop]
    split_ifs
    · exact ih
    · rfl

/-- The values of `modulo` and `temp` at the tests of the loop. -/
abbrev ModPasses (number modulo : Int16) : Int16 × Int16 → Prop :=
  Passes (fun s => s.1 ≤ number) (modTurn modulo) (modulo, number)

/-- The loop ends, after any number of turns, and `mod` returns `r`. -/
def ModReturns (number modulo r : Int16) : Prop :=
  ∃ fuel, modLoop number modulo fuel modulo number = some r

theorem modReturns_iff : ModReturns number modulo r ↔ ∃ m, ModPasses number modulo (m, r) ∧ number < m := by
  simp only [ModReturns, modLoop_eq, Option.map_eq_some_iff, ← Int16.not_le]
  constructor
  · rintro ⟨fuel, ⟨m, t⟩, h, rfl⟩
    exact ⟨m, whileLoop_passes h⟩
  · rintro ⟨m, h⟩
    obtain ⟨fuel, hf⟩ := exists_whileLoop_iff.2 h
    exact ⟨fuel, _, hf, rfl⟩

theorem modTurn_iterate : (modTurn div)^[n] (m, t) = (m + Int16.ofNat n * div, t - Int16.ofNat n * div) := by
  induction n generalizing m t with
  | zero => simp
  | succ n ih =>
    have h1 : m + div + Int16.ofNat n * div = m + (Int16.ofNat n + 1) * div := by grind
    have h2 : t - div - Int16.ofNat n * div = t - (Int16.ofNat n + 1) * div := by grind
    rw [Function.iterate_succ_apply, modTurn, ih, h1, h2, ofNat_succ]

/-- After `2 ^ 16` turns the variables have their first values again: the tests
    `mod` makes are enough. -/
theorem mod_eq_some_iff : mod number modulo = some r ↔ ModReturns number modulo r := by
  constructor
  · intro h
    exact ⟨65536, h⟩
  · rintro ⟨fuel, h⟩
    rw [modLoop_eq, Option.map_eq_some_iff] at h
    obtain ⟨s, hs, rfl⟩ := h
    rw [mod, modLoop_eq]
    rcases hw : whileLoop (fun s => s.1 ≤ number) (modTurn modulo) 65536 (modulo, number) with _ | s'
    · have hback : (modTurn modulo)^[65536] (modulo, number) = (modulo, number) := by
        rw [modTurn_iterate, show Int16.ofNat 65536 = 0 from rfl]
        simp
      rw [whileLoop_none_of_iterate (by omega) hback hw] at hs
      cases hs
    · rw [whileLoop_unique hs hw]
      exact congrArg (Option.map Prod.snd) hw

/-- The sum of the variables does not change, in 16 bits. -/
theorem ModPasses.add (h : ModPasses number modulo s) : s.1 + s.2 = modulo + number := by
  refine h.invariant (I := fun s => s.1 + s.2 = modulo + number) ?_ rfl
  intro s hs _
  have hturn : s.1 + modulo + (s.2 - modulo) = s.1 + s.2 := by grind
  exact hturn.trans hs

/-! ## The remainder -/

/-- What a turn keeps while its sums and differences fit in 16 bits. -/
structure ModInv (number modulo : Int16) (s : Int16 × Int16) : Prop where
  sum : s.1.toInt + s.2.toInt = modulo.toInt + number.toInt
  rem : s.2.toInt % modulo.toInt = number.toInt % modulo.toInt
  nonneg : 0 ≤ s.2.toInt

/-- The first multiple of `modulo` above `number` is an `int`. -/
def NextMultipleFits (number modulo : Int16) : Prop :=
  number.toInt - number.toInt % modulo.toInt + modulo.toInt ≤ 32767

namespace ModInv

theorem start (hn : 0 ≤ number.toInt) : ModInv number modulo (modulo, number) := ⟨rfl, rfl, hn⟩

/-- The sum and the difference of a turn. -/
theorem fits (h : ModInv number modulo s) (hm : 1 ≤ modulo.toInt) (hfit : NextMultipleFits number modulo)
    (hle : s.1.toInt ≤ number.toInt) : s.1.toInt + modulo.toInt ≤ 32767 ∧ 0 ≤ s.2.toInt - modulo.toInt := by
  have hsum := h.sum
  have hrem : (s.2.toInt - modulo.toInt) % modulo.toInt = number.toInt % modulo.toInt := by
    rw [Int.sub_emod_right, h.rem]
  have hdiv := Int.mul_ediv_add_emod (s.2.toInt - modulo.toInt) modulo.toInt
  have hq : 0 ≤ modulo.toInt * ((s.2.toInt - modulo.toInt) / modulo.toInt) :=
    mul_nonneg (by omega) (Int.ediv_nonneg (by omega) (by omega))
  rw [NextMultipleFits] at hfit
  omega

theorem turn (h : ModInv number modulo s) (hm : 1 ≤ modulo.toInt) (hfit : NextMultipleFits number modulo)
    (hle : s.1.toInt ≤ number.toInt) : ModInv number modulo (modTurn modulo s) ∧
      (modTurn modulo s).2.toInt = s.2.toInt - modulo.toInt := by
  obtain ⟨hadd, hsub⟩ := h.fits hm hfit hle
  have h1 : (s.1 + modulo).toInt = s.1.toInt + modulo.toInt := by
    rw [Int16.toInt_add]
    exact Int.bmod_eq_of_le (by have := s.1.le_toInt; omega) (by omega)
  have h2 : (s.2 - modulo).toInt = s.2.toInt - modulo.toInt := by
    rw [Int16.toInt_sub]
    exact Int.bmod_eq_of_le (by omega) (by have := s.2.toInt_lt; omega)
  have hsum := h.sum
  refine ⟨⟨?_, ?_, ?_⟩, h2⟩
  · rw [modTurn, h1, h2]
    omega
  · rw [modTurn, h2, Int.sub_emod_right, h.rem]
  · rw [modTurn, h2]
    exact hsub

/-- At the end of the loop `temp` is the remainder. -/
theorem result (h : ModInv number modulo s) (hend : number.toInt < s.1.toInt) :
    s.2.toInt = number.toInt % modulo.toInt := by
  have hsum := h.sum
  rw [← h.rem, Int.emod_eq_of_lt h.nonneg (by omega)]

end ModInv

theorem ModPasses.inv (hm : 1 ≤ modulo.toInt) (hn : 0 ≤ number.toInt) (hfit : NextMultipleFits number modulo)
    (h : ModPasses number modulo s) : ModInv number modulo s :=
  h.invariant (fun _ hs hle => (hs.turn hm hfit (Int16.le_iff_toInt_le.1 hle)).1) (.start hn)

/-- **`mod` is the remainder** when the next multiple fits. -/
theorem modReturns_remainder (hm : 1 ≤ modulo.toInt) (hn : 0 ≤ number.toInt)
    (hfit : NextMultipleFits number modulo) :
    ∃ r, ModReturns number modulo r ∧ r.toInt = number.toInt % modulo.toInt := by
  have hturn : ∀ s : Int16 × Int16, ModInv number modulo s → s.1 ≤ number →
      ModInv number modulo (modTurn modulo s) ∧ (modTurn modulo s).2.toInt.toNat < s.2.toInt.toNat := by
    intro s hs hle
    have hle' := Int16.le_iff_toInt_le.1 hle
    obtain ⟨hinv, htemp⟩ := hs.turn hm hfit hle'
    have hsum := hs.sum
    exact ⟨hinv, by omega⟩
  obtain ⟨⟨m, r⟩, h⟩ := exists_whileLoop_of_variant (μ := fun s : Int16 × Int16 => s.2.toInt.toNat) hturn
    (ModInv.start hn) (Nat.lt_succ_self _)
  obtain ⟨hp, hend⟩ := whileLoop_passes h
  rw [Int16.not_le] at hend
  exact ⟨r, modReturns_iff.2 ⟨m, hp, hend⟩, (ModPasses.inv hm hn hfit hp).result (Int16.lt_iff_toInt_lt.1 hend)⟩

theorem nextMultipleFits_of_le (hm : 1 ≤ modulo.toInt) (hb : number.toInt + modulo.toInt ≤ 32767) :
    NextMultipleFits number modulo := by
  have h0 := Int.emod_nonneg number.toInt (show modulo.toInt ≠ 0 by omega)
  rw [NextMultipleFits]
  omega

theorem mod_spec (hn : 0 ≤ number.toInt) (hm : 1 ≤ modulo.toInt) (hb : number.toInt + modulo.toInt ≤ 32767) :
    ∃ r, mod number modulo = some r ∧ r.toInt = number.toInt % modulo.toInt := by
  obtain ⟨r, hr, hrem⟩ := modReturns_remainder hm hn (nextMultipleFits_of_le hm hb)
  exact ⟨r, mod_eq_some_iff.2 hr, hrem⟩

theorem mod_ofNat {n m : ℕ} (hm : 1 ≤ m) (hb : n + m ≤ 32767) :
    mod (Int16.ofNat n) (Int16.ofNat m) = some (Int16.ofNat (n % m)) := by
  have hn := Int16.toInt_ofNat_of_lt (show n < 2 ^ 15 by omega)
  have hm' := Int16.toInt_ofNat_of_lt (show m < 2 ^ 15 by omega)
  have hr := Int16.toInt_ofNat_of_lt (show n % m < 2 ^ 15 by have := Nat.mod_le n m; omega)
  obtain ⟨r, h1, h2⟩ := @mod_spec (Int16.ofNat n) (Int16.ofNat m)
    (by omega) (by omega) (by omega)
  rw [h1, Option.some.injEq, ← Int16.toInt_inj, h2, hn, hm', hr]
  rfl

/-- **Where the next multiple does not fit** the loop does not end with the
    remainder. -/
theorem nextMultipleFits_of_modReturns (hm : 1 ≤ modulo.toInt) (hn : 0 ≤ number.toInt)
    (h : ModReturns number modulo r) (hr : r.toInt = number.toInt % modulo.toInt) :
    NextMultipleFits number modulo := by
  obtain ⟨m, hp, hend⟩ := modReturns_iff.1 h
  have hsum : (m.toInt + r.toInt) % 65536 = (modulo.toInt + number.toInt) % 65536 := by
    rw [← toInt_add_emod, ← toInt_add_emod, hp.add]
  rw [Int16.lt_iff_toInt_lt] at hend
  have h0 := Int.emod_nonneg number.toInt (show modulo.toInt ≠ 0 by omega)
  have hlt := Int.emod_lt_of_pos number.toInt (show 0 < modulo.toInt by omega)
  have hmax := m.toInt_lt
  have hmodmax := modulo.toInt_lt
  have hnmax := number.toInt_lt
  rw [NextMultipleFits]
  omega

/-! ## The safe range -/

/-- The numbers an `int` can hold. -/
def FitsInt (x : ℤ) : Prop := -32768 ≤ x ∧ x ≤ 32767

/-- **`mod` is the remainder within its safe range**, and no sum or difference
    leaves 16 bits on the way. -/
theorem mod_safe (hn : 0 ≤ number.toInt) (hm : 1 ≤ modulo.toInt) (hb : number.toInt + modulo.toInt ≤ 32767) :
    (∃ r, mod number modulo = some r ∧ (0 ≤ r.toInt ∧ r.toInt < modulo.toInt ∧
        modulo.toInt ∣ number.toInt - r.toInt) ∧
      ∀ x, 0 ≤ x → x < modulo.toInt → modulo.toInt ∣ number.toInt - x → x = r.toInt) ∧
    ∀ m t, ModPasses number modulo (m, t) → m ≤ number →
      FitsInt (m.toInt + modulo.toInt) ∧ FitsInt (t.toInt - modulo.toInt) := by
  constructor
  · obtain ⟨r, hr, hrem⟩ := mod_spec hn hm hb
    have h0 := Int.emod_nonneg number.toInt (show modulo.toInt ≠ 0 by omega)
    have hlt := Int.emod_lt_of_pos number.toInt (show 0 < modulo.toInt by omega)
    refine ⟨r, hr, ⟨by omega, by omega, ?_⟩, ?_⟩
    · rw [hrem]
      exact Int.dvd_self_sub_emod
    · intro x hx0 hx hdvd
      rw [hrem]
      exact ((Int.emod_eq_iff (by omega)).2 ⟨hx0, by omega, dvd_sub_comm.1 hdvd⟩).symm
  · intro m t hp hle
    have hfit := nextMultipleFits_of_le hm hb
    obtain ⟨hadd, hsub⟩ := (hp.inv hm hn hfit).fits hm hfit (Int16.le_iff_toInt_le.1 hle)
    have hmin := m.le_toInt
    have hmax := t.toInt_lt
    simp only at hadd hsub
    exact ⟨⟨by omega, hadd⟩, by omega, by omega⟩

/-- The remainder of a sector number. -/
theorem mod_safe_sector : (∃ r, mod 2879 18 = some r ∧ (0 ≤ r.toInt ∧ r.toInt < 18 ∧ 18 ∣ 2879 - r.toInt) ∧
      ∀ x, 0 ≤ x → x < 18 → 18 ∣ 2879 - x → x = r.toInt) ∧
    ∀ m t, ModPasses 2879 18 (m, t) → m ≤ 2879 → FitsInt (m.toInt + 18) ∧ FitsInt (t.toInt - 18) :=
  @mod_safe 2879 18 (by decide) (by decide) (by decide)

/-! ## Sector numbers -/

/-- Both loops of `readSector(bx, cx)` end, and from 0 on they return the
    remainders.  A program may pass any `cx` to the kernel. -/
def RemaindersFor (cx : Int16) : Prop := ∃ r h, ModReturns cx 18 r ∧ ModReturns (cx / 18) 2 h ∧
  (0 ≤ cx.toInt → r.toInt = cx.toInt % 18 ∧ h.toInt = cx.toInt / 18 % 2)

theorem modReturns_of_lt (h : number < modulo) : ModReturns number modulo number :=
  ⟨1, by rw [modLoop, if_neg (Int16.not_le.2 h)]⟩

theorem toInt_div_eighteen (cx : Int16) : (cx / 18).toInt = cx.toInt.tdiv 18 := by
  rw [Int16.toInt_div_of_ne_right _ _ (by decide)]
  rfl

theorem remaindersFor_of_lt {cx : Int16} (h : cx.toInt < 32760) : RemaindersFor cx := by
  have h18 : (18 : Int16).toInt = 18 := rfl
  have h2 : (2 : Int16).toInt = 2 := rfl
  have hdiv := toInt_div_eighteen cx
  rcases lt_or_ge cx.toInt 0 with hneg | hpos
  · have htdiv : cx.toInt.tdiv 18 ≤ Int.tdiv 0 18 := Int.tdiv_le_tdiv (by omega) hneg.le
    rw [Int.zero_tdiv] at htdiv
    refine ⟨cx, cx / 18, modReturns_of_lt ?_, modReturns_of_lt ?_, fun h0 => absurd hneg (by omega)⟩
    · rw [Int16.lt_iff_toInt_lt, h18]
      omega
    · rw [Int16.lt_iff_toInt_lt, h2]
      omega
  · rw [Int.tdiv_eq_ediv_of_nonneg hpos] at hdiv
    obtain ⟨r, hr, hrem⟩ := @modReturns_remainder cx 18 (by omega) hpos
      (by rw [NextMultipleFits, h18]; omega)
    obtain ⟨x, hx, hxrem⟩ := @modReturns_remainder (cx / 18) 2 (by omega) (by omega)
      (by rw [NextMultipleFits, h2]; omega)
    refine ⟨r, x, hr, hx, ?_⟩
    intro _
    rw [hrem, hxrem, hdiv, h18, h2]
    exact ⟨rfl, rfl⟩

/-- **Both loops do what they are for below 32760 only**: the first one passes
    its largest multiple of 18, and wraps around. -/
theorem remaindersFor_iff (cx : Int16) : RemaindersFor cx ↔ cx.toInt < 32760 := by
  refine ⟨?_, remaindersFor_of_lt⟩
  rintro ⟨r, x, hr, -, hrem⟩
  rcases lt_or_ge cx.toInt 0 with hneg | hpos
  · omega
  · have hfit := nextMultipleFits_of_modReturns (by decide) hpos hr (hrem hpos).1
    rw [NextMultipleFits, show (18 : Int16).toInt = 18 from rfl] at hfit
    omega

theorem ModPasses.even (h : ModPasses number 18 s) : s.1.toInt % 2 = 0 := by
  refine h.invariant (I := fun s => s.1.toInt % 2 = 0) ?_ (show (18 : Int16).toInt % 2 = 0 by decide)
  intro s hs _
  have hturn := toInt_add_emod s.1 18
  rw [show (18 : Int16).toInt = 18 from rfl] at hturn
  simp only [modTurn]
  omega

/-- **The last two numbers hang the kernel**: no even number is above them. -/
theorem not_modReturns (h : 32766 ≤ number.toInt) : ¬ ModReturns number 18 r := by
  rw [modReturns_iff]
  rintro ⟨m, hp, hend⟩
  have heven := hp.even
  have hmax := m.toInt_lt
  rw [Int16.lt_iff_toInt_lt] at hend
  simp only at heven
  omega

/-- The call with `cx = 32767`. -/
theorem remaindersFor_largest : (∀ r, ¬ ModReturns 32767 18 r) ∧ ¬ RemaindersFor 32767 := by
  have hnone : ∀ r, ¬ ModReturns 32767 18 r := fun r => not_modReturns (by decide)
  exact ⟨hnone, fun ⟨r, _, hr, _⟩ => hnone r hr⟩

end TeamXtremeOS
