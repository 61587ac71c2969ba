/-
  What a shell command depends on.  `readString` overwrites as much of the line
  as has been typed, the commands copy six bytes of it in any case.
-/
import TeamXtremeOS.Shell
import TeamXtremeOS.Proof.Allocation
import TeamXtremeOS.Proof.Boot

namespace TeamXtremeOS

open Lib

variable {keys : List UInt8} {key : UInt8} {t : List UInt8} {line line' buf buffer buffer' b b' : Buffer}
  {d d' : Disk} {dir : Sector} {e : Fin 16} {f : FileName} {i j k m n o r z fuel : ℕ}
  {unusedSectors : ℕ → Int16} {c : Command} {x : UInt8}

/-! ## Typing a line -/

/-- A key changes the text, and perhaps the greatest length it has had. -/
def edit (s : List UInt8 × ℕ) (key : UInt8) : List UInt8 × ℕ :=
  if key = 0x08 then (s.1.dropLast, s.2) else (s.1 ++ [key], max s.2 (s.1.length + 1))

/-- The text that is typed. -/
def typed (keys : List UInt8) : List UInt8 := (keys.foldl edit ([], 0)).1

/-- The greatest length of the text while it is typed. -/
def reach (keys : List UInt8) : ℕ := (keys.foldl edit ([], 0)).2

/-- The characters that are sent to the screen for the keys behind the text `t`. -/
def echoed : List UInt8 → List UInt8 → List UInt8
  | _, [] => []
  | t, key :: keys =>
    (if key = 0x08 then if t = [] then [] else [0x08, 0x20, 0x08] else [key]) ++
      echoed (edit (t, 0) key).1 keys

/-- The buffer holds the text `t`, zeros up to place `m`, and what it held
    before behind that. -/
def Holds (t : List UInt8) (m : ℕ) (old buf : Buffer) : Prop :=
  ∀ o, buf o = if o < m then t.getD o 0 else old o

theorem offset_ofNat (hn : n < 65536) : offset (Int16.ofNat n) = n := by
  simp only [offset]
  simp
  omega

theorem le_edit (s : List UInt8 × ℕ) (key : UInt8) : s.2 ≤ (edit s key).2 := by
  rw [edit]
  split_ifs
  · exact le_rfl
  · exact le_max_left _ _

theorem le_foldl_edit (keys : List UInt8) (s : List UInt8 × ℕ) : s.2 ≤ (keys.foldl edit s).2 := by
  induction keys generalizing s with
  | nil => exact le_rfl
  | cons key keys ih => exact (le_edit s key).trans (ih _)

theorem length_edit_le {s : List UInt8 × ℕ} (hs : s.1.length ≤ s.2) : (edit s key).1.length ≤ (edit s key).2 := by
  rw [edit]
  split_ifs
  · rw [List.length_dropLast]
    omega
  · rw [List.length_append, List.length_singleton]
    exact le_max_right _ _

theorem length_foldl_edit_le {s : List UInt8 × ℕ} (hs : s.1.length ≤ s.2) :
    (keys.foldl edit s).1.length ≤ (keys.foldl edit s).2 := by
  induction keys generalizing s with
  | nil => exact hs
  | cons key keys ih => exact ih (length_edit_le hs)

/-- Taking back a character. -/
theorem Holds.dropLast (h : Holds t m line buf) (hm : t.length ≤ m) (ht : t ≠ []) :
    Holds t.dropLast m line (Function.update buf (t.length - 1) 0) := by
  have hpos := List.length_pos_iff.2 ht
  intro o
  rw [Function.update_apply, h o]
  by_cases ho : o = t.length - 1
  · rw [if_pos ho, if_pos (by omega), List.getD_eq_default _ _ (by rw [List.length_dropLast]; omega)]
  · rw [if_neg ho]
    split_ifs
    · rcases lt_or_ge o (t.length - 1) with hlt | hge
      · rw [List.getD_eq_getElem _ _ (by omega), List.getD_eq_getElem _ _ (by rw [List.length_dropLast]; omega),
          List.getElem_dropLast]
      · rw [List.getD_eq_default _ _ (by omega), List.getD_eq_default _ _ (by rw [List.length_dropLast]; omega)]
    · rfl

/-- Typing a character. -/
theorem Holds.append (h : Holds t m line buf) (hm : t.length ≤ m) (key : UInt8) :
    Holds (t ++ [key]) (max m (t.length + 1)) line (Function.update buf t.length key) := by
  intro o
  rw [Function.update_apply, h o]
  rcases lt_trichotomy o t.length with hlt | rfl | hgt
  · rw [if_neg (by omega), if_pos (by omega), if_pos (by omega), List.getD_append _ _ _ _ hlt]
  · rw [if_pos rfl, if_pos (by omega), List.getD_append_right _ _ _ _ le_rfl, Nat.sub_self, List.getD_cons_zero]
  · rw [if_neg (by omega), List.getD_eq_default _ _ (by omega),
      List.getD_eq_default _ _ (by rw [List.length_append, List.length_singleton]; omega)]
    simp only [lt_max_iff, show ¬ o < t.length + 1 by omega, or_false]

/-- **`readString` stores the text** and a zero behind it; the places that have
    been typed and taken back hold zeros. -/
theorem readKeys_spec {s : List UInt8 × ℕ} (hk : ∀ key ∈ keys, key ≠ 0x0D) (hs : s.1.length ≤ s.2)
    (hm : (keys.foldl edit s).2 < 32768) {old : Buffer} (hold : Holds s.1 s.2 old buf) : ∃ buf',
    readKeys (keys ++ [0x0D]) (Int16.ofNat s.1.length) buf =
      some (Int16.ofNat (keys.foldl edit s).1.length,
        Function.update buf' (keys.foldl edit s).1.length 0, echoed s.1 keys) ∧
    Holds (keys.foldl edit s).1 (keys.foldl edit s).2 old buf' := by
  induction keys generalizing s buf with
  | nil =>
    refine ⟨buf, ?_, hold⟩
    rw [List.foldl_nil] at hm ⊢
    rw [List.nil_append, readKeys, if_pos rfl, offset_ofNat (by omega), echoed]
  | cons key keys ih =>
    have hkey := hk key List.mem_cons_self
    have hle := le_foldl_edit keys (edit s key)
    rw [List.foldl_cons] at hm ⊢
    have hs' : (edit s key).1.length ≤ (edit s key).2 := length_edit_le hs
    have hlen := le_edit s key
    have hone : (edit (s.1, 0) key).1 = (edit s key).1 := by
      rw [edit, edit]
      split_ifs <;> rfl
    rw [List.cons_append, readKeys, if_neg hkey, echoed, hone]
    by_cases h8 : key = 0x08
    · rw [if_pos h8, if_pos h8]
      have hed : edit s key = (s.1.dropLast, s.2) := if_pos h8
      rw [hed] at hs' hm hle ⊢
      simp only at hs' hle
      by_cases h0 : s.1 = []
      · rw [h0] at hold hs' hm ⊢
        rw [if_neg (by simp), if_pos rfl, List.nil_append]
        exact ih (fun key hk' => hk key (List.mem_cons_of_mem _ hk')) hs' hm hold
      · have hpos := List.length_pos_iff.2 h0
        have hi : Int16.ofNat s.1.length ≠ 0 := by
          intro h
          have := congrArg Int16.toInt h
          rw [Int16.toInt_ofNat_of_lt (by omega)] at this
          exact h0 (by simpa using this)
        have hpred : Int16.ofNat s.1.length - 1 = Int16.ofNat s.1.dropLast.length := by
          rw [List.length_dropLast, ← Nat.sub_add_cancel hpos, Int16.ofNat_add, Nat.add_sub_cancel]
          exact Int16.add_sub_cancel ..
        rw [if_pos hi, if_neg h0, hpred, offset_ofNat (by rw [List.length_dropLast]; omega),
          List.length_dropLast]
        obtain ⟨buf', hr, hbuf⟩ := ih (s := (s.1.dropLast, s.2))
          (fun key hk' => hk key (List.mem_cons_of_mem _ hk')) hs' hm (hold.dropLast hs h0)
        rw [List.length_dropLast] at hr
        exact ⟨buf', by rw [hr]; rfl, hbuf⟩
    · rw [if_neg h8, if_neg h8]
      have hed : edit s key = (s.1 ++ [key], max s.2 (s.1.length + 1)) := if_neg h8
      rw [hed] at hs' hm hle ⊢
      simp only at hle
      obtain ⟨buf', hr, hbuf⟩ := ih (s := (s.1 ++ [key], max s.2 (s.1.length + 1)))
        (fun key hk' => hk key (List.mem_cons_of_mem _ hk')) hs' hm (hold.append hs key)
      have hsucc : Int16.ofNat s.1.length + 1 = Int16.ofNat (s.1 ++ [key]).length := by
        rw [ofNat_succ, List.length_append, List.length_singleton]
      rw [hsucc, offset_ofNat (by omega)]
      exact ⟨buf', by rw [hr]; rfl, hbuf⟩

/-- The line when it has been read: the text where it has reached, and behind
    that what was there before. -/
def stored (keys : List UInt8) (line : Buffer) : Buffer := fun o =>
  if o < reach keys ∨ o = (typed keys).length then (typed keys).getD o 0 else line o

theorem readString_spec (hk : ∀ key ∈ keys, key ≠ 0x0D) (hm : reach keys < 32768) (line : Buffer) :
    readString (keys ++ [0x0D]) line =
      some (Int16.ofNat (typed keys).length, stored keys line, echoed [] keys) := by
  obtain ⟨line', hr, hline⟩ := readKeys_spec (s := ([], 0)) hk (by simp) hm
    (show Holds [] 0 line line from fun o => by rw [if_neg (Nat.not_lt_zero o)])
  refine hr.trans ?_
  suffices hstored : Function.update line' (typed keys).length 0 = stored keys line by
    rw [← hstored]
    rfl
  funext o
  rw [Function.update_apply, hline o, stored]
  change (if o = (typed keys).length then 0 else if o < reach keys then (typed keys).getD o 0 else line o) = _
  by_cases ho : o = (typed keys).length
  · rw [if_pos ho, if_pos (.inr ho), List.getD_eq_default _ _ ho.ge]
  · rw [if_neg ho]
    simp only [ho, or_false]

/-! ## Printing -/

theorem printLoop_eq (str : Buffer) (fuel j : ℕ) : printLoop str fuel (Int16.ofNat j) =
    terminated 0 ((List.range' j fuel).map fun o => str (o % 65536)) := by
  induction fuel generalizing j with
  | zero => rfl
  | succ fuel ih =>
    have hoff : offset (Int16.ofNat j) = j % 65536 := by simp [offset]
    rw [printLoop, List.range'_succ, List.map_cons, terminated, hoff, ofNat_succ, ih]

/-- `printString` prints the bytes before the first zero in the 64 KB. -/
theorem printString_eq (str : Buffer) : printString str = terminated 0 ((List.range 65536).map str) := by
  have h := printLoop_eq str 65536 0
  rw [← List.range_eq_range'] at h
  rw [printString]
  refine h.trans (congrArg (terminated 0) (List.map_congr_left ?_))
  intro o ho
  rw [Nat.mod_eq_of_lt (List.mem_range.1 ho)]

/-- A string that ends early is printed alike, whatever is behind it. -/
theorem printString_congr (hn : n ≤ 65536) (h : ∀ o < n, buf o = buffer o) (h0 : ∃ o < n, buf o = 0) :
    printString buf = printString buffer := by
  obtain ⟨m, hm⟩ := Nat.exists_eq_add_of_le hn
  obtain ⟨o, ho, hz⟩ := h0
  have hmap : (List.range n).map buf = (List.range n).map buffer :=
    List.map_congr_left fun o ho => h o (List.mem_range.1 ho)
  have hmem : (0 : UInt8) ∈ (List.range n).map buf := List.mem_map.2 ⟨o, List.mem_range.2 ho, hz⟩
  rw [printString_eq, printString_eq, hm, List.range_add, List.map_append, List.map_append,
    terminated_append_of_mem hmem, terminated_append_of_mem (hmap ▸ hmem), hmap]

/-- A string that does not end early is printed with what is behind it. -/
theorem printString_append (hn : n < 65536) (hne : ∀ o < n, buf o ≠ 0) : printString buf =
    (terminated 0 ((List.range (65536 - n)).map fun o => buf (n + o))).map ((List.range n).map buf ++ ·) := by
  obtain ⟨m, hm⟩ := Nat.exists_eq_add_of_le hn.le
  rw [printString_eq, hm, Nat.add_sub_cancel_left, List.range_add, List.map_append, terminated_append, List.map_map]
  · rfl
  · intro x hx
    obtain ⟨o, ho, rfl⟩ := List.mem_map.1 hx
    exact hne o (List.mem_range.1 ho)

/-! ## What a call takes from a buffer -/

/-- What `readFile` stores does not depend on the buffer. -/
theorem putChunks_of_lt (buffer : Buffer) {l : List UInt8} (hlen : l.length ≤ 128) (ho : o < l.length * 512) :
    putChunks (l.map fun s => d s.toNat) 0 buf o = putChunks (l.map fun s => d s.toNat) 0 buffer o := by
  have hi : o / 512 < l.length := by omega
  rw [putChunks_apply (by rwa [List.length_map, Nat.zero_add]),
    putChunks_apply (by rwa [List.length_map, Nat.zero_add]), if_neg (by omega), if_neg (by omega), Nat.sub_zero,
    List.getElem?_map, List.getElem?_eq_getElem hi, Option.map_some, Option.elim_some, Option.elim_some]

theorem writeData_congr (h : ∀ j, z ≤ j → j < z + r → chunk b j = chunk b' j) :
    writeData b dir e r z = writeData b' dir e r z := by
  induction r generalizing z with
  | zero => rfl
  | succ r ih =>
    rw [writeData, writeData, h z le_rfl (by omega), ih fun j h1 h2 => h j (by omega) (by omega)]

/-- `writeFile` takes as many sectors from the buffer as it is asked to write. -/
theorem writeFile_congr {n : Int16} (h26 : n.toInt ≤ 26) (h : ∀ o < n.toInt.toNat * 512, b o = b' o) :
    writeFile f b n unusedSectors = writeFile f b' n unusedSectors := by
  rw [writeFile_eq, writeFile_eq]
  refine congrArg (Prog.read 2) (funext fun dir => congrArg (Prog.read 1) (funext fun diskMap => ?_))
  have hk := (findUnused_spec diskMap n.toNatClampNeg 0 (List.finRange 512) unusedSectors).1
  simp only [Nat.sub_zero, Nat.zero_add] at hk
  rw [← unusedOf, length_unusedOf] at hk
  have hnat : n.toNatClampNeg = n.toInt.toNat := rfl
  rcases hu : findUnused diskMap n.toNatClampNeg (List.finRange 512) 0 unusedSectors with ⟨k, unused⟩
  rw [hu] at hk
  simp only at hk
  have hw : ∀ (dir : Sector) (e : Fin 16), writeData b dir e k 0 = writeData b' dir e k 0 := by
    intro dir e
    refine writeData_congr fun j _ hj => funext fun i => ?_
    rw [chunk, chunk, bufOffset_eq (by omega)]
    exact h _ (by omega)
  simp only [writeTail, if_neg (not_gt_26 h26), hu, hw]

/-! ## What is typed and what is passed -/

/-- The text as a line that held zeros before. -/
def typedLine (keys : List UInt8) : Buffer := fun o => (typed keys).getD o 0

/-- The six bytes from place `o` on have been typed, or taken back; or the last
    one of them is the zero behind the text. -/
def Covered (keys : List UInt8) (o : ℕ) : Prop := o + 6 ≤ reach keys ∨ o + 5 = (typed keys).length

instance (keys : List UInt8) (o : ℕ) : Decidable (Covered keys o) := inferInstanceAs (Decidable (_ ∨ _))

theorem length_typed_le (keys : List UInt8) : (typed keys).length ≤ reach keys :=
  length_foldl_edit_le (s := ([], 0)) le_rfl

/-- The places in the line that a command copies its names from. -/
def Command.windows : Command → List ℕ
  | type => [5]
  | execute => [8]
  | delete => [7]
  | copy => [5, 12]

theorem names_run {k : Kernel} :
    (c.run unusedSectors line buffer k).names = c.windows.map fun o => window o line := by
  cases c <;> rfl

/-- The command is known by its first letters. -/
theorem ofLine_eq (hc : c.word <+: t) (hline : ∀ o < t.length, line o = t.getD o 0) :
    Command.ofLine line = some c := by
  have hat : ∀ i (hi : i < c.word.length), line i = c.word[i] := by
    intro i hi
    obtain ⟨v, rfl⟩ := hc
    rw [hline i (by rw [List.length_append]; omega), List.getD_append _ _ _ _ hi, List.getD_eq_getElem _ _ hi]
  have hself : Command.startsLine line c = true := by
    rw [Command.startsLine, stringMatch, List.all_eq_true]
    intro i _
    rw [decide_eq_true_eq]
    exact hat i i.isLt
  have hother : ∀ c', c'.word[0]? ≠ c.word[0]? → Command.startsLine line c' = false := by
    intro c' hne
    rw [Command.startsLine, stringMatch, List.all_eq_false]
    have h0 : ∀ c : Command, 0 < c.word.length := by
      intro c
      cases c <;> decide
    refine ⟨⟨0, h0 c'⟩, List.mem_finRange _, ?_⟩
    rw [decide_eq_true_eq]
    intro h
    rw [List.getElem?_eq_getElem (h0 c'), List.getElem?_eq_getElem (h0 c), ← hat 0 (h0 c)] at hne
    exact hne (congrArg some h.symm)
  rw [Command.ofLine]
  cases c
  · rw [List.find?_cons_of_pos hself]
  · rw [List.find?_cons_of_neg (by rw [hother .type (by decide)]; decide), List.find?_cons_of_pos hself]
  · rw [List.find?_cons_of_neg (by rw [hother .type (by decide)]; decide),
      List.find?_cons_of_neg (by rw [hother .execute (by decide)]; decide), List.find?_cons_of_pos hself]
  · rw [List.find?_cons_of_neg (by rw [hother .type (by decide)]; decide),
      List.find?_cons_of_neg (by rw [hother .execute (by decide)]; decide),
      List.find?_cons_of_neg (by rw [hother .delete (by decide)]; decide), List.find?_cons_of_pos hself]

/-- A turn of the shell runs its command on the line that has been read. -/
theorem shellTurn_eq (hk : ∀ key ∈ keys, key ≠ 0x0D) (hm : reach keys < 32768) (hc : c.word <+: typed keys)
    (line buffer : Buffer) (k : Kernel) : shellTurn (keys ++ [0x0D]) unusedSectors line buffer k =
      some (c.run unusedSectors (stored keys line) buffer k) := by
  have hr := readString_spec hk hm line
  have hlen := length_typed_le keys
  rw [shellTurn, hr]
  simp only [Option.bind_eq_bind, Option.bind_some]
  have hline : ∀ o < (typed keys).length, stored keys line o = (typed keys).getD o 0 := fun o ho =>
    if_pos (.inl (by omega))
  rw [ofLine_eq hc hline]
  rfl

theorem window_typed (h : Covered keys o) : window o (stored keys line) = window o (typedLine keys) := by
  have hlen := length_typed_le keys
  funext i
  refine if_pos ?_
  rcases h with h | h <;> omega

/-- Some byte of a window that is not covered is left from before. -/
theorem covered_of_window (h : ∀ line line' : Buffer, window o (stored keys line) = window o (stored keys line')) :
    Covered keys o := by
  have hbyte := congrFun (h (fun _ => 0) fun _ => 1) ⟨5, by omega⟩
  by_contra hc
  have hno : ¬ (5 + o < reach keys ∨ 5 + o = (typed keys).length) := by
    rw [Covered] at hc
    omega
  simp only [window, stored, if_neg hno] at hbyte
  exact absurd hbyte (by decide)

/-! ## Type -/

/-- What `type` does with a file. -/
theorem typeFile_result {k : Kernel} (hf : findFile (window 5 line) (k.disk 2) = some e) {l : List UInt8}
    (hl : walk (k.disk 2) e = some l) (h26 : l.length ≤ 26) : (typeFile line buffer k).result =
      (printString (putChunks (l.map fun s => k.disk s.toNat) 0
        (putChunks (l.map fun s => k.disk s.toNat) 0 buffer))).map fun out => (k, text "\n\r" ++ out) := by
  have hne : Int16.ofNat l.length ≠ -1 := ofNat_ne_neg_one (by omega)
  have hle : ¬ 26 < Int16.ofNat l.length := by
    rw [lt_ofNat_iff (by omega)]
    omega
  simp only [typeFile, readFile_walk hf, hl, Option.map_some, if_neg hne, if_neg hle]

/-- The file ends within its own sectors, or fills the buffer. -/
def EndsInside (d : Disk) (f : FileName) : Prop :=
  ∀ e l, findFile f (d 2) = some e → walk (d 2) e = some l → l.length < 26 →
    ∃ s ∈ l, ∃ i, d s.toNat i = 0

/-- The bytes a file puts in the buffer. -/
theorem exists_zero_iff (buf : Buffer) {l : List UInt8} (hlen : l.length ≤ 26) :
    (∃ o < l.length * 512, putChunks (l.map fun s => d s.toNat) 0 buf o = 0) ↔
      ∃ s ∈ l, ∃ i, d s.toNat i = 0 := by
  constructor
  · rintro ⟨o, ho, h0⟩
    have hget := List.getElem?_eq_getElem (show o / 512 < l.length by omega)
    have hplace := putChunks_place (d := d) buf (o := ⟨o % 512, Nat.mod_lt _ (by omega)⟩) (by omega) hget
    simp only [Nat.div_add_mod' o 512] at hplace
    exact ⟨_, List.getElem_mem _, _, hplace ▸ h0⟩
  · rintro ⟨s, hs, i, h0⟩
    obtain ⟨j, hj⟩ := List.mem_iff_getElem?.1 hs
    have hjl := (List.getElem?_eq_some_iff.1 hj).1
    refine ⟨j * 512 + i.val, by omega, ?_⟩
    rw [putChunks_place _ (by omega) hj, h0]

/-- **`type` prints the file** if the file ends within its own sectors: what was
    in the buffer behind it does not show. -/
theorem typeFile_congr {k : Kernel} (hname : window 5 line = window 5 line')
    (hbuf : ∀ o, 13312 ≤ o → buffer o = buffer' o) (hend : EndsInside k.disk (window 5 line)) :
    (typeFile line buffer k).result = (typeFile line' buffer' k).result := by
  rcases hf : findFile (window 5 line) (k.disk 2) with _ | e
  · have hf' := hf
    rw [hname] at hf'
    simp only [typeFile, readFile_none hf, readFile_none hf', if_true]
  · have hf' := hf
    rw [hname] at hf'
    rcases hl : walk (k.disk 2) e with _ | l
    · simp only [typeFile, readFile_walk hf, readFile_walk hf', hl, Option.map_none]
    · by_cases h26 : l.length ≤ 26
      · rw [typeFile_result hf hl h26, typeFile_result hf' hl h26]
        refine congrArg (Option.map _) ?_
        have h128 : l.length ≤ 128 := by omega
        rcases Nat.lt_or_eq_of_le h26 with hlt | heq
        · refine printString_congr (n := l.length * 512) (by omega) ?_ ?_
          · intro o ho
            rw [putChunks_of_lt _ h128 ho]
          · exact (exists_zero_iff _ h26).2 (hend e l hf hl hlt)
        · refine congrArg printString (funext fun o => ?_)
          rcases lt_or_ge o (l.length * 512) with ho | ho
          · rw [putChunks_of_lt _ h128 ho]
          · rw [putChunks_of_le h128 ho, putChunks_of_le h128 ho, putChunks_of_le h128 ho, putChunks_of_le h128 ho]
            exact hbuf o (by omega)
      · have hwalk := length_walk hl
        have hne : Int16.ofNat l.length ≠ -1 := ofNat_ne_neg_one (by omega)
        have hlt : 26 < Int16.ofNat l.length := (lt_ofNat_iff (by omega)).2 (by omega)
        simp only [typeFile, readFile_walk hf, readFile_walk hf', hl, Option.map_some, if_neg hne, if_pos hlt]

/-- The first byte behind a string without a zero decides what is printed. -/
theorem printString_stop (hn : n + 1 < 65536) (hne : ∀ o < n, buf o ≠ 0) (h0 : buf n = 0) :
    printString buf = some ((List.range n).map buf) := by
  obtain ⟨m, hm⟩ := Nat.exists_eq_add_of_lt (show 0 < 65536 - n by omega)
  rw [printString_append (by omega) hne, hm, Nat.zero_add, List.range_succ_eq_map, List.map_cons, Nat.add_zero,
    terminated, if_pos h0, Option.map_some, List.append_nil]

/-- A file without a zero byte is printed with what the buffer held before. -/
theorem endsInside_of_typeFile {k : Kernel} (h : ∀ buffer buffer' : Buffer, (∀ o, 13312 ≤ o → buffer o = buffer' o) →
    (typeFile line buffer k).result = (typeFile line buffer' k).result) : EndsInside k.disk (window 5 line) := by
  intro e l hf hl hlt
  by_contra hno
  rw [← exists_zero_iff (fun _ => 0) hlt.le] at hno
  push Not at hno
  have h128 : l.length ≤ 128 := by omega
  -- the buffer held zeros, or a single character behind the place where the file ends
  have hsame := h (fun _ => 0) (Function.update (fun _ => 0) (l.length * 512) 1)
    (fun o ho => by rw [Function.update_of_ne (by omega)])
  rw [typeFile_result hf hl hlt.le, typeFile_result hf hl hlt.le,
    printString_stop (n := l.length * 512) (by omega) (fun o ho => ?_) ?_,
    printString_stop (n := l.length * 512 + 1) (by omega) (fun o ho => ?_) ?_, Option.map_some, Option.map_some,
    Option.some.injEq, Prod.mk.injEq] at hsame
  · have := congrArg List.length hsame.2
    simp at this
  · rw [putChunks_of_le h128 (Nat.le_succ _), putChunks_of_le h128 (Nat.le_succ _),
      Function.update_of_ne (Nat.succ_ne_self _)]
  · rcases Nat.lt_or_eq_of_le (Nat.lt_succ_iff.1 ho) with ho | rfl
    · rw [putChunks_of_lt (fun _ => 0) h128 ho]
      exact hno o ho
    · rw [putChunks_of_le h128 le_rfl, putChunks_of_le h128 le_rfl, Function.update_self]
      decide
  · rw [putChunks_of_le h128 le_rfl, putChunks_of_le h128 le_rfl]
  · rw [putChunks_of_lt (fun _ => 0) h128 ho]
    exact hno o ho

/-! ## Copy -/

/-- `copy` takes from the buffer what it has read into it. -/
theorem copyFile_congr {k : Kernel} (h5 : window 5 line = window 5 line') (h12 : window 12 line = window 12 line') :
    copyFile unusedSectors line buffer k = copyFile unusedSectors line' buffer' k := by
  rcases hf : findFile (window 5 line') (k.disk 2) with _ | e
  · have hneg : ¬ 26 < (-1 : Int16) := by decide
    have hw : writeFile (window 12 line') buffer (-1) unusedSectors =
        writeFile (window 12 line') buffer' (-1) unusedSectors :=
      writeFile_congr (by decide) fun o ho => absurd ho (by simp)
    simp only [copyFile, h5, h12, readFile_none hf, if_neg hneg, hw]
  · rcases hl : walk (k.disk 2) e with _ | l
    · simp only [copyFile, h5, h12, readFile_walk hf, hl, Option.map_none]
    · have hwalk := length_walk hl
      have hint := Int16.toInt_ofNat_of_lt (show l.length < 2 ^ 15 by omega)
      by_cases hlt : 26 < Int16.ofNat l.length
      · simp only [copyFile, h5, h12, readFile_walk hf, hl, Option.map_some, if_pos hlt]
      · have hle := hlt
        rw [lt_ofNat_iff (by omega)] at hle
        have hw : writeFile (window 12 line') (putChunks (l.map fun s => k.disk s.toNat) 0 buffer)
            (Int16.ofNat l.length) unusedSectors =
          writeFile (window 12 line') (putChunks (l.map fun s => k.disk s.toNat) 0 buffer')
            (Int16.ofNat l.length) unusedSectors :=
          writeFile_congr (by omega) fun o ho =>
            putChunks_of_lt _ (by omega) (by rwa [hint, Int.toNat_natCast] at ho)
        simp only [copyFile, h5, h12, readFile_walk hf, hl, Option.map_some, if_neg hlt, hw]

/-- Two turns of the shell that differ in what the line and the file buffer held
    before come out alike.  (What is behind the 26 sectors of the buffer is no
    part of it.) -/
def TypedOnly (keys : List UInt8) (unusedSectors : ℕ → Int16) (k : Kernel) : Prop :=
  ∀ line line' buffer buffer' : Buffer, (∀ o, 13312 ≤ o → buffer o = buffer' o) →
    shellTurn (keys ++ [0x0D]) unusedSectors line buffer k =
      shellTurn (keys ++ [0x0D]) unusedSectors line' buffer' k

/-- Two such turns run the command on lines that agree where the text reaches. -/
theorem TypedOnly.run_eq {k : Kernel} (h : TypedOnly keys unusedSectors k) (hk : ∀ key ∈ keys, key ≠ 0x0D)
    (hm : reach keys < 32768) (hc : c.word <+: typed keys) (line line' : Buffer)
    {buffer buffer' : Buffer} (hbuf : ∀ o, 13312 ≤ o → buffer o = buffer' o) :
    c.run unusedSectors (stored keys line) buffer k = c.run unusedSectors (stored keys line') buffer' k := by
  have hturn := h line line' buffer buffer' hbuf
  rwa [shellTurn_eq hk hm hc, shellTurn_eq hk hm hc, Option.some.injEq] at hturn

theorem TypedOnly.covered {k : Kernel} (h : TypedOnly keys unusedSectors k) (hk : ∀ key ∈ keys, key ≠ 0x0D)
    (hm : reach keys < 32768) (hc : c.word <+: typed keys) (ho : o ∈ c.windows) : Covered keys o := by
  refine covered_of_window ?_
  intro line line'
  have hnames := congrArg Answer.names
    (h.run_eq hk hm hc line line' fun o _ => (rfl : (0 : UInt8) = 0))
  rw [names_run, names_run] at hnames
  exact List.map_inj_left.1 hnames o ho

/-- **A command depends on what was typed only** if the places it copies its
    names from have been typed and, for `type`, the file ends within its own
    sectors, and only then. -/
theorem typedOnly_iff (hk : ∀ key ∈ keys, key ≠ 0x0D) (h39 : reach keys ≤ 39) (hc : c.word <+: typed keys)
    (unusedSectors : ℕ → Int16) (k : Kernel) : TypedOnly keys unusedSectors k ↔
      (∀ o ∈ c.windows, Covered keys o) ∧ (c = .type → EndsInside k.disk (window 5 (typedLine keys))) := by
  have hm : reach keys < 32768 := by omega
  constructor
  · intro h
    have hcov : ∀ o ∈ c.windows, Covered keys o := fun o ho => h.covered hk hm hc ho
    refine ⟨hcov, ?_⟩
    rintro rfl
    rw [← window_typed (hcov 5 (by simp [Command.windows]))]
    exact endsInside_of_typeFile fun buffer buffer' hbuf =>
      congrArg Answer.result (h.run_eq hk hm hc (fun _ => 0) (fun _ => 0) hbuf)
  · rintro ⟨hcov, hend⟩ line line' buffer buffer' hbuf
    rw [shellTurn_eq hk hm hc, shellTurn_eq hk hm hc, Option.some.injEq]
    have hwin : ∀ o ∈ c.windows, window o (stored keys line) = window o (stored keys line') := fun o ho =>
      (window_typed (hcov o ho)).trans (window_typed (hcov o ho)).symm
    cases c with
    | type =>
      have h5 := hwin 5 (by simp [Command.windows])
      refine congrArg₂ Answer.mk (congrArg (fun name => [name]) h5) (typeFile_congr h5 hbuf ?_)
      rw [window_typed (hcov 5 (by simp [Command.windows]))]
      exact hend rfl
    | execute => simp only [Command.run, executeFile, hwin 8 (by simp [Command.windows])]
    | delete => simp only [Command.run, removeFile, hwin 7 (by simp [Command.windows])]
    | copy => exact copyFile_congr (hwin 5 (by simp [Command.windows])) (hwin 12 (by simp [Command.windows]))

/-- The name has been typed with five more letters, which are then taken back. -/
theorem typedOnly_erased : TypedOnly (text "type Axxxxx" ++ List.replicate 5 0x08) (fun _ => 0) oneFileKernel := by
  refine (typedOnly_iff (c := .type) (by decide +kernel) (by decide +kernel) (by decide +kernel) _ _).2
    ⟨by decide +kernel, ?_⟩
  intro _ e l hf hl _
  obtain rfl : e = 0 := by
    have h : findFile (window 5 (typedLine (text "type Axxxxx" ++ List.replicate 5 0x08))) (oneFileKernel.disk 2) =
      some 0 := by decide +kernel
    exact Option.some.inj (hf.symm.trans h)
  obtain rfl : l = [3] := by
    have h : walk (oneFileKernel.disk 2) 0 = some [3] := by decide +kernel
    exact Option.some.inj (hl.symm.trans h)
  exact ⟨3, List.mem_singleton_self 3, 0, rfl⟩

/-- The name of a single letter is passed with what an earlier line has left. -/
theorem typedOnly_fails : Command.type.word <+: typed (text "type A") ∧ reach (text "type A") ≤ 39 ∧
    ¬ TypedOnly (text "type A") (fun _ => 0) oneFileKernel := by
  refine ⟨by decide +kernel, by decide +kernel, ?_⟩
  intro h
  have hcov : Covered (text "type A") 5 := h.covered (c := .type) (by decide +kernel) (by decide +kernel)
    (by decide +kernel) (by simp [Command.windows])
  exact absurd hcov (by decide +kernel)

end TeamXtremeOS
