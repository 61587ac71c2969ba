/-
  The line editor keeps the length of the last line in `tracker`, and takes it
  for the length of the text: a line is stored where the one before would end
  if it were the first.
-/
import TeamXtremeOS.TextEditor
import TeamXtremeOS.Lib.Overlay
import TeamXtremeOS.Proof.LineEdit

namespace TeamXtremeOS

open Lib

variable {keys : List UInt8} {line last name : Line} {lines init : List Line} {file filename buf : Buffer}
  {n o i : ℕ} {s : Saving} {c : UInt8} {t l₁ l₂ l₃ w : List UInt8}

/-! ## Reading a line -/

theorem typed_of_ne (hb : ∀ key ∈ keys, key ≠ 0x08) : typed keys = keys := by
  induction keys using List.reverseRecOn with
  | nil => rfl
  | append_singleton keys key ih =>
    rw [typed_concat, if_neg (hb key (by simp)), ih fun k hk => hb k (List.mem_append_left _ hk)]

theorem reach_of_ne (hb : ∀ key ∈ keys, key ≠ 0x08) : reach keys = keys.length := by
  have hle := length_typed_le keys
  rw [typed_of_ne hb] at hle
  exact le_antisymm (reach_le keys) hle

theorem echoed_of_ne (hb : ∀ key ∈ keys, key ≠ 0x08) (t : List UInt8) : echoed t keys = keys := by
  induction keys generalizing t with
  | nil => rfl
  | cons key keys ih =>
    rw [echoed, if_neg (hb key List.mem_cons_self), ih fun k hk => hb k (List.mem_cons_of_mem _ hk)]
    rfl

/-- A line is laid over the memory at the pointer. -/
theorem readLine_eq (hb : ∀ key ∈ line.keys, key ≠ 0x08) (hn : n + line.keys.length < 32768) (buf : Buffer) :
    readLine line buf (Int16.ofNat n) =
      some (Int16.ofNat line.keys.length, laid 0 n line.keys buf, line.keys) := by
  rw [readLine, readString_spec line.noEnter (by rw [reach_of_ne hb]; omega), typed_of_ne hb, echoed_of_ne hb,
    Option.map_some]
  suffices hmem : putBehind buf (Int16.ofNat n) (stored line.keys (behind buf (Int16.ofNat n))) =
      laid 0 n line.keys buf by simp only [hmem]
  funext o
  rw [putBehind, stored, reach_of_ne hb, typed_of_ne hb, behind, offset_ofNat (by omega)]
  rcases lt_or_ge o 65536 with ho | ho
  · rw [if_pos ho]
    rcases lt_or_ge o n with hlt | hge
    · rw [laid_before hlt, if_neg (by omega)]
      congr 1
      omega
    · have hsub : (o + 65536 - n) % 65536 = o - n := by omega
      rw [hsub]
      rcases Nat.lt_or_ge (n + line.keys.length) o with hend | hin
      · rw [laid_behind hend, if_neg (by omega)]
        congr 1
        omega
      · rw [if_pos (by omega), laid, if_pos ⟨hge, hin⟩]
  · rw [if_neg (by omega), laid_behind (by omega)]

/-- The name may have any length and any keys. -/
theorem exists_readKeys (keys : List UInt8) (i : Int16) (buf : Buffer) :
    ∃ r, readKeys (keys ++ [0x0D]) i buf = some r := by
  induction keys generalizing i buf with
  | nil => exact ⟨_, if_pos rfl⟩
  | cons key keys ih =>
    rw [List.cons_append, readKeys]
    split_ifs
    · exact ⟨_, rfl⟩
    · obtain ⟨r, hr⟩ := ih (i - 1) (Function.update buf (offset (i - 1)) 0x0)
      exact ⟨_, by rw [hr]; rfl⟩
    · exact ih i buf
    · obtain ⟨r, hr⟩ := ih (i + 1) (Function.update buf (offset i) key)
      exact ⟨_, by rw [hr]; rfl⟩

theorem exists_readLine (line : Line) (buf : Buffer) (i : Int16) : ∃ r, readLine line buf i = some r := by
  obtain ⟨r, hr⟩ := exists_readKeys line.keys 0 (behind buf i)
  exact ⟨_, by rw [readLine, readString, hr]; rfl⟩

/-! ## The loop -/

theorem offset_pred (h0 : 0 < n) (hn : n < 32768) : offset (Int16.ofNat n - 1) = n - 1 := by
  have hpred : Int16.ofNat n - 1 = Int16.ofNat (n - 1) := by
    rw [← Nat.sub_add_cancel h0, Int16.ofNat_add, Nat.add_sub_cancel]
    exact Int16.add_sub_cancel ..
  rw [hpred, offset_ofNat (by omega)]

theorem sectorCount (hn : n + 511 < 32768) : (Int16.ofNat n + 511) / 512 = Int16.ofNat ((n + 511) / 512) := by
  have hadd : Int16.ofNat n + 511 = Int16.ofNat (n + 511) := by
    rw [Int16.ofNat_add]
    rfl
  have h512 : (512 : Int16) = Int16.ofNat 512 := rfl
  rw [hadd, h512, ← Int16.toInt_inj, Int16.toInt_div, Int16.toInt_ofNat_of_lt (by omega),
    Int16.toInt_ofNat_of_lt (by omega), Int16.toInt_ofNat_of_lt (by omega), ← Int.ofNat_tdiv,
    Int.bmod_eq_of_le (by omega) (by omega)]

@[simp] theorem Saving.shown_buffer (out : List UInt8) (s : Saving) : (s.shown out).buffer = s.buffer := rfl

@[simp] theorem Saving.shown_sectors (out : List UInt8) (s : Saving) : (s.shown out).sectors = s.sectors := rfl

@[simp] theorem Saving.shown_rest (out : List UInt8) (s : Saving) : (s.shown out).rest = s.rest := rfl

/-- What is saved when `tracker` is `n` and the lines `rest` are left. -/
def savedAt (filename file : Buffer) (n : ℕ) (rest : List Line) : Saving where
  fname := window 0 filename
  buffer := Function.update file (n - 1) 0
  sectors := Int16.ofNat ((n + 511) / 512)
  screen := []
  rest := rest

/-- The loop ends where the character before `file+tracker` is `0x04`. -/
theorem editLoop_stop (h0 : 0 < n) (hn : n + 511 < 32768) (hc : file (n - 1) = 0x04) :
    editLoop filename lines (Int16.ofNat n) file = some (savedAt filename file n lines) := by
  rw [editLoop.eq_def, offset_pred h0 (by omega), if_pos hc, sectorCount hn, savedAt]

theorem editLoop_wait (h0 : 0 < n) (hn : n < 32768) (hc : file (n - 1) ≠ 0x04) :
    editLoop filename [] (Int16.ofNat n) file = none := by
  rw [editLoop, offset_pred h0 hn, if_neg hc]

theorem editLoop_read (h0 : 0 < n) (hc : file (n - 1) ≠ 0x04) (hb : ∀ key ∈ line.keys, key ≠ 0x08)
    (hn : n + line.keys.length < 32768) : editLoop filename (line :: lines) (Int16.ofNat n) file =
      (editLoop filename lines (Int16.ofNat line.keys.length) (laid 0 n line.keys file)).map
        (Saving.shown line.keys) := by
  rw [editLoop, offset_pred h0 (by omega), if_neg hc, readLine_eq hb hn, Option.bind_some]

/-- What lies behind every line as it is stored is not touched. -/
theorem editLoop_frame (h0 : 0 < n) (hn : n ≤ o) (ho : o < 32000) (hpos : ∀ line ∈ lines, line.keys ≠ [])
    (hb : ∀ line ∈ lines, ∀ key ∈ line.keys, key ≠ 0x08)
    (hchain : (n :: lines.map fun line => line.keys.length).IsChain fun a b => a + b < o)
    (h : editLoop filename lines (Int16.ofNat n) file = some s) : s.buffer o = file o := by
  have hstop : ∀ {lines n} {file : Buffer} {s}, 0 < n → n ≤ o → file (n - 1) = 0x04 →
      editLoop filename lines (Int16.ofNat n) file = some s → s.buffer o = file o := by
    intro lines n file s h0 hn hc h
    rw [editLoop_stop h0 (by omega) hc, Option.some.injEq] at h
    rw [← h]
    exact Function.update_of_ne (by omega) _ _
  induction lines generalizing n file s with
  | nil =>
    by_cases hc : file (n - 1) = 0x04
    · exact hstop h0 hn hc h
    · rw [editLoop_wait h0 (by omega) hc] at h
      cases h
  | cons line lines ih =>
    rw [List.map_cons, List.isChain_cons_cons] at hchain
    by_cases hc : file (n - 1) = 0x04
    · exact hstop h0 hn hc h
    · rw [editLoop_read h0 hc (hb line List.mem_cons_self) (by omega), Option.map_eq_some_iff] at h
      obtain ⟨s', hs', rfl⟩ := h
      rw [Saving.shown_buffer, ih (List.length_pos_iff.2 (hpos line List.mem_cons_self)) (by omega)
        (fun l hl => hpos l (List.mem_cons_of_mem _ hl)) (fun l hl => hb l (List.mem_cons_of_mem _ hl)) hchain.2 hs',
        laid_behind hchain.1]

/-! ## The text -/

/-- The characters of some lines. -/
def characters (lines : List Line) : List UInt8 := (lines.map Line.keys).flatten

/-- Lines for the editor: the last one ends with `0x04`, and no other does. -/
structure Typescript (init : List Line) (last : Line) : Prop where
  nonempty : ∀ line ∈ init ++ [last], line.keys ≠ []
  noBackspace : ∀ line ∈ init ++ [last], ∀ key ∈ line.keys, key ≠ 0x08
  stops : last.keys.getLast? = some 0x04
  goesOn : ∀ line ∈ init, line.keys.getLast? ≠ some 0x04
  fits : (characters (init ++ [last])).length ≤ 13311

/-- The buffer starts with the text, with a zero in the place of its last
    character. -/
def Begins (t : List UInt8) (buf : Buffer) : Prop := ∀ o c, (t.dropLast ++ [0])[o]? = some c → buf o = c

/-- All lines have been read, and the text `t` is saved. -/
def Keeps (t : List UInt8) (r : Option Saving) : Prop :=
  ∃ s, r = some s ∧ s.rest = [] ∧ Begins t s.buffer ∧ s.sectors = Int16.ofNat ((t.length + 511) / 512)

/-- The editor saves the lines, whatever its arrays hold at the start. -/
def Saves (name : Line) (init : List Line) (last : Line) : Prop :=
  ∀ filename file : Buffer,
    Keeps (characters (init ++ [last])) (texted (name :: (init ++ [last])) filename file)

theorem begins_iff (ht : t ≠ []) : Begins t buf ↔
    (∀ o < t.length - 1, buf o = t.getD o 0) ∧ buf (t.length - 1) = 0 := by
  have hpos := List.length_pos_iff.2 ht
  have hlast : (t.dropLast ++ [0])[t.length - 1]? = some 0 := by
    rw [List.getElem?_append_right (by rw [List.length_dropLast]), List.length_dropLast, Nat.sub_self]
    rfl
  constructor
  · intro h
    refine ⟨fun o ho => h o _ ?_, h _ _ hlast⟩
    rw [List.getElem?_append_left (by rwa [List.length_dropLast]), List.getElem?_dropLast, if_pos ho,
      List.getD_eq_getElem _ _ (by omega), List.getElem?_eq_getElem]
  · rintro ⟨h, h0⟩ o c ho
    rcases lt_trichotomy o (t.length - 1) with hlt | rfl | hgt
    · rw [List.getElem?_append_left (by rwa [List.length_dropLast]), List.getElem?_dropLast, if_pos hlt] at ho
      rw [h o hlt, List.getD_eq_getElem?_getD, ho, Option.getD_some]
    · rw [hlast, Option.some.injEq] at ho
      rw [h0, ho]
    · rw [List.getElem?_eq_none (by simp; omega)] at ho
      cases ho

theorem keeps_map_shown (out : List UInt8) (r : Option Saving) :
    Keeps t (r.map (Saving.shown out)) ↔ Keeps t r := by
  rcases r with _ | s
  · simp [Keeps]
  · simp [Keeps]

theorem keeps_stop (h0 : 0 < n) (hn : n + 511 < 32768) (hc : file (n - 1) = 0x04) (ht : t.length + 511 < 32768) :
    Keeps t (editLoop filename lines (Int16.ofNat n) file) ↔
      lines = [] ∧ Begins t (Function.update file (n - 1) 0) ∧ (n + 511) / 512 = (t.length + 511) / 512 := by
  have hcount : Int16.ofNat ((n + 511) / 512) = Int16.ofNat ((t.length + 511) / 512) ↔
      (n + 511) / 512 = (t.length + 511) / 512 := by
    rw [← Int16.toInt_inj, Int16.toInt_ofNat_of_lt (by omega), Int16.toInt_ofNat_of_lt (by omega), Nat.cast_inj]
  simp only [Keeps, editLoop_stop h0 hn hc, Option.some.injEq, exists_eq_left', savedAt, hcount]

theorem keeps_read (h0 : 0 < n) (hc : file (n - 1) ≠ 0x04) (hb : ∀ key ∈ line.keys, key ≠ 0x08)
    (hn : n + line.keys.length < 32768) : Keeps t (editLoop filename (line :: lines) (Int16.ofNat n) file) ↔
      Keeps t (editLoop filename lines (Int16.ofNat line.keys.length) (laid 0 n line.keys file)) := by
  rw [editLoop_read h0 hc hb hn, keeps_map_shown]

/-- The loop goes on until the character is `0x04`, and must then have read all
    lines. -/
theorem Keeps.stops (h : Keeps t (editLoop filename [] (Int16.ofNat n) file)) (h0 : 0 < n) (hn : n < 32768) :
    file (n - 1) = 0x04 := by
  by_contra hc
  rw [editLoop_wait h0 hn hc] at h
  obtain ⟨s, hs, -⟩ := h
  cases hs

theorem Keeps.goesOn (h : Keeps t (editLoop filename (line :: lines) (Int16.ofNat n) file)) (h0 : 0 < n)
    (hn : n + 511 < 32768) (ht : t.length + 511 < 32768) : file (n - 1) ≠ 0x04 := by
  intro hc
  rw [keeps_stop h0 hn hc ht] at h
  cases h.1

/-- The name is read first, then the first line. -/
theorem keeps_texted (hb : ∀ key ∈ line.keys, key ≠ 0x08) (hn : line.keys.length < 32768) (name : Line)
    (lines : List Line) (filename : Buffer) : ∃ filename', ∀ file,
    Keeps t (texted (name :: line :: lines) filename file) ↔
      Keeps t (editLoop filename' lines (Int16.ofNat line.keys.length) (laid 0 0 line.keys file)) := by
  obtain ⟨⟨n, filename', out⟩, hr⟩ := exists_readLine name filename 0
  refine ⟨filename', ?_⟩
  intro file
  have hr' := readLine_eq (n := 0) hb (by omega) file
  rw [show Int16.ofNat 0 = 0 from rfl] at hr'
  simp only [texted, hr, hr', Option.bind_some, keeps_map_shown]

/-! ## One line, two lines, and more than three -/

theorem getD_of_getLast? (h : l₁.getLast? = some c) : 0 < l₁.length ∧ l₁.getD (l₁.length - 1) 0 = c := by
  have hne : l₁ ≠ [] := fun h0 => by simp [h0] at h
  have hpos := List.length_pos_iff.2 hne
  refine ⟨hpos, ?_⟩
  rw [List.getD_eq_getElem?_getD, ← List.getLast?_eq_getElem?, h, Option.getD_some]

theorem Typescript.length_pos (h : Typescript init last) {l : Line} (hl : l ∈ init ++ [last]) : 0 < l.keys.length :=
  List.length_pos_iff.2 (h.nonempty l hl)

theorem characters_concat (init : List Line) (last : Line) :
    characters (init ++ [last]) = characters init ++ last.keys := by
  simp [characters]

theorem characters_ne (h : Typescript init last) : characters (init ++ [last]) ≠ [] := by
  rw [characters_concat]
  exact List.append_ne_nil_of_right_ne_nil _ (h.nonempty last (by simp))

/-- One line is saved. -/
theorem saves_one (h : Typescript [] last) (name : Line) : Saves name [] last := by
  have hmem : last ∈ [] ++ [last] := by simp
  have hfits := h.fits
  have hchars : characters ([] ++ [last]) = last.keys := by simp [characters]
  obtain ⟨hpos, hlast⟩ := getD_of_getLast? h.stops
  intro filename file
  rw [hchars] at hfits ⊢
  obtain ⟨filename', hk⟩ := keeps_texted (t := last.keys) (h.noBackspace last hmem) (by omega) name [] filename
  have hstop : laid 0 0 last.keys file (last.keys.length - 1) = 0x04 := by
    rw [← hlast, laid_zero (by omega)]
  rw [List.nil_append, hk, keeps_stop hpos (by omega) hstop (by omega), begins_iff (h.nonempty last hmem)]
  refine ⟨rfl, ⟨?_, Function.update_self ..⟩, rfl⟩
  intro o ho
  rw [Function.update_of_ne (by omega), laid_zero (by omega)]

/-- Of two lines, the mark at the end of the second one stays in the text. -/
theorem not_saves_two (h : Typescript [line] last) (name : Line) : ¬ Saves name [line] last := by
  have hchars : characters ([line] ++ [last]) = line.keys ++ last.keys := by simp [characters]
  have hfits := h.fits
  have ht := characters_ne h
  have hpos := h.length_pos (l := line) (by simp)
  obtain ⟨hpos', hlast⟩ := getD_of_getLast? h.stops
  rw [hchars] at hfits ht
  have hlen : (line.keys ++ last.keys).length = line.keys.length + last.keys.length := List.length_append
  intro hs
  have hk := hs (fun _ => 0) fun _ => 0
  obtain ⟨filename', htext⟩ := keeps_texted (t := line.keys ++ last.keys) (h.noBackspace line (by simp))
    (by omega) name [last] fun _ => 0
  rw [hchars, List.cons_append, List.nil_append, htext] at hk
  rw [keeps_read hpos (hk.goesOn hpos (by omega) (by omega)) (h.noBackspace last (by simp)) (by omega)] at hk
  rw [keeps_stop hpos' (by omega) (hk.stops hpos' (by omega)) (by omega), begins_iff ht] at hk
  obtain ⟨-, ⟨-, hzero⟩, -⟩ := hk
  rw [Function.update_of_ne (by omega), hlen, Nat.add_sub_assoc hpos', laid_at (by omega), hlast] at hzero
  exact absurd hzero (by decide)

theorem length_characters (lines : List Line) :
    (characters lines).length = (lines.map fun line => line.keys.length).sum := by
  rw [characters, List.length_flatten, List.map_map]
  rfl

/-- Of four lines or more, the last place of the text is never stored to. -/
theorem not_saves_many (h : Typescript init last) (hm : 3 ≤ init.length) (name : Line) : ¬ Saves name init last := by
  obtain ⟨first, rest, rfl⟩ := List.exists_cons_of_length_pos (by omega : 0 < init.length)
  have ht := characters_ne h
  have hfits := h.fits
  have hpos := h.length_pos (l := first) (by simp)
  have hcount : (characters (first :: rest ++ [last])).length =
      first.keys.length + ((rest ++ [last]).map fun line => line.keys.length).sum := length_characters _
  have hsum : (rest ++ [last]).length ≤ ((rest ++ [last]).map fun line => line.keys.length).sum := by
    rw [← List.length_map fun line : Line => line.keys.length]
    refine List.length_le_sum_of_one_le _ ?_
    intro n hn
    obtain ⟨line, hl, rfl⟩ := List.mem_map.1 hn
    exact h.length_pos (List.mem_cons_of_mem _ hl)
  rw [List.length_append, List.length_singleton] at hsum
  rw [List.length_cons] at hm
  intro hs
  obtain ⟨filename', htext⟩ := keeps_texted (t := characters (first :: rest ++ [last]))
    (h.noBackspace first (by simp)) (by omega) name (rest ++ [last]) fun _ => 0
  obtain ⟨s, hloop, -, hbegins, -⟩ := (htext _).1 (hs (fun _ => 0) fun _ => 1)
  have hzero := ((begins_iff ht).1 hbegins).2
  have hchain : ((first :: (rest ++ [last])).map fun line => line.keys.length).IsChain fun a b =>
      a + b < (characters (first :: rest ++ [last])).length - 1 := by
    refine isChain_add_lt (k := 0) ?_ ?_ (by simp; omega)
    · intro n hn
      obtain ⟨line, hl, rfl⟩ := List.mem_map.1 hn
      exact h.length_pos hl
    · rw [List.map_cons, List.sum_cons]
      omega
  rw [editLoop_frame hpos ?_ ?_ (fun l hl => h.nonempty l (List.mem_cons_of_mem _ hl))
    (fun l hl => h.noBackspace l (List.mem_cons_of_mem _ hl)) hchain hloop, laid_behind ?_] at hzero
  · exact absurd hzero (by decide)
  all_goals omega

/-! ## Three lines -/

/-- The array when three lines have been stored. -/
def threeLaid (l₁ l₂ l₃ : List UInt8) (file : Buffer) : Buffer :=
  laid 0 l₂.length l₃ (laid 0 l₁.length l₂ (laid 0 0 l₁ file))

theorem threeLaid_third (hi : i ≤ l₃.length) : threeLaid l₁ l₂ l₃ file (l₂.length + i) = l₃.getD i 0 := laid_at hi

theorem threeLaid_first (h1 : o < l₁.length) (h2 : o < l₂.length) : threeLaid l₁ l₂ l₃ file o = l₁.getD o 0 := by
  rw [threeLaid, laid_before h2, laid_before h1, laid_zero h1.le]

theorem threeLaid_second (l₁ : List UInt8) (hi : i < l₂.length) (h2 : l₁.length + i < l₂.length) :
    threeLaid l₁ l₂ l₃ file (l₁.length + i) = l₂.getD i 0 := by
  rw [threeLaid, laid_before h2, laid_at hi.le]

theorem length_three (l₁ l₂ l₃ : List UInt8) :
    (l₁ ++ l₂ ++ l₃).length = l₁.length + l₂.length + l₃.length := by
  rw [List.length_append, List.length_append]

/-- If the text is right, the first line has one character, and the last line is
    not shorter than the second. -/
theorem three_lengths (h1 : 0 < l₁.length) (h2 : 0 < l₂.length) (h3 : 0 < l₃.length)
    (hstop : threeLaid l₁ l₂ l₃ (fun _ => 1) (l₃.length - 1) = 0x04)
    (hb : Begins (l₁ ++ l₂ ++ l₃) (Function.update (threeLaid l₁ l₂ l₃ fun _ => 1) (l₃.length - 1) 0)) :
    l₁.length = 1 ∧ l₂.length < l₃.length := by
  have hlen := length_three l₁ l₂ l₃
  rw [begins_iff (List.length_pos_iff.1 (by omega)), hlen] at hb
  obtain ⟨htext, hzero⟩ := hb
  have hmark : (l₁ ++ l₂ ++ l₃).getD (l₃.length - 1) 0 = 0 := by
    rw [← htext _ (by omega), Function.update_self]
  -- the mark is not the character that stands there in the text
  have hlong : l₂.length < l₃.length := by
    by_contra hle
    rcases lt_or_ge (l₃.length - 1) l₁.length with hfirst | hsecond
    · rw [threeLaid_first hfirst (by omega)] at hstop
      rw [List.append_assoc, List.getD_append _ _ _ _ hfirst, hstop] at hmark
      exact absurd hmark (by decide)
    · obtain ⟨i, hi⟩ := Nat.exists_eq_add_of_le hsecond
      rw [hi, threeLaid_second _ (by omega) (by omega)] at hstop
      rw [hi, List.append_assoc, List.getD_append_right _ _ _ _ (by omega), Nat.add_sub_cancel_left,
        List.getD_append _ _ _ _ (by omega), hstop] at hmark
      exact absurd hmark (by decide)
  refine ⟨?_, hlong⟩
  by_contra hone
  rw [Function.update_of_ne (by omega), threeLaid, laid_behind (by omega), laid_behind (by omega),
    laid_behind (by omega)] at hzero
  exact absurd hzero (by decide)

theorem getD_marks {j n : ℕ} (hi : i < j + n) :
    (List.replicate j (0 : UInt8) ++ List.replicate n 0x04).getD i 0 = if i < j then 0 else 0x04 := by
  split_ifs with h
  · rw [List.getD_append _ _ _ _ (by rwa [List.length_replicate]), List.getD_replicate _ h]
  · rw [List.getD_append_right _ _ _ _ (by rw [List.length_replicate]; omega), List.length_replicate,
      List.getD_replicate _ (by omega)]

/-- The lines that come out right: the second one ends with a zero, and the last
    one is zeros and then marks, one more than the second line has characters. -/
theorem three_shape (h2 : 0 < l₂.length) (hlong : l₂.length < l₃.length)
    (hstop : threeLaid [c] l₂ l₃ file (l₃.length - 1) = 0x04)
    (hb : Begins ([c] ++ l₂ ++ l₃) (Function.update (threeLaid [c] l₂ l₃ file) (l₃.length - 1) 0)) :
    ∃ w j, l₂ = w ++ [0] ∧ l₃ = List.replicate j 0 ++ List.replicate (w.length + 2) 0x04 := by
  obtain ⟨j, hj⟩ : ∃ j, l₃.length = l₂.length + j + 1 := ⟨l₃.length - l₂.length - 1, by omega⟩
  have hlen := length_three [c] l₂ l₃
  rw [begins_iff (List.length_pos_iff.1 (by omega)), hlen, List.length_singleton] at hb
  obtain ⟨htext, -⟩ := hb
  have hshift : ∀ o, ([c] ++ l₂ ++ l₃).getD (o + 1) 0 = (l₂ ++ l₃).getD o 0 := fun o => rfl
  have hthird : ∀ i, (l₂ ++ l₃).getD (l₂.length + i) 0 = l₃.getD i 0 := fun i => by
    rw [List.getD_append_right _ _ _ _ (Nat.le_add_right _ _), Nat.add_sub_cancel_left]
  rw [hj, Nat.add_sub_cancel] at hstop htext
  rw [threeLaid_third (by omega)] at hstop
  have hmark : (l₂ ++ l₃).getD (l₂.length + j - 1) 0 = 0 := by
    have h := htext (l₂.length + j) (by omega)
    rw [Function.update_self] at h
    rw [← hshift, Nat.sub_add_cancel (by omega), ← h]
  -- away from the mark, a character is the one before it
  have hstep : ∀ i < l₃.length, i ≠ j → l₃.getD i 0 = (l₂ ++ l₃).getD (l₂.length + i - 1) 0 := by
    intro i hi hne
    have h := htext (l₂.length + i) (by omega)
    rw [Function.update_of_ne (by omega), threeLaid_third hi.le] at h
    rw [h, ← hshift, Nat.sub_add_cancel (by omega)]
  have hlow : ∀ i ≤ j, (l₂ ++ l₃).getD (l₂.length + i - 1) 0 = (l₂ ++ l₃).getD (l₂.length - 1) 0 := by
    intro i hi
    induction i with
    | zero => rfl
    | succ i ih => rw [← Nat.add_assoc, Nat.add_sub_cancel, hthird, hstep i (by omega) (by omega), ih (by omega)]
  have hzero : (l₂ ++ l₃).getD (l₂.length - 1) 0 = 0 := (hlow j le_rfl).symm.trans hmark
  have hhigh : ∀ i, j ≤ i → i < l₃.length → l₃.getD i 0 = 0x04 := by
    intro i hi
    induction i, hi using Nat.le_induction with
    | base => exact fun _ => hstop
    | succ i hi ih =>
      intro hlt
      rw [hstep (i + 1) hlt (by omega), ← Nat.add_assoc, Nat.add_sub_cancel, hthird, ih (by omega)]
  refine ⟨l₂.dropLast, j, ?_, ?_⟩
  · rw [List.getD_append _ _ _ _ (by omega), List.getD_eq_getElem _ _ (by omega)] at hzero
    rw [← hzero, ← List.getLast_eq_getElem (List.length_pos_iff.1 h2), List.dropLast_append_getLast]
  · have hlength : l₃.length = j + (l₂.dropLast.length + 2) := by
      rw [List.length_dropLast]
      omega
    refine List.ext_getElem (by simpa using hlength) ?_
    intro i hi hi'
    rw [← List.getD_eq_getElem l₃ 0 hi, ← List.getD_eq_getElem _ 0 hi', getD_marks (by omega)]
    split_ifs with hij
    · have h := hlow (i + 1) (by omega)
      rwa [← Nat.add_assoc, Nat.add_sub_cancel, hthird, hzero] at h
    · exact hhigh i (by omega) hi

/-- Such lines come out right. -/
theorem three_begins {j : ℕ} (h2 : l₂ = w ++ [0])
    (h3 : l₃ = List.replicate j 0 ++ List.replicate (w.length + 2) 0x04) (file : Buffer) :
    threeLaid [c] l₂ l₃ file (l₃.length - 1) = 0x04 ∧
      Begins ([c] ++ l₂ ++ l₃) (Function.update (threeLaid [c] l₂ l₃ file) (l₃.length - 1) 0) := by
  have hlen2 : l₂.length = w.length + 1 := by rw [h2, List.length_append, List.length_singleton]
  have hlen3 : l₃.length = l₂.length + j + 1 := by
    rw [h3, List.length_append, List.length_replicate, List.length_replicate]
    omega
  have hmarks : ∀ i < l₃.length, l₃.getD i 0 = if i < j then 0 else 0x04 := fun i hi => by
    rw [h3, getD_marks (by omega)]
  have hend : l₂.getD (l₂.length - 1) 0 = 0 := by
    rw [hlen2, Nat.add_sub_cancel, h2, List.getD_append_right _ _ _ _ le_rfl, Nat.sub_self, List.getD_cons_zero]
  have hlen := length_three [c] l₂ l₃
  have hshift : ∀ o, ([c] ++ l₂ ++ l₃).getD (o + 1) 0 = (l₂ ++ l₃).getD o 0 := fun o => rfl
  -- the character in front of the third line, and those in it
  have hthird : ∀ i, ([c] ++ l₂ ++ l₃).getD (l₂.length + i) 0 = if i = 0 then 0 else l₃.getD (i - 1) 0 := by
    intro i
    have hsucc : l₂.length + i = l₂.length + i - 1 + 1 := by omega
    rw [hsucc, hshift]
    split_ifs with h0
    · rw [h0, Nat.add_zero, List.getD_append _ _ _ _ (by omega), hend]
    · rw [List.getD_append_right _ _ _ _ (by omega)]
      congr 1
      omega
  rw [begins_iff (List.length_pos_iff.1 (by omega)), hlen, List.length_singleton, hlen3, Nat.add_sub_cancel,
    threeLaid_third (by omega), hmarks j (by omega), if_neg (lt_irrefl j)]
  refine ⟨rfl, ?_, ?_⟩
  · intro o ho
    rcases lt_or_ge o l₂.length with hlt | hge
    · rw [Function.update_of_ne (by omega)]
      rcases o with _ | i
      · rw [threeLaid_first (by simp) hlt]
        rfl
      · rw [hshift, List.getD_append _ _ _ _ (by omega), Nat.add_comm i 1]
        exact threeLaid_second [c] (by omega) (by rw [List.length_singleton]; omega)
    · obtain ⟨i, rfl⟩ := Nat.exists_eq_add_of_le hge
      rw [hthird]
      by_cases hij : i = j
      · rw [hij, Function.update_self]
        split_ifs with h0
        · rfl
        · rw [hmarks _ (by omega), if_pos (by omega)]
      · rw [Function.update_of_ne (by omega), threeLaid_third (by omega), hmarks i (by omega)]
        split_ifs with hlt h0 h0
        · rfl
        · rw [hmarks _ (by omega), if_pos (by omega)]
        · omega
        · rw [hmarks _ (by omega), if_neg (by omega)]
  · have hplace : 1 + l₂.length + (l₂.length + j + 1) - 1 = l₂.length + l₃.length := by omega
    rw [hplace, Function.update_of_ne (by omega), threeLaid_third le_rfl, List.getD_eq_default _ _ le_rfl]

/-- Three lines that come out right: a single character; a line that ends with
    a zero; zeros, and then marks, one more than the second line has characters.
    The number of sectors of the last line must be that of the text. -/
def ComesOut (init : List Line) (last : Line) : Prop :=
  ∃ first second c w j, init = [first, second] ∧ first.keys = [c] ∧ second.keys = w ++ [0] ∧
    w.getLast? ≠ some 0x04 ∧ last.keys = List.replicate j 0 ++ List.replicate (w.length + 2) 0x04 ∧
    (last.keys.length + 511) / 512 = ((characters (init ++ [last])).length + 511) / 512

/-- The character the loop looks at behind the second line. -/
theorem second_mark (h2 : l₂ = w ++ [0]) (hc : c ≠ 0x04) :
    laid 0 1 l₂ (laid 0 0 [c] file) (l₂.length - 1) = 0x04 ↔ w.getLast? = some 0x04 := by
  have hlen : l₂.length - 1 = w.length := by rw [h2, List.length_append, List.length_singleton, Nat.add_sub_cancel]
  rw [hlen]
  rcases List.eq_nil_or_concat' w with rfl | ⟨v, x, rfl⟩
  · rw [List.length_nil, laid_before (by omega), laid, if_pos (by simp)]
    simpa using hc
  · rw [List.length_append, List.length_singleton, Nat.add_comm v.length 1, laid_at (by simp [h2]), h2,
      List.append_assoc, List.getD_append_right _ _ _ _ le_rfl, Nat.sub_self]
    simp

theorem saves_three {first second : Line} (h : Typescript [first, second] last) (name : Line) :
    Saves name [first, second] last ↔ ComesOut [first, second] last := by
  have hchars : characters ([first, second] ++ [last]) = first.keys ++ second.keys ++ last.keys := by
    simp [characters]
  have hfits := h.fits
  have hlen := length_three first.keys second.keys last.keys
  have hpos1 := h.length_pos (l := first) (by simp)
  have hpos2 := h.length_pos (l := second) (by simp)
  have hpos3 := h.length_pos (l := last) (by simp)
  have hgo : first.keys.getLast? ≠ some 0x04 := h.goesOn first (by simp)
  rw [hchars, hlen] at hfits
  have htext : ∀ filename, ∃ filename', ∀ file, Keeps (first.keys ++ second.keys ++ last.keys)
      (texted (name :: ([first, second] ++ [last])) filename file) ↔ Keeps (first.keys ++ second.keys ++ last.keys)
        (editLoop filename' [second, last] (Int16.ofNat first.keys.length) (laid 0 0 first.keys file)) :=
    keeps_texted (h.noBackspace first (by simp)) (by omega) name [second, last]
  constructor
  · intro hs
    obtain ⟨filename', hk⟩ := htext fun _ => 0
    have hk := (hk _).1 (hchars ▸ hs (fun _ => 0) fun _ => 1)
    rw [keeps_read hpos1 (hk.goesOn hpos1 (by omega) (by omega)) (h.noBackspace second (by simp)) (by omega)] at hk
    have hgo2 := hk.goesOn hpos2 (by omega) (by omega)
    rw [keeps_read hpos2 hgo2 (h.noBackspace last (by simp)) (by omega)] at hk
    have hstop := hk.stops hpos3 (by omega)
    rw [keeps_stop hpos3 (by omega) hstop (by omega)] at hk
    obtain ⟨-, hbegins, hcount⟩ := hk
    obtain ⟨hone, hlong⟩ := three_lengths hpos1 hpos2 hpos3 hstop hbegins
    obtain ⟨c, hc⟩ := List.length_eq_one_iff.1 hone
    rw [hc] at hstop hbegins hgo2 hgo
    obtain ⟨w, j, h2, h3⟩ := three_shape hpos2 hlong hstop hbegins
    refine ⟨first, second, c, w, j, rfl, hc, h2, fun hw => hgo2 ?_, h3, by rwa [hchars]⟩
    exact (second_mark h2 (by simpa using hgo)).2 hw
  · rintro ⟨_, _, c, w, j, heq, hc, h2, hw, h3, hcount⟩ filename file
    simp only [List.cons.injEq, and_true] at heq
    obtain ⟨rfl, rfl⟩ := heq
    obtain ⟨filename', hk⟩ := htext filename
    rw [hc] at hgo
    have hc4 : c ≠ 0x04 := by simpa using hgo
    have hgo1 : laid 0 0 first.keys file (first.keys.length - 1) ≠ 0x04 := by
      rw [hc, laid, if_pos (by simp)]
      exact hc4
    have hgo2 : laid 0 first.keys.length second.keys (laid 0 0 first.keys file) (second.keys.length - 1) ≠ 0x04 := by
      rw [hc, Ne, List.length_singleton, second_mark h2 hc4]
      exact hw
    obtain ⟨hstop, hbegins⟩ := three_begins (c := c) h2 h3 file
    rw [← hc] at hstop hbegins
    rw [hchars] at hcount ⊢
    rw [hk, keeps_read hpos1 hgo1 (h.noBackspace second (by simp)) (by omega),
      keeps_read hpos2 hgo2 (h.noBackspace last (by simp)) (by omega)]
    exact (keeps_stop hpos3 (by omega) hstop (by omega)).2 ⟨rfl, hbegins, hcount⟩

/-- **The editor saves the text of a single line**, and of three lines that
    happen to come out right; of no others. -/
theorem saves_iff (h : Typescript init last) (name : Line) :
    Saves name init last ↔ init = [] ∨ ComesOut init last := by
  have hthree : ∀ {init}, ComesOut init last → init.length = 2 := by
    rintro init ⟨first, second, c, w, j, rfl, -⟩
    rfl
  rcases init with _ | ⟨first, _ | ⟨second, _ | ⟨third, init⟩⟩⟩
  · exact iff_of_true (saves_one h name) (.inl rfl)
  · refine iff_of_false (not_saves_two h name) ?_
    rintro (h0 | h3)
    · cases h0
    · cases hthree h3
  · rw [saves_three h name]
    simp
  · refine iff_of_false (not_saves_many h (by simp) name) ?_
    rintro (h0 | h3)
    · cases h0
    · have := hthree h3
      simp at this

/-- The line `Hi`. -/
def hiLine : Line := ⟨text "Hi", by decide +kernel⟩

/-- The line `Hi`, with the mark. -/
def markedLine : Line := ⟨text "Hi" ++ [0x04], by decide +kernel⟩

theorem saves_iff_one : Saves hiLine [] markedLine :=
  (saves_iff ⟨by decide +kernel, by decide +kernel, rfl, by decide +kernel, by decide +kernel⟩ hiLine).2 (.inl rfl)

/-- **Two lines are not saved**: the editor waits for a third one. -/
theorem two_lines_wait : Typescript [hiLine] markedLine ∧ ¬ Saves hiLine [hiLine] markedLine := by
  refine ⟨⟨by decide +kernel, by decide +kernel, rfl, by decide +kernel, by decide +kernel⟩, ?_⟩
  intro h
  obtain ⟨s, hs, -⟩ := h (fun _ => 0) fun _ => 0
  have hwait : (texted [hiLine, hiLine, markedLine] (fun _ => 0) fun _ => 0).isNone = true := by decide +kernel
  rw [show texted [hiLine, hiLine, markedLine] (fun _ => 0) (fun _ => 0) = some s from hs] at hwait
  cases hwait

end TeamXtremeOS
