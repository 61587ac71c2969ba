/-
  `executeProgram`: what it does to the variables of the kernel when it
  returns, by the value it returns.
-/
import TeamXtremeOS.Kernel
import TeamXtremeOS.Proof.Queue

namespace TeamXtremeOS

open Lib

variable {s s' : Proc} {k k' : Kernel} {name : FileName} {r : Int16} {q : List PCBRef}
  {p i : Fin 8} {P : Proc → List PCBRef → Prop}

/-! ## The name of a process -/

/-- The name starts with the five bytes by which the timer handler knows the
    idle process. -/
def startsIdle (name : FileName) : Bool :=
  stringMatch (fun i : Fin 5 => name (i.castLE (by omega))) IDLE

theorem kStrCopy_of_notMem (src : FileName) {is : List (Fin 6)} {j : Fin 6} (hj : j ∉ is) (dest : Fin 7 → UInt8) :
    kStrCopy src is dest j.castSucc = dest j.castSucc := by
  induction is generalizing dest with
  | nil => rfl
  | cons i is ih =>
    rw [List.mem_cons, not_or] at hj
    have hu : Function.update dest i.castSucc (src i) j.castSucc = dest j.castSucc :=
      Function.update_of_ne (by simpa using hj.1) _ _
    simp only [kStrCopy]
    split_ifs
    · exact hu
    · rw [ih hj.2, hu]

/-- A byte is copied when no zero byte comes before it. -/
theorem kStrCopy_apply (src : FileName) {u v : List (Fin 6)} {j : Fin 6} (hn : (u ++ j :: v).Nodup)
    (hu : ∀ i ∈ u, src i ≠ 0) (dest : Fin 7 → UInt8) :
    kStrCopy src (u ++ j :: v) dest j.castSucc = src j := by
  induction u generalizing dest with
  | nil =>
    have hj := (List.nodup_cons.1 hn).1
    simp only [List.nil_append, kStrCopy]
    split_ifs
    · simp
    · rw [kStrCopy_of_notMem src hj]; simp
  | cons i u ih =>
    simp only [List.cons_append, kStrCopy, if_neg (hu i List.mem_cons_self)]
    exact ih (List.nodup_cons.1 hn).2 (fun x hx => hu x (List.mem_cons_of_mem _ hx)) _

theorem namedIdle_iff {b : PCB} :
    b.namedIdle = true ↔ ∀ (j : Fin 5) (h : 5 ≤ 7), b.name (j.castLE h) = IDLE j := by
  simp [PCB.namedIdle, stringMatch]

theorem startsIdle_iff {name : FileName} :
    startsIdle name = true ↔ ∀ j : Fin 5, name (j.castLE (by omega)) = IDLE j := by
  simp [startsIdle, stringMatch]

theorem IDLE_ne_zero : ∀ i j : Fin 5, i < j → IDLE i ≠ 0 := by decide

theorem kStrCopy_namedIdle {name : FileName} {b : PCB} {dest : Fin 7 → UInt8}
    (hb : b.name = kStrCopy name (List.finRange 6) dest) : b.namedIdle = startsIdle name := by
  have copy : ∀ j : Fin 5, (∀ i < j, name (i.castLE (by omega)) ≠ 0) →
      b.name (j.castLE (by omega)) = name (j.castLE (by omega)) := by
    intro j hj
    obtain ⟨u, v, hu⟩ := List.append_of_mem (List.mem_finRange (j.castLE (by omega) : Fin 6))
    have hp : (u ++ j.castLE (by omega) :: v).Pairwise (· < ·) := hu ▸ List.pairwise_lt_finRange 6
    have hn : (u ++ j.castLE (by omega) :: v).Nodup := hu ▸ List.nodup_finRange 6
    rw [hb, hu]
    refine kStrCopy_apply name hn ?_ dest
    intro i hi
    have hlt : i < j.castLE (by omega) := (List.pairwise_append.1 hp).2.2 i hi _ List.mem_cons_self
    exact hj ⟨i.val, lt_trans hlt j.isLt⟩ hlt
  rw [Bool.eq_iff_iff, namedIdle_iff, startsIdle_iff]
  constructor
  · intro h j
    -- the bytes before `j` are those of `IDLE`, so none is zero
    induction j using WellFoundedLT.induction with
    | ind j ih => rw [← copy j fun i hi => by rw [ih i hi]; exact IDLE_ne_zero i j hi, h j]
  · intro h j _
    rw [copy j fun i hi => by rw [h i]; exact IDLE_ne_zero i j hi, h j]

/-! ## The variables -/

/-- What a successful `executeProgram` does: PCB `p` describes a process in
    segment `i` and is on the queue. -/
structure Started (name : FileName) (i p : Fin 8) (s s' : Proc) : Prop where
  handedOut : (getFreeMemorySegment s).1 = some i
  segmentFree : s.memoryMap (Int16.ofNat i.val) = FREE
  free : freePCB s = some p
  running : s'.running = s.running
  memoryMap : s'.memoryMap = Function.update s.memoryMap (Int16.ofNat i.val) USED
  namedIdle : (s'.pcb (.pcbPool p)).namedIdle = startsIdle name
  name : ∀ x, x ≠ .pcbPool p → (s'.pcb x).name = (s.pcb x).name
  state : ∀ x, (s'.pcb x).state = if x = .pcbPool p then .STARTING else (s.pcb x).state
  segment : ∀ x, (s'.pcb x).segment =
    if x = .pcbPool p then segmentOf (Int16.ofNat i.val) else (s.pcb x).segment
  stackPointer : ∀ x, (s'.pcb x).stackPointer =
    if x = .pcbPool p then 0xFF00 else (s.pcb x).stackPointer
  sleepCounter : ∀ x, (s'.pcb x).sleepCounter = (s.pcb x).sleepCounter
  added : ∃ s₁, SameLinks s s₁ ∧ addToReady (.pcbPool p) s₁ = some s'

/-- What an unsuccessful `executeProgram` may do: it keeps a segment when there
    is no PCB for it. -/
def Refused (s s' : Proc) : Prop :=
  s' = s ∨ freePCB s = none ∧ ∃ i : Fin 8, s.memoryMap (Int16.ofNat i.val) = FREE ∧
    s' = { s with memoryMap := Function.update s.memoryMap (Int16.ofNat i.val) USED }

theorem freePCB_defunct (h : freePCB s = some p) : (s.pcb (.pcbPool p)).state = .DEFUNCT := by
  simpa using List.find?_some h

theorem getFreeMemorySegment_spec (s : Proc) :
    getFreeMemorySegment s = (none, s) ∨ ∃ i : Fin 8, s.memoryMap (Int16.ofNat i.val) = FREE ∧
      getFreeMemorySegment s =
        (some i, { s with memoryMap := Function.update s.memoryMap (Int16.ofNat i.val) USED }) := by
  unfold getFreeMemorySegment
  split
  · next i h => exact .inr ⟨i, by simpa using List.find?_some h, rfl⟩
  · exact .inl rfl

/-- The PCB of a new process, before it is added to the queue. -/
def prepared (name : FileName) (i p : Fin 8) (s : Proc) : Proc :=
  fillPCB (.pcbPool p) name (segmentOf (Int16.ofNat i.val))
    ({ s with memoryMap := Function.update s.memoryMap (Int16.ofNat i.val) USED }.setState
      (.pcbPool p) .STARTING)

theorem prepared_pcb_of_ne {x : PCBRef} (hx : x ≠ .pcbPool p) :
    (prepared name i p s).pcb x = s.pcb x := by
  simp [prepared, fillPCB, Proc.setState, hx]

theorem prepared_pcb : (prepared name i p s).pcb (.pcbPool p) = { s.pcb (.pcbPool p) with
    name := kStrCopy name (List.finRange 6) (s.pcb (.pcbPool p)).name, state := .STARTING,
    segment := segmentOf (Int16.ofNat i.val), stackPointer := 0xFF00 } := by
  simp [prepared, fillPCB, Proc.setState]

theorem prepared_links : SameLinks s (prepared name i p s) :=
  ⟨rfl, rfl,
    fun x => by
      by_cases hx : x = .pcbPool p
      · rw [hx, prepared_pcb]
      · rw [prepared_pcb_of_ne hx],
    fun x => by
      by_cases hx : x = .pcbPool p
      · rw [hx, prepared_pcb]
      · rw [prepared_pcb_of_ne hx]⟩

theorem prepared_started (hg : (getFreeMemorySegment s).1 = some i)
    (hi : s.memoryMap (Int16.ofNat i.val) = FREE) (hp : freePCB s = some p)
    (h : addToReady (.pcbPool p) (prepared name i p s) = some s') : Started name i p s s' := by
  have hf := addToReady_frame h
  refine ⟨hg, hi, hp, hf.running, hf.memoryMap, ?_, fun x hx => ?_, fun x => ?_, fun x => ?_, fun x => ?_,
    fun x => ?_, _, prepared_links, h⟩
  · exact kStrCopy_namedIdle (by rw [hf.name, prepared_pcb])
  · rw [hf.name, prepared_pcb_of_ne hx]
  all_goals
    by_cases hx : x = .pcbPool p
  · rw [hf.state, hx, prepared_pcb, if_pos rfl]
  · rw [hf.state, prepared_pcb_of_ne hx, if_neg hx]
  · rw [hf.segment, hx, prepared_pcb, if_pos rfl]
  · rw [hf.segment, prepared_pcb_of_ne hx, if_neg hx]
  · rw [hf.stackPointer, hx, prepared_pcb, if_pos rfl]
  · rw [hf.stackPointer, prepared_pcb_of_ne hx, if_neg hx]
  · rw [hf.sleepCounter, hx, prepared_pcb]
  · rw [hf.sleepCounter, prepared_pcb_of_ne hx]

/-- Past its checks, `executeProgram` is `addToReady` of the prepared PCB. -/
theorem executeProgram_eq {found : Int16} {buf : Buffer} {d : Disk}
    (hf : (readFile name fun _ => 0).exec k.disk = some ((found, buf), d)) (h1 : found ≠ -1)
    (h26 : ¬ 26 < found) (hg : getFreeMemorySegment k.toProc = (some i,
      { k.toProc with memoryMap := Function.update k.memoryMap (Int16.ofNat i.val) USED }))
    (hp : freePCB k.toProc = some p) : executeProgram name k =
      (addToReady (.pcbPool p) (prepared name i p k.toProc)).map fun s => (1, { k with
        toProc := s
        mem := initializeProgram (segmentOf (Int16.ofNat i.val))
          (putProgram (segmentOf (Int16.ofNat i.val)) found buf k.mem) }) := by
  have hp' : freePCB { k.toProc with
      memoryMap := Function.update k.memoryMap (Int16.ofNat i.val) USED } = some p := hp
  unfold executeProgram
  simp only [hf, if_neg h1, if_neg h26, hg, getFreePCB, hp']
  rcases ha : addToReady (.pcbPool p) (prepared name i p k.toProc) with _ | s <;>
    (unfold prepared at ha; simp only [ha]; rfl)

theorem executeProgram_refused {found : Int16} {buf : Buffer} {d : Disk}
    (hf : (readFile name fun _ => 0).exec k.disk = some ((found, buf), d)) (h26 : ¬ 26 < found)
    (h : found = -1 ∨ (getFreeMemorySegment k.toProc).1 = none ∨ freePCB k.toProc = none) :
    ∃ r k', executeProgram name k = some (r, k') ∧ r < 0 ∧ Refused k.toProc k'.toProc := by
  unfold executeProgram
  simp only [hf, if_neg h26]
  split_ifs with h1
  · exact ⟨_, _, rfl, by decide, .inl rfl⟩
  · rcases getFreeMemorySegment_spec k.toProc with hg | ⟨i, hi, hg⟩
    · simp only [hg]
      exact ⟨_, _, rfl, by decide, .inl rfl⟩
    · have hp : freePCB k.toProc = none := by simpa [h1, hg] using h
      have hp' : freePCB { k.toProc with
          memoryMap := Function.update k.memoryMap (Int16.ofNat i.val) USED } = none := hp
      simp only [hg, getFreePCB, hp']
      exact ⟨_, _, rfl, by decide, .inr ⟨hp, i, hi, rfl⟩⟩

/-- `executeProgram` finds the file, at most as long as its buffer, or finds
    out that there is none. -/
def Loads (name : FileName) (k : Kernel) : Prop :=
  ∃ found buf d, (readFile name fun _ => 0).exec k.disk = some ((found, buf), d) ∧ ¬ 26 < found

theorem executeProgram_loads (h : executeProgram name k = some (r, k')) : Loads name k := by
  unfold executeProgram at h
  split at h
  · cases h
  · next found buf d hf =>
    by_cases h26 : 26 < found
    · have h1 : found ≠ -1 := by rintro rfl; revert h26; decide
      simp only [if_neg h1, if_pos h26] at h
      cases h
    · exact ⟨found, buf, d, hf, h26⟩

/-- A program is refused, or its start comes down to `addToReady` of the
    prepared PCB. -/
theorem Loads.split (hl : Loads name k) :
    (∃ r k', executeProgram name k = some (r, k') ∧ r < 0 ∧ Refused k.toProc k'.toProc) ∨
    ∃ i p mem, (getFreeMemorySegment k.toProc).1 = some i ∧ k.memoryMap (Int16.ofNat i.val) = FREE ∧
      freePCB k.toProc = some p ∧ executeProgram name k =
        (addToReady (.pcbPool p) (prepared name i p k.toProc)).map fun s => (1, { k with toProc := s, mem := mem }) := by
  obtain ⟨found, buf, d, hf, h26⟩ := hl
  by_cases hc : found = -1 ∨ (getFreeMemorySegment k.toProc).1 = none ∨ freePCB k.toProc = none
  · exact .inl (executeProgram_refused hf h26 hc)
  · simp only [not_or] at hc
    obtain ⟨h1, h2, h3⟩ := hc
    obtain ⟨p, hp⟩ := Option.ne_none_iff_exists'.1 h3
    rcases getFreeMemorySegment_spec k.toProc with hg | ⟨i, hi, hg⟩
    · exact absurd (by rw [hg]) h2
    · exact .inr ⟨i, p, _, by rw [hg], hi, hp, executeProgram_eq hf h1 h26 hg hp⟩

/-- **The outcomes of `executeProgram`**: it refuses with a negative value, or
    it returns 1 and has started a process. -/
theorem executeProgram_cases (h : executeProgram name k = some (r, k')) :
    r < 0 ∧ Refused k.toProc k'.toProc ∨
      r = 1 ∧ ∃ i p, Started name i p k.toProc k'.toProc := by
  rcases (executeProgram_loads h).split with ⟨r', k'', h', hr⟩ | ⟨i, p, mem, hg, hi, hp, he⟩
  · rw [h] at h'
    cases h'
    exact .inl hr
  · rw [he, Option.map_eq_some_iff] at h
    obtain ⟨s', ha, he⟩ := h
    cases he
    exact .inr ⟨rfl, i, p, prepared_started hg hi hp ha⟩

/-- `executeProgram` returns 1. -/
def Succeeds (name : FileName) (k : Kernel) : Prop :=
  (executeProgram name k).map Prod.fst = some 1

instance (name : FileName) (k : Kernel) : Decidable (Succeeds name k) :=
  inferInstanceAs (Decidable (_ = _))

/-- With a queue, `executeProgram` fails only on the disk. -/
theorem executeProgram_queue (hP : QueueInv P) (h : P k.toProc q)
    (hq : ∀ p, freePCB k.toProc = some p → .pcbPool p ∉ q) (hl : Loads name k) :
    ∃ r k', executeProgram name k = some (r, k') := by
  rcases hl.split with ⟨r, k', h', -⟩ | ⟨i, p, mem, -, -, hp, he⟩
  · exact ⟨r, k', h'⟩
  · obtain ⟨s', hs', -⟩ := (hP.queue (hP.congr h prepared_links)).add (hq p hp)
    rw [he, hs']
    exact ⟨_, _, rfl⟩

/-- `executeProgram` stores into a free segment only. -/
theorem executeProgram_mem (h : executeProgram name k = some (r, k')) {seg : Int16}
    (hseg : ∀ i : Fin 8, k.memoryMap (Int16.ofNat i.val) = FREE → seg ≠ segmentOf (Int16.ofNat i.val))
    (off : UInt16) : k'.mem seg off = k.mem seg off := by
  have hput : ∀ (i : Fin 8) found buf mem, k.memoryMap (Int16.ofNat i.val) = FREE →
      putProgram (segmentOf (Int16.ofNat i.val)) found buf mem seg off = mem seg off :=
    fun i found buf mem hi => if_neg fun hc => hseg i hi hc.1
  have hini : ∀ (i : Fin 8) mem, k.memoryMap (Int16.ofNat i.val) = FREE →
      initializeProgram (segmentOf (Int16.ofNat i.val)) mem seg off = mem seg off :=
    fun i mem hi => if_neg fun hc => hseg i hi hc.1
  unfold executeProgram at h
  split at h
  · cases h
  · split_ifs at h
    · cases h; rfl
    · rcases getFreeMemorySegment_spec k.toProc with hg | ⟨i, hi, hg⟩
      · simp only [hg] at h
        cases h; rfl
      · simp only [hg] at h
        split at h
        · cases h; exact hput i _ _ _ hi
        · split at h
          · cases h
          · cases h
            exact (hini i _ hi).trans (hput i _ _ _ hi)

theorem Started.queue (hs : Started name i p s s') (hP : QueueInv P) (h : P s q)
    (hp : .pcbPool p ∉ q) : P s' (q ++ [.pcbPool p]) := by
  obtain ⟨s₁, hl, ha⟩ := hs.added
  exact hP.add (hP.congr h hl) hp ha

theorem Started.defunct (hs : Started name i p s s') : (s.pcb (.pcbPool p)).state = .DEFUNCT :=
  freePCB_defunct hs.free

/-- The variables of a refused `executeProgram`, the memory map apart. -/
theorem Refused.eq (h : Refused s s') : s' = { s with memoryMap := s'.memoryMap } := by
  rcases h with rfl | ⟨-, i, -, rfl⟩ <;> rfl

end TeamXtremeOS
