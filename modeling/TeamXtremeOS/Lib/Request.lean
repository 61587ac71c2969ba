/-
  Programs that work on a store by requests, alone and two at a time.

  A program reads and writes the cells of a store one request after the
  other; between two requests it only computes.  `exec` runs a program alone;
  `Interleaves` runs two programs on one store, in any order of their
  requests.
-/
import Mathlib.Logic.Function.Basic
import Mathlib.Data.List.Basic

namespace Lib

/-- Programs over a store with keys `K` and values `V`.  A program that `fail`s
    has no result. -/
inductive Prog (K V : Type) (R : Type) where
  | ret (r : R)
  | fail
  | read (k : K) (c : V → Prog K V R)
  | write (k : K) (v : V) (c : Prog K V R)

namespace Prog
variable {K V R S : Type}

def bind : Prog K V R → (R → Prog K V S) → Prog K V S
  | .ret r, f => f r
  | .fail, _ => .fail
  | .read k c, f => .read k fun v => (c v).bind f
  | .write k v c, f => .write k v (c.bind f)

instance : Monad (Prog K V) where
  pure := .ret
  bind := bind

/-- A value that may be missing. -/
def ofOption : Option R → Prog K V R
  | some r => .ret r
  | none => .fail

/-- A list of writes, before a program. -/
def writes (l : List (K × V)) (p : Prog K V R) : Prog K V R :=
  l.foldr (fun w p => .write w.1 w.2 p) p

@[simp] theorem pure_eq (r : R) : (pure r : Prog K V R) = .ret r := rfl
@[simp] theorem ret_bind (r : R) (f : R → Prog K V S) : (.ret r >>= f : Prog K V S) = f r := rfl
@[simp] theorem fail_bind (f : R → Prog K V S) : (.fail >>= f : Prog K V S) = .fail := rfl
@[simp] theorem read_bind (k : K) (c : V → Prog K V R) (f : R → Prog K V S) :
    (.read k c >>= f : Prog K V S) = .read k fun v => c v >>= f := rfl
@[simp] theorem write_bind (k : K) (v : V) (c : Prog K V R) (f : R → Prog K V S) :
    (.write k v c >>= f : Prog K V S) = .write k v (c >>= f) := rfl
@[simp] theorem writes_nil (p : Prog K V R) : writes [] p = p := rfl
@[simp] theorem writes_cons (w : K × V) (l : List (K × V)) (p : Prog K V R) :
    writes (w :: l) p = .write w.1 w.2 (writes l p) := rfl

theorem writes_bind (l : List (K × V)) (p : Prog K V R) (f : R → Prog K V S) :
    writes l p >>= f = writes l (p >>= f) := by
  induction l with
  | nil => rfl
  | cons w l ih => rw [writes_cons, write_bind, ih, writes_cons]

/-- The program does not read `k`. -/
def NoRead (k : K) : Prog K V R → Prop
  | .ret _ | .fail => True
  | .read j c => j ≠ k ∧ ∀ v, NoRead k (c v)
  | .write _ _ c => NoRead k c

theorem NoRead.bind {k : K} {p : Prog K V R} {f : R → Prog K V S} (hp : NoRead k p)
    (hf : ∀ r, NoRead k (f r)) : NoRead k (p >>= f) := by
  induction p with
  | ret r => exact hf r
  | fail => trivial
  | read j c ih => exact ⟨hp.1, fun v => ih v (hp.2 v)⟩
  | write j v c ih => exact ih hp

/-- All requests of the program are about keys with `P`, whatever it reads. -/
def Only (P : K → Prop) : Prog K V R → Prop
  | .ret _ | .fail => True
  | .read k c => P k ∧ ∀ v, Only P (c v)
  | .write k _ c => P k ∧ Only P c

theorem Only.bind {P : K → Prop} {p : Prog K V R} {f : R → Prog K V S} (hp : Only P p)
    (hf : ∀ r, Only P (f r)) : Only P (p >>= f) := by
  induction p with
  | ret r => exact hf r
  | fail => trivial
  | read k c ih => exact ⟨hp.1, fun v => ih v (hp.2 v)⟩
  | write k v c ih => exact ⟨hp.1, ih hp.2⟩

theorem Only.mono {P Q : K → Prop} {p : Prog K V R} (hp : Only P p) (h : ∀ k, P k → Q k) : Only Q p := by
  induction p with
  | ret r => trivial
  | fail => trivial
  | read k c ih => exact ⟨h _ hp.1, fun v => ih v (hp.2 v)⟩
  | write k v c ih => exact ⟨h _ hp.1, ih hp.2⟩

variable [DecidableEq K]

/-- Running a program alone: its result and the store it leaves. -/
def exec : Prog K V R → (K → V) → Option (R × (K → V))
  | .ret r, d => some (r, d)
  | .fail, _ => none
  | .read k c, d => (c (d k)).exec d
  | .write k v c, d => c.exec (Function.update d k v)

/-- The store after a list of writes. -/
def store (l : List (K × V)) (d : K → V) : K → V :=
  l.foldl (fun d w => Function.update d w.1 w.2) d

@[simp] theorem store_nil (d : K → V) : store [] d = d := rfl
@[simp] theorem store_cons (w : K × V) (l : List (K × V)) (d : K → V) :
    store (w :: l) d = store l (Function.update d w.1 w.2) := rfl

theorem exec_writes (l : List (K × V)) (p : Prog K V R) (d : K → V) :
    (writes l p).exec d = p.exec (store l d) := by
  induction l generalizing d with
  | nil => rfl
  | cons w l ih => simp [exec, ih]

theorem exec_bind (p : Prog K V R) (f : R → Prog K V S) (d : K → V) :
    (p >>= f).exec d = (p.exec d).bind fun x => (f x.1).exec x.2 := by
  induction p generalizing d with
  | ret r => rfl
  | fail => rfl
  | read k c ih => simp only [read_bind, exec, ih]
  | write k v c ih => simp only [write_bind, exec, ih]

theorem store_of_notMem {l : List (K × V)} {k : K} (hk : ∀ w ∈ l, w.1 ≠ k) (d : K → V) :
    store l d k = d k := by
  induction l generalizing d with
  | nil => rfl
  | cons w l ih =>
    rw [store_cons, ih fun x hx => hk x (List.mem_cons_of_mem _ hx),
      Function.update_of_ne (hk w List.mem_cons_self).symm]

/-- A list of writes to distinct keys stores each of its values. -/
theorem store_of_mem {l : List (K × V)} (hl : (l.map Prod.fst).Nodup) {w : K × V} (hw : w ∈ l)
    (d : K → V) : store l d w.1 = w.2 := by
  induction l generalizing d with
  | nil => cases hw
  | cons x l ih =>
    rw [List.map_cons, List.nodup_cons] at hl
    rcases List.mem_cons.1 hw with rfl | hw
    · have hne : ∀ y ∈ l, y.1 ≠ w.1 := fun y hy he => hl.1 (he ▸ List.mem_map_of_mem (f := Prod.fst) hy)
      rw [store_cons, store_of_notMem hne, Function.update_self]
    · exact ih hl.2 hw _

/-- **The last write to a key counts.** -/
theorem store_apply (l : List (K × V)) (d : K → V) (k : K) :
    store l d k = ((l.reverse.find? fun w => w.1 = k).map Prod.snd).getD (d k) := by
  induction l generalizing d with
  | nil => rfl
  | cons w l ih =>
    rw [store_cons, ih, List.reverse_cons, List.find?_append]
    cases l.reverse.find? fun w => w.1 = k with
    | none =>
      by_cases hk : w.1 = k
      · simp [hk]
      · simp [hk, Function.update_of_ne (Ne.symm hk)]
    | some v => rfl

/-! ## Two programs on one store -/

/-- The requests of a trace. -/
inductive Request (K : Type) where
  | read (k : K)
  | write (k : K)
  deriving DecidableEq

/-- The requests of a program that runs alone, in their order. -/
def requests : Prog K V R → (K → V) → List (Request K)
  | .ret _, _ | .fail, _ => []
  | .read k c, d => .read k :: (c (d k)).requests d
  | .write k v c, d => .write k :: c.requests (Function.update d k v)

/-- `Interleaves p q d tr a b d'`: the requests of `p` (tagged `false`) and of
    `q` (tagged `true`) are served in the order `tr`, starting from the store
    `d`; in the end `p` has returned `a`, `q` has returned `b`, and the store
    is `d'`. -/
inductive Interleaves : Prog K V R → Prog K V S → (K → V) → List (Bool × Request K) → R → S →
    (K → V) → Prop
  | done {a b d} : Interleaves (.ret a) (.ret b) d [] a b d
  | readL {k c q d tr a b d'} : Interleaves (c (d k)) q d tr a b d' →
      Interleaves (.read k c) q d ((false, .read k) :: tr) a b d'
  | writeL {k v c q d tr a b d'} : Interleaves c q (Function.update d k v) tr a b d' →
      Interleaves (.write k v c) q d ((false, .write k) :: tr) a b d'
  | readR {k c p d tr a b d'} : Interleaves p (c (d k)) d tr a b d' →
      Interleaves p (.read k c) d ((true, .read k) :: tr) a b d'
  | writeR {k v c p d tr a b d'} : Interleaves p c (Function.update d k v) tr a b d' →
      Interleaves p (.write k v c) d ((true, .write k) :: tr) a b d'

/-- A request of the other program. -/
def other (r : Bool × Request K) : Bool × Request K := (!r.1, r.2)

/-- Running a program alone up to and with its first write to `k`: the requests,
    what is left of the program, and the store. -/
def untilWrite (k : K) : Prog K V R → (K → V) → Option (List (Request K) × Prog K V R × (K → V))
  | .ret _, _ | .fail, _ => none
  | .read j c, d => (untilWrite k (c (d j)) d).map fun r => (.read j :: r.1, r.2)
  | .write j v c, d =>
    if j = k then some ([.write j], c, Function.update d j v)
    else (untilWrite k c (Function.update d j v)).map fun r => (.write j :: r.1, r.2)

theorem untilWrite_writes {k : K} {l : List (K × V)} (hl : ∀ w ∈ l, w.1 ≠ k) (v : V)
    (p : Prog K V R) (d : K → V) : untilWrite k (writes l (.write k v p)) d =
      some (l.map (fun w => .write w.1) ++ [.write k], p, Function.update (store l d) k v) := by
  induction l generalizing d with
  | nil => simp [untilWrite]
  | cons w l ih =>
    rw [writes_cons, untilWrite, if_neg (hl w List.mem_cons_self),
      ih fun x hx => hl x (List.mem_cons_of_mem _ hx)]
    rfl

/-- What a program does not read does not change what it does. -/
theorem NoRead.exec_congr {k : K} {p : Prog K V R} (hp : NoRead k p) {d d₁ e : K → V} {r : R}
    (hd : ∀ j ≠ k, d₁ j = d j) (he : p.exec d = some (r, e)) :
    ∃ e₁, p.exec d₁ = some (r, e₁) ∧ ∀ j ≠ k, e₁ j = e j := by
  induction p generalizing d d₁ with
  | ret _ => cases he; exact ⟨d₁, rfl, hd⟩
  | fail => cases he
  | read j c ih =>
    obtain ⟨e₁, h1, h2⟩ := ih (d j) (hp.2 (d j)) hd he
    exact ⟨e₁, by rw [exec, hd j hp.1, h1], h2⟩
  | write j v c ih =>
    refine ih hp ?_ he
    intro i hi
    rw [Function.update_apply, Function.update_apply, hd i hi]

theorem exec_of_untilWrite {k : K} {p p₁ : Prog K V R} {d d₁ : K → V} {tr₀ : List (Request K)}
    (h : untilWrite k p d = some (tr₀, p₁, d₁)) : p.exec d = p₁.exec d₁ := by
  induction p generalizing d tr₀ with
  | ret _ => cases h
  | fail => cases h
  | read j c ih =>
    simp only [untilWrite, Option.map_eq_some_iff] at h
    obtain ⟨⟨_, _⟩, h, he⟩ := h
    cases he
    exact ih (d j) h
  | write j v c ih =>
    rw [untilWrite] at h
    split_ifs at h
    · cases h; rfl
    · simp only [Option.map_eq_some_iff] at h
      obtain ⟨⟨_, _⟩, h, he⟩ := h
      cases he
      exact ih h

/-- Two programs with their requests served in the order `l`. -/
def interleave : List Bool → Prog K V R → Prog K V S → (K → V) →
    Option (List (Bool × Request K) × R × S × (K → V))
  | [], .ret a, .ret b, d => some ([], a, b, d)
  | false :: l, .read k c, q, d =>
    (interleave l (c (d k)) q d).map fun r => ((false, .read k) :: r.1, r.2)
  | false :: l, .write k v c, q, d =>
    (interleave l c q (Function.update d k v)).map fun r => ((false, .write k) :: r.1, r.2)
  | true :: l, p, .read k c, d =>
    (interleave l p (c (d k)) d).map fun r => ((true, .read k) :: r.1, r.2)
  | true :: l, p, .write k v c, d =>
    (interleave l p c (Function.update d k v)).map fun r => ((true, .write k) :: r.1, r.2)
  | _, _, _, _ => none

namespace Interleaves
variable {p : Prog K V R} {q : Prog K V S} {d d' : K → V} {tr : List (Bool × Request K)} {a r : R}
  {b : S} {j k : K} {v : V}

theorem of_interleave {l : List Bool} (h : interleave l p q d = some (tr, a, b, d')) :
    Interleaves p q d tr a b d' := by
  fun_induction interleave generalizing tr with
  | case1 => cases h; exact .done
  | case2 l k c q d ih =>
    obtain ⟨⟨_, _, _, _⟩, h', he⟩ := Option.map_eq_some_iff.1 h
    cases he
    exact .readL (ih h')
  | case3 l k v c q d ih =>
    obtain ⟨⟨_, _, _, _⟩, h', he⟩ := Option.map_eq_some_iff.1 h
    cases he
    exact .writeL (ih h')
  | case4 l p k c d ih =>
    obtain ⟨⟨_, _, _, _⟩, h', he⟩ := Option.map_eq_some_iff.1 h
    cases he
    exact .readR (ih h')
  | case5 l p k v c d ih =>
    obtain ⟨⟨_, _, _, _⟩, h', he⟩ := Option.map_eq_some_iff.1 h
    cases he
    exact .writeR (ih h')
  | case6 => cases h

theorem symm (h : Interleaves p q d tr a b d') : Interleaves q p d (tr.map other) b a d' := by
  induction h with
  | done => exact .done
  | readL _ ih => exact .readR ih
  | writeL _ ih => exact .writeR ih
  | readR _ ih => exact .readL ih
  | writeR _ ih => exact .writeL ih

/-- When the first program has returned, the second one runs alone. -/
theorem exec_right (h : Interleaves (.ret r) q d tr a b d') : q.exec d = some (b, d') := by
  induction q generalizing d tr with
  | ret _ => cases h; rfl
  | fail => cases h
  | read j c ih => cases h with | readR h => exact ih _ h
  | write j v c ih => cases h with | writeR h => exact ih h

theorem notMem_of_noRead (hq : NoRead k q) (h : Interleaves p q d tr a b d') :
    (true, .read k) ∉ tr := by
  induction h with
  | done => simp
  | readL _ ih => simpa using ih hq
  | writeL _ ih => simpa using ih hq
  | readR _ ih => simpa using ⟨Ne.symm hq.1, ih (hq.2 _)⟩
  | writeR _ ih => simpa using ih hq

/-- **When a write of the first program precedes the first request of the second
    one**, the first program has run alone until then. -/
theorem solo {c : V → Prog K V S} (hc : ∀ v, NoRead k (c v))
    (h : Interleaves p (.read k c) d tr a b d')
    (hb : [(false, .write k), (true, .read k)].Sublist tr) :
    ∃ tr₀ p₁ d₁ tr₁, untilWrite k p d = some (tr₀, p₁, d₁) ∧
      tr = tr₀.map (false, ·) ++ tr₁ ∧ Interleaves p₁ (.read k c) d₁ tr₁ a b d' := by
  -- The second program cannot make the next request: its read would be the first one.
  have hright : ∀ {p : Prog K V R} {d : K → V} {tr' : List (Bool × Request K)},
      Interleaves p (c (d k)) d tr' a b d' →
      ¬ [(false, .write k), (true, .read k)].Sublist ((true, .read k) :: tr') := by
    intro p d tr' h hb
    have hmem : (true, Request.read k) ∈ tr' := by
      rw [List.cons_sublist_cons'] at hb
      rcases hb with hb | ⟨he, -⟩
      · exact hb.subset (by simp)
      · cases he
    exact notMem_of_noRead (hc _) h hmem
  induction p generalizing d tr with
  | ret _ => cases h with | readR h => exact absurd hb (hright h)
  | fail => cases h with | readR h => exact absurd hb (hright h)
  | read j c' ih =>
    cases h with
    | readR h => exact absurd hb (hright h)
    | readL h =>
      rw [List.cons_sublist_cons'] at hb
      obtain ⟨tr₀, p₁, d₁, tr₁, h1, h2, h3⟩ := ih (d j) h (hb.resolve_right (by simp))
      exact ⟨_, p₁, d₁, tr₁, by rw [untilWrite, h1]; rfl, by rw [h2]; rfl, h3⟩
  | write j v c' ih =>
    cases h with
    | readR h => exact absurd hb (hright h)
    | writeL h =>
      by_cases hj : j = k
      · exact ⟨_, _, _, _, by rw [untilWrite, if_pos hj], rfl, h⟩
      · rw [List.cons_sublist_cons'] at hb
        obtain ⟨tr₀, p₁, d₁, tr₁, h1, h2, h3⟩ := ih h (hb.resolve_right (by simp [Ne.symm hj]))
        exact ⟨_, p₁, d₁, tr₁, by rw [untilWrite, if_neg hj, h1]; rfl, by rw [h2]; rfl, h3⟩

theorem exec_right_update (hq : NoRead k q)
    (h : Interleaves (.ret r) q (Function.update d k v) tr a b d') (u : V) :
    ∃ e, q.exec (Function.update d k u) = some (b, e) ∧ ∀ j ≠ k, d' j = e j := by
  have hd : ∀ j ≠ k, Function.update d k u j = Function.update d k v j := fun j hj => by
    rw [Function.update_of_ne hj, Function.update_of_ne hj]
  obtain ⟨e, he, hj⟩ := hq.exec_congr hd h.exec_right
  exact ⟨e, he, fun j hk => (hj j hk).symm⟩

/-- A last write to a key that the other program does not read. -/
theorem last_write (hq : NoRead k q) (h : Interleaves (.write k v (.ret r)) q d tr a b d') (u : V) :
    ∃ e, q.exec (Function.update d k u) = some (b, e) ∧ ∀ j ≠ k, d' j = e j := by
  induction q generalizing d tr u with
  | ret _ => cases h with | writeL h => exact exec_right_update hq h u
  | fail => cases h with | writeL h => exact exec_right_update hq h u
  | read j c ih =>
    cases h with
    | writeL h => exact exec_right_update hq h u
    | readR h =>
      obtain ⟨e, he, hk⟩ := ih (d j) (hq.2 _) h u
      exact ⟨e, by rw [exec, Function.update_of_ne hq.1, he], hk⟩
  | write j w c ih =>
    cases h with
    | writeL h => exact exec_right_update hq h u
    | writeR h =>
      by_cases hj : j = k
      · subst hj
        obtain ⟨e, he, hk⟩ := ih hq h w
        rw [Function.update_idem] at he
        exact ⟨e, by rw [exec, Function.update_idem, he], hk⟩
      · obtain ⟨e, he, hk⟩ := ih hq h u
        exact ⟨e, by rw [exec, Function.update_comm (Ne.symm hj), he], hk⟩

/-- **A last write to a key that the other program reads once**: the other
    program sees the old or the new value, and nothing else depends on it. -/
theorem last_write_read {t : V → V → Prog K V S} (hjk : j ≠ k) (ht : ∀ x y, NoRead k (t x y))
    (h : Interleaves (.write k v (.ret r)) (.read j fun x => .read k fun y => t x y) d tr a b d') :
    ∃ u, (u = v ∨ u = d k ∧ ¬ [(false, .write k), (true, .read k)].Sublist tr) ∧
      ∃ e, (Prog.read j fun x => .read k fun y => t x y).exec (Function.update d k u) = some (b, e) ∧
        ∀ i ≠ k, d' i = e i := by
  have hold : ∀ u, Function.update d k u j = d j := fun u => Function.update_of_ne hjk ..
  cases h with
  | writeL h => exact ⟨v, .inl rfl, d', h.exec_right, fun _ _ => rfl⟩
  | readR h =>
    cases h with
    | writeL h => exact ⟨v, .inl rfl, d', by rw [exec, hold, h.exec_right], fun _ _ => rfl⟩
    | readR h =>
      obtain ⟨e, he, hk⟩ := last_write (ht _ _) h (d k)
      refine ⟨d k, .inr ⟨rfl, ?_⟩, e, by rw [exec, hold, exec, Function.update_self, he], hk⟩
      intro hb
      rw [List.cons_sublist_cons', List.cons_sublist_cons'] at hb
      have hb := (hb.resolve_right (by simp)).resolve_right (by simp)
      exact notMem_of_noRead (ht _ _) h (hb.subset (by simp))

end Interleaves

end Prog

end Lib
