import PortableLib.StrSplit
import PortableLib.Lib.Block

/-! The arrays that `strsplit.c` fills: one that grows, and one of the caller's that does not, which
the sign of the capacity tells apart. A C string is again the list of its characters. -/

namespace PortableLib.StrSplit.Arrays
open List Gstring

def int (x : Int) : Option Int := if -(2 ^ 31) ≤ x ∧ x < 2 ^ 31 then some x else none

/-- `struct stra`; the pointers are places in the string, or NULL. -/
structure Stra where
  arr : Block (Option Nat)
  size : Int
  cap : Int

def straInit : Stra := ⟨⟨16, fun _ => none⟩, 0, 16⟩

def straInitFrom (v : Block (Option Nat)) (n : Int) : Option Stra := do
  let cap ← int (-n)
  return ⟨v, 0, cap⟩

/-- What `realloc` leaves in the new part of the array. -/
abbrev Junk : Type := Nat → Option Nat

def straResize (junk : Junk) (a : Stra) : Option Stra := do
  let newcap ← int (a.cap * 2)
  let newarr := a.arr.realloc newcap.toNat junk
  let newarr ← newarr.fill a.cap.toNat a.cap.toNat none
  return ⟨newarr, a.size, newcap⟩

def straResizeIf (junk : Junk) (a : Stra) (n : Int) : Option (Bool × Stra) := do
  let want ← int (a.size + n)
  if a.cap < 0 then return (decide (want ≤ -a.cap), a)
  if a.cap ≤ want then return (true, ← straResize junk a)
  return (true, a)

/-- `a->arr[a->size++] = begin` where `_stra_resize_if` answers true. -/
def straPush (junk : Junk) (a : Stra) (first : Nat) : Option (Option Stra) := do
  let (ok, a) ← straResizeIf junk a 1
  if !ok then return none
  let arr ← a.arr.write a.size.toNat (some first)
  let size ← int (a.size + 1)
  return some ⟨arr, size, a.cap⟩

/-- The loop of `__split`: the string, the array and `begin`; `none` inside is its failure. -/
def splitLoop (junk : Junk) (d : Delim) :
    List UInt8 → Nat → Nat → List UInt8 → Stra → Option (Option (List UInt8 × Stra × Nat))
  | [], _, first, buf, a => some (some (buf, a, first))
  | c :: rest, str, first, buf, a =>
    if d c then do
      match ← straPush junk a first with
      | none => return none
      | some a => splitLoop junk d rest (str + 1) (str + 1) (buf.set str 0) a
    else splitLoop junk d rest (str + 1) first buf a

def splitSqzLoop (junk : Junk) (d : Delim) : List UInt8 → Nat → Nat → UInt8 → List UInt8 → Stra →
    Option (Option (List UInt8 × Stra × Nat))
  | [], _, first, _, buf, a => some (some (buf, a, first))
  | c :: rest, str, first, prevC, buf, a =>
    if d c then splitSqzLoop junk d rest (str + 1) first c (buf.set str 0) a
    else if d prevC then do
      match ← straPush junk a first with
      | none => return none
      | some a => splitSqzLoop junk d rest (str + 1) str c buf a
    else splitSqzLoop junk d rest (str + 1) first c buf a

def enterLast (junk : Junk) :
    Option (List UInt8 × Stra × Nat) → Option (Option (List UInt8 × Stra))
  | none => some none
  | some (buf, a, first) =>
    if buf.getD first 0 ≠ 0 then (straPush junk a first).map fun r => r.map fun a => (buf, a)
    else some (some (buf, a))

def split (junk : Junk) (d : Delim) (a : Stra) (str : List UInt8) :
    Option (Option (List UInt8 × Stra)) := do
  enterLast junk (← splitLoop junk d str 0 0 str a)

def splitSqz (junk : Junk) (d : Delim) (a : Stra) (str : List UInt8) :
    Option (Option (List UInt8 × Stra)) := do
  let str := strtrim str
  enterLast junk (← splitSqzLoop junk d str 0 0 0 str a)

def splitCommon (junk : Junk) (a : Stra) (str tok : List UInt8) (sqzConsec : Bool) :
    Option (Option (List UInt8 × Stra)) :=
  if sqzConsec then splitSqz junk (initDelim tok) a str else split junk (initDelim tok) a str

def strsplitQuick (junk : Junk) (strv : Block (Option Nat)) (n : Int) (str tok : List UInt8)
    (sqzConsec : Bool) : Option (Int × Option (List UInt8 × Stra)) := do
  let a ← straInitFrom strv n
  let r ← splitCommon junk a str tok sqzConsec
  return (r.elim (-1) fun r => r.2.size, r)

/-- The string and the array, or NULL. -/
def strsplit (junk : Junk) (str tok : List UInt8) (sqzConsec : Bool) :
    Option (Option (List UInt8 × Stra)) :=
  splitCommon junk straInit str tok sqzConsec

/-! ## Entering a string -/

inductive Kind
  | pinned (n : Nat)
  | growable

def Kind.limit : Kind → Nat
  | .pinned n => n
  | .growable => 2 ^ 30 - 1

/-- What comes of one more: a refusal, or a sum or product that is no `int`. -/
def Kind.failure {β : Type} : Kind → Option (Option β)
  | .pinned n => if n < 2 ^ 31 - 1 then some none else none
  | .growable => none

theorem Kind.failure_bind {β γ : Type} {f : Option β → Option (Option γ)}
    (hf : f none = some none) (k : Kind) : (k.failure : Option (Option β)).bind f = k.failure := by
  cases k with
  | growable => rfl
  | pinned n =>
    simp only [Kind.failure]
    split
    · exact hf
    · rfl

theorem Kind.failure_map {β γ : Type} (f : β → γ) (k : Kind) :
    (k.failure : Option (Option β)).map (Option.map f) = k.failure := by
  cases k with
  | growable => rfl
  | pinned n =>
    simp only [Kind.failure]
    split <;> rfl

def Kind.Sized (a : Stra) : Kind → Prop
  | .pinned n => a.cap = -(n : Int) ∧ a.arr.len = n ∧ 0 < n ∧ n < 2 ^ 31
  | .growable => ∃ j ≤ 26, a.cap = 16 * 2 ^ j ∧ a.arr.len = 16 * 2 ^ j

/-- The array of the kind `k` holds the places `ps`. -/
structure Keeps (k : Kind) (a : Stra) (ps : List Nat) : Prop where
  size : a.size = ps.length
  cells : (range ps.length).map a.arr.cells = ps.map some
  sized : k.Sized a
  limited : ps.length ≤ k.limit
  room : ps.length ≤ a.arr.len

variable {junk : Junk} {k : Kind} {a : Stra} {ps : List Nat} {p : Nat}

theorem int_of_le {x : Int} (hlo : -(2 ^ 31) ≤ x) (hhi : x < 2 ^ 31) : int x = some x :=
  if_pos ⟨hlo, hhi⟩

theorem Keeps.store {b : Stra} (hb : Keeps k b ps) (hlt : ps.length < b.arr.len)
    (hlim : ps.length < k.limit) (hk : k.limit < 2 ^ 31)
    (hif : straResizeIf junk a 1 = some (true, b)) :
    ∃ a', straPush junk a p = some (some a') ∧ Keeps k a' (ps ++ [p]) := by
  have hsize := hb.size
  have hnat : b.size.toNat = ps.length := by rw [hsize, Int.toNat_natCast]
  obtain ⟨arr, hw, hlen, hnew, hold⟩ := Block.write_spec (b := b.arr) (i := ps.length) hlt (some p)
  have hint : int (b.size + 1) = some (b.size + 1) := int_of_le (by omega) (by omega)
  refine ⟨⟨arr, b.size + 1, b.cap⟩, ?_, ?_, ?_, ?_, ?_, ?_⟩
  · rw [straPush, hif]
    simp only [Option.bind_eq_bind, Option.bind_some, Bool.not_true, Bool.false_eq_true, if_false,
      hnat, hw, hint]
    rfl
  · rw [length_append, length_singleton, hsize]
    rfl
  · rw [length_append, length_singleton, map_append, ← hb.cells]
    refine map_range_add (fun i hi => hold i hi.ne) (k := fun _ => some p) ?_
    intro i hi
    obtain rfl : i = 0 := Nat.lt_one_iff.mp hi
    exact hnew
  · have hsized := hb.sized
    cases k with
    | pinned n => exact ⟨hsized.1, hlen.trans hsized.2.1, hsized.2.2⟩
    | growable =>
      obtain ⟨j, hj, hcap, hl⟩ := hsized
      exact ⟨j, hj, hcap, hlen.trans hl⟩
  · rw [length_append]
    exact hlim
  · rw [length_append]
    exact hlen.symm ▸ hlt

theorem push_pinned {n : Nat} (h : Keeps (.pinned n) a ps) :
    (ps.length < n → ∃ a', straPush junk a p = some (some a') ∧ Keeps (.pinned n) a' (ps ++ [p])) ∧
    (n ≤ ps.length → straPush junk a p = Kind.failure (.pinned n)) := by
  obtain ⟨hcap, hlen, hpos, hint⟩ := h.sized
  have hle : ps.length ≤ n := h.limited
  have hsize := h.size
  have hneg : a.cap < 0 := by omega
  constructor
  · intro hlt
    refine h.store (by omega) hlt hint ?_
    rw [straResizeIf, int_of_le (by omega) (by omega)]
    simp only [Option.bind_eq_bind, Option.bind_some, if_pos hneg]
    rw [decide_eq_true (by omega)]
    rfl
  · intro hge
    by_cases hbig : n < 2 ^ 31 - 1
    · rw [Kind.failure, if_pos hbig, straPush, straResizeIf, int_of_le (by omega) (by omega)]
      simp only [Option.bind_eq_bind, Option.bind_some, if_pos hneg]
      rw [decide_eq_false (by omega)]
      rfl
    · have hover : int (a.size + 1) = none := if_neg (by omega)
      rw [Kind.failure, if_neg hbig, straPush, straResizeIf, hover]
      rfl

theorem resize_spec {j : Nat} (h : Keeps .growable a ps) (hj : j < 26)
    (hcap : a.cap = 16 * 2 ^ j) (hlen : a.arr.len = 16 * 2 ^ j) :
    ∃ b, straResize junk a = some b ∧ Keeps .growable b ps ∧ ps.length < b.arr.len := by
  have hroom := h.room
  have hpow : 2 ^ (j + 1) ≤ 2 ^ 26 := Nat.pow_le_pow_right (by decide) hj
  have hsucc : 2 ^ (j + 1) = 2 ^ j * 2 := Nat.pow_succ 2 j
  have hpos := Nat.two_pow_pos j
  have hcap' : a.cap = ((16 * 2 ^ j : Nat) : Int) := by
    rw [hcap]
    push_cast
    rfl
  generalize hN : 16 * 2 ^ j = N at hlen hcap' hroom
  have hint : int (a.cap * 2) = some (a.cap * 2) := int_of_le (by omega) (by omega)
  have hfill := Block.fill_of_le (show a.cap.toNat + a.cap.toNat ≤
    (a.arr.realloc (a.cap * 2).toNat junk).len by change _ ≤ (a.cap * 2).toNat; omega) none
  have hdouble : (a.cap * 2).toNat = 16 * 2 ^ (j + 1) := by omega
  refine ⟨⟨⟨(a.cap * 2).toNat, fun i => if a.cap.toNat ≤ i ∧ i < a.cap.toNat + a.cap.toNat then none
    else (a.arr.realloc (a.cap * 2).toNat junk).cells i⟩, a.size, a.cap * 2⟩, ?_,
    ⟨h.size, ?_, ⟨j + 1, hj, ?_, hdouble⟩, h.limited, ?_⟩, ?_⟩
  · rw [straResize, hint]
    simp only [Option.bind_eq_bind, Option.bind_some, hfill]
    rfl
  · rw [← h.cells]
    refine map_range_congr fun i hi => ?_
    dsimp only [Block.realloc]
    rw [if_neg (by omega), if_pos (by omega)]
  · change a.cap * 2 = 16 * 2 ^ (j + 1)
    rw [hcap, Int.pow_succ, Int.mul_assoc]
  · change ps.length ≤ (a.cap * 2).toNat
    omega
  · change ps.length < (a.cap * 2).toNat
    omega

theorem push_growable (h : Keeps .growable a ps) :
    (ps.length < 2 ^ 30 - 1 →
      ∃ a', straPush junk a p = some (some a') ∧ Keeps .growable a' (ps ++ [p])) ∧
    (2 ^ 30 - 1 ≤ ps.length → straPush junk a p = none) := by
  obtain ⟨j, hj, hcap, hlen⟩ := h.sized
  have hroom := h.room
  have hsize := h.size
  have hle : ps.length ≤ 2 ^ 30 - 1 := h.limited
  have hpow : 2 ^ j ≤ 2 ^ 26 := Nat.pow_le_pow_right (by decide) hj
  have hcap' : a.cap = ((16 * 2 ^ j : Nat) : Int) := by
    rw [hcap]
    push_cast
    rfl
  have hpos := Nat.two_pow_pos j
  have hneg : ¬ a.cap < 0 := by omega
  have hint : int (a.size + 1) = some (a.size + 1) := int_of_le (by omega) (by omega)
  by_cases hfull : a.cap ≤ a.size + 1
  · have hif : straResizeIf junk a 1 = (straResize junk a).map fun b => (true, b) := by
      rw [straResizeIf, hint]
      simp only [Option.bind_eq_bind, Option.bind_some, if_neg hneg, if_pos hfull]
      cases straResize junk a <;> rfl
    rcases hj.lt_or_eq with hlt | rfl
    · have hpow' : 2 ^ (j + 1) ≤ 2 ^ 26 := Nat.pow_le_pow_right (by decide) hlt
      have hsucc : 2 ^ (j + 1) = 2 ^ j * 2 := Nat.pow_succ 2 j
      obtain ⟨b, hb, hkeeps, hfits⟩ := @resize_spec junk a ps j h hlt hcap hlen
      exact ⟨fun hlt => hkeeps.store hfits hlt (by decide) (by rw [hif, hb]; rfl),
        fun hge => by omega⟩
    · have hover : straResize junk a = none := by
        rw [straResize, int, if_neg (by omega)]
        rfl
      refine ⟨fun hlt => by omega, fun _ => ?_⟩
      rw [straPush, hif, hover]
      rfl
  · have hif : straResizeIf junk a 1 = some (true, a) := by
      rw [straResizeIf, hint]
      simp only [Option.bind_eq_bind, Option.bind_some, if_neg hneg, if_neg hfull]
      rfl
    exact ⟨fun hlt => h.store (by omega) hlt (by decide) hif, fun hge => by omega⟩

theorem push_spec (h : Keeps k a ps) :
    (ps.length < k.limit → ∃ a', straPush junk a p = some (some a') ∧ Keeps k a' (ps ++ [p])) ∧
    (k.limit ≤ ps.length → straPush junk a p = k.failure) := by
  cases k with
  | pinned n => exact push_pinned h
  | growable => exact push_growable h

/-! ## The loops -/

def Enters (k : Kind) (ps ms : List Nat) (buf : List UInt8) (last : Nat)
    (r : Option (Option (List UInt8 × Stra × Nat))) : Prop :=
  (ps.length + ms.length ≤ k.limit → ∃ a, r = some (some (buf, a, last)) ∧ Keeps k a (ps ++ ms)) ∧
    (k.limit < ps.length + ms.length → r = k.failure)

variable {ms : List Nat} {buf : List UInt8} {last : Nat} {d : Delim}

theorem enters_nil (h : Keeps k a ps) : Enters k ps [] buf last (some (some (buf, a, last))) := by
  rw [Enters, append_nil]
  exact ⟨fun _ => ⟨a, rfl, h⟩, fun hlt => absurd h.limited (Nat.not_le.mpr hlt)⟩

theorem enters_cons {f : Stra → Option (Option (List UInt8 × Stra × Nat))} (h : Keeps k a ps)
    (hf : ∀ a', Keeps k a' (ps ++ [p]) → Enters k (ps ++ [p]) ms buf last (f a')) :
    Enters k ps (p :: ms) buf last ((straPush junk a p).bind fun r => r.elim (some none) f) := by
  obtain ⟨hroom, hfull⟩ := push_spec (p := p) h
  rw [Enters, length_cons]
  by_cases hlt : ps.length < k.limit
  · obtain ⟨a', hpush, hkeeps⟩ := hroom hlt
    obtain ⟨hin, hout⟩ := hf a' hkeeps
    rw [length_append, length_singleton] at hin hout
    rw [append_assoc, singleton_append] at hin
    rw [hpush]
    exact ⟨fun hle => hin (by omega), fun hlt => hout (by omega)⟩
  · refine ⟨fun hle => by omega, fun _ => ?_⟩
    rw [hfull (by omega)]
    exact Kind.failure_bind (by rfl) k

def begins (d : Delim) : List UInt8 → Nat → Nat → List Nat × Nat
  | [], _, first => ([], first)
  | c :: rest, i, first =>
    if d c then
      (first :: (begins d rest (i + 1) (i + 1)).1, (begins d rest (i + 1) (i + 1)).2)
    else begins d rest (i + 1) first

theorem splitLoop_enters (junk : Junk) (rest pre : List UInt8) (first : Nat) (h : Keeps k a ps) :
    Enters k ps (begins d rest pre.length first).1 (zeroed d (pre ++ rest))
      (begins d rest pre.length first).2
      (splitLoop junk d rest pre.length first (zeroed d pre ++ rest) a) := by
  induction rest generalizing pre first a ps with
  | nil =>
    rw [splitLoop, begins, append_nil, append_nil]
    exact enters_nil h
  | cons c rest ih =>
    have hpre : pre ++ c :: rest = (pre ++ [c]) ++ rest := append_cons pre c rest
    have hlen : pre.length + 1 = (pre ++ [c]).length := by rw [length_append, length_singleton]
    by_cases hc : d c = true
    · have hstep : splitLoop junk d (c :: rest) pre.length first (zeroed d pre ++ c :: rest) a =
          (straPush junk a first).bind fun r => r.elim (some none) fun a => splitLoop junk d rest
            (pre.length + 1) (pre.length + 1) (zeroed d (pre ++ [c]) ++ rest) a := by
        rw [splitLoop, if_pos hc, set_zeroed hc, Option.bind_eq_bind]
        congr 1
        funext r
        cases r <;> rfl
      rw [hstep, begins, if_pos hc, hpre, hlen]
      exact enters_cons h fun a' ha' => ih (pre ++ [c]) _ ha'
    · rw [splitLoop, if_neg hc, begins, if_neg hc, zeroed_concat hc, hpre, hlen]
      exact ih (pre ++ [c]) first h

theorem splitSqzLoop_enters (junk : Junk) (rest pre : List UInt8) (first : Nat) (prevC : UInt8)
    (h : Keeps k a ps) :
    Enters k ps (marks d rest pre.length first (d prevC)).1 (zeroed d (pre ++ rest))
      (marks d rest pre.length first (d prevC)).2
      (splitSqzLoop junk d rest pre.length first prevC (zeroed d pre ++ rest) a) := by
  induction rest generalizing pre first prevC a ps with
  | nil =>
    rw [splitSqzLoop, marks, append_nil, append_nil]
    exact enters_nil h
  | cons c rest ih =>
    have hpre : pre ++ c :: rest = (pre ++ [c]) ++ rest := append_cons pre c rest
    have hlen : pre.length + 1 = (pre ++ [c]).length := by rw [length_append, length_singleton]
    by_cases hc : d c = true
    · have hnow := ih (pre ++ [c]) first c h
      rw [hc] at hnow
      rw [splitSqzLoop, if_pos hc, marks, if_pos hc, set_zeroed hc, hpre, hlen]
      exact hnow
    · have hcf : d c = false := Bool.eq_false_iff.mpr hc
      by_cases hp : d prevC = true
      · have hstep : splitSqzLoop junk d (c :: rest) pre.length first prevC
            (zeroed d pre ++ c :: rest) a =
            (straPush junk a first).bind fun r => r.elim (some none) fun a =>
              splitSqzLoop junk d rest (pre.length + 1) pre.length c
                (zeroed d (pre ++ [c]) ++ rest) a := by
          rw [splitSqzLoop, if_neg hc, if_pos hp, zeroed_concat hc, Option.bind_eq_bind]
          congr 1
          funext r
          cases r <;> rfl
        rw [hstep, marks, if_neg hc, if_pos hp, hpre, hlen]
        refine enters_cons h fun a' ha' => ?_
        have hnow := ih (pre ++ [c]) pre.length c ha'
        rwa [hcf] at hnow
      · have hnow := ih (pre ++ [c]) first c h
        rw [hcf] at hnow
        rw [splitSqzLoop, if_neg hc, if_neg hp, marks, if_neg hc, if_neg hp, zeroed_concat hc, hpre,
          hlen]
        exact hnow

def Outcome (k : Kind) (ms : List Nat) (buf : List UInt8)
    (r : Option (Option (List UInt8 × Stra))) : Prop :=
  (ms.length ≤ k.limit → ∃ a, r = some (some (buf, a)) ∧ Keeps k a ms) ∧
    (k.limit < ms.length → r = k.failure)

theorem stringAt_eq_nil_iff : stringAt buf p = [] ↔ buf.getD p 0 = 0 := by
  rw [stringAt]
  rcases Nat.lt_or_ge p buf.length with hlt | hge
  · rw [drop_eq_getElem_cons hlt, getD_eq_getElem _ _ hlt]
    by_cases h0 : buf[p] = 0
    · rw [takeWhile_cons_of_neg (by simp [h0])]
      exact iff_of_true rfl h0
    · rw [takeWhile_cons_of_pos (by simp [h0])]
      exact iff_of_false (cons_ne_nil _ _) h0
  · rw [drop_eq_nil_of_le hge, getD_eq_default _ _ hge]
    exact iff_of_true rfl rfl

theorem enterLast_outcome (junk : Junk) {r : Option (Option (List UInt8 × Stra × Nat))}
    (h : Enters k [] ms buf last r) :
    Outcome k (if stringAt buf last = [] then ms else ms ++ [last]) buf
      (r.bind (enterLast junk)) := by
  obtain ⟨hin, hout⟩ := h
  rw [length_nil, Nat.zero_add] at hin hout
  have hfail : (k.failure : Option (Option (List UInt8 × Stra × Nat))).bind (enterLast junk) =
      k.failure := Kind.failure_bind (by rfl) k
  by_cases hempty : stringAt buf last = []
  · rw [if_pos hempty]
    refine ⟨fun hle => ?_, fun hlt => by rw [hout hlt, hfail]⟩
    obtain ⟨a, rfl, hkeeps⟩ := hin hle
    refine ⟨a, ?_, hkeeps⟩
    rw [Option.bind_some, enterLast, if_neg (not_not.mpr (stringAt_eq_nil_iff.mp hempty))]
  · rw [if_neg hempty, Outcome, length_append, length_singleton]
    have hlast : ∀ a, enterLast junk (some (buf, a, last)) =
        (straPush junk a last).map fun r => r.map fun a => (buf, a) := fun a => by
      rw [enterLast, if_pos (stringAt_eq_nil_iff.not.mp hempty)]
    constructor
    · intro hle
      obtain ⟨a, rfl, hkeeps⟩ := hin (by omega)
      obtain ⟨a', hpush, hkeeps'⟩ := (push_spec (p := last) hkeeps).1 hle
      exact ⟨a', by rw [Option.bind_some, hlast, hpush]; rfl, hkeeps'⟩
    · intro hlt
      rcases Nat.lt_or_ge k.limit ms.length with hfull | hroom
      · rw [hout hfull, hfail]
      · obtain ⟨a, rfl, hkeeps⟩ := hin hroom
        have hpush : straPush junk a last = k.failure := (push_spec hkeeps).2 (by
          rw [nil_append]
          omega)
        rw [Option.bind_some, hlast, hpush]
        exact Kind.failure_map _ k

/-! ## The fields -/

/-- The fields between delimiters, without an empty one at the very end. -/
def fields (d : Delim) (s : List UInt8) : List (List UInt8) :=
  if (s.splitOnP d).getLast? = some [] then (s.splitOnP d).dropLast else s.splitOnP d

theorem stringAt_zeroed (pre : List UInt8) {t : List UInt8} (h0 : 0 ∉ t) :
    stringAt (zeroed d (pre ++ t)) pre.length = t.takeWhile (!d ·) := by
  have hdrop : (zeroed d (pre ++ t)).drop pre.length = zeroed d t := by
    rw [zeroed, map_append]
    exact drop_left' (length_map _)
  rw [stringAt, hdrop, takeWhile_zeroed h0]

theorem map_begins (rest cur pre : List UInt8) (hcur : ∀ c ∈ cur, d c = false)
    (h0 : 0 ∉ cur ++ rest) :
    ((begins d rest (pre ++ cur).length pre.length).1 ++
        [(begins d rest (pre ++ cur).length pre.length).2]).map
          (stringAt (zeroed d (pre ++ (cur ++ rest)))) = (cur ++ rest).splitOnP d := by
  induction rest generalizing cur pre with
  | nil =>
    have hall : cur.takeWhile (!d ·) = cur :=
      takeWhile_eq_self_iff.mpr fun c hc => by rw [hcur c hc]; rfl
    rw [append_nil] at h0 ⊢
    rw [begins, nil_append, map_singleton, stringAt_zeroed pre h0, hall, splitOnP_eq_singleton hcur]
  | cons c rest ih =>
    have hlen : (pre ++ cur).length + 1 = (pre ++ cur ++ [c]).length := by
      simp only [length_append, length_singleton]
    by_cases hc : d c = true
    · have hfirst : stringAt (zeroed d (pre ++ (cur ++ c :: rest))) pre.length = cur := by
        rw [stringAt_zeroed pre h0, takeWhile_append_of_pos fun c hc => by rw [hcur c hc]; rfl,
          takeWhile_cons_of_neg (by rw [hc]; exact Bool.false_ne_true), append_nil]
      have hrest := ih [] (pre ++ cur ++ [c]) (forall_mem_nil _) fun h =>
        h0 (mem_append_right cur (mem_cons_of_mem c h))
      have hall : pre ++ cur ++ [c] ++ ([] ++ rest) = pre ++ (cur ++ c :: rest) := by
        simp only [append_assoc, nil_append, singleton_append]
      rw [append_nil, hall, nil_append] at hrest
      rw [begins, if_pos hc, cons_append, map_cons, hfirst, hlen, hrest,
        splitOnP_append_cons_of_forall_mem hcur c hc]
    · have hcf : d c = false := Bool.eq_false_iff.mpr hc
      have hrest := ih (cur ++ [c]) pre (forall_mem_append.mpr ⟨hcur, forall_mem_singleton.mpr hcf⟩)
        (by rwa [append_assoc])
      have hall : pre ++ (cur ++ [c] ++ rest) = pre ++ (cur ++ c :: rest) := by
        simp only [append_assoc, singleton_append]
      rw [hall, append_assoc cur, singleton_append] at hrest
      rw [begins, if_neg hc, hlen, append_assoc pre]
      exact hrest

/-- Where the strings begin that `__split` enters. -/
def starts (d : Delim) (s : List UInt8) : List Nat :=
  if stringAt (zeroed d s) (begins d s 0 0).2 = [] then (begins d s 0 0).1
  else (begins d s 0 0).1 ++ [(begins d s 0 0).2]

theorem map_starts {s : List UInt8} (h0 : 0 ∉ s) :
    (starts d s).map (stringAt (zeroed d s)) = fields d s := by
  have hall := map_begins (d := d) s [] [] (forall_mem_nil _) h0
  rw [nil_append, nil_append, append_nil, length_nil] at hall
  have hlast : (s.splitOnP d).getLast? = some (stringAt (zeroed d s) (begins d s 0 0).2) := by
    rw [← hall, map_append, map_singleton, getLast?_concat]
  rw [fields, starts]
  by_cases hempty : stringAt (zeroed d s) (begins d s 0 0).2 = []
  · rw [if_pos hempty, if_pos (by rw [hlast, hempty]), ← hall, map_append, map_singleton,
      dropLast_concat]
  · rw [if_neg hempty, if_neg (by rw [hlast, Option.some.injEq]; exact hempty), hall]

theorem split_outcome (junk : Junk) (h : Keeps k a []) (s : List UInt8) :
    Outcome k (starts d s) (zeroed d s) (split junk d a s) := by
  have hloop := splitLoop_enters (d := d) junk s [] 0 h
  rw [nil_append] at hloop
  exact enterLast_outcome junk hloop

theorem splitSqz_outcome (junk : Junk) (h : Keeps k a []) {str : List UInt8} (h0 : 0 ∉ str)
    (hd0 : d 0 = false) :
    Outcome k (entered d (trimmed str)) (zeroed d (trimmed str)) (splitSqz junk d a str) := by
  have ht0 : 0 ∉ trimmed str := fun hx => h0 (mem_of_mem_trimmed hx)
  have hloop := splitSqzLoop_enters (d := d) junk (trimmed str) [] 0 0 h
  rw [nil_append, hd0] at hloop
  have hout := enterLast_outcome junk hloop
  rw [splitSqz, strtrim_eq]
  rw [length_nil] at hout
  have hentered : entered d (trimmed str) =
      if stringAt (zeroed d (trimmed str)) (marks d (trimmed str) 0 0 false).2 = [] then
        (marks d (trimmed str) 0 0 false).1
      else (marks d (trimmed str) 0 0 false).1 ++ [(marks d (trimmed str) 0 0 false).2] := by
    rw [entered]
    by_cases ht : (trimmed str).all d = true
    · rw [if_pos ht, if_pos ((stringAt_last ht0).mpr ht), marks_of_all ht0 ht]
    · rw [if_neg ht, if_neg ((stringAt_last ht0).not.mpr ht)]
  rw [hentered]
  exact hout

/-! ## The results -/

/-- The array holds the strings `fs`. -/
def Holds (a : Stra) (buf : List UInt8) (fs : List (List UInt8)) : Prop :=
  a.size = fs.length ∧
    ∃ ps : List Nat, a.arr.first fs.length = some (ps.map some) ∧ ps.map (stringAt buf) = fs

theorem Keeps.holds (h : Keeps k a ps) : Holds a buf (ps.map (stringAt buf)) := by
  rw [Holds, length_map]
  exact ⟨h.size, ps, by rw [Block.first_of_le h.room, h.cells], rfl⟩

variable {fs : List (List UInt8)} {r : Option (Option (List UInt8 × Stra))}

theorem Outcome.fits (h : Outcome k ms buf r) (hms : ms.map (stringAt buf) = fs)
    (hle : fs.length ≤ k.limit) :
    ∃ a, r = some (some (buf, a)) ∧ Holds a buf fs ∧ Keeps k a ms := by
  rw [← hms, length_map] at hle
  obtain ⟨a, hr, hkeeps⟩ := h.1 hle
  exact ⟨a, hr, hms ▸ hkeeps.holds, hkeeps⟩

theorem Outcome.fails (h : Outcome k ms buf r) (hms : ms.map (stringAt buf) = fs)
    (hlt : k.limit < fs.length) : r = k.failure := by
  rw [← hms, length_map] at hlt
  exact h.2 hlt

theorem keeps_straInit : Keeps .growable straInit [] :=
  ⟨rfl, rfl, ⟨0, by decide, rfl, rfl⟩, Nat.zero_le _, Nat.zero_le _⟩

theorem Outcome.growable (h : Outcome .growable ms buf r) (hms : ms.map (stringAt buf) = fs) :
    (∃ buf a, r = some (some (buf, a)) ∧ Holds a buf fs) ↔ fs.length < 2 ^ 30 := by
  constructor
  · rintro ⟨buf', a, hr, hholds⟩
    by_contra hge
    have hfail := h.fails hms (show 2 ^ 30 - 1 < fs.length by omega)
    rw [hr] at hfail
    cases hfail
  · intro hlt
    obtain ⟨a, hr, hholds, -⟩ := h.fits hms (show fs.length ≤ 2 ^ 30 - 1 by omega)
    exact ⟨buf, a, hr, hholds⟩

variable {strv : Block (Option Nat)} {n : Nat} {str tok : List UInt8}

theorem strsplitQuick_run (junk : Junk) (str tok : List UInt8) (hn : 1 ≤ n) (hint : n < 2 ^ 31)
    (hlen : strv.len = n) (sqz : Bool) :
    ∃ a, Keeps (.pinned n) a [] ∧ strsplitQuick junk strv n str tok sqz =
      (splitCommon junk a str tok sqz).map fun r => (r.elim (-1) fun r => r.2.size, r) := by
  refine ⟨⟨strv, 0, -n⟩, ⟨rfl, rfl, ⟨rfl, hlen, hn, hint⟩, Nat.zero_le _, Nat.zero_le _⟩, ?_⟩
  rw [strsplitQuick, straInitFrom, int_of_le (by omega) (by omega)]
  change (splitCommon junk ⟨strv, 0, -n⟩ str tok sqz).bind
    (fun r => some (r.elim (-1) fun r => r.2.size, r)) = _
  cases splitCommon junk ⟨strv, 0, -n⟩ str tok sqz <;> rfl

/-- The fields, or -1 if there are more than the array has entries. -/
def QuickRight (junk : Junk) (strv : Block (Option Nat)) (n : Nat) (str tok : List UInt8) : Prop :=
  ∃ r x, strsplitQuick junk strv n str tok false = some (r, x) ∧
    ((fields (initDelim tok) str).length ≤ n → r = (fields (initDelim tok) str).length ∧
      ∃ buf a, x = some (buf, a) ∧ a.arr.len = n ∧ Holds a buf (fields (initDelim tok) str)) ∧
    (r = -1 ↔ n < (fields (initDelim tok) str).length)

theorem strsplit_fields_iff (h0 : 0 ∉ str) :
    (∃ buf a, strsplit junk str tok false = some (some (buf, a)) ∧
      Holds a buf (fields (initDelim tok) str)) ↔ (fields (initDelim tok) str).length < 2 ^ 30 :=
  (split_outcome junk keeps_straInit str).growable (map_starts h0)

theorem quickRight_iff (hn : 1 ≤ n) (hint : n < 2 ^ 31) (hlen : strv.len = n) (h0 : 0 ∉ str) :
    QuickRight junk strv n str tok ↔
      n < 2 ^ 31 - 1 ∨ (fields (initDelim tok) str).length ≤ n := by
  obtain ⟨a, hkeeps, hrun⟩ := strsplitQuick_run junk str tok hn hint hlen false
  have hout := split_outcome (d := initDelim tok) junk hkeeps str
  have hfields := map_starts (d := initDelim tok) h0
  change strsplitQuick junk strv n str tok false = (split junk (initDelim tok) a str).map _ at hrun
  rcases Nat.lt_or_ge n (fields (initDelim tok) str).length with hlt | hle
  · have hfail := hout.fails hfields hlt
    constructor
    · rintro ⟨r, x, hr, -⟩
      by_contra hnot
      rw [hrun, hfail, Kind.failure, if_neg (fun h => hnot (Or.inl h))] at hr
      cases hr
    · rintro (hsmall | hle)
      · refine ⟨-1, none, by rw [hrun, hfail, Kind.failure, if_pos hsmall]; rfl, fun hle => ?_, ?_⟩
        · omega
        · exact iff_of_true rfl hlt
      · omega
  · obtain ⟨b, hb, hholds, hkept⟩ := hout.fits hfields hle
    refine iff_of_true ⟨b.size, some (zeroed (initDelim tok) str, b), ?_, fun _ => ?_, ?_⟩
      (Or.inr hle)
    · rw [hrun, hb]
      rfl
    · exact ⟨hholds.1, _, b, rfl, hkept.sized.2.1, hholds⟩
    · have hsize := hholds.1
      exact iff_of_false (by omega) (by omega)

/-- Splitting without squeezing: both functions give the fields as long as no `int` overflows. -/
theorem plain_exact_iff (junk : Junk) (str tok : List UInt8) (hn : 1 ≤ n) (hint : n < 2 ^ 31)
    (hlen : strv.len = n) (h0 : 0 ∉ str) :
    ((∃ buf a, strsplit junk str tok false = some (some (buf, a)) ∧
      Holds a buf (fields (initDelim tok) str)) ↔ (fields (initDelim tok) str).length < 2 ^ 30) ∧
    (QuickRight junk strv n str tok ↔
      n < 2 ^ 31 - 1 ∨ (fields (initDelim tok) str).length ≤ n) :=
  ⟨strsplit_fields_iff h0, quickRight_iff hn hint hlen h0⟩

theorem plain_exact_iff_two :
    (∃ buf a, strsplit (fun _ => none) [0x61, 0x3a, 0x62] [0x3a] false = some (some (buf, a)) ∧
      Holds a buf [[0x61], [0x62]]) ∧
    QuickRight (fun _ => none) ⟨2, fun _ => some 7⟩ 2 [0x61, 0x3a, 0x62] [0x3a] := by
  have h := plain_exact_iff (fun _ => none) [0x61, 0x3a, 0x62] [0x3a] (n := 2) (by decide)
    (by decide) (show (⟨2, fun _ => some 7⟩ : Block (Option Nat)).len = 2 from rfl) (by decide)
  exact ⟨h.1.mpr (by decide), h.2.mpr (Or.inl (by decide))⟩

theorem splitOnP_replicate {c : UInt8} (hc : d c = true) (m : Nat) :
    (replicate m c).splitOnP d = replicate (m + 1) [] := by
  induction m with
  | zero => rfl
  | succ m ih =>
    have hfirst := splitOnP_append_cons (p := d) [] (replicate m c) hc
    rw [replicate_succ, replicate_succ, ← ih]
    exact hfirst

theorem fields_replicate {c : UInt8} (hc : d c = true) (m : Nat) :
    fields d (replicate m c) = replicate m [] := by
  have hlast : (replicate (m + 1) ([] : List UInt8)).getLast? = some [] := by
    rw [replicate_succ', getLast?_concat]
  rw [fields, splitOnP_replicate hc, if_pos hlast, replicate_succ', dropLast_concat]

theorem strsplit_delims {m : Nat} (hm : 2 ^ 30 ≤ m) :
    strsplit junk (replicate m 0x3a) [0x3a] false = none := by
  have h0 : 0 ∉ replicate m (0x3a : UInt8) := fun h => absurd (eq_of_mem_replicate h) (by decide)
  refine (split_outcome junk keeps_straInit (replicate m 0x3a)).fails
    (map_starts (d := initDelim [0x3a]) h0) ?_
  rw [fields_replicate rfl, length_replicate]
  exact Nat.lt_of_lt_of_le (by decide) hm

/-- With 2³⁰ fields the capacity overflows. -/
theorem strsplit_overflows :
    strsplit (fun _ => none) (replicate (2 ^ 30) 0x3a) [0x3a] false = none ∧
    ¬ ∃ buf a, strsplit (fun _ => none) (replicate (2 ^ 30) 0x3a) [0x3a] false =
      some (some (buf, a)) ∧ Holds a buf (fields (initDelim [0x3a]) (replicate (2 ^ 30) 0x3a)) := by
  have hnone := @strsplit_delims (fun _ => none) (2 ^ 30) (Nat.le_refl _)
  refine ⟨hnone, ?_⟩
  rintro ⟨buf, a, hr, -⟩
  rw [hnone] at hr
  cases hr

/-! ## The words -/

/-- A delimiter comes first, and not only delimiters. -/
def Leads (d : Delim) (t : List UInt8) : Prop := (∃ c ∈ t.head?, d c = true) ∧ ¬ t.all d = true

theorem squeezed_of_not {t : List UInt8} (h : ¬ Leads d t) : squeezed d t = runs d t := by
  rw [squeezed]
  by_cases ht : t.all d = true
  · rw [if_pos ht, runs_eq_nil_iff.mpr ht]
  · rw [if_neg ht]
    cases t with
    | nil => exact absurd rfl ht
    | cons c t =>
      have hc : ¬ d c = true := fun hc => h ⟨⟨c, rfl, hc⟩, ht⟩
      have hpos : (!d c) = true := by rw [Bool.eq_false_iff.mpr hc]; rfl
      rw [runs, if_neg hc, takeWhile_cons_of_pos (p := (!d ·)) hpos,
        dropWhile_cons_of_pos (p := (!d ·)) hpos]

theorem squeezed_of_leads {t : List UInt8} (h : Leads d t) : squeezed d t = [] :: runs d t := by
  obtain ⟨⟨c, hc, hd⟩, ht⟩ := h
  obtain ⟨u, rfl⟩ := head?_eq_some_iff.mp hc
  have hneg : ¬(!d c) = true := by rw [hd]; exact Bool.false_ne_true
  rw [squeezed, if_neg ht, takeWhile_cons_of_neg (p := (!d ·)) hneg,
    dropWhile_cons_of_neg (p := (!d ·)) hneg]

theorem Outcome.length_eq (h : Outcome k ms buf r) (hms : ms.map (stringAt buf) = fs)
    {buf' : List UInt8} {gs : List (List UInt8)} (hr : r = some (some (buf', a)))
    (hg : Holds a buf' gs) : gs.length = fs.length := by
  rcases Nat.lt_or_ge k.limit fs.length with hlt | hle
  · have hfail := h.fails hms hlt
    rw [hr] at hfail
    cases k with
    | growable => cases hfail
    | pinned n =>
      rw [Kind.failure] at hfail
      split at hfail <;> cases hfail
  · obtain ⟨b, hb, hholds, -⟩ := h.fits hms hle
    rw [hr] at hb
    cases hb
    have hsize := hg.1
    have hsize' := hholds.1
    omega

variable {t : List UInt8}

theorem strsplit_words_iff (h0 : 0 ∉ str) (hd0 : initDelim tok 0 = false) :
    (∃ buf a, strsplit junk str tok true = some (some (buf, a)) ∧
      Holds a buf (runs (initDelim tok) (trimmed str))) ↔
        ¬ Leads (initDelim tok) (trimmed str) ∧
          (runs (initDelim tok) (trimmed str)).length < 2 ^ 30 := by
  have ht0 : 0 ∉ trimmed str := fun hx => h0 (mem_of_mem_trimmed hx)
  have hmap := map_entered (d := initDelim tok) ht0
  have hout := splitSqz_outcome junk keeps_straInit h0 hd0
  change Outcome .growable _ _ (strsplit junk str tok true) at hout
  by_cases hlead : Leads (initDelim tok) (trimmed str)
  · refine iff_of_false ?_ fun h => h.1 hlead
    rintro ⟨buf, a, hr, hholds⟩
    have hlen := hout.length_eq hmap hr hholds
    rw [squeezed_of_leads hlead, length_cons] at hlen
    omega
  · rw [and_iff_right hlead, ← squeezed_of_not hlead]
    exact hout.growable hmap

theorem strsplitQuick_words_iff (hn : 1 ≤ n) (hint : n < 2 ^ 31) (hlen : strv.len = n)
    (h0 : 0 ∉ str) (hd0 : initDelim tok 0 = false) :
    ((runs (initDelim tok) (trimmed str)).length ≤ n → ∃ r buf a,
      strsplitQuick junk strv n str tok true = some (r, some (buf, a)) ∧
        r = (runs (initDelim tok) (trimmed str)).length ∧
        Holds a buf (runs (initDelim tok) (trimmed str))) ↔
      (Leads (initDelim tok) (trimmed str) →
        n < (runs (initDelim tok) (trimmed str)).length) := by
  have ht0 : 0 ∉ trimmed str := fun hx => h0 (mem_of_mem_trimmed hx)
  have hmap := map_entered (d := initDelim tok) ht0
  obtain ⟨a, hkeeps, hrun⟩ := strsplitQuick_run junk str tok hn hint hlen true
  have hout := splitSqz_outcome junk hkeeps h0 hd0
  change strsplitQuick junk strv n str tok true =
    (splitSqz junk (initDelim tok) a str).map _ at hrun
  constructor
  · intro h hlead
    by_contra hle
    obtain ⟨r, buf, b, hr, -, hholds⟩ := h (Nat.not_lt.mp hle)
    obtain ⟨x, hx, heq⟩ := Option.map_eq_some_iff.mp (hrun.symm.trans hr)
    obtain ⟨-, rfl⟩ := Prod.mk.inj heq
    have hsame := hout.length_eq hmap hx hholds
    rw [squeezed_of_leads hlead, length_cons] at hsame
    omega
  · intro h hle
    have hlead : ¬ Leads (initDelim tok) (trimmed str) := fun hl => by
      have hlt := h hl
      omega
    rw [← squeezed_of_not hlead] at hle ⊢
    obtain ⟨b, hb, hholds, -⟩ := hout.fits hmap hle
    exact ⟨b.size, _, b, by rw [hrun, hb]; rfl, hholds.1, hholds⟩

theorem strsplitQuick_list (hn : 1 ≤ n) (hint : n < 2 ^ 31 - 1) (hlen : strv.len = n)
    (h0 : 0 ∉ str) (htok : 0 ∉ tok) :
    ∃ r x, strsplitQuick junk strv n str tok true = some (r, x) ∧
      match StrSplit.strsplitQuick n str tok with
      | some ws => r = ws.length ∧ ∃ buf a, x = some (buf, a) ∧ Holds a buf ws
      | none => r = -1 ∧ x = none := by
  have hd0 : initDelim tok 0 = false := by
    rw [initDelim_apply]
    exact decide_eq_false htok
  have ht0 : 0 ∉ trimmed str := fun hx => h0 (mem_of_mem_trimmed hx)
  have hmap := map_entered (d := initDelim tok) ht0
  obtain ⟨a, hkeeps, hrun⟩ := strsplitQuick_run junk str tok hn (by omega) hlen true
  have hout := splitSqz_outcome junk hkeeps h0 hd0
  change strsplitQuick junk strv n str tok true =
    (splitSqz junk (initDelim tok) a str).map _ at hrun
  rw [strsplitQuick_eq h0 htok]
  rcases Nat.lt_or_ge n (squeezed (initDelim tok) (trimmed str)).length with hlt | hle
  · rw [if_neg (Nat.not_le.mpr hlt)]
    exact ⟨-1, none, by rw [hrun, hout.fails hmap hlt, Kind.failure, if_pos hint]; rfl, rfl, rfl⟩
  · obtain ⟨b, hb, hholds, -⟩ := hout.fits hmap hle
    rw [if_pos hle]
    exact ⟨b.size, some (_, b), by rw [hrun, hb]; rfl, hholds.1, _, b, rfl, hholds⟩

/-- Squeezing gives the words of the trimmed string unless an empty string comes first, or there is
no room. -/
theorem squeezed_exact_iff (junk : Junk) (str tok : List UInt8) (hn : 1 ≤ n) (hint : n < 2 ^ 31)
    (hlen : strv.len = n) (h0 : 0 ∉ str) (htok : 0 ∉ tok) :
    ((∃ buf a, strsplit junk str tok true = some (some (buf, a)) ∧
      Holds a buf (runs (initDelim tok) (trimmed str))) ↔
        ¬ Leads (initDelim tok) (trimmed str) ∧
          (runs (initDelim tok) (trimmed str)).length < 2 ^ 30) ∧
    (((runs (initDelim tok) (trimmed str)).length ≤ n → ∃ r buf a,
      strsplitQuick junk strv n str tok true = some (r, some (buf, a)) ∧
        r = (runs (initDelim tok) (trimmed str)).length ∧
        Holds a buf (runs (initDelim tok) (trimmed str))) ↔
      (Leads (initDelim tok) (trimmed str) →
        n < (runs (initDelim tok) (trimmed str)).length)) := by
  have hd0 : initDelim tok 0 = false := by
    rw [initDelim_apply]
    exact decide_eq_false htok
  exact ⟨strsplit_words_iff h0 hd0, strsplitQuick_words_iff hn hint hlen h0 hd0⟩

theorem squeezed_exact_iff_two :
    (∃ buf a, strsplit (fun _ => none) [0x20, 0x61, 0x3a, 0x3a, 0x62, 0x20] [0x3a] true =
      some (some (buf, a)) ∧ Holds a buf [[0x61], [0x62]]) ∧
    ∃ r buf a, strsplitQuick (fun _ => none) ⟨2, fun _ => none⟩ 2
      [0x20, 0x61, 0x3a, 0x3a, 0x62, 0x20] [0x3a] true = some (r, some (buf, a)) ∧
        r = 2 ∧ Holds a buf [[0x61], [0x62]] := by
  have h := squeezed_exact_iff (fun _ => none) [0x20, 0x61, 0x3a, 0x3a, 0x62, 0x20] [0x3a] (n := 2)
    (by decide) (by decide) (show (⟨2, fun _ => none⟩ : Block (Option Nat)).len = 2 from rfl)
    (by decide) (by decide)
  have hlead : ¬ Leads (initDelim [0x3a]) (trimmed [0x20, 0x61, 0x3a, 0x3a, 0x62, 0x20]) := by
    rintro ⟨⟨c, hc, hd⟩, -⟩
    obtain rfl := Option.some.inj hc
    exact absurd hd (by decide)
  have hruns : runs (initDelim [0x3a]) (trimmed [0x20, 0x61, 0x3a, 0x3a, 0x62, 0x20]) =
      [[0x61], [0x62]] := by
    rw [← squeezed_of_not hlead, ← map_entered (by decide)]
    decide
  rw [hruns] at h
  exact ⟨h.1.mpr ⟨hlead, by decide⟩, h.2.mpr (fun hl => absurd hl hlead) (by decide)⟩

/-- `:a:b` has an empty string before its words. -/
theorem strsplit_empty_word :
    (∃ buf a, strsplit (fun _ => none) [0x3a, 0x61, 0x3a, 0x62] [0x3a] true =
      some (some (buf, a)) ∧ Holds a buf [[], [0x61], [0x62]]) ∧
    ¬ ∃ buf a, strsplit (fun _ => none) [0x3a, 0x61, 0x3a, 0x62] [0x3a] true =
      some (some (buf, a)) ∧
        Holds a buf (runs (initDelim [0x3a]) (trimmed [0x3a, 0x61, 0x3a, 0x62])) := by
  have hd0 : initDelim [0x3a] 0 = false := by decide
  have h0 : 0 ∉ [(0x3a : UInt8), 0x61, 0x3a, 0x62] := by decide
  have hlead : Leads (initDelim [0x3a]) (trimmed [0x3a, 0x61, 0x3a, 0x62]) :=
    ⟨⟨0x3a, rfl, by decide⟩, by decide⟩
  have hsq : (entered (initDelim [0x3a]) (trimmed [0x3a, 0x61, 0x3a, 0x62])).map
      (stringAt (zeroed (initDelim [0x3a]) (trimmed [0x3a, 0x61, 0x3a, 0x62]))) =
        [[], [0x61], [0x62]] := by decide
  refine ⟨?_, fun h => ((strsplit_words_iff h0 hd0).mp h).1 hlead⟩
  obtain ⟨a, hr, hholds, -⟩ := (splitSqz_outcome (fun _ => none) keeps_straInit h0 hd0).fits
    hsq (by decide)
  exact ⟨_, a, hr, hholds⟩

end PortableLib.StrSplit.Arrays
