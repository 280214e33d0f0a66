import Mathlib.Algebra.Ring.Nat
import PortableLib.Lib.Block
import PortableLib.Lib.Run

/-! The vectors of `fast/vect.h`. Sizes are `size_t`; elements are read and written through checked
blocks, so that a step fails where the code would leave its array. Allocations succeed, and an
element takes `esz` bytes. -/

namespace PortableLib.Vectors
open List Function

structure Vect (α : Type) where
  size : UInt64
  cap : UInt64
  arr : Block α

variable {α η : Type}

def cellsOf (esz bytes : UInt64) : Nat := bytes.toNat / esz.toNat

def vectInit (zero : α) (n : UInt64) : Vect α :=
  let cap := if n = 0 then 16 else n
  { arr := { len := cap.toNat, cells := fun _ => zero }, cap := cap, size := 0 }

/-- `do { n_ *= 2; } while (n_ < want_);`, given up after so many rounds. -/
def grow : Nat → UInt64 → UInt64 → Option UInt64
  | 0, _, _ => none
  | fuel + 1, n, want =>
    let n := n * 2
    if n < want then grow fuel n want else some n

/-- `__vect_RESERVE`; `junk` is what `realloc` leaves in the new part of the array. -/
def vectReserve (zero : α) (esz : UInt64) (junk : Nat → α) (v : Vect α) (want : UInt64) :
    Option (Vect α) :=
  if want ≥ v.cap then do
    let n ← grow 64 v.cap want
    let arr := v.arr.realloc (cellsOf esz (n * esz)) junk
    let arr ← arr.fill v.size.toNat (cellsOf esz (esz * (n - v.cap))) zero
    return { v with arr := arr, cap := n }
  else some v

def vectEnsure (zero : α) (esz : UInt64) (junk : Nat → α) (v : Vect α) (xtra : UInt64) :
    Option (Vect α) := vectReserve zero esz junk v (xtra + v.size)

def vectPushBack (zero : α) (esz : UInt64) (junk : Nat → α) (v : Vect α) (e : α) :
    Option (Vect α) := do
  let v ← vectReserve zero esz junk v (v.size + 1)
  let arr ← v.arr.write v.size.toNat e
  return { v with arr := arr, size := v.size + 1 }

def vectPopBack (v : Vect α) : Option (Vect α × α) :=
  if v.size > 0 then do
    let size := v.size - 1
    let e ← v.arr.read size.toNat
    return ({ v with size := size }, e)
  else none

/-- `for (; p_ > start_; p_--) *p_ = *(p_ - 1);` -/
def shiftUp (arr : Block α) : Nat → Option (Block α)
  | 0 => some arr
  | p + 1 => do
    let x ← arr.read p
    let arr ← arr.write (p + 1) x
    shiftUp arr p

def vectPushFront (zero : α) (esz : UInt64) (junk : Nat → α) (v : Vect α) (e : α) :
    Option (Vect α) := do
  let v ← vectReserve zero esz junk v (v.size + 1)
  let arr ← shiftUp v.arr v.size.toNat
  let arr ← arr.write 0 e
  return { v with arr := arr, size := v.size + 1 }

/-- `for (; p_ < end_; p_++) *p_ = *(p_ + 1);`, with the rounds left as second argument. -/
def shiftDown (arr : Block α) (p : Nat) : Nat → Option (Block α)
  | 0 => some arr
  | left + 1 => do
    let x ← arr.read (p + 1)
    let arr ← arr.write p x
    shiftDown arr (p + 1) left

def vectPopFront (v : Vect α) : Option (Vect α × α) := do
  let size := v.size - 1
  let e ← v.arr.read 0
  let arr ← shiftDown v.arr 0 size.toNat
  return ({ v with arr := arr, size := size }, e)

def vectReset (v : Vect α) : Vect α := { v with size := 0 }

variable [DecidableEq η]

def vectSwap (vs : η → Vect α) (a b : η) : η → Vect α :=
  let c := vs a
  let vs := update vs a (vs b)
  update vs b c

/-- `VECT_COPY`; `b_` is read after `a_` has been grown, which matters where they are the same. -/
def vectCopy (zero : α) (esz : UInt64) (junk : Nat → α) (vs : η → Vect α) (d s : η) :
    Option (η → Vect α) := do
  let v ← vectReserve zero esz junk (vs d) (vs s).size
  let vs := update vs d v
  let arr ← (vs d).arr.copy 0 (vs s).arr (cellsOf esz ((vs s).size * esz))
  let vs := update vs d { vs d with arr := arr }
  return update vs d { vs d with size := (vs s).size }

def vectAppendVect (zero : α) (esz : UInt64) (junk : Nat → α) (vs : η → Vect α) (d s : η) :
    Option (η → Vect α) := do
  let v ← vectReserve zero esz junk (vs d) ((vs d).size + (vs s).size)
  let vs := update vs d v
  let arr ← (vs d).arr.copy (vs d).size.toNat (vs s).arr (cellsOf esz ((vs s).size * esz))
  let vs := update vs d { vs d with arr := arr }
  return update vs d { vs d with size := (vs d).size + (vs s).size }

inductive Op (α η : Type)
  | reserve (v : η) (want : UInt64)
  | ensure (v : η) (xtra : UInt64)
  | pushBack (v : η) (e : α)
  | popBack (v : η)
  | pushFront (v : η) (e : α)
  | popFront (v : η)
  | reset (v : η)
  | swap (a b : η)
  | copy (d s : η)
  | appendVect (d s : η)

/-- A macro together with what a `realloc` in it would leave in the new part of the array. -/
structure Call (α η : Type) where
  op : Op α η
  junk : Nat → α

def step (zero : α) (esz : UInt64) (vs : η → Vect α) (c : Call α η) :
    Option ((η → Vect α) × Option α) :=
  match c.op with
  | .reserve v want =>
    (vectReserve zero esz c.junk (vs v) want).map fun w => (update vs v w, none)
  | .ensure v xtra => (vectEnsure zero esz c.junk (vs v) xtra).map fun w => (update vs v w, none)
  | .pushBack v e => (vectPushBack zero esz c.junk (vs v) e).map fun w => (update vs v w, none)
  | .popBack v => (vectPopBack (vs v)).map fun p => (update vs v p.1, some p.2)
  | .pushFront v e => (vectPushFront zero esz c.junk (vs v) e).map fun w => (update vs v w, none)
  | .popFront v => (vectPopFront (vs v)).map fun p => (update vs v p.1, some p.2)
  | .reset v => some (update vs v (vectReset (vs v)), none)
  | .swap a b => some (vectSwap vs a b, none)
  | .copy d s => (vectCopy zero esz c.junk vs d s).map fun vs => (vs, none)
  | .appendVect d s => (vectAppendVect zero esz c.junk vs d s).map fun vs => (vs, none)

/-! ## Lists -/

def spec (L : η → List α) (c : Call α η) : (η → List α) × Option α :=
  match c.op with
  | .reserve _ _ | .ensure _ _ => (L, none)
  | .pushBack v e => (update L v (L v ++ [e]), none)
  | .popBack v => (update L v (L v).dropLast, (L v).getLast?)
  | .pushFront v e => (update L v (e :: L v), none)
  | .popFront v => (update L v (L v).tail, (L v).head?)
  | .reset v => (update L v [], none)
  | .swap a b => (update (update L a (L b)) b (L a), none)
  | .copy d s => (update L d (L s), none)
  | .appendVect d s => (update L d (L d ++ L s), none)

/-- Half the address space holds the elements asked for. -/
def Modest (esz : UInt64) (count : Nat) : Prop := count * esz.toNat < 2 ^ 63

/-- What the callers of the macros see to: modest counts, and no pop from an empty vector. -/
def Allowed (esz : UInt64) (vs : η → Vect α) (c : Call α η) : Prop :=
  match c.op with
  | .reserve _ want => Modest esz want.toNat
  | .ensure v xtra => Modest esz (xtra.toNat + (vs v).size.toNat)
  | .pushBack v _ | .pushFront v _ => Modest esz ((vs v).size.toNat + 1)
  | .popBack v | .popFront v => 0 < (vs v).size
  | .reset _ | .swap _ _ => True
  | .copy _ s => Modest esz (vs s).size.toNat
  | .appendVect d s => Modest esz ((vs d).size.toNat + (vs s).size.toNat)

instance decidableAllowed (esz : UInt64) (vs : η → Vect α) :
    (c : Call α η) → Decidable (Allowed esz vs c)
  | ⟨.reserve _ want, _⟩ => inferInstanceAs (Decidable (want.toNat * esz.toNat < 2 ^ 63))
  | ⟨.ensure v xtra, _⟩ =>
    inferInstanceAs (Decidable ((xtra.toNat + (vs v).size.toNat) * esz.toNat < 2 ^ 63))
  | ⟨.pushBack v _, _⟩ | ⟨.pushFront v _, _⟩ =>
    inferInstanceAs (Decidable (((vs v).size.toNat + 1) * esz.toNat < 2 ^ 63))
  | ⟨.popBack v, _⟩ | ⟨.popFront v, _⟩ => inferInstanceAs (Decidable (0 < (vs v).size))
  | ⟨.reset _, _⟩ | ⟨.swap _ _, _⟩ => isTrue trivial
  | ⟨.copy _ s, _⟩ => inferInstanceAs (Decidable ((vs s).size.toNat * esz.toNat < 2 ^ 63))
  | ⟨.appendVect d s, _⟩ => inferInstanceAs
    (Decidable (((vs d).size.toNat + (vs s).size.toNat) * esz.toNat < 2 ^ 63))

/-- The array has `cap` cells, of which the first `size` hold the list. -/
structure Holds (v : Vect α) (l : List α) : Prop where
  cap_pos : 0 < v.cap.toNat
  len_eq : v.arr.len = v.cap.toNat
  size_le : v.size ≤ v.cap
  elems : (range v.size.toNat).map v.arr.cells = l

/-! ## Growing -/

theorem grow_spec {fuel : Nat} {cap want : UInt64} (hcap : 0 < cap.toNat)
    (hle : cap.toNat ≤ want.toNat) (hwant : want.toNat < 2 ^ 63)
    (hfuel : want.toNat ≤ cap.toNat * 2 ^ (fuel + 1)) :
    ∃ n, grow (fuel + 1) cap want = some n ∧ want.toNat ≤ n.toNat ∧ cap.toNat < n.toNat ∧
      n.toNat ≤ 2 * want.toNat := by
  induction fuel generalizing cap with
  | zero =>
    have hdouble : (cap * 2).toNat = cap.toNat * 2 := by
      rw [UInt64.toNat_mul, show (2 : UInt64).toNat = 2 from rfl, Nat.mod_eq_of_lt (by omega)]
    refine ⟨cap * 2, if_neg ?_, by omega, by omega, by omega⟩
    rw [UInt64.lt_iff_toNat_lt]
    omega
  | succ fuel ih =>
    have hdouble : (cap * 2).toNat = cap.toNat * 2 := by
      rw [UInt64.toNat_mul, show (2 : UInt64).toNat = 2 from rfl, Nat.mod_eq_of_lt (by omega)]
    by_cases hlt : cap * 2 < want
    · have hlt' := UInt64.lt_iff_toNat_lt.mp hlt
      have hpow : cap.toNat * 2 ^ (fuel + 2) = cap.toNat * 2 * 2 ^ (fuel + 1) := by
        rw [Nat.pow_succ' (n := fuel + 1), Nat.mul_assoc]
      obtain ⟨n, hn, hwn, hcn, hn2⟩ := @ih (cap * 2) (by omega) (by omega)
        (by rw [hdouble, ← hpow]; exact hfuel)
      exact ⟨n, (if_pos hlt).trans hn, hwn, by omega, hn2⟩
    · have hge : want.toNat ≤ (cap * 2).toNat := by
        rw [UInt64.lt_iff_toNat_lt] at hlt
        omega
      exact ⟨cap * 2, if_neg hlt, hge, by omega, by omega⟩

def reservedCap (fuel : Nat) (cap want : UInt64) : Option UInt64 :=
  if want ≥ cap then grow fuel cap want else some cap

/-- Every reservation of up to half the address space comes to an end with that much room. -/
def Grows (cap : UInt64) : Prop :=
  ∀ want : UInt64, want.toNat < 2 ^ 63 →
    ∃ fuel n, reservedCap fuel cap want = some n ∧ want ≤ n

theorem le_grow {fuel : Nat} {cap want n : UInt64} (h : grow fuel cap want = some n) :
    want ≤ n := by
  induction fuel generalizing cap with
  | zero => cases h
  | succ fuel ih =>
    by_cases hlt : cap * 2 < want
    · exact ih ((if_pos hlt).symm.trans h)
    · obtain rfl := Option.some.inj ((if_neg hlt).symm.trans h)
      exact UInt64.not_lt.mp hlt

theorem grow_zero {want : UInt64} (hwant : 0 < want) (fuel : Nat) : grow fuel 0 want = none := by
  induction fuel with
  | zero => rfl
  | succ fuel ih =>
    have hdouble : (0 : UInt64) * 2 = 0 := rfl
    rw [grow, hdouble, if_pos hwant, ih]

theorem grows_iff {cap : UInt64} : Grows cap ↔ 0 < cap := by
  constructor
  · intro h
    by_contra hcap
    have hzero : cap = 0 := UInt64.le_zero_iff.mp (UInt64.not_lt.mp hcap)
    obtain ⟨fuel, n, hn, -⟩ := h 1 (by decide)
    rw [hzero, reservedCap, if_pos (by decide), grow_zero (by decide)] at hn
    cases hn
  · intro hpos want hwant
    have hcap := UInt64.lt_iff_toNat_lt.mp hpos
    by_cases hge : want ≥ cap
    · have hfuel : want.toNat ≤ cap.toNat * 2 ^ 64 :=
        (Nat.le_of_lt (hwant.trans (by decide))).trans (Nat.le_mul_of_pos_left _ hcap)
      obtain ⟨n, hn, hle, -⟩ := grow_spec hcap (UInt64.le_iff_toNat_le.mp hge) hwant hfuel
      exact ⟨64, n, (if_pos hge).trans hn, UInt64.le_iff_toNat_le.mpr hle⟩
    · exact ⟨0, cap, if_neg hge, UInt64.le_of_lt (UInt64.not_le.mp hge)⟩

theorem reservedCap_pos {fuel : Nat} {cap want n : UInt64} (hcap : 0 < cap)
    (h : reservedCap fuel cap want = some n) : 0 < n := by
  by_cases hge : want ≥ cap
  · have hle := le_grow ((if_pos hge).symm.trans h)
    exact UInt64.lt_of_lt_of_le hcap (UInt64.le_trans hge hle)
  · obtain rfl := Option.some.inj ((if_neg hge).symm.trans h)
    exact hcap

theorem reservedCap_of_vectReserve {zero : α} {esz want : UInt64} {junk : Nat → α} {v w : Vect α}
    (h : vectReserve zero esz junk v want = some w) :
    reservedCap 64 v.cap want = some w.cap ∧ w.size = v.size := by
  by_cases hge : want ≥ v.cap
  · simp only [vectReserve, if_pos hge, Option.bind_eq_bind, Option.bind_eq_some_iff] at h
    obtain ⟨n, hn, arr, -, hw⟩ := h
    obtain rfl := Option.some.inj hw
    exact ⟨(if_pos hge).trans hn, rfl⟩
  · obtain rfl := Option.some.inj ((if_neg hge).symm.trans h)
    exact ⟨if_neg hge, rfl⟩

theorem cellsOf_mul {esz n : UInt64} (hesz : 0 < esz.toNat) (h : n.toNat * esz.toNat < 2 ^ 64) :
    cellsOf esz (n * esz) = n.toNat := by
  rw [cellsOf, UInt64.toNat_mul, Nat.mod_eq_of_lt h, Nat.mul_div_cancel _ hesz]

theorem Holds.length_eq {v : Vect α} {l : List α} (h : Holds v l) : l.length = v.size.toNat := by
  rw [← h.elems, length_map, length_range]

theorem Holds.size_le_len {v : Vect α} {l : List α} (h : Holds v l) :
    v.size.toNat ≤ v.arr.len := h.len_eq ▸ UInt64.le_iff_toNat_le.mp h.size_le

theorem vectReserve_spec (zero : α) {esz want : UInt64} {v : Vect α} {l : List α}
    (hesz : 0 < esz.toNat) (junk : Nat → α) (h : Holds v l) (hwant : Modest esz want.toNat) :
    ∃ w, vectReserve zero esz junk v want = some w ∧ Holds w l ∧ w.size = v.size ∧
      want.toNat ≤ w.cap.toNat ∧ (want.toNat = v.size.toNat + 1 → v.size.toNat < w.cap.toNat) := by
  by_cases hge : want ≥ v.cap
  · have hle : v.cap.toNat ≤ want.toNat := UInt64.le_iff_toNat_le.mp hge
    have hw63 : want.toNat < 2 ^ 63 := (Nat.le_mul_of_pos_right _ hesz).trans_lt hwant
    have hfuel : want.toNat ≤ v.cap.toNat * 2 ^ 64 :=
      (Nat.le_of_lt (hw63.trans (by decide))).trans (Nat.le_mul_of_pos_left _ h.cap_pos)
    obtain ⟨n, hn, hwn, hcn, hn2⟩ := grow_spec h.cap_pos hle hw63 hfuel
    have hbytes : n.toNat * esz.toNat < 2 ^ 64 := by
      have hmul := Nat.mul_le_mul_right esz.toNat hn2
      rw [Nat.mul_assoc] at hmul
      exact hmul.trans_lt (by unfold Modest at hwant; omega)
    have hsub : (n - v.cap).toNat = n.toNat - v.cap.toNat :=
      UInt64.toNat_sub_of_le _ _ (UInt64.le_iff_toNat_le.mpr hcn.le)
    have hclear : cellsOf esz (esz * (n - v.cap)) = n.toNat - v.cap.toNat := by
      rw [UInt64.mul_comm, cellsOf_mul hesz, hsub]
      rw [hsub]
      exact (Nat.mul_le_mul_right _ (Nat.sub_le _ _)).trans_lt hbytes
    have hsize := h.size_le_len
    rw [h.len_eq] at hsize
    have hroom : v.size.toNat + (n.toNat - v.cap.toNat) ≤ (v.arr.realloc n.toNat junk).len := by
      change _ ≤ n.toNat
      omega
    have hfill := Block.fill_of_le hroom zero
    refine ⟨⟨v.size, n, n.toNat, fun i =>
        if v.size.toNat ≤ i ∧ i < v.size.toNat + (n.toNat - v.cap.toNat) then zero
        else (v.arr.realloc n.toNat junk).cells i⟩, ?_, ⟨h.cap_pos.trans hcn, rfl, ?_, ?_⟩, rfl,
      hwn, fun _ => hsize.trans_lt hcn⟩
    · rw [vectReserve, if_pos hge, hn]
      simp only [Option.bind_eq_bind, Option.bind_some, cellsOf_mul hesz hbytes, hclear, hfill]
      rfl
    · exact UInt64.le_iff_toNat_le.mpr (by change v.size.toNat ≤ n.toNat; omega)
    · rw [← h.elems]
      refine map_range_congr fun i hi => ?_
      have hi' : i < v.size.toNat := hi
      have hold : i < v.arr.len := hi'.trans_le h.size_le_len
      exact (if_neg fun hc => absurd hc.1 (Nat.not_le.mpr hi')).trans (if_pos hold)
  · have hlt : want.toNat < v.cap.toNat := UInt64.lt_iff_toNat_lt.mp (UInt64.not_le.mp hge)
    exact ⟨v, if_neg hge, h, rfl, hlt.le, fun hs => by omega⟩

/-! ## The operations -/

theorem toNat_pred {n : UInt64} (h : 0 < n) : (n - 1).toNat = n.toNat - 1 := by
  have hpos := UInt64.lt_iff_toNat_lt.mp h
  exact UInt64.toNat_sub_of_le _ _ (UInt64.le_iff_toNat_le.mpr hpos)

theorem Holds.of_cells {v : Vect α} {l l' : List α} (h : Holds v l) (size : UInt64)
    (cells : Nat → α) (hsize : size.toNat ≤ v.cap.toNat)
    (hcells : (range size.toNat).map cells = l') :
    Holds ⟨size, v.cap, ⟨v.arr.len, cells⟩⟩ l' :=
  ⟨h.cap_pos, h.len_eq, UInt64.le_iff_toNat_le.mpr hsize, hcells⟩

theorem vectInit_spec (zero : α) (n : UInt64) : Holds (vectInit zero n) [] where
  cap_pos := by
    change 0 < (if n = 0 then 16 else n : UInt64).toNat
    split
    · decide
    case isFalse hn =>
      exact Nat.pos_of_ne_zero fun h0 => hn (UInt64.toNat_inj.mp h0)
  len_eq := rfl
  size_le := UInt64.le_iff_toNat_le.mpr (Nat.zero_le _)
  elems := rfl

theorem modest_succ {esz size : UInt64} (hesz : 0 < esz.toNat) (h : Modest esz (size.toNat + 1)) :
    (size + 1).toNat = size.toNat + 1 := by
  have hlt : size.toNat + 1 < 2 ^ 63 := (Nat.le_mul_of_pos_right _ hesz).trans_lt h
  rw [UInt64.toNat_add, show (1 : UInt64).toNat = 1 from rfl, Nat.mod_eq_of_lt (by omega)]

theorem vectPushBack_spec (zero e : α) {esz : UInt64} {v : Vect α} {l : List α}
    (hesz : 0 < esz.toNat) (junk : Nat → α) (h : Holds v l)
    (hroom : Modest esz (v.size.toNat + 1)) :
    ∃ w, vectPushBack zero esz junk v e = some w ∧ Holds w (l ++ [e]) := by
  have hsucc := modest_succ hesz hroom
  obtain ⟨w, hw, hwl, hsize, -, hlt⟩ := vectReserve_spec zero hesz junk h
    (hsucc.symm ▸ hroom)
  have hlt' := hlt hsucc
  rw [← hsize] at hlt' hsucc
  have hwrite := Block.write_of_lt (hwl.len_eq.symm ▸ hlt') e
  refine ⟨_, ?_, hwl.of_cells (w.size + 1) (update w.arr.cells w.size.toNat e) (hsucc ▸ hlt') ?_⟩
  · rw [vectPushBack, hw]
    simp only [Option.bind_eq_bind, Option.bind_some, hwrite]
    rfl
  · rw [hsucc, range_succ, map_append, ← hwl.elems, map_singleton, update_self]
    refine congrArg (· ++ [e]) (map_range_congr fun i hi => ?_)
    exact update_of_ne hi.ne _ _

theorem vectPopBack_spec {v : Vect α} {l : List α} (h : Holds v l) (hpos : 0 < v.size) :
    ∃ w e, vectPopBack v = some (w, e) ∧ Holds w l.dropLast ∧ l.getLast? = some e := by
  have hpred := toNat_pred hpos
  have hpos' : 0 < v.size.toNat := UInt64.lt_iff_toNat_lt.mp hpos
  have hle := UInt64.le_iff_toNat_le.mp h.size_le
  have hl : l = (range (v.size - 1).toNat).map v.arr.cells ++ [v.arr.cells (v.size - 1).toNat] := by
    rw [← h.elems, ← map_singleton, ← map_append, ← range_succ, hpred, Nat.succ_eq_add_one,
      Nat.sub_add_cancel hpos']
  have hread : v.arr.read (v.size - 1).toNat = some (v.arr.cells (v.size - 1).toNat) := by
    apply Block.read_of_lt
    rw [h.len_eq]
    omega
  refine ⟨_, v.arr.cells (v.size - 1).toNat, ?_,
    h.of_cells (v.size - 1) v.arr.cells (by omega) ?_, ?_⟩
  · rw [vectPopBack, if_pos hpos]
    simp only [Option.bind_eq_bind, hread, Option.bind_some]
    rfl
  · rw [hl, dropLast_concat]
  · rw [hl, getLast?_concat]

theorem shiftUp_spec {arr : Block α} {p : Nat} (h : p < arr.len) :
    shiftUp arr p = some
      { arr with cells := fun i => if 0 < i ∧ i ≤ p then arr.cells (i - 1) else arr.cells i } := by
  induction p generalizing arr with
  | zero =>
    have hcells :
        (fun i => if 0 < i ∧ i ≤ 0 then arr.cells (i - 1) else arr.cells i) = arr.cells := by
      funext i
      exact if_neg (by omega)
    rw [shiftUp, hcells]
  | succ p ih =>
    have hcells : (fun i => if 0 < i ∧ i ≤ p then update arr.cells (p + 1) (arr.cells p) (i - 1)
          else update arr.cells (p + 1) (arr.cells p) i) =
        fun i => if 0 < i ∧ i ≤ p + 1 then arr.cells (i - 1) else arr.cells i := by
      funext i
      by_cases hi : 0 < i ∧ i ≤ p
      · rw [if_pos hi, if_pos (by omega), update_of_ne (by omega)]
      · rw [if_neg hi]
        by_cases hip : i = p + 1
        · rw [if_pos (by omega), hip, update_self, Nat.add_sub_cancel]
        · rw [if_neg (by omega), update_of_ne hip]
    rw [shiftUp]
    simp only [Block.read_of_lt (Nat.lt_of_succ_lt h), Block.write_of_lt h, Option.bind_eq_bind,
      Option.bind_some]
    rw [@ih ⟨arr.len, update arr.cells (p + 1) (arr.cells p)⟩ (Nat.lt_of_succ_lt h), hcells]

theorem vectPushFront_spec (zero e : α) {esz : UInt64} {v : Vect α} {l : List α}
    (hesz : 0 < esz.toNat) (junk : Nat → α) (h : Holds v l)
    (hroom : Modest esz (v.size.toNat + 1)) :
    ∃ w, vectPushFront zero esz junk v e = some w ∧ Holds w (e :: l) := by
  have hsucc := modest_succ hesz hroom
  obtain ⟨w, hw, hwl, hsize, -, hlt⟩ := vectReserve_spec zero hesz junk h
    (hsucc.symm ▸ hroom)
  have hlt' := hlt hsucc
  rw [← hsize] at hlt' hsucc
  have hshift := shiftUp_spec (hwl.len_eq.symm ▸ hlt')
  have hpos : 0 < w.arr.len := by
    rw [hwl.len_eq]
    exact hwl.cap_pos
  let shifted : Nat → α := fun i =>
    if 0 < i ∧ i ≤ w.size.toNat then w.arr.cells (i - 1) else w.arr.cells i
  refine ⟨_, ?_, hwl.of_cells (w.size + 1) (update shifted 0 e) (hsucc ▸ hlt') ?_⟩
  · rw [vectPushFront, hw]
    simp only [Option.bind_eq_bind, Option.bind_some, hshift]
    rw [Block.write, if_pos hpos]
    rfl
  · rw [hsucc, range_succ_eq_map, map_cons, map_map, ← hwl.elems, update_self]
    refine congrArg (cons e) (map_range_congr fun i hi => ?_)
    change update shifted 0 e (i + 1) = _
    rw [update_of_ne (Nat.succ_ne_zero i)]
    exact if_pos ⟨Nat.succ_pos i, hi⟩

theorem shiftDown_spec {arr : Block α} {p left : Nat} (h : p + left < arr.len) :
    shiftDown arr p left = some
      { arr with cells := fun i => if p ≤ i ∧ i < p + left then arr.cells (i + 1)
          else arr.cells i } := by
  induction left generalizing arr p with
  | zero =>
    have hcells : (fun i => if p ≤ i ∧ i < p + 0 then arr.cells (i + 1) else arr.cells i) =
        arr.cells := by
      funext i
      exact if_neg (by omega)
    rw [shiftDown, hcells]
  | succ left ih =>
    have hcells : (fun i => if p + 1 ≤ i ∧ i < p + 1 + left
          then update arr.cells p (arr.cells (p + 1)) (i + 1)
          else update arr.cells p (arr.cells (p + 1)) i) =
        fun i => if p ≤ i ∧ i < p + (left + 1) then arr.cells (i + 1) else arr.cells i := by
      funext i
      by_cases hi : p + 1 ≤ i ∧ i < p + 1 + left
      · rw [if_pos hi, if_pos (by omega), update_of_ne (by omega)]
      · rw [if_neg hi]
        by_cases hip : i = p
        · rw [if_pos (by omega), hip, update_self]
        · rw [if_neg (by omega), update_of_ne hip]
    have hread : arr.read (p + 1) = some (arr.cells (p + 1)) := Block.read_of_lt (by omega)
    have hwrite := Block.write_of_lt (show p < arr.len by omega) (arr.cells (p + 1))
    rw [shiftDown]
    simp only [hread, hwrite, Option.bind_eq_bind, Option.bind_some]
    rw [ih (by change p + 1 + left < arr.len; omega), hcells]

theorem vectPopFront_spec {v : Vect α} {l : List α} (h : Holds v l) (hpos : 0 < v.size) :
    ∃ w e, vectPopFront v = some (w, e) ∧ Holds w l.tail ∧ l.head? = some e := by
  have hpred := toNat_pred hpos
  have hpos' : 0 < v.size.toNat := UInt64.lt_iff_toNat_lt.mp hpos
  have hle := UInt64.le_iff_toNat_le.mp h.size_le
  have hl : l = v.arr.cells 0 :: (range (v.size - 1).toNat).map (v.arr.cells ∘ Nat.succ) := by
    rw [← h.elems, ← map_map, ← map_cons, ← range_succ_eq_map, hpred, Nat.sub_add_cancel hpos']
  have hread : v.arr.read 0 = some (v.arr.cells 0) := Block.read_of_lt (h.len_eq ▸ h.cap_pos)
  have hshift : 0 + (v.size - 1).toNat < v.arr.len := by
    rw [h.len_eq]
    omega
  refine ⟨_, v.arr.cells 0, ?_, h.of_cells (v.size - 1) (fun i =>
    if 0 ≤ i ∧ i < 0 + (v.size - 1).toNat then v.arr.cells (i + 1) else v.arr.cells i)
    (by omega) ?_, ?_⟩
  · rw [vectPopFront]
    simp only [hread, shiftDown_spec hshift, Option.bind_eq_bind, Option.bind_some]
    rfl
  · rw [hl, tail_cons]
    refine map_range_congr fun i hi => ?_
    exact if_pos ⟨Nat.zero_le i, by rwa [Nat.zero_add]⟩
  · rw [hl, head?_cons]

theorem copy_spec {v w : Vect α} {l m : List α} {lo : UInt64} (h : Holds v l) (hw : Holds w m)
    (hlo : lo.toNat ≤ v.size.toNat) (hroom : lo.toNat + w.size.toNat ≤ v.cap.toNat)
    (hsum : (lo + w.size).toNat = lo.toNat + w.size.toNat) :
    ∃ arr, v.arr.copy lo.toNat w.arr w.size.toNat = some arr ∧
      Holds ⟨lo + w.size, v.cap, arr⟩ (l.take lo.toNat ++ m) := by
  have hcopy := Block.copy_of_le (h.len_eq ▸ hroom) hw.size_le_len
  refine ⟨_, hcopy, h.of_cells _ _ (hsum ▸ hroom) ?_⟩
  rw [hsum, ← h.elems, ← hw.elems, ← map_take, take_range, Nat.min_eq_left hlo]
  refine map_range_add (fun i hi => ?_) fun i hi => ?_
  · exact if_neg fun hc => absurd hc.1 (Nat.not_le.mpr hi)
  · rw [if_pos ⟨Nat.le_add_right _ _, Nat.add_lt_add_left hi _⟩, Nat.add_sub_cancel_left]

/-! ## Several vectors -/

section several
omit [DecidableEq η]
variable {esz : UInt64} {vs : η → Vect α} {L : η → List α} {v d s a b : η}

def HoldsAll (vs : η → Vect α) (L : η → List α) : Prop := ∀ v, Holds (vs v) (L v)

variable [DecidableEq η]

theorem HoldsAll.update {w : Vect α} {l : List α} (h : HoldsAll vs L) (hw : Holds w l) :
    HoldsAll (update vs v w) (update L v l) := by
  intro u
  by_cases hu : u = v
  · subst hu
    rw [update_self, update_self]
    exact hw
  · rw [update_of_ne hu, update_of_ne hu]
    exact h u

theorem HoldsAll.update_same {w : Vect α} (h : HoldsAll vs L) (hw : Holds w (L v)) :
    HoldsAll (Function.update vs v w) L := by
  have hall := h.update (v := v) hw
  rwa [update_eq_self] at hall

theorem size_of_grown {w : Vect α} (hsize : w.size = (vs d).size) :
    (Function.update vs d w s).size = (vs s).size := by
  by_cases hsd : s = d
  · rw [hsd, update_self, hsize]
  · rw [update_of_ne hsd]

theorem update_arr_size {w : Vect α} {arr : Block α} {n : UInt64} :
    let vs' := Function.update vs d w
    let vs'' := Function.update vs' d { vs' d with arr := arr }
    Function.update vs'' d { vs'' d with size := n } = Function.update vs d ⟨n, w.cap, arr⟩ := by
  simp only [update_self, update_idem]

theorem modest_bytes {count : Nat} (h : Modest esz count) : count * esz.toNat < 2 ^ 64 :=
  h.trans (by decide)

theorem vectCopy_spec (zero : α) (d : η) (hesz : 0 < esz.toNat) (junk : Nat → α) (h : HoldsAll vs L)
    (hroom : Modest esz (vs s).size.toNat) :
    ∃ vs', vectCopy zero esz junk vs d s = some vs' ∧ HoldsAll vs' (update L d (L s)) := by
  obtain ⟨w, hw, hwl, hsize, hcap, -⟩ := vectReserve_spec zero hesz junk (h d) hroom
  have h₁ := h.update_same hwl
  have hs : (Function.update vs d w s).size = (vs s).size := size_of_grown hsize
  have hcells := cellsOf_mul hesz (modest_bytes hroom)
  have hzero : (0 : UInt64).toNat + (vs s).size.toNat ≤ w.cap.toNat :=
    (Nat.zero_add _).trans_le hcap
  obtain ⟨arr, harr, hholds⟩ := copy_spec (h₁ d) (h₁ s) (Nat.zero_le _)
    (by rw [hs, update_self]; exact hzero)
    (by rw [UInt64.zero_add]; exact (Nat.zero_add _).symm)
  rw [hs] at harr
  rw [UInt64.zero_add, hs, update_self] at hholds
  refine ⟨_, ?_, h.update hholds⟩
  have hs₂ : (Function.update (Function.update vs d w) d
      { Function.update vs d w d with arr := arr } s).size = (vs s).size := by
    rw [size_of_grown, hs]
    rfl
  have hcopy : (Function.update vs d w d).arr.copy 0 (Function.update vs d w s).arr
      (cellsOf esz ((Function.update vs d w s).size * esz)) = some arr := by
    rw [hs, hcells]
    exact harr
  rw [vectCopy, hw]
  simp only [Option.bind_eq_bind, Option.bind_some, hcopy, hs₂]
  exact congrArg some update_arr_size

theorem vectAppendVect_spec (zero : α) (hesz : 0 < esz.toNat) (junk : Nat → α) (h : HoldsAll vs L)
    (hroom : Modest esz ((vs d).size.toNat + (vs s).size.toNat)) :
    ∃ vs', vectAppendVect zero esz junk vs d s = some vs' ∧
      HoldsAll vs' (update L d (L d ++ L s)) := by
  have hsum : ((vs d).size + (vs s).size).toNat = (vs d).size.toNat + (vs s).size.toNat := by
    have hlt : (vs d).size.toNat + (vs s).size.toNat < 2 ^ 63 :=
      (Nat.le_mul_of_pos_right _ hesz).trans_lt hroom
    rw [UInt64.toNat_add, Nat.mod_eq_of_lt (by omega)]
  have hroom' : Modest esz (vs s).size.toNat :=
    (Nat.mul_le_mul_right _ (Nat.le_add_left _ _)).trans_lt hroom
  obtain ⟨w, hw, hwl, hsize, hcap, -⟩ := vectReserve_spec zero hesz junk (h d)
    (hsum.symm ▸ hroom)
  have h₁ := h.update_same hwl
  have hs : (Function.update vs d w s).size = (vs s).size := size_of_grown hsize
  have hd : (Function.update vs d w d).size = (vs d).size := size_of_grown hsize
  have hcells := cellsOf_mul hesz (modest_bytes hroom')
  obtain ⟨arr, harr, hholds⟩ := copy_spec (h₁ d) (h₁ s) (Nat.le_of_eq (congrArg _ hd.symm))
    (by rw [hs, update_self, ← hsum]; exact hcap) (by rw [hs, hsum])
  rw [hs] at harr
  rw [hs, update_self, ← (h d).length_eq, take_length] at hholds
  refine ⟨_, ?_, h.update hholds⟩
  have hs₂ : (Function.update (Function.update vs d w) d
      { Function.update vs d w d with arr := arr } s).size = (vs s).size := by
    rw [size_of_grown, hs]
    rfl
  have hd₂ : (Function.update (Function.update vs d w) d
      { Function.update vs d w d with arr := arr } d).size = (vs d).size := by
    rw [update_self, hd]
  have hcopy : (Function.update vs d w d).arr.copy (Function.update vs d w d).size.toNat
      (Function.update vs d w s).arr (cellsOf esz ((Function.update vs d w s).size * esz)) =
        some arr := by
    rw [hs, hcells, hd]
    exact harr
  rw [vectAppendVect, hw]
  simp only [Option.bind_eq_bind, Option.bind_some, hcopy, hs₂, hd₂]
  exact congrArg some update_arr_size

theorem step_spec (zero : α) (hesz : 0 < esz.toNat) (h : HoldsAll vs L) (c : Call α η)
    (hc : Allowed esz vs c) :
    ∃ p, step zero esz vs c = some p ∧ HoldsAll p.1 (spec L c).1 ∧ p.2 = (spec L c).2 := by
  obtain ⟨op, junk⟩ := c
  cases op with
  | reserve v want =>
    obtain ⟨w, hw, hwl, -⟩ := vectReserve_spec zero hesz junk (h v) hc
    exact ⟨_, congrArg (Option.map _) hw, h.update_same hwl, rfl⟩
  | ensure v xtra =>
    have hsum : (xtra + (vs v).size).toNat = xtra.toNat + (vs v).size.toNat := by
      have hlt : xtra.toNat + (vs v).size.toNat < 2 ^ 63 :=
        (Nat.le_mul_of_pos_right _ hesz).trans_lt hc
      rw [UInt64.toNat_add, Nat.mod_eq_of_lt (by omega)]
    have hroom : Modest esz (xtra + (vs v).size).toNat := by
      rw [hsum]
      exact hc
    obtain ⟨w, hw, hwl, -⟩ := vectReserve_spec zero hesz junk (h v) hroom
    exact ⟨_, congrArg (Option.map _) hw, h.update_same hwl, rfl⟩
  | pushBack v e =>
    obtain ⟨w, hw, hwl⟩ := vectPushBack_spec zero e hesz junk (h v) hc
    exact ⟨_, congrArg (Option.map _) hw, h.update hwl, rfl⟩
  | popBack v =>
    obtain ⟨w, e, hw, hwl, he⟩ := vectPopBack_spec (h v) hc
    exact ⟨_, congrArg (Option.map _) hw, h.update hwl, he.symm⟩
  | pushFront v e =>
    obtain ⟨w, hw, hwl⟩ := vectPushFront_spec zero e hesz junk (h v) hc
    exact ⟨_, congrArg (Option.map _) hw, h.update hwl, rfl⟩
  | popFront v =>
    obtain ⟨w, e, hw, hwl, he⟩ := vectPopFront_spec (h v) hc
    exact ⟨_, congrArg (Option.map _) hw, h.update hwl, he.symm⟩
  | reset v => exact ⟨_, rfl, h.update ((h v).of_cells 0 _ (Nat.zero_le _) rfl), rfl⟩
  | swap a b => exact ⟨_, rfl, (h.update (h b)).update (h a), rfl⟩
  | copy d s =>
    obtain ⟨vs', hvs, hall⟩ := vectCopy_spec zero d hesz junk h hc
    exact ⟨_, congrArg (Option.map _) hvs, hall, rfl⟩
  | appendVect d s =>
    obtain ⟨vs', hvs, hall⟩ := vectAppendVect_spec zero hesz junk h hc
    exact ⟨_, congrArg (Option.map _) hvs, hall, rfl⟩

/-- Vectors made by `VECT_INIT` behave as lists under every sequence of macros: no access leaves
an array, sizes stay within capacities, and the elements are those of the list operations. -/
theorem vect_refines (zero : α) (esz : UInt64) (hesz : 0 < esz.toNat) (n : η → UInt64)
    (calls : List (Call α η))
    (hc : Run.StepsMeet (step zero esz) (Allowed esz) (fun v => vectInit zero (n v)) calls) :
    ∃ q, Run.run (step zero esz) (fun v => vectInit zero (n v)) calls = some q ∧
      HoldsAll q.1 (Run.runTotal spec (fun _ => []) calls).1 ∧
      q.2 = (Run.runTotal spec (fun _ => []) calls).2 :=
  Run.run_simulates (R := HoldsAll) (fun _ _ c hR hcall => step_spec zero hesz hR c hcall)
    (fun v => vectInit_spec zero (n v)) hc

theorem vect_refines_self_append :
    ∃ q, Run.run (step 0 4) (fun _ : Unit => vectInit 0 1)
        [⟨.pushBack () 7, fun _ => 9⟩, ⟨.appendVect () (), fun _ => 9⟩,
          ⟨.popFront (), fun _ => 9⟩] =
          some q ∧
      HoldsAll q.1 (Run.runTotal spec (fun _ : Unit => []) [⟨.pushBack () 7, fun _ => 9⟩,
        ⟨.appendVect () (), fun _ => 9⟩, ⟨.popFront (), fun _ => 9⟩]).1 ∧
      q.2 = (Run.runTotal spec (fun _ : Unit => []) [⟨.pushBack () 7, fun _ => 9⟩,
        ⟨.appendVect () (), fun _ => 9⟩, ⟨.popFront (), fun _ => (9 : Nat)⟩]).2 :=
  vect_refines 0 4 (by decide) (fun _ => 1) _ (by decide)

end several

end PortableLib.Vectors
