import Mathlib.Data.Finset.SymmDiff
import PortableLib.Lib.Block
import PortableLib.Lib.Run
import PortableLib.TypeUtils

/-! `fast/bitset.h`: sets of places in an array of words. Allocations succeed. -/

namespace PortableLib.Bitsets
open Finset Function TypeUtils

structure Bitset where
  /-- The number of words. -/
  n : UInt64
  w : Block UInt64

def bitsizeW (n : UInt64) : UInt64 := alignUp n 64 / 64

/-- `bitset_new` for `n` bits; `bitset_alloca` is the same on the stack. -/
def bitsetNew (n : UInt64) : Bitset :=
  let m := bitsizeW n
  ⟨m, ⟨m.toNat, fun _ => 0⟩⟩

def bitsetCopy (a b : Bitset) : Option Bitset :=
  if a.n = b.n then do
    let w ← a.w.copy 0 b.w a.n.toNat
    return { a with w := w }
  else none

/-- `bitset_dup`; `bitset_dup_alloca` is the same on the stack. -/
def bitsetDup (a : Bitset) : Option Bitset := do
  let w ← (⟨a.n.toNat, fun _ => 0⟩ : Block UInt64).copy 0 a.w a.n.toNat
  return ⟨a.n, w⟩

/-- What `bitset_set` and `bitset_clr` have in common: the word of a place, and the bit in it. -/
def onWord (f : UInt64 → UInt64 → UInt64) (b : Bitset) (i : UInt64) : Option Bitset :=
  if i < 64 * b.n then do
    let w ← b.w.read (i / 64).toNat
    let w ← b.w.write (i / 64).toNat (f w (1 <<< (i % 64)))
    return { b with w := w }
  else none

def bitsetSet := onWord fun w bit => w ||| bit

def bitsetClr := onWord fun w bit => w &&& ~~~bit

def bitsetIsset (b : Bitset) (i : UInt64) : Option Bool :=
  if i < 64 * b.n then do
    let w ← b.w.read (i / 64).toNat
    return decide ((0 : UInt64) < w &&& 1 <<< (i % 64))
  else none

/-- The loop over the words of two sets, for `k` words from `i` on. If they are the same set, each
word is read before it is written. -/
def combineLoop (f : UInt64 → UInt64 → UInt64) (y : Block UInt64) :
    Nat → Nat → Block UInt64 → Option (Block UInt64)
  | 0, _, x => some x
  | k + 1, i, x => do
    let u ← x.read i
    let v ← y.read i
    let x ← x.write i (f u v)
    combineLoop f y k (i + 1) x

def combine (f : UInt64 → UInt64 → UInt64) (a b : Bitset) : Option Bitset :=
  if a.n = b.n then do
    let w ← combineLoop f b.w a.n.toNat 0 a.w
    return { a with w := w }
  else none

def bitsetOr := combine fun u v => u ||| v

def bitsetAnd := combine fun u v => u &&& v

def bitsetXor := combine fun u v => u ^^^ v

def bitsetAndnot := combine fun u v => u &&& ~~~v

def bitsetNot (a : Bitset) : Option Bitset := combine (fun u _ => ~~~u) a a

variable {β : Type} [DecidableEq β]

inductive Op (β : Type)
  | new (a : β) (n : UInt64)
  | del (a : β)
  | copy (a b : β)
  | dup (a b : β)
  | set (a : β) (i : UInt64)
  | clr (a : β) (i : UInt64)
  | isset (a : β) (i : UInt64)
  | or (a b : β)
  | and (a b : β)
  | xor (a b : β)
  | andnot (a b : β)
  | not (a : β)

def put {τ : Type} (s : β → Option τ) (a : β) (r : Option τ) :
    Option ((β → Option τ) × Option Bool) :=
  r.map fun x => (update s a (some x), none)

def both {τ : Type} (s : β → Option τ) (f : τ → τ → Option τ) (a b : β) : Option τ :=
  (s a).bind fun x => (s b).bind (f x)

def step (s : β → Option Bitset) : Op β → Option ((β → Option Bitset) × Option Bool)
  | .new a n => put s a (some (bitsetNew n))
  | .del a => some (update s a none, none)
  | .copy a b => put s a (both s bitsetCopy a b)
  | .dup a b => put s a ((s b).bind bitsetDup)
  | .set a i => put s a ((s a).bind fun x => bitsetSet x i)
  | .clr a i => put s a ((s a).bind fun x => bitsetClr x i)
  | .isset a i => ((s a).bind fun x => bitsetIsset x i).map fun r => (s, some r)
  | .or a b => put s a (both s bitsetOr a b)
  | .and a b => put s a (both s bitsetAnd a b)
  | .xor a b => put s a (both s bitsetXor a b)
  | .andnot a b => put s a (both s bitsetAndnot a b)
  | .not a => put s a ((s a).bind bitsetNot)

structure Places where
  size : Nat
  members : Finset Nat

def Places.join (f : Finset Nat → Finset Nat → Finset Nat) (x y : Places) : Option Places :=
  if x.size = y.size then some ⟨x.size, f x.members y.members⟩ else none

def Places.at {τ : Type} (x : Places) (i : UInt64) (r : τ) : Option τ :=
  if i.toNat < x.size then some r else none

/-- What the calls mean. The bound is a multiple of 64, and 0 for the last 63 numbers of bits. -/
def spec (s : β → Option Places) : Op β → Option ((β → Option Places) × Option Bool)
  | .new a n => put s a (some ⟨64 * ((n.toNat + 63) % 2 ^ 64 / 64), ∅⟩)
  | .del a => some (update s a none, none)
  | .copy a b => put s a (both s (Places.join fun _ y => y) a b)
  | .dup a b => put s a (s b)
  | .set a i => put s a ((s a).bind fun x => x.at i ⟨x.size, insert i.toNat x.members⟩)
  | .clr a i => put s a ((s a).bind fun x => x.at i ⟨x.size, x.members.erase i.toNat⟩)
  | .isset a i => ((s a).bind fun x => x.at i (decide (i.toNat ∈ x.members))).map fun r =>
      (s, some r)
  | .or a b => put s a (both s (Places.join fun x y => x ∪ y) a b)
  | .and a b => put s a (both s (Places.join fun x y => x ∩ y) a b)
  | .xor a b => put s a (both s (Places.join fun x y => symmDiff x y) a b)
  | .andnot a b => put s a (both s (Places.join fun x y => x \ y) a b)
  | .not a => put s a ((s a).bind fun x => some ⟨x.size, range x.size \ x.members⟩)

def bit (w : Block UInt64) (i : Nat) : Bool := (w.cells (i / 64)).toBitVec.getLsbD (i % 64)

def Bitset.places (b : Bitset) : Places :=
  ⟨64 * b.n.toNat, (range (64 * b.n.toNat)).filter fun i => bit b.w i⟩

structure Bitset.WF (b : Bitset) : Prop where
  len : b.w.len = b.n.toNat
  small : b.n.toNat < 2 ^ 58

theorem toBitVec_bit (i : UInt64) :
    ((1 : UInt64) <<< (i % 64)).toBitVec = BitVec.twoPow 64 (i.toNat % 64) := by
  have hmod : (i % 64 % 64).toNat = i.toNat % 64 := by
    rw [UInt64.toNat_mod, UInt64.toNat_mod]
    exact Nat.mod_mod _ _
  change 1#64 <<< (i % 64 % 64).toNat = _
  rw [hmod, BitVec.twoPow_eq]

theorem getLsbD_bit (i : UInt64) (k : Nat) :
    ((1 : UInt64) <<< (i % 64)).toBitVec.getLsbD k = decide (i.toNat % 64 = k) := by
  rw [toBitVec_bit, BitVec.getLsbD_twoPow, decide_eq_true (Nat.mod_lt _ (by decide)),
    Bool.true_and]

theorem pos_and_bit (w i : UInt64) :
    (0 : UInt64) < w &&& 1 <<< (i % 64) ↔ w.toBitVec.getLsbD (i.toNat % 64) = true := by
  have hand : (w &&& 1 <<< (i % 64)).toNat =
      if w.toBitVec.getLsbD (i.toNat % 64) then 2 ^ (i.toNat % 64) else 0 := by
    change (w &&& 1 <<< (i % 64)).toBitVec.toNat = _
    rw [UInt64.toBitVec_and, toBitVec_bit, BitVec.and_twoPow]
    split
    · exact BitVec.toNat_twoPow_of_lt (Nat.mod_lt _ (by decide))
    · rfl
  rw [UInt64.lt_iff_toNat_lt, hand]
  split
  · next hset => exact iff_of_true (Nat.two_pow_pos _) hset
  · next hclear => exact iff_of_false (Nat.lt_irrefl 0) hclear

section Updates

variable {b : Bitset} {f : UInt64 → UInt64 → UInt64} {i : UInt64}

theorem below_iff (h : b.WF) : i < 64 * b.n ↔ i.toNat < 64 * b.n.toNat := by
  have hsmall := h.small
  rw [UInt64.lt_iff_toNat_lt, UInt64.toNat_mul]
  change i.toNat < 64 * b.n.toNat % 2 ^ 64 ↔ _
  rw [Nat.mod_eq_of_lt (by omega)]

theorem word_lt (h : b.WF) (hi : i.toNat < 64 * b.n.toNat) : (i / 64).toNat < b.w.len := by
  rw [h.len, UInt64.toNat_div]
  exact Nat.div_lt_of_lt_mul hi

theorem onWord_spec (h : b.WF) : onWord f b i = if i.toNat < 64 * b.n.toNat then
    some { b with w := ⟨b.w.len, update b.w.cells (i.toNat / 64)
      (f (b.w.cells (i.toNat / 64)) (1 <<< (i % 64)))⟩ } else none := by
  rw [onWord]
  by_cases hi : i.toNat < 64 * b.n.toNat
  · have hlt := word_lt h hi
    rw [if_pos ((below_iff h).mpr hi), if_pos hi, Block.read_of_lt hlt, Option.bind_eq_bind,
      Option.bind_some, Block.write_of_lt hlt, Option.bind_eq_bind, Option.bind_some,
      UInt64.toNat_div]
    rfl
  · rw [if_neg (fun hlt => hi ((below_iff h).mp hlt)), if_neg hi]

theorem bit_update (w : Block UInt64) (k : Nat) (v : UInt64) (j : Nat) :
    bit ⟨w.len, update w.cells k v⟩ j =
      if j / 64 = k then v.toBitVec.getLsbD (j % 64) else bit w j := by
  by_cases hj : j / 64 = k
  · subst hj
    rw [if_pos rfl, bit]
    dsimp only
    rw [update_self]
  · rw [if_neg hj, bit, bit]
    dsimp only
    rw [update_of_ne hj]

theorem mem_places {j : Nat} : j ∈ b.places.members ↔ j < 64 * b.n.toNat ∧ bit b.w j = true := by
  rw [Bitset.places, mem_filter, mem_range]

theorem places_ext {x : Places} (hsize : 64 * b.n.toNat = x.size) (hx : x.members ⊆ range x.size)
    (h : ∀ j < x.size, bit b.w j = true ↔ j ∈ x.members) : b.places = x := by
  obtain ⟨size, members⟩ := x
  subst hsize
  rw [Bitset.places, Places.mk.injEq]
  refine ⟨rfl, Finset.ext fun j => ?_⟩
  rw [mem_filter, mem_range]
  exact ⟨fun hj => (h j hj.1).mp hj.2, fun hj =>
    have hlt := mem_range.mp (hx hj)
    ⟨hlt, (h j hlt).mpr hj⟩⟩

theorem places_subset (b : Bitset) : b.places.members ⊆ range b.places.size :=
  filter_subset _ _

theorem same_place {i j : Nat} (hword : j / 64 = i / 64) : i % 64 = j % 64 ↔ j = i := by
  omega

theorem bitsetSet_spec (h : b.WF) : (bitsetSet b i).map Bitset.places =
    b.places.at i ⟨b.places.size, insert i.toNat b.places.members⟩ := by
  rw [bitsetSet, onWord_spec h, Places.at]
  change _ = if i.toNat < 64 * b.n.toNat then _ else none
  split
  · next hi =>
    refine congrArg some (places_ext rfl ?_ fun j hj => ?_)
    · exact insert_subset (mem_range.mpr hi) (places_subset b)
    · change j < 64 * b.n.toNat at hj
      change bit ⟨b.w.len, _⟩ j = true ↔ _
      rw [bit_update, mem_insert, mem_places]
      by_cases hword : j / 64 = i.toNat / 64
      · rw [if_pos hword, UInt64.toBitVec_or, BitVec.getLsbD_or, getLsbD_bit, Bool.or_eq_true,
          decide_eq_true_iff, same_place hword, bit, hword, or_comm, and_iff_right hj]
      · have hne : j ≠ i.toNat := fun heq => hword (by rw [heq])
        rw [if_neg hword, or_iff_right hne, and_iff_right hj]
  · rfl

theorem bitsetClr_spec (h : b.WF) : (bitsetClr b i).map Bitset.places =
    b.places.at i ⟨b.places.size, b.places.members.erase i.toNat⟩ := by
  rw [bitsetClr, onWord_spec h, Places.at]
  change _ = if i.toNat < 64 * b.n.toNat then _ else none
  split
  · refine congrArg some (places_ext rfl ?_ fun j hj => ?_)
    · exact (erase_subset _ _).trans (places_subset b)
    · change j < 64 * b.n.toNat at hj
      change bit ⟨b.w.len, _⟩ j = true ↔ _
      rw [bit_update, mem_erase, mem_places]
      by_cases hword : j / 64 = i.toNat / 64
      · have hlt : j % 64 < 64 := Nat.mod_lt _ (by decide)
        rw [if_pos hword, UInt64.toBitVec_and, UInt64.toBitVec_not, BitVec.getLsbD_and,
          BitVec.getLsbD_not, getLsbD_bit, decide_eq_true hlt, Bool.true_and, Bool.and_eq_true,
          Bool.not_eq_true', decide_eq_false_iff_not, same_place hword, bit, hword,
          and_iff_right hj, and_comm]
      · have hne : j ≠ i.toNat := fun heq => hword (by rw [heq])
        rw [if_neg hword, and_iff_right hne, and_iff_right hj]
  · rfl

theorem bitsetIsset_spec (h : b.WF) :
    bitsetIsset b i = b.places.at i (decide (i.toNat ∈ b.places.members)) := by
  rw [bitsetIsset, Places.at]
  change _ = if i.toNat < 64 * b.n.toNat then _ else none
  by_cases hi : i.toNat < 64 * b.n.toNat
  · rw [if_pos ((below_iff h).mpr hi), if_pos hi, Block.read_of_lt (word_lt h hi),
      Option.bind_eq_bind, Option.bind_some]
    refine congrArg some (decide_eq_decide.mpr ?_)
    rw [pos_and_bit, mem_places, and_iff_right hi, bit, UInt64.toNat_div]
    rfl
  · rw [if_neg (fun hlt => hi ((below_iff h).mp hlt)), if_neg hi]

theorem size_eq_iff {a : Bitset} : a.places.size = b.places.size ↔ a.n = b.n := by
  rw [← UInt64.toNat_inj]
  exact Nat.mul_right_inj (by decide)

theorem combineLoop_spec {x y : Block UInt64} {k j : Nat} (hx : j + k ≤ x.len)
    (hy : j + k ≤ y.len) : combineLoop f y k j x = some ⟨x.len, fun l =>
      if j ≤ l ∧ l < j + k then f (x.cells l) (y.cells l) else x.cells l⟩ := by
  induction k generalizing j x with
  | zero =>
    have hnone : ∀ l, ¬ (j ≤ l ∧ l < j + 0) := by omega
    simp only [combineLoop, hnone, if_false]
  | succ k ih =>
    rw [combineLoop, Block.read_of_lt (by omega), Option.bind_eq_bind, Option.bind_some,
      Block.read_of_lt (by omega), Option.bind_eq_bind, Option.bind_some,
      Block.write_of_lt (by omega), Option.bind_some,
      ih (by change j + 1 + k ≤ x.len; omega) (by omega)]
    refine congrArg some (congrArg (Block.mk x.len) (funext fun l => ?_))
    dsimp only
    by_cases hl : l = j
    · subst hl
      rw [if_neg (by omega), if_pos (by omega), update_self]
    · rw [update_of_ne hl]
      refine if_congr ?_ rfl rfl
      omega

theorem combine_spec {a : Bitset} (ha : a.WF) (hb : b.WF) : combine f a b =
    if a.n = b.n then some ⟨a.n, ⟨a.w.len, fun l =>
      if l < a.n.toNat then f (a.w.cells l) (b.w.cells l) else a.w.cells l⟩⟩ else none := by
  rw [combine]
  split
  · next heq =>
    rw [combineLoop_spec (by rw [Nat.zero_add]; exact ha.len.ge)
      (by rw [Nat.zero_add, heq]; exact hb.len.ge)]
    simp only [Nat.zero_le, true_and, Nat.zero_add]
    rfl
  · rfl

theorem combine_places {a : Bitset} (ha : a.WF) (hb : b.WF)
    {g : Finset Nat → Finset Nat → Finset Nat}
    (hbits : ∀ (u v : UInt64) (x y : Finset Nat) (j k : Nat), k < 64 →
      (u.toBitVec.getLsbD k = true ↔ j ∈ x) → (v.toBitVec.getLsbD k = true ↔ j ∈ y) →
        ((f u v).toBitVec.getLsbD k = true ↔ j ∈ g x y))
    (hsub : ∀ x y z, x ⊆ z → y ⊆ z → g x y ⊆ z) :
    (combine f a b).map Bitset.places = Places.join g a.places b.places := by
  rw [combine_spec ha hb, Places.join]
  by_cases heq : a.n = b.n
  · have hsize := size_eq_iff.mpr heq
    rw [if_pos heq, if_pos hsize]
    refine congrArg some (places_ext rfl ?_ fun j hj => ?_)
    · refine hsub _ _ _ (places_subset a) ?_
      change _ ⊆ range a.places.size
      rw [hsize]
      exact places_subset b
    · change j < 64 * a.n.toNat at hj
      have hj' : j < 64 * b.n.toNat := by rwa [← heq]
      have hword : j / 64 < a.n.toNat := Nat.div_lt_of_lt_mul hj
      rw [bit]
      dsimp only
      rw [if_pos hword]
      refine hbits _ _ _ _ j (j % 64) (Nat.mod_lt _ (by decide)) ?_ ?_
      · rw [mem_places, and_iff_right hj, bit]
      · rw [mem_places, and_iff_right hj', bit]
  · rw [if_neg heq, if_neg (fun hs => heq (size_eq_iff.mp hs))]
    rfl

theorem bitsetCopy_eq {a : Bitset} (ha : a.WF) (hb : b.WF) :
    bitsetCopy a b = combine (fun _ v => v) a b := by
  rw [combine_spec ha hb, bitsetCopy]
  split
  · next heq =>
    rw [Block.copy_of_le (by rw [Nat.zero_add]; exact ha.len.ge) (by rw [hb.len, heq])]
    simp only [Nat.zero_le, true_and, Nat.zero_add]
    rfl
  · rfl

theorem bitsetCopy_spec {a : Bitset} (ha : a.WF) (hb : b.WF) :
    (bitsetCopy a b).map Bitset.places = Places.join (fun _ y => y) a.places b.places := by
  rw [bitsetCopy_eq ha hb]
  exact combine_places ha hb (fun _ _ _ _ _ _ _ _ hv => hv) fun _ _ _ _ hy => hy

theorem bitsetDup_spec {a : Bitset} (ha : a.WF) :
    (bitsetDup a).map Bitset.places = some a.places := by
  have hzero : (⟨a.n, ⟨a.n.toNat, fun _ => 0⟩⟩ : Bitset).WF := ⟨rfl, ha.small⟩
  have hcopy := bitsetCopy_spec hzero ha
  rw [bitsetCopy, if_pos rfl, Places.join] at hcopy
  exact hcopy.trans (if_pos rfl)

theorem bitsetNot_spec {a : Bitset} (ha : a.WF) :
    (bitsetNot a).map Bitset.places =
      some ⟨a.places.size, range a.places.size \ a.places.members⟩ := by
  rw [bitsetNot, combine_spec ha ha, if_pos rfl]
  refine congrArg some (places_ext rfl sdiff_subset fun j hj => ?_)
  change j < 64 * a.n.toNat at hj
  have hword : j / 64 < a.n.toNat := Nat.div_lt_of_lt_mul hj
  have hlt : j % 64 < 64 := Nat.mod_lt _ (by decide)
  rw [bit]
  dsimp only
  rw [if_pos hword, UInt64.toBitVec_not, BitVec.getLsbD_not, decide_eq_true hlt, Bool.true_and,
    mem_sdiff, mem_places, and_iff_right hj, bit, Bool.not_eq_true', Bool.not_eq_true]
  exact (and_iff_right (mem_range.mpr hj)).symm

theorem bitsetOr_spec {a : Bitset} (ha : a.WF) (hb : b.WF) :
    (bitsetOr a b).map Bitset.places = Places.join (fun x y => x ∪ y) a.places b.places := by
  refine combine_places ha hb (fun u v x y j k _ hu hv => ?_) fun _ _ _ => union_subset
  rw [UInt64.toBitVec_or, BitVec.getLsbD_or, Bool.or_eq_true, hu, hv, mem_union]

theorem bitsetAnd_spec {a : Bitset} (ha : a.WF) (hb : b.WF) :
    (bitsetAnd a b).map Bitset.places = Places.join (fun x y => x ∩ y) a.places b.places := by
  refine combine_places ha hb (fun u v x y j k _ hu hv => ?_) fun _ _ _ hx _ =>
    inter_subset_left.trans hx
  rw [UInt64.toBitVec_and, BitVec.getLsbD_and, Bool.and_eq_true, hu, hv, mem_inter]

theorem bitsetXor_spec {a : Bitset} (ha : a.WF) (hb : b.WF) :
    (bitsetXor a b).map Bitset.places =
      Places.join (fun x y => symmDiff x y) a.places b.places := by
  refine combine_places ha hb (fun u v x y j k _ hu hv => ?_) fun _ _ _ hx hy =>
    (symmDiff_subset_union).trans (union_subset hx hy)
  rw [UInt64.toBitVec_xor, BitVec.getLsbD_xor, mem_symmDiff, ← hu, ← hv]
  cases u.toBitVec.getLsbD k <;> cases v.toBitVec.getLsbD k <;> simp

theorem bitsetAndnot_spec {a : Bitset} (ha : a.WF) (hb : b.WF) :
    (bitsetAndnot a b).map Bitset.places = Places.join (fun x y => x \ y) a.places b.places := by
  refine combine_places ha hb (fun u v x y j k hk hu hv => ?_) fun _ _ _ hx _ =>
    sdiff_subset.trans hx
  rw [UInt64.toBitVec_and, UInt64.toBitVec_not, BitVec.getLsbD_and, BitVec.getLsbD_not,
    decide_eq_true hk, Bool.true_and, Bool.and_eq_true, Bool.not_eq_true', hu, mem_sdiff, ← hv,
    Bool.not_eq_true]

theorem bitsetNew_spec (n : UInt64) :
    (bitsetNew n).places = ⟨64 * ((n.toNat + 63) % 2 ^ 64 / 64), ∅⟩ ∧ (bitsetNew n).WF := by
  have hwords : (bitsizeW n).toNat = (n.toNat + 63) % 2 ^ 64 / 64 := by
    have hsix : (6 : UInt64).toNat % 64 = 6 := by decide
    have hsum : (n + 63).toNat = (n.toNat + 63) % 2 ^ 64 := UInt64.toNat_add _ _
    have halign : alignUp n 64 = ((n + 63) >>> 6) <<< 6 := and_not_63 _
    rw [bitsizeW, halign, UInt64.toNat_div, UInt64.toNat_shiftLeft, UInt64.toNat_shiftRight, hsix,
      hsum, Nat.shiftLeft_eq, Nat.shiftRight_eq_div_pow]
    change _ / 64 = _
    omega
  have hlt := Nat.mod_lt (n.toNat + 63) (Nat.two_pow_pos 64)
  constructor
  · refine places_ext (congrArg (64 * ·) hwords) (empty_subset _) fun j _ => ?_
    have hclear : bit (bitsetNew n).w j = false := BitVec.getLsbD_zero
    exact iff_of_false (by rw [hclear]; exact Bool.false_ne_true) (notMem_empty j)
  · refine ⟨rfl, ?_⟩
    change (bitsizeW n).toNat < _
    rw [hwords]
    omega

/-! What a call makes has as many words as its first set. -/

theorem onWord_wf {b' : Bitset} (h : b.WF) (h' : onWord f b i = some b') : b'.WF := by
  rw [onWord_spec h] at h'
  split at h'
  · obtain rfl := Option.some.inj h'
    exact ⟨h.len, h.small⟩
  · cases h'

theorem combine_wf {a a' : Bitset} (ha : a.WF) (hb : b.WF) (h' : combine f a b = some a') :
    a'.WF := by
  rw [combine_spec ha hb] at h'
  split at h'
  · obtain rfl := Option.some.inj h'
    exact ⟨ha.len, ha.small⟩
  · cases h'

theorem bitsetCopy_wf {a a' : Bitset} (ha : a.WF) (hb : b.WF) (h' : bitsetCopy a b = some a') :
    a'.WF :=
  combine_wf ha hb ((bitsetCopy_eq ha hb).symm.trans h')

theorem bitsetDup_wf {a a' : Bitset} (ha : a.WF) (h' : bitsetDup a = some a') : a'.WF := by
  have hzero : (⟨a.n, ⟨a.n.toNat, fun _ => 0⟩⟩ : Bitset).WF := ⟨rfl, ha.small⟩
  refine bitsetCopy_wf hzero ha ?_
  rw [bitsetCopy, if_pos rfl]
  exact h'

end Updates

def view (s : β → Option Bitset) (a : β) : Option Places := (s a).map Bitset.places

def AllWF (s : β → Option Bitset) : Prop := ∀ a x, s a = some x → x.WF

section Calls

variable {s : β → Option Bitset} {f : Bitset → Bitset → Option Bitset}
  {g : Places → Places → Option Places}

theorem view_update (s : β → Option Bitset) (a : β) (r : Option Bitset) :
    view (update s a r) = update (view s) a (r.map Bitset.places) := by
  funext b
  by_cases hb : b = a
  · subst hb
    rw [view, update_self, update_self]
  · rw [view, update_of_ne hb, update_of_ne hb, view]

theorem AllWF.update (h : AllWF s) {a : β} {r : Option Bitset} (hr : ∀ x, r = some x → x.WF) :
    AllWF (update s a r) := by
  intro b x hx
  by_cases hb : b = a
  · subst hb
    rw [update_self] at hx
    exact hr x hx
  · rw [update_of_ne hb] at hx
    exact h b x hx

def Meets (r : Option ((β → Option Bitset) × Option Bool))
    (r' : Option ((β → Option Places) × Option Bool)) : Prop :=
  (r.map fun p => (view p.1, p.2)) = r' ∧ ∀ p, r = some p → AllWF p.1

theorem put_meets (h : AllWF s) (a : β) {r : Option Bitset} {r' : Option Places}
    (hr : r.map Bitset.places = r') (hwf : ∀ x, r = some x → x.WF) :
    Meets (put s a r) (put (view s) a r') := by
  subst hr
  cases r with
  | none => exact ⟨rfl, fun p hp => absurd hp (Option.some_ne_none p).symm⟩
  | some x =>
    refine ⟨congrArg some (Prod.ext (view_update s a (some x)) rfl), fun p hp => ?_⟩
    obtain rfl := Option.some.inj hp
    exact h.update hwf

theorem one_meets (h : AllWF s) (a b : β) {f : Bitset → Option Bitset}
    {g : Places → Option Places} (hf : ∀ x, x.WF → (f x).map Bitset.places = g x.places)
    (hwf : ∀ x y, x.WF → f x = some y → y.WF) :
    Meets (put s a ((s b).bind f)) (put (view s) a ((view s b).bind g)) := by
  refine put_meets h a ?_ fun y hy => ?_
  · rw [view]
    cases hb : s b with
    | none => rfl
    | some x => exact hf x (h b x hb)
  · obtain ⟨x, hx, hy⟩ := Option.bind_eq_some_iff.mp hy
    exact hwf x y (h b x hx) hy

theorem both_meets (h : AllWF s) (a b : β)
    (hf : ∀ x y, x.WF → y.WF → (f x y).map Bitset.places = g x.places y.places)
    (hwf : ∀ x y z, x.WF → y.WF → f x y = some z → z.WF) :
    Meets (put s a (both s f a b)) (put (view s) a (both (view s) g a b)) := by
  refine put_meets h a ?_ fun z hz => ?_
  · rw [both, both, view, view]
    cases ha : s a with
    | none => rfl
    | some x =>
      cases hb : s b with
      | none => rfl
      | some y => exact hf x y (h a x ha) (h b y hb)
  · obtain ⟨x, hx, hz⟩ := Option.bind_eq_some_iff.mp hz
    obtain ⟨y, hy, hz⟩ := Option.bind_eq_some_iff.mp hz
    exact hwf x y z (h a x hx) (h b y hy) hz

theorem step_meets (h : AllWF s) (op : Op β) : Meets (step s op) (spec (view s) op) := by
  cases op with
  | new a n =>
    refine put_meets h a (congrArg some (bitsetNew_spec n).1) fun x hx => ?_
    obtain rfl := Option.some.inj hx
    exact (bitsetNew_spec n).2
  | del a =>
    refine ⟨congrArg some (Prod.ext (view_update s a none) rfl), fun p hp => ?_⟩
    obtain rfl := Option.some.inj hp
    exact h.update fun x hx => absurd hx (Option.some_ne_none x).symm
  | copy a b => exact both_meets h a b (fun _ _ => bitsetCopy_spec) fun _ _ _ => bitsetCopy_wf
  | dup a b =>
    have hone := one_meets h a b (fun _ => bitsetDup_spec) fun _ _ => bitsetDup_wf
    rwa [Option.bind_fun_some] at hone
  | set a i => exact one_meets h a a (fun _ => bitsetSet_spec) fun _ _ => onWord_wf
  | clr a i => exact one_meets h a a (fun _ => bitsetClr_spec) fun _ _ => onWord_wf
  | isset a i =>
    rw [step, spec, view]
    cases ha : s a with
    | none => exact ⟨rfl, fun p hp => absurd hp (Option.some_ne_none p).symm⟩
    | some x =>
      rw [Option.bind_some, Option.map_some, Option.bind_some, bitsetIsset_spec (h a x ha)]
      refine ⟨Option.map_map .., fun p hp => ?_⟩
      obtain ⟨r, -, rfl⟩ := Option.map_eq_some_iff.mp hp
      exact h
  | or a b => exact both_meets h a b (fun _ _ => bitsetOr_spec) fun _ _ _ => combine_wf
  | and a b => exact both_meets h a b (fun _ _ => bitsetAnd_spec) fun _ _ _ => combine_wf
  | xor a b => exact both_meets h a b (fun _ _ => bitsetXor_spec) fun _ _ _ => combine_wf
  | andnot a b => exact both_meets h a b (fun _ _ => bitsetAndnot_spec) fun _ _ _ => combine_wf
  | not a =>
    exact one_meets h a a (fun _ => bitsetNot_spec) fun _ _ hx hy => combine_wf hx hx hy

end Calls

/-- Programs on sets of bits give the answers of the same programs on finite sets, and fail where
these do: at an assertion, or at a name without a set. -/
theorem bitset_refines (ops : List (Op β)) :
    ((Run.run step (fun _ => none) ops).map fun q => (view q.1, q.2)) =
      Run.run spec (fun _ => none) ops :=
  Run.run_abstracts (I := AllWF) (fun _ op h => (step_meets h op).1)
    (fun _ op p h hp => (step_meets h op).2 p hp)
    (fun _ x hx => absurd hx (Option.some_ne_none x).symm) ops

end PortableLib.Bitsets
