import PortableLib.FastHt.Stores

/-! The two builds of `__find_matches` side by side. The software build may report slots whose
byte is not the one sought, but these do not hold the key as long as the bytes of the occupied
slots are those of their keys, and the comparison of the keys drops them. -/

namespace PortableLib.FastHt

section Vectors

/-- The vectors of `fast/simd.h`, lowest byte first. -/
abbrev Vec := Vector UInt8 16

def setEpi64x (hi lo : UInt64) : Vec :=
  Vector.ofFn fun i => if i.val < 8 then byteAt lo i else byteAt hi (i - 8)

def set1Epi8 (b : UInt8) : Vec := Vector.replicate 16 b

def cmpeqEpi8 (a b : Vec) : Vec := Vector.zipWith (fun x y => if x = y then 0xff else 0) a b

def movemaskEpi8 (v : Vec) : UInt16 :=
  UInt16.ofNat (Nat.ofBits fun i : Fin 16 => v[i.val].toNat.testBit 7)

/-- `__arm64_simd_movemask_epi8`; `vshlq_u8` shifts everything out of the bytes from 8 on, and
`vaddvq_u8` adds in 8 bits. -/
def arm64Movemask (v : Vec) : UInt16 :=
  let mask : Vec := Vector.map (fun x : UInt8 => x >>> 7) v
  let masked : Vec := Vector.map (fun x : UInt8 => x &&& 1) mask
  let shifted : Vec := Vector.ofFn fun i =>
    if i.val < 8 then masked[i.val] <<< i.val.toUInt8 else 0
  (shifted.toList.foldr (· + ·) 0).toUInt16

/-- `__find_matches` as it is written over the vectors. -/
def findMatchesVec (movemask : Vec → UInt16) (fpH2 : UInt64) (h2 : UInt8) : UInt8 :=
  let h2v := setEpi64x 0 fpH2
  let qv := set1Epi8 h2
  (0x7f &&& movemask (cmpeqEpi8 h2v qv)).toUInt8

theorem sum_ofFn_bits {n : Nat} (s : Nat) (f : Fin n → Bool) :
    (List.ofFn fun i : Fin n => 2 ^ (s + i.val) * (f i).toNat).sum = 2 ^ s * Nat.ofBits f := by
  induction n generalizing s with
  | zero => rfl
  | succ n ih =>
    have htail : (fun i : Fin n => 2 ^ (s + i.succ.val) * (f i.succ).toNat) =
        fun i => 2 ^ (s + 1 + i.val) * ((f ∘ Fin.succ) i).toNat := by
      funext i
      rw [Fin.val_succ, Function.comp_apply, Nat.add_assoc, Nat.add_comm 1]
    rw [List.ofFn_succ, List.sum_cons, htail, ih, Nat.ofBits_succ, Fin.val_zero, Nat.add_zero,
      Nat.pow_succ, Nat.mul_add, Nat.mul_assoc, Nat.add_comm]

theorem foldr_map_ofNat (l : List Nat) :
    (l.map UInt8.ofNat).foldr (· + ·) 0 = UInt8.ofNat l.sum := by
  induction l with
  | nil => rfl
  | cons a l ih => rw [List.map_cons, List.foldr_cons, ih, List.sum_cons, UInt8.ofNat_add]

theorem top_bit_shifted (x : UInt8) {i : Nat} (hi : i < 16) :
    (if i < 8 then ((x >>> 7) &&& 1) <<< i.toUInt8 else 0) =
      UInt8.ofNat (2 ^ i * (x.toNat.testBit 7).toNat) := by
  have hbit : (x >>> 7) &&& 1 = UInt8.ofNat (x.toNat.testBit 7).toNat := by
    have hlt : x.toNat / 2 ^ 7 < 2 := Nat.div_lt_of_lt_mul x.toNat_lt
    rw [← UInt8.toNat_inj, UInt8.toNat_and, UInt8.toNat_shiftRight, Nat.testBit, bne]
    change x.toNat >>> 7 &&& 1 = _
    rw [Nat.shiftRight_eq_div_pow]
    interval_cases x.toNat / 2 ^ 7 <;> rfl
  rw [hbit]
  generalize x.toNat.testBit 7 = b
  interval_cases i <;> cases b <;> rfl

theorem arm64Movemask_eq (v : Vec) : arm64Movemask v = movemaskEpi8 v &&& 0xff := by
  have hshifted : (Vector.ofFn fun i : Fin 16 => if i.val < 8 then
      (Vector.map (fun x : UInt8 => x &&& 1) (Vector.map (fun x : UInt8 => x >>> 7) v))[i.val] <<<
        i.val.toUInt8 else 0) =
      Vector.ofFn (UInt8.ofNat ∘ fun i : Fin 16 =>
        2 ^ (0 + i.val) * (v[i.val].toNat.testBit 7).toNat) := by
    congr 1
    funext i
    rw [Vector.getElem_map, Vector.getElem_map, top_bit_shifted _ i.isLt, Function.comp_apply,
      Nat.zero_add]
  have hlow : (0xff : UInt16).toNat = 2 ^ 8 - 1 := rfl
  rw [arm64Movemask, hshifted, Vector.toList_ofFn, ← List.map_ofFn, foldr_map_ofNat,
    sum_ofFn_bits, Nat.pow_zero, Nat.one_mul, movemaskEpi8, ← UInt16.toNat_inj,
    UInt8.toNat_toUInt16, UInt16.toNat_and, UInt8.toNat_ofNat', UInt16.toNat_ofNat', hlow,
    Nat.and_two_pow_sub_one_eq_mod, Nat.mod_mod_of_dvd _ (by decide)]

theorem foldl_simd_lt {P : Nat → Prop} [DecidablePred P] {n : Nat} (hn : n ≤ 7) :
    ((List.range n).foldl
      (fun (acc : UInt8) j => if P j then acc ||| (1 <<< j.toUInt8) else acc) 0).toNat < 2 ^ 7 := by
  induction n with
  | zero => exact Nat.two_pow_pos 7
  | succ n ih =>
    have hbit : (1 <<< n.toUInt8 : UInt8).toNat < 2 ^ 7 := by
      have hn' : n < 7 := hn
      interval_cases n <;> decide
    have hih := ih (Nat.le_of_succ_le hn)
    rw [List.range_succ, List.foldl_append, List.foldl_cons, List.foldl_nil]
    split_ifs with hP
    · rw [UInt8.toNat_or]
      exact Nat.or_lt_two_pow hih hbit
    · exact hih

theorem testBit_findMatchesSimd_iff (w : UInt64) (b : UInt8) (i : Nat) :
    (findMatchesSimd w b).toNat.testBit i = true ↔ i < 7 ∧ byteAt w i = b := by
  by_cases hi : i < 7
  · rw [testBit_findMatchesSimd w b ⟨i, hi⟩, decide_eq_true_eq, and_iff_right hi]
  · have hlt : (findMatchesSimd w b).toNat < 2 ^ 7 := foldl_simd_lt (le_refl 7)
    have hpow : 2 ^ 7 ≤ 2 ^ i := Nat.pow_le_pow_right (by decide) (Nat.le_of_not_lt hi)
    rw [Nat.testBit_lt_two_pow (hlt.trans_le hpow)]
    exact iff_of_false Bool.false_ne_true fun h => hi h.1

theorem testBit_movemaskEpi8 (v : Vec) (i : Fin 16) :
    (movemaskEpi8 v).toNat.testBit i = v[i.val].toNat.testBit 7 := by
  rw [movemaskEpi8, UInt16.toNat_ofNat', Nat.mod_eq_of_lt (Nat.ofBits_lt_two_pow _),
    Nat.testBit_ofBits_lt _ _ i.isLt]

theorem findMatchesVec_eq {movemask : Vec → UInt16}
    (hmask : movemask = movemaskEpi8 ∨ movemask = arm64Movemask) :
    findMatchesVec movemask = findMatchesSimd := by
  funext w b
  have hlow : ∀ v, 0x7f &&& movemask v = 0x7f &&& movemaskEpi8 v := by
    intro v
    rcases hmask with rfl | rfl
    · rfl
    · rw [arm64Movemask_eq, UInt16.and_comm (movemaskEpi8 v), ← UInt16.and_assoc]
      rfl
  have hseven : (0x7f : UInt16).toNat = 2 ^ 7 - 1 := rfl
  rw [← UInt8.toNat_inj]
  apply Nat.eq_of_testBit_eq
  intro i
  rw [Bool.eq_iff_iff, testBit_findMatchesSimd_iff, findMatchesVec, hlow, UInt16.toNat_toUInt8,
    UInt16.toNat_and, hseven, Nat.and_comm, Nat.and_two_pow_sub_one_eq_mod,
    Nat.mod_mod_of_dvd' (by decide), Nat.testBit_mod_two_pow, Bool.and_eq_true, decide_eq_true_eq]
  refine and_congr_right fun hi => ?_
  have hbyte := testBit_movemaskEpi8 (cmpeqEpi8 (setEpi64x 0 w) (set1Epi8 b)) ⟨i, by omega⟩
  rw [hbyte, cmpeqEpi8, setEpi64x, set1Epi8, Vector.getElem_zipWith, Vector.getElem_ofFn,
    Vector.getElem_replicate, if_pos (hi.trans (by decide))]
  split_ifs with heq
  · exact iff_of_true rfl heq
  · exact iff_of_false Bool.false_ne_true heq

end Vectors

section Keys

/-- What `__find_key_or_add` stores in a `tuple`; no slot is -1. -/
structure Tuple where
  slot : Option (Fin 7)
  val : Ptr
  deriving DecidableEq, Repr

/-- `__find_key_or_add` with the index that it returns. -/
def findKeyOrAddTuple (mt : Matcher) (g : Bag) (k : UInt64) : Option (Fin 7) × Tuple :=
  match scanMatches g.hk k 7 (occupiedMatches mt g k) with
  | some j => (some j, ⟨some j, g.hv.get j⟩)
  | none => (none, ⟨ctz (control g.fp).toNat, 0⟩)

theorem findKeyOrAdd_eq (mt : Matcher) (g : Bag) (k : UInt64) :
    findKeyOrAdd mt g k = match findKeyOrAddTuple mt g k with
      | (some _, r) => .inl r.val
      | (none, r) => .inr r.slot := by
  unfold findKeyOrAdd findKeyOrAddTuple
  cases scanMatches g.hk k 7 (occupiedMatches mt g k) with
  | some j => rfl
  | none => rfl

/-- The byte of each occupied slot is the low byte of its key. -/
def Bag.Keyed (g : Bag) : Prop :=
  ∀ i : Fin 7, (control g.fp).toNat.testBit i = false → byteAt g.fp i = (g.hk.get i).toUInt8

instance (g : Bag) : Decidable g.Keyed :=
  inferInstanceAs (Decidable (∀ i : Fin 7,
    (control g.fp).toNat.testBit i = false → byteAt g.fp i = (g.hk.get i).toUInt8))

theorem scanMatches_keyed {g : Bag} (hg : g.Keyed) (mt : Matcher) (k : UInt64) :
    scanMatches g.hk k 7 (occupiedMatches mt g k) =
      Fin.find? fun j => !(control g.fp).toNat.testBit j && decide (g.hk.get j = k) := by
  rw [scanMatches_eq_find? (m := 0) (by decide) fun _ _ => Nat.zero_le _]
  congr 1
  funext j
  rw [occupiedMatches_testBit]
  by_cases hkey : g.hk.get j = k
  · cases hocc : (control g.fp).toNat.testBit j with
    | true => rw [Bool.not_true, Bool.and_false]
    | false =>
      have hbyte : byteAt (fpBytes g.fp) j = k.toUInt8 := by
        rw [byteAt_fpBytes, hg j hocc, hkey]
      rw [testBit_findMatches mt hbyte, Bool.true_and]
  · rw [decide_eq_false hkey, Bool.and_false, Bool.and_false]

/-- The software build misses no position of the byte sought, though it may report others, and
the SIMD build reports exactly these; looking for a key in a bag does not depend on the build. -/
theorem matchers_agree :
    (∀ (w : UInt64) (b : UInt8) (i : Fin 7), byteAt w i = b →
      (findMatchesSoftware w b).toNat.testBit i = true) ∧
    (∃ (w : UInt64) (b : UInt8) (i : Fin 7), byteAt w i ≠ b ∧
      (findMatchesSoftware w b).toNat.testBit i = true) ∧
    (∀ (w : UInt64) (b : UInt8) (i : Nat),
      (findMatchesSimd w b).toNat.testBit i = true ↔ i < 7 ∧ byteAt w i = b) ∧
    ∀ g : Bag, g.Keyed → ∀ k : UInt64,
      findKey .software g k = findKey .simd g k ∧
      findKeyOrAddTuple .software g k = findKeyOrAddTuple .simd g k := by
  refine ⟨fun w b i h => testBit_findMatchesSoftware h,
    ⟨0x0100, 0, 1, by decide, by decide⟩, testBit_findMatchesSimd_iff, fun g hg k => ?_⟩
  have hscan : scanMatches g.hk k 7 (occupiedMatches .software g k) =
      scanMatches g.hk k 7 (occupiedMatches .simd g k) :=
    (scanMatches_keyed hg .software k).trans (scanMatches_keyed hg .simd k).symm
  constructor
  · rw [findKey, hscan, findKey]
  · rw [findKeyOrAddTuple, hscan, findKeyOrAddTuple]

def reported : Bag := ⟨0x7c00000000000100, #v[0x100, 0x201, 0, 0, 0, 0, 0], #v[1, 2, 0, 0, 0, 0, 0]⟩

theorem matchers_agree_reported :
    reported.Keyed ∧
      occupiedMatches .software reported 0x300 ≠ occupiedMatches .simd reported 0x300 ∧
      findKey .software reported 0x300 = findKey .simd reported 0x300 ∧
      findKeyOrAddTuple .software reported 0x300 = findKeyOrAddTuple .simd reported 0x300 := by
  have hg : reported.Keyed := by decide
  exact ⟨hg, by decide, matchers_agree.2.2.2 reported hg 0x300⟩

end Keys
end PortableLib.FastHt
