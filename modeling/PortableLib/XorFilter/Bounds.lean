import PortableLib.XorFilter.Membership
import PortableLib.XorFilter.Marshal

/-! The fingerprint array against the indices into it. The constructors allocate three cells for
each key, the indices range over three segments of `xorfilter_calc_size` cells each. -/

namespace PortableLib.XorFilter
open List Peel

theorem roundDouble_le (m : Nat) : 1000 * roundDouble m ≤ 1001 * m := by
  obtain ⟨e, he⟩ : ∃ e, m.log2 - 52 = e := ⟨_, rfl⟩
  have hdiv : m / 2 ^ e * 2 ^ e + m % 2 ^ e = m := Nat.div_add_mod' m (2 ^ e)
  rcases Nat.eq_zero_or_pos e with rfl | hpos
  · rw [roundDouble, he, Nat.pow_zero, Nat.div_one, Nat.mod_one, if_neg (by omega)]
    omega
  · have hhigh : roundDouble m ≤ m / 2 ^ e * 2 ^ e + 2 ^ e := by
      rw [roundDouble, he]
      split
      · rw [Nat.succ_mul]
      · exact Nat.le_add_right _ _
    have hne : m ≠ 0 := by
      rintro rfl
      rw [Nat.log2_zero] at he
      omega
    have hbits : 2 ^ (e + 10) ≤ m := (Nat.pow_le_pow_right (by decide) (by omega)).trans
      (Nat.log2_self_le hne)
    rw [Nat.pow_add] at hbits
    omega

theorem calcSize_le (n : Nat) : 100 * calcSize n ≤ 42 * n + 1200 := by
  have h₁ := roundDouble_le n
  have h₂ := roundDouble_le (5539427541665710 * roundDouble n)
  have h₃ := roundDouble_le
    (32 + (roundDouble (5539427541665710 * roundDouble n) + (2 ^ 52 - 1)) / 2 ^ 52)
  rw [calcSize]
  omega

theorem calcSize_le_iff (n : Nat) : calcSize n ≤ n ↔ 17 ≤ n := by
  have hsmall : ∀ n < 28, (calcSize n ≤ n ↔ 17 ≤ n) := by decide
  rcases Nat.lt_or_ge n 28 with h | h
  · exact hsmall n h
  · have hle := calcSize_le n
    exact iff_of_true (by omega) (by omega)

theorem calcSize_lt_of_few {n : Nat} (h : n < 17) : calcSize n < 18 := by
  have hsmall : ∀ n < 17, calcSize n < 18 := by decide
  exact hsmall n h

/-- Every index that a constructor, a search or the writer forms lies in the array, which has
three cells for each entry of the stack. -/
def InArray (new : (Nat → Nat) → UInt64 → List UInt64 → (Nat → UInt64) →
    Option (Option Xorfilter)) (keys : List UInt64) (seeds : Nat → UInt64) : Prop :=
  ∃ x, new (3 * ·) (UInt64.ofNat (calcSize keys.length)) keys seeds = some (some x) ∧
    (∀ key, (xorfilterContains x key).isSome) ∧
    (xorfilterSize x.fp.is16 x.size).toNat ≤ x.fp.bytes.length

section Built
variable {size : UInt64} {keys : List UInt64} {seeds : Nat → UInt64} {stack : List KeyIdx}
  {seed : UInt64} {β : Type} [XorOp β] [OfNat β 0]

theorem length_stack {left tries : Nat}
    (h : initLoop size keys seeds left tries = some (stack, seed)) (hne : stack ≠ []) :
    stack.length = keys.length := by
  induction left generalizing tries with
  | zero => exact absurd (congrArg Prod.fst (Option.some.inj h)).symm hne
  | succ left ih =>
    rw [initLoop, Option.bind_eq_some_iff] at h
    obtain ⟨stack', -, h⟩ := h
    split_ifs at h with hlen
    · obtain ⟨rfl, rfl⟩ := Prod.mk.inj (Option.some.inj h)
      exact hlen
    · exact ih h

theorem size_ne_zero (hinit : xorfilterInit size keys seeds = some (stack, seed))
    (hne : stack ≠ []) : size.toUInt32 ≠ 0 := by
  obtain ⟨ki, stack', rfl⟩ := exists_cons_of_ne_nil hne
  obtain ⟨-, z, hz⟩ := hash3_of_peels (initLoop_spec hinit hne).peels mem_cons_self
  intro hzero
  rw [hash3, if_pos hzero] at hz
  cases hz

theorem newFilter_of_init {fp : UInt64 → β} {g : List β → Fingerprints} {cells : Nat → Nat}
    (hinit : xorfilterInit size keys seeds = some (stack, seed)) (hne : stack ≠ []) :
    newFilter fp g cells size keys seeds =
      (fill fp size.toUInt32 (replicate (cells stack.length) 0) stack).map fun b =>
        some ⟨g b, seed, size.toUInt32, UInt32.ofNat keys.length⟩ := by
  have hlen : ¬ stack.length = 0 := fun h => hne (length_eq_zero_iff.mp h)
  rw [newFilter, hinit, Option.bind_some, if_neg hlen]

theorem newFilter_fits [Std.Associative (fun a b : β => a ^^^ b)]
    [Std.Commutative (fun a b : β => a ^^^ b)] (fp : UInt64 → β) (g : List β → Fingerprints)
    (hzero : ∀ a : β, 0 ^^^ a = a)
    (hinit : xorfilterInit size keys seeds = some (stack, seed)) (hne : stack ≠ [])
    (hfit : size.toUInt32.toNat ≤ stack.length) :
    ∃ b, newFilter fp g (3 * ·) size keys seeds =
        some (some ⟨g b, seed, size.toUInt32, UInt32.ofNat keys.length⟩) ∧
      b.length = 3 * stack.length := by
  have hroom : 3 * size.toUInt32.toNat ≤ (replicate (3 * stack.length) (0 : β)).length := by
    rw [length_replicate]
    omega
  obtain ⟨b, hb, hlen, -⟩ := fill_spec fp hzero (initLoop_spec hinit hne).peels hroom
  refine ⟨b, ?_, hlen.trans length_replicate⟩
  rw [newFilter_of_init hinit hne, hb, Option.map_some]

theorem matchFp_total [DecidableEq β] {fp : β} {b : List β} {h : UInt64} {size : UInt32}
    {z : FpIdx} (hz : hash3 h size = some z) (hlen : 3 * size.toNat ≤ b.length) :
    (matchFp fp b z).isSome := by
  obtain ⟨hi, hj, hk⟩ := lt_of_hash3 hz fun c hc => Nat.lt_of_lt_of_le (cells_lt hc) hlen
  rw [matchFp, cellsOf_eq hi hj hk]
  rfl

def Fingerprints.count : Fingerprints → Nat
  | .fp8 b => b.length
  | .fp16 b => b.length

theorem contains_total {x : Xorfilter} (hsize : x.size ≠ 0)
    (hcount : 3 * x.size.toNat ≤ x.fp.count) (key : UInt64) : (xorfilterContains x key).isSome := by
  obtain ⟨z, hz⟩ := hash3_total hsize (hashkey key x.seed)
  obtain ⟨f, seed, size, n⟩ := x
  simp only [xorfilterContains, hz, Option.bind_some]
  cases f with
  | fp8 b => exact matchFp_total hz hcount
  | fp16 b => exact matchFp_total hz hcount

theorem toNat_xorfilterSize_le (is16 : Bool) (size : UInt32) :
    (xorfilterSize is16 size).toNat ≤ (if is16 then 2 else 1) * (3 * size.toNat) := by
  rw [toNat_xorfilterSize]
  exact Nat.mul_le_mul_left _ (Nat.mod_le _ _)

end Built

section Iff
variable {keys : List UInt64} {seeds : Nat → UInt64} {stack : List KeyIdx} {seed : UInt64}

theorem toNat_size_le (n : Nat) : (UInt64.ofNat n).toUInt32.toNat ≤ n := by
  rw [UInt64.toNat_toUInt32, UInt64.toNat_ofNat']
  exact (Nat.mod_le _ _).trans (Nat.mod_le _ _)

theorem toNat_size_of_few {n : Nat} (h : n < 17) :
    (xorfilterSize false (UInt64.ofNat (calcSize n)).toUInt32).toNat = 3 * calcSize n := by
  have hlt := calcSize_lt_of_few h
  have hsize : (UInt64.ofNat (calcSize n)).toUInt32.toNat = calcSize n := by
    rw [UInt64.toNat_toUInt32, UInt64.toNat_ofNat']
    omega
  rw [toNat_xorfilterSize, if_neg Bool.false_ne_true, hsize]
  omega

theorem inArray_new8 (hinit : xorfilterInit (UInt64.ofNat (calcSize keys.length)) keys seeds =
    some (stack, seed)) (hne : stack ≠ []) (hfit : calcSize keys.length ≤ stack.length) :
    InArray xorfilterNew8 keys seeds := by
  have hsize := (toNat_size_le (calcSize keys.length)).trans hfit
  obtain ⟨b, hb, hlen⟩ := newFilter_fits xfp8 .fp8 (fun a => UInt8.zero_xor) hinit hne hsize
  have hcount : 3 * (UInt64.ofNat (calcSize keys.length)).toUInt32.toNat ≤ b.length := by omega
  refine ⟨_, hb, contains_total (size_ne_zero hinit hne) hcount, ?_⟩
  refine (toNat_xorfilterSize_le _ _).trans ?_
  simp only [Fingerprints.is16, Fingerprints.bytes, Bool.false_eq_true, if_false]
  omega

theorem inArray_new16 (hinit : xorfilterInit (UInt64.ofNat (calcSize keys.length)) keys seeds =
    some (stack, seed)) (hne : stack ≠ []) (hfit : calcSize keys.length ≤ stack.length) :
    InArray xorfilterNew16 keys seeds := by
  have hsize := (toNat_size_le (calcSize keys.length)).trans hfit
  obtain ⟨b, hb, hlen⟩ := newFilter_fits xfp16 .fp16 (fun a => UInt16.zero_xor) hinit hne hsize
  have hcount : 3 * (UInt64.ofNat (calcSize keys.length)).toUInt32.toNat ≤ b.length := by omega
  refine ⟨_, hb, contains_total (size_ne_zero hinit hne) hcount, ?_⟩
  refine (toNat_xorfilterSize_le _ _).trans ?_
  rw [length_bytes16]
  simp only [Fingerprints.is16, if_true]
  omega

theorem not_inArray_of_few (hinit : xorfilterInit (UInt64.ofNat (calcSize keys.length)) keys seeds =
    some (stack, seed)) (hne : stack ≠ []) (hfew : keys.length < 17) :
    ¬ InArray xorfilterNew8 keys seeds := by
  rintro ⟨x, hx, -, hcopy⟩
  rw [xorfilterNew8, newFilter_of_init hinit hne] at hx
  obtain ⟨b, hb, hx⟩ := Option.map_eq_some_iff.mp hx
  obtain rfl := Option.some.inj hx
  have hlen := length_fill hb
  rw [length_replicate, length_stack hinit hne] at hlen
  have hlong : ¬ calcSize keys.length ≤ keys.length := by
    rw [calcSize_le_iff]
    omega
  have hbytes : (xorfilterSize false (UInt64.ofNat (calcSize keys.length)).toUInt32).toNat ≤
      b.length := hcopy
  rw [toNat_size_of_few hfew] at hbytes
  omega

/-- Whenever the construction succeeds, all accesses lie in the array exactly from 17 keys on. -/
theorem xorfilter_in_array_iff (keys : List UInt64) (seeds : Nat → UInt64) (stack : List KeyIdx)
    (seed : UInt64) (hinit : xorfilterInit (UInt64.ofNat (calcSize keys.length)) keys seeds =
      some (stack, seed)) (hne : stack ≠ []) :
    (InArray xorfilterNew8 keys seeds ∧ InArray xorfilterNew16 keys seeds) ↔
      17 ≤ keys.length := by
  constructor
  · rintro ⟨h8, -⟩
    by_contra hfew
    exact not_inArray_of_few hinit hne (by omega) h8
  · intro hmany
    have hfit : calcSize keys.length ≤ stack.length := by
      rw [length_stack hinit hne, calcSize_le_iff]
      exact hmany
    exact ⟨inArray_new8 hinit hne hfit, inArray_new16 hinit hne hfit⟩

theorem seventeen_keys_in_array :
    InArray xorfilterNew8 ((range 17).map UInt64.ofNat) (fun _ => 7) ∧
      InArray xorfilterNew16 ((range 17).map UInt64.ofNat) (fun _ => 7) := by
  have hinit : (xorfilterInit (UInt64.ofNat (calcSize ((range 17).map UInt64.ofNat).length))
      ((range 17).map UInt64.ofNat) (fun _ => 7)).map (fun r => r.1.length) = some 17 := by
    decide
  obtain ⟨⟨stack, seed⟩, hr, hlen⟩ := Option.map_eq_some_iff.mp hinit
  have hne : stack ≠ [] := fun h => by
    rw [h] at hlen
    cases hlen
  exact (xorfilter_in_array_iff _ _ stack seed hr hne).mpr (by decide)

/-- The only entry of the stack for the key 5 says cell 24, and there are three. -/
theorem one_key_out_of_array :
    xorfilterInit (UInt64.ofNat (calcSize 1)) [5] (fun _ => 7) =
        some ([⟨4821654024743274168, 24⟩], 7) ∧
      xorfilterNew8 (3 * ·) (UInt64.ofNat (calcSize 1)) [5] (fun _ => 7) = none ∧
      ¬ InArray xorfilterNew8 [5] (fun _ => 7) := by
  have hnew : xorfilterNew8 (3 * ·) (UInt64.ofNat (calcSize [(5 : UInt64)].length)) [5]
      (fun _ => 7) = none := by
    decide
  refine ⟨by decide, hnew, ?_⟩
  rintro ⟨x, hx, -⟩
  cases hnew.symm.trans hx

end Iff

end PortableLib.XorFilter
