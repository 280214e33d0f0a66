import Mathlib.Data.Nat.Bitwise
import Mathlib.Order.Bounds.Basic

/-! The integer macros of `utils/typeutils.h` that size the containers. -/

namespace PortableLib.TypeUtils

def smear (n : UInt64) (s : UInt64) : UInt64 := n ||| (n >>> s)

/-- `NEXTPOW2` before its final cast to the type of its argument. -/
def nextPow2 (v : UInt64) : UInt64 :=
  smear (smear (smear (smear (smear (smear (v - 1) 1) 2) 4) 8) 16) 32 + 1

def Window (x n w : Nat) : Prop :=
  ∀ i, n.testBit i = true ↔ ∃ j < w, x.testBit (i + j) = true

theorem Window.smear {x w : Nat} {n s : UInt64} (hs : s.toNat % 64 = w) (h : Window x n.toNat w) :
    Window x (smear n s).toNat (w + w) := by
  intro i
  rw [TypeUtils.smear, UInt64.toNat_or, UInt64.toNat_shiftRight, hs, Nat.testBit_or,
    Nat.testBit_shiftRight, Bool.or_eq_true, h i, h (w + i)]
  constructor
  · rintro (⟨j, hj, hbit⟩ | ⟨j, hj, hbit⟩)
    · exact ⟨j, by omega, hbit⟩
    · exact ⟨w + j, by omega, by rwa [show i + (w + j) = w + i + j by omega]⟩
  · rintro ⟨j, hj, hbit⟩
    by_cases hjw : j < w
    · exact .inl ⟨j, hjw, hbit⟩
    · exact .inr ⟨j - w, by omega, by rwa [show w + i + (j - w) = i + j by omega]⟩

theorem window_one (x : Nat) : Window x x 1 := by
  intro i
  constructor
  · exact fun h => ⟨0, Nat.one_pos, h⟩
  · rintro ⟨j, hj, h⟩
    rwa [Nat.lt_one_iff.mp hj] at h

theorem Window.full {x n : Nat} (h : Window x n 64) (hx : x ≠ 0) (hlt : x < 2 ^ 64) :
    n = 2 ^ (Nat.log2 x + 1) - 1 := by
  have htop : Nat.log2 x < 64 := (Nat.log2_lt hx).mpr hlt
  apply Nat.eq_of_testBit_eq
  intro i
  rw [Nat.testBit_two_pow_sub_one, Bool.eq_iff_iff, h i, decide_eq_true_iff]
  constructor
  · rintro ⟨j, -, hbit⟩
    by_contra hge
    have hsmall : x < 2 ^ (i + j) := Nat.lt_of_lt_of_le Nat.lt_log2_self
      (Nat.pow_le_pow_right (by decide) (by omega))
    rw [Nat.testBit_lt_two_pow hsmall] at hbit
    cases hbit
  · intro hi
    refine ⟨Nat.log2 x - i, by omega, ?_⟩
    rw [show i + (Nat.log2 x - i) = Nat.log2 x by omega]
    exact Nat.testBit_log2 hx

theorem window_nextPow2 (v : UInt64) : Window (v - 1).toNat
    (smear (smear (smear (smear (smear (smear (v - 1) 1) 2) 4) 8) 16) 32).toNat 64 :=
  (((((((window_one _).smear (s := 1) rfl).smear (s := 2) rfl).smear (s := 4) rfl).smear
    (s := 8) rfl).smear (s := 16) rfl).smear (s := 32) rfl)

theorem nextPow2_eq_zero {v : UInt64} (h : 2 ^ 63 < v.toNat) : nextPow2 v = 0 := by
  have h1 : (v - 1).toNat = v.toNat - 1 :=
    UInt64.toNat_sub_of_le _ _ (UInt64.le_iff_toNat_le.mpr (by change 1 ≤ _; omega))
  have hlt := v.toNat_lt
  have hx : (v - 1).toNat ≠ 0 := by omega
  have hlog : Nat.log2 (v - 1).toNat = 63 := by
    rw [Nat.log2_eq_iff hx]
    omega
  have hfull := (window_nextPow2 v).full hx (by omega)
  rw [hlog] at hfull
  rw [nextPow2, ← UInt64.toNat_inj, UInt64.toNat_add, hfull]
  rfl

theorem nextPow2_eq_two_pow {v : UInt64} {w : Nat} (hw : w < 64) (h0 : 0 < v.toNat)
    (h : v.toNat ≤ 2 ^ w) : ∃ e ≤ w, (nextPow2 v).toNat = 2 ^ e ∧ v.toNat ≤ 2 ^ e := by
  have h1 : (v - 1).toNat = v.toNat - 1 :=
    UInt64.toNat_sub_of_le _ _ (UInt64.le_iff_toNat_le.mpr h0)
  have hpow : 2 ^ w < 2 ^ 64 := Nat.pow_lt_pow_right (by decide) hw
  by_cases hx : (v - 1).toNat = 0
  · refine ⟨0, Nat.zero_le _, ?_, by omega⟩
    have hv : v - 1 = 0 := UInt64.toNat_inj.mp hx
    rw [nextPow2, hv]
    rfl
  · have hfull := (window_nextPow2 v).full hx (by omega)
    have hle : Nat.log2 (v - 1).toNat < w := (Nat.log2_lt hx).mpr (by omega)
    have hself : (v - 1).toNat < 2 ^ (Nat.log2 (v - 1).toNat + 1) := Nat.lt_log2_self
    have hbound : 2 ^ (Nat.log2 (v - 1).toNat + 1) ≤ 2 ^ w :=
      Nat.pow_le_pow_right (by decide) hle
    refine ⟨Nat.log2 (v - 1).toNat + 1, hle, ?_, by omega⟩
    rw [nextPow2, UInt64.toNat_add, hfull, show (1 : UInt64).toNat = 1 from rfl]
    omega

theorem nextPow2_bounds {v : UInt64} {w : Nat} (hw : w < 64) (h0 : 0 < v.toNat)
    (h : v.toNat ≤ 2 ^ w) : 0 < (nextPow2 v).toNat ∧ (nextPow2 v).toNat ≤ 2 ^ w := by
  obtain ⟨e, he, heq, -⟩ := nextPow2_eq_two_pow hw h0 h
  rw [heq]
  exact ⟨Nat.two_pow_pos e, Nat.pow_le_pow_right (by decide) he⟩

def powersFrom (n : Nat) : Set Nat := {p | p.isPowerOfTwo ∧ n ≤ p}

theorem isLeast_nextPow2 {v : UInt64} (h0 : 0 < v.toNat) (h : v.toNat ≤ 2 ^ 63) :
    IsLeast (powersFrom v.toNat) (nextPow2 v).toNat := by
  constructor
  · obtain ⟨e, -, heq, hle⟩ := nextPow2_eq_two_pow (by decide) h0 h
    exact ⟨⟨e, heq⟩, heq ▸ hle⟩
  · rintro p ⟨⟨w, rfl⟩, hp⟩
    by_cases hw : w < 64
    · exact (nextPow2_bounds hw h0 hp).2
    · have hpow : 2 ^ 64 ≤ 2 ^ w := Nat.pow_le_pow_right (by decide) (Nat.le_of_not_lt hw)
      exact (nextPow2 v).toNat_lt.le.trans hpow

/-- A power of two that is not below `n` can be stored in `w` bits. -/
def FitsIn (w n : Nat) : Prop := ∃ e < w, n ≤ 2 ^ e

theorem FitsIn.le {n : Nat} (h : FitsIn 64 n) : n ≤ 2 ^ 63 := by
  obtain ⟨e, he, hn⟩ := h
  exact hn.trans (Nat.pow_le_pow_right (by decide) (Nat.le_of_lt_succ he))

theorem isPowerOfTwo_of_and_eq_zero {n : UInt32} (h0 : n ≠ 0) (h : n &&& (n - 1) = 0) :
    n.toNat.isPowerOfTwo := by
  have hne : n.toNat ≠ 0 := fun hz => h0 (UInt32.toNat_inj.mp hz)
  have hpred : (n - 1).toNat = n.toNat - 1 :=
    UInt32.toNat_sub_of_le _ _ (UInt32.le_iff_toNat_le.mpr (Nat.pos_of_ne_zero hne))
  have hand := congrArg UInt32.toNat h
  rw [UInt32.toNat_and, hpred] at hand
  exact (Nat.and_sub_one_eq_zero_iff_isPowerOfTwo hne).mp hand

theorem isLeast_rounded {n : UInt32} (h0 : n ≠ 0) (hfits : FitsIn 32 n.toNat) :
    IsLeast (powersFrom n.toNat)
      (if n &&& (n - 1) ≠ 0 then (nextPow2 n.toUInt64).toUInt32 else n).toNat := by
  split_ifs with hpow
  · obtain ⟨w, hw, hn⟩ := hfits
    have hpos : 0 < n.toNat := Nat.pos_of_ne_zero fun hz => h0 (UInt32.toNat_inj.mp hz)
    have hle : n.toNat ≤ 2 ^ 31 := hn.trans (Nat.pow_le_pow_right (by decide) (by omega))
    have hleast := isLeast_nextPow2 (v := n.toUInt64) (by simpa using hpos) (by
      rw [UInt32.toNat_toUInt64]
      omega)
    rw [UInt32.toNat_toUInt64] at hleast
    have hbound := hleast.2 ⟨⟨31, rfl⟩, hle⟩
    rwa [UInt64.toNat_toUInt32, Nat.mod_eq_of_lt (by omega)]
  · exact ⟨⟨isPowerOfTwo_of_and_eq_zero h0 (not_not.mp hpow), Nat.le_refl _⟩, fun p hp => hp.2⟩

def alignUp (v n : UInt64) : UInt64 := (v + (n - 1)) &&& ~~~(n - 1)

theorem and_not_63 (x : UInt64) : x &&& ~~~(63 : UInt64) = (x >>> 6) <<< 6 := by
  have hmask : (~~~(63 : UInt64)).toBitVec = 18446744073709551552#64 := by decide
  have hbit : ∀ i < 64, (18446744073709551552#64).getLsbD i = decide (6 ≤ i) := by decide
  rw [← UInt64.toBitVec_inj]
  refine BitVec.eq_of_getLsbD_eq fun i hi => ?_
  rw [UInt64.toBitVec_and, hmask, BitVec.getLsbD_and, hbit i hi]
  by_cases h6 : 6 ≤ i
  · simp [hi, h6]
  · simp [h6]

theorem toNat_alignUp {v : UInt64} (h : v.toNat + 63 < 2 ^ 64) :
    (alignUp v 64).toNat = (v.toNat + 63) / 64 * 64 := by
  have hsum : (v + 63).toNat = v.toNat + 63 := by
    rw [UInt64.toNat_add]
    have : (63 : UInt64).toNat = 63 := rfl
    omega
  have hmask : alignUp v 64 = ((v + 63) >>> 6) <<< 6 := and_not_63 _
  have hsix : (6 : UInt64).toNat % 64 = 6 := by decide
  rw [hmask, UInt64.toNat_shiftLeft, UInt64.toNat_shiftRight, hsum, hsix, Nat.shiftLeft_eq,
    Nat.shiftRight_eq_div_pow]
  omega

theorem and_not_7 (x : UInt64) : x &&& ~~~(7 : UInt64) = (x >>> 3) <<< 3 := by
  have hmask : (~~~(7 : UInt64)).toBitVec = 18446744073709551608#64 := by decide
  have hbit : ∀ i < 64, (18446744073709551608#64).getLsbD i = decide (3 ≤ i) := by decide
  rw [← UInt64.toBitVec_inj]
  refine BitVec.eq_of_getLsbD_eq fun i hi => ?_
  rw [UInt64.toBitVec_and, hmask, BitVec.getLsbD_and, hbit i hi]
  by_cases h3 : 3 ≤ i
  · simp [hi, h3]
  · simp [h3]

theorem toNat_alignUp_8 (v : UInt64) :
    (alignUp v 8).toNat = (v.toNat + 7) % 2 ^ 64 / 8 * 8 := by
  have hmask : alignUp v 8 = ((v + 7) >>> 3) <<< 3 := and_not_7 _
  have hthree : (3 : UInt64).toNat % 64 = 3 := by decide
  have hseven : (7 : UInt64).toNat = 7 := rfl
  rw [hmask, UInt64.toNat_shiftLeft, UInt64.toNat_shiftRight, UInt64.toNat_add, hthree, hseven,
    Nat.shiftLeft_eq, Nat.shiftRight_eq_div_pow]
  omega

end PortableLib.TypeUtils
