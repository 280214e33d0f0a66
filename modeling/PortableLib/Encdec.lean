import Mathlib.Data.Nat.Bitwise
import Mathlib.Data.List.Basic

/-! The fixed-width encoders and decoders of `fast/encdec.h`. A quantity of `w` bytes is held in
a 64-bit word; encoders look at its low `w` bytes only. -/

namespace PortableLib.Encdec
open List

def encLE : Nat → UInt64 → List UInt8
  | 0, _ => []
  | w + 1, v => v.toUInt8 :: encLE w (v >>> 8)

def encBE (w : Nat) (v : UInt64) : List UInt8 := (encLE w v).reverse

def decLE : List UInt8 → UInt64
  | [] => 0
  | b :: bs => b.toUInt64 ||| (decLE bs <<< 8)

def decBE (p : List UInt8) : UInt64 := decLE p.reverse

def encLEu16 := encLE 2
def encLEu32 := encLE 4
def encLEu64 := encLE 8
def encBEu16 := encBE 2
def encBEu32 := encBE 4
def encBEu64 := encBE 8

def decLEu16 (p : List UInt8) : UInt64 := decLE (p.take 2)
def decLEu32 (p : List UInt8) : UInt64 := decLE (p.take 4)
def decLEu64 (p : List UInt8) : UInt64 := decLE (p.take 8)
def decBEu16 (p : List UInt8) : UInt64 := decBE (p.take 2)
def decBEu32 (p : List UInt8) : UInt64 := decBE (p.take 4)
def decBEu64 (p : List UInt8) : UInt64 := decBE (p.take 8)

def trunc (w : Nat) (v : UInt64) : UInt64 := UInt64.ofNat (v.toNat % 256 ^ w)

theorem length_encLE (w : Nat) (v : UInt64) : (encLE w v).length = w := by
  induction w generalizing v with
  | zero => rfl
  | succ w ih => rw [encLE, length_cons, ih]

theorem length_encBE (w : Nat) (v : UInt64) : (encBE w v).length = w := by
  rw [encBE, length_reverse, length_encLE]

theorem toNat_decLE_cons {b : UInt8} {bs : List UInt8} (h : (decLE bs).toNat < 2 ^ 56) :
    (decLE (b :: bs)).toNat = b.toNat + 256 * (decLE bs).toNat := by
  have hb : b.toNat < 2 ^ 8 := b.toNat_lt
  rw [decLE, UInt64.toNat_or, UInt64.toNat_shiftLeft, UInt8.toNat_toUInt64,
    show (8 : UInt64).toNat % 64 = 8 from rfl, Nat.mod_eq_of_lt, Nat.or_comm,
    ← Nat.shiftLeft_add_eq_or_of_lt hb, Nat.shiftLeft_eq]
  · omega
  · rw [Nat.shiftLeft_eq]
    omega

theorem toNat_decLE_encLE {w : Nat} (hw : w ≤ 8) (v : UInt64) :
    (decLE (encLE w v)).toNat = v.toNat % 256 ^ w := by
  induction w generalizing v with
  | zero => rw [Nat.pow_zero, Nat.mod_one]; rfl
  | succ w ih =>
    have hrest := ih (by omega) (v >>> 8)
    have hshift : (v >>> 8).toNat = v.toNat / 256 := by
      rw [UInt64.toNat_shiftRight, show (8 : UInt64).toNat % 64 = 8 from rfl,
        Nat.shiftRight_eq_div_pow]
    have hlt : (decLE (encLE w (v >>> 8))).toNat < 2 ^ 56 := by
      rw [hrest]
      refine Nat.lt_of_lt_of_le (Nat.mod_lt _ (Nat.pow_pos (by decide))) ?_
      rw [show (256 : Nat) = 2 ^ 8 from rfl, ← Nat.pow_mul]
      exact Nat.pow_le_pow_right (by decide) (by omega)
    have hpow : 256 ^ (w + 1) = 256 * 256 ^ w := Nat.pow_succ'
    rw [encLE, toNat_decLE_cons hlt, hrest, hshift, UInt64.toNat_toUInt8, hpow, Nat.mod_mul]

theorem decLE_encLE {w : Nat} (hw : w ≤ 8) (v : UInt64) : decLE (encLE w v) = trunc w v := by
  have hlt : v.toNat % 256 ^ w < 2 ^ 64 := (Nat.mod_le _ _).trans_lt v.toNat_lt
  rw [← UInt64.toNat_inj, toNat_decLE_encLE hw, trunc, UInt64.toNat_ofNat_of_lt' hlt]

theorem decBE_encBE {w : Nat} (hw : w ≤ 8) (v : UInt64) : decBE (encBE w v) = trunc w v := by
  rw [decBE, encBE, reverse_reverse, decLE_encLE hw]

theorem toNat_decLE_lt {bs : List UInt8} (h : bs.length ≤ 8) :
    (decLE bs).toNat < 256 ^ bs.length := by
  induction bs with
  | nil => exact Nat.one_pos
  | cons b bs ih =>
    have hlen : bs.length ≤ 7 := Nat.le_of_succ_le_succ h
    have hrest := ih (hlen.trans (by decide))
    have hpow : 256 ^ bs.length ≤ 256 ^ 7 := Nat.pow_le_pow_right (by decide) hlen
    have hb : b.toNat < 256 := b.toNat_lt
    rw [toNat_decLE_cons (by omega), length_cons, Nat.pow_succ]
    omega

theorem toNat_decLE_append {as bs : List UInt8} (h : as.length + bs.length ≤ 8) :
    (decLE (as ++ bs)).toNat = (decLE as).toNat + 256 ^ as.length * (decLE bs).toNat := by
  induction as with
  | nil =>
    rw [nil_append, length_nil, Nat.pow_zero, Nat.one_mul]
    exact (Nat.zero_add _).symm
  | cons a as ih =>
    rw [length_cons] at h
    have hall : (as ++ bs).length ≤ 7 := by
      rw [length_append]
      omega
    have hpow : ∀ {n}, n ≤ 7 → 256 ^ n ≤ 256 ^ 7 := fun hn => Nat.pow_le_pow_right (by decide) hn
    have hlt := (toNat_decLE_lt (hall.trans (by decide))).trans_le (hpow hall)
    have hlt' := (toNat_decLE_lt (show as.length ≤ 8 by omega)).trans_le (hpow (by omega))
    rw [cons_append, toNat_decLE_cons hlt, toNat_decLE_cons hlt', ih (by omega), length_cons,
      Nat.pow_succ', Nat.mul_add, Nat.mul_assoc, Nat.add_assoc]

end PortableLib.Encdec
