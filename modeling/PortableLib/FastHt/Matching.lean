import PortableLib.FastHt.Fingerprint
import Mathlib.Data.Fintype.Pi
import Mathlib.Data.Nat.Bitwise
import Mathlib.Tactic.IntervalCases

/-! The bytes and the control bits of a fingerprint word after a store and after a clear, and
the two matchers: both find every byte that is equal to the one sought. -/

namespace PortableLib.FastHt

section Words

theorem toNat_byteAt (w : UInt64) (i : Fin 8) :
    (byteAt w i).toNat = w.toNat / 2 ^ (8 * i.val) % 2 ^ 8 := by
  have hi : (8 * i.val).toUInt64.toNat % 64 = 8 * i.val := by
    revert i
    decide
  rw [byteAt, UInt64.toNat_toUInt8, UInt64.toNat_shiftRight, hi, Nat.shiftRight_eq_div_pow]

theorem byteAt_or (a b : UInt64) (i : Nat) : byteAt (a ||| b) i = byteAt a i ||| byteAt b i := by
  rw [byteAt, UInt64.shiftRight_or, UInt64.toUInt8_or, byteAt, byteAt]

theorem byteAt_and (a b : UInt64) (i : Nat) : byteAt (a &&& b) i = byteAt a i &&& byteAt b i := by
  rw [byteAt, UInt64.shiftRight_and, UInt64.toUInt8_and, byteAt, byteAt]

theorem byteAt_xor (a b : UInt64) (i : Nat) : byteAt (a ^^^ b) i = byteAt a i ^^^ byteAt b i := by
  rw [byteAt, UInt64.shiftRight_xor, UInt64.toUInt8_xor, byteAt, byteAt]

theorem byteAt_shifted (b : UInt8) (slot i : Fin 8) :
    byteAt (b.toUInt64 <<< (8 * slot.val).toUInt64) i = if i = slot then b else 0 := by
  have hb : b.toNat < 2 ^ 8 := b.toNat_lt
  have hslot : (8 * slot.val).toUInt64.toNat % 64 = 8 * slot.val := by
    revert slot
    decide
  have hword : (b.toUInt64 <<< (8 * slot.val).toUInt64).toNat = b.toNat * 2 ^ (8 * slot.val) := by
    rw [UInt64.toNat_shiftLeft, UInt8.toNat_toUInt64, hslot, Nat.shiftLeft_eq]
    apply Nat.mod_eq_of_lt
    calc b.toNat * 2 ^ (8 * slot.val)
      _ < 2 ^ 8 * 2 ^ (8 * slot.val) := Nat.mul_lt_mul_of_pos_right hb (Nat.two_pow_pos _)
      _ = 2 ^ (8 + 8 * slot.val) := (Nat.pow_add _ _ _).symm
      _ ≤ 2 ^ 64 := Nat.pow_le_pow_right (by decide) (by omega)
  apply UInt8.toNat_inj.mp
  rw [toNat_byteAt, hword]
  rcases lt_trichotomy i.val slot.val with h | h | h
  · obtain ⟨d, hd⟩ := Nat.exists_eq_add_of_lt h
    rw [if_neg (by omega), hd, show 8 * (i.val + d + 1) = 8 * d + 8 + 8 * i.val by omega,
      Nat.pow_add, ← Nat.mul_assoc, Nat.mul_div_cancel _ (Nat.two_pow_pos _), Nat.pow_add,
      ← Nat.mul_assoc, Nat.mul_mod_left]
    rfl
  · rw [if_pos (Fin.ext h), h, Nat.mul_div_cancel _ (Nat.two_pow_pos _), Nat.mod_eq_of_lt hb]
  · have hlt : b.toNat * 2 ^ (8 * slot.val) < 2 ^ (8 * i.val) := by
      calc b.toNat * 2 ^ (8 * slot.val)
        _ < 2 ^ 8 * 2 ^ (8 * slot.val) := Nat.mul_lt_mul_of_pos_right hb (Nat.two_pow_pos _)
        _ = 2 ^ (8 + 8 * slot.val) := (Nat.pow_add _ _ _).symm
        _ ≤ 2 ^ (8 * i.val) := Nat.pow_le_pow_right (by decide) (by omega)
    rw [if_neg (by omega), Nat.div_eq_of_lt hlt]
    rfl

theorem byteAt_byte (b : UInt8) (i : Fin 8) : byteAt b.toUInt64 i = if i = 0 then b else 0 := by
  have hzero : (8 * (0 : Fin 8).val).toUInt64 = 0 := rfl
  have hshift := byteAt_shifted b 0 i
  rwa [hzero, UInt64.shiftLeft_zero] at hshift

theorem byteAt_top (c : UInt8) (i : Fin 8) :
    byteAt (c.toUInt64 <<< 56) i = if i = 7 then c else 0 := byteAt_shifted c 7 i

theorem byteAt_splat (b : UInt8) (i : Fin 7) : byteAt (0x0101010101010101 * b.toUInt64) i = b := by
  have hb : b.toNat < 2 ^ 8 := b.toNat_lt
  have hword : (0x0101010101010101 * b.toUInt64).toNat = 0x0101010101010101 * b.toNat := by
    rw [UInt64.toNat_mul, UInt8.toNat_toUInt64]
    exact Nat.mod_eq_of_lt (show 0x0101010101010101 * b.toNat < 2 ^ 64 by omega)
  apply UInt8.toNat_inj.mp
  have hbyte := toNat_byteAt (0x0101010101010101 * b.toUInt64) i.castSucc
  rw [hword, Fin.val_castSucc] at hbyte
  rw [hbyte]
  obtain ⟨i, hi⟩ := i
  have hdiv : 0x0101010101010101 * b.toNat / 2 ^ (8 * i) =
      0x0101010101010101 / 2 ^ (8 * i) * b.toNat := by
    interval_cases i <;> omega
  dsimp only
  rw [hdiv]
  interval_cases i <;> omega

theorem byteAt_fpBytes (fp : UInt64) (i : Fin 7) : byteAt (fpBytes fp) i = byteAt fp i := by
  have hmask : byteAt (((1 : UInt64) <<< 56) - 1) i = 0xff := by
    revert i
    decide
  rw [fpBytes, byteAt_and, hmask]
  exact UInt8.and_neg_one

theorem control_eq (w : UInt64) : control w = byteAt w 7 &&& 0x7f := by
  rw [control, UInt64.toUInt8_and, UInt8.and_comm]
  rfl

theorem control_or (a b : UInt64) : control (a ||| b) = control a ||| control b := by
  rw [control_eq, control_eq, control_eq, byteAt_or]
  apply UInt8.toBitVec_inj.mp
  exact BitVec.and_or_distrib_right

theorem control_shifted (b : UInt8) (slot : Fin 7) :
    control (b.toUInt64 <<< (8 * slot.val).toUInt64) = 0 := by
  have hne : 7 ≠ slot.castSucc := (Fin.castSucc_lt_last slot).ne'
  have hshift := byteAt_shifted b slot.castSucc 7
  rw [Fin.val_castSucc, if_neg hne] at hshift
  rw [control_eq]
  exact (congrArg (· &&& 0x7f) hshift).trans UInt8.zero_and

theorem control_toUInt64 (b : UInt8) : control b.toUInt64 = 0 := by
  have hzero : (8 * (0 : Fin 7).val).toUInt64 = 0 := rfl
  have hshift := control_shifted b 0
  rwa [hzero, UInt64.shiftLeft_zero] at hshift

theorem control_top (c : UInt8) : control (c.toUInt64 <<< 56) = c &&& 0x7f := by
  rw [control_eq]
  exact congrArg (· &&& 0x7f) (byteAt_top c 7)

theorem control_and_low (fp : UInt64) : control fp &&& 0x7f = control fp := by
  rw [control_eq, UInt8.and_assoc, UInt8.and_self]

theorem and_ff_eq (k : UInt64) : k &&& 0xff = k.toUInt8.toUInt64 := by
  apply UInt64.toNat_inj.mp
  rw [UInt64.toNat_and, UInt8.toNat_toUInt64, UInt64.toNat_toUInt8]
  exact Nat.and_two_pow_sub_one_eq_mod k.toNat 8

theorem h2_eq (fp : UInt64) : h2 fp = (byteAt fp 0).toUInt64 := by
  rw [h2, and_ff_eq, byteAt, show (8 * 0 : Nat).toUInt64 = 0 from rfl, UInt64.shiftRight_zero]

theorem byteAt_updateFp (fp k : UInt64) (slot i : Fin 7) :
    byteAt (updateFp fp k slot) i =
      (if i = slot then k.toUInt8 else 0) ||| (if i = 0 then byteAt fp 0 else 0) := by
  have hne : i.castSucc ≠ 7 := (Fin.castSucc_lt_last i).ne
  have htop (c : UInt8) := (byteAt_top c i.castSucc).trans (if_neg hne)
  have hbyte (b : UInt8) := byteAt_byte b i.castSucc
  have hshift (b : UInt8) := byteAt_shifted b slot.castSucc i.castSucc
  simp only [Fin.val_castSucc, Fin.castSucc_inj, Fin.castSucc_eq_zero_iff] at htop hbyte hshift
  rw [updateFp, byteAt_or, byteAt_or, htop, and_ff_eq, hshift,
    h2_eq, hbyte, UInt8.or_zero]

theorem byteAt_clearFp (fp : UInt64) (slot i : Fin 7) :
    byteAt (clearFp fp slot) i = if i = 0 ∧ slot ≠ 0 then byteAt fp 0 else 0 := by
  have hmask : byteAt (~~~((0xff : UInt64) <<< (8 * slot.val).toUInt64)) i =
      if i = slot then 0 else 0xff := by
    revert slot i
    decide
  have hne : i.castSucc ≠ 7 := (Fin.castSucc_lt_last i).ne
  have htop (c : UInt8) := (byteAt_top c i.castSucc).trans (if_neg hne)
  have hbyte (b : UInt8) := byteAt_byte b i.castSucc
  simp only [Fin.val_castSucc, Fin.castSucc_eq_zero_iff] at htop hbyte
  rw [clearFp, byteAt_or, htop, UInt8.or_zero, byteAt_and,
    h2_eq, hbyte, hmask]
  rcases eq_or_ne i 0 with rfl | hi
  · rcases eq_or_ne slot 0 with rfl | hslot
    · simp
    · rw [if_pos rfl, if_neg hslot.symm, if_pos ⟨rfl, hslot⟩]
      exact UInt8.and_neg_one
  · rw [if_neg hi, UInt8.zero_and, if_neg fun h => hi h.1]

theorem control_updateFp (fp k : UInt64) (slot : Fin 7) :
    control (updateFp fp k slot) = control fp &&& ~~~(1 <<< slot.val.toUInt8) := by
  rw [updateFp, control_or, control_or, control_top, and_ff_eq, control_shifted, h2_eq,
    control_toUInt64, UInt8.or_zero, UInt8.zero_or, UInt8.and_comm (control fp), UInt8.and_assoc,
    control_and_low]

theorem control_clearFp (fp : UInt64) (slot : Fin 7) :
    control (clearFp fp slot) = control fp ||| (1 <<< slot.val.toUInt8) := by
  have hlow (m : UInt64) : control (h2 fp &&& m) = 0 := by
    have hzero := control_toUInt64 (byteAt fp 0)
    rw [control_eq] at hzero
    rw [h2_eq, control_eq, byteAt_and, UInt8.and_assoc, UInt8.and_comm (byteAt m 7),
      ← UInt8.and_assoc, hzero, UInt8.zero_and]
  have hbit : (1 <<< slot.val.toUInt8 : UInt8) &&& (0x7f : UInt8) = 1 <<< slot.val.toUInt8 := by
    revert slot
    decide
  have hdistrib (c d : UInt8) : (c ||| d) &&& 0x7f = c &&& 0x7f ||| d &&& 0x7f := by
    apply UInt8.toBitVec_inj.mp
    exact BitVec.and_or_distrib_right
  rw [clearFp, control_or, control_top, hlow, UInt8.zero_or, hdistrib, control_and_low, hbit]

theorem testBit_one_shiftLeft (slot i : Fin 7) :
    (1 <<< slot.val.toUInt8 : UInt8).toNat.testBit i = decide (i = slot) := by
  revert slot i
  decide

theorem testBit_complement (c : UInt8) (i : Fin 7) :
    (~~~c).toNat.testBit i = !c.toNat.testBit i := by
  have hi : i.val < 8 := by omega
  rw [← UInt8.toNat_toBitVec, UInt8.toBitVec_not, BitVec.testBit_toNat, BitVec.getLsbD_not,
    ← BitVec.testBit_toNat, UInt8.toNat_toBitVec, decide_eq_true hi, Bool.true_and]

theorem testBit_control_updateFp (fp k : UInt64) (slot i : Fin 7) :
    (control (updateFp fp k slot)).toNat.testBit i =
      (decide (i ≠ slot) && (control fp).toNat.testBit i) := by
  rw [control_updateFp, UInt8.toNat_and, Nat.testBit_and, testBit_complement,
    testBit_one_shiftLeft, Bool.and_comm, decide_not]

theorem testBit_control_clearFp (fp : UInt64) (slot i : Fin 7) :
    (control (clearFp fp slot)).toNat.testBit i =
      (decide (i = slot) || (control fp).toNat.testBit i) := by
  rw [control_clearFp, UInt8.toNat_or, Nat.testBit_or, testBit_one_shiftLeft, Bool.or_comm]

end Words

section Matchers

theorem testBit_foldl_simd {P : Nat → Prop} [DecidablePred P] {n : Nat} (hn : n ≤ 7) (i : Fin 7) :
    ((List.range n).foldl
      (fun (acc : UInt8) j => if P j then acc ||| (1 <<< j.toUInt8) else acc) 0).toNat.testBit i =
      (decide (i.val < n) && decide (P i)) := by
  induction n with
  | zero => simp
  | succ n ih =>
    rw [List.range_succ, List.foldl_append, List.foldl_cons, List.foldl_nil]
    have hbit : (1 <<< n.toUInt8 : UInt8).toNat.testBit i = decide (i.val = n) := by
      rw [testBit_one_shiftLeft ⟨n, hn⟩ i]
      exact decide_eq_decide.mpr Fin.ext_iff
    have hih := ih (Nat.le_of_succ_le hn)
    split_ifs with hP
    · rw [UInt8.toNat_or, Nat.testBit_or, hih, hbit]
      rcases eq_or_ne i.val n with hi | hi
      · simp [hi, hP]
      · have : i.val < n ↔ i.val < n + 1 := by omega
        simp [hi, this]
    · rw [hih]
      rcases eq_or_ne i.val n with hi | hi
      · simp [hi, hP]
      · have : i.val < n ↔ i.val < n + 1 := by omega
        simp [this]

theorem testBit_findMatchesSimd (w : UInt64) (b : UInt8) (i : Fin 7) :
    (findMatchesSimd w b).toNat.testBit i = decide (byteAt w i = b) := by
  rw [findMatchesSimd, testBit_foldl_simd (le_refl 7), decide_eq_true i.isLt, Bool.true_and]

def spread : List Bool → Nat
  | [] => 0
  | b :: bs => b.toNat * 2 ^ 7 + 2 ^ 8 * spread bs

theorem and_spread (n a : Nat) :
    a &&& spread (List.replicate n true) =
      spread (List.ofFn fun j : Fin n => a.testBit (8 * j.val + 7)) := by
  induction n generalizing a with
  | zero => simp [spread]
  | succ n ih =>
    have hlow : (a &&& spread (List.replicate (n + 1) true)) % 2 ^ 8 =
        (a.testBit 7).toNat * 2 ^ 7 := by
      have hmask : spread (List.replicate (n + 1) true) % 2 ^ 8 = 2 ^ 7 := by
        simp only [List.replicate_succ, spread, Nat.add_mul_mod_self_left]
        decide
      rw [Nat.and_mod_two_pow, hmask, Nat.and_two_pow, Nat.testBit_mod_two_pow]
      rfl
    have hhigh : (a &&& spread (List.replicate (n + 1) true)) / 2 ^ 8 =
        spread (List.ofFn fun j : Fin n => a.testBit (8 * j.succ.val + 7)) := by
      have hmask : spread (List.replicate (n + 1) true) / 2 ^ 8 =
          spread (List.replicate n true) := by
        simp only [List.replicate_succ, spread, Bool.toNat_true]
        omega
      rw [Nat.and_div_two_pow, hmask, ih]
      congr
      funext j
      rw [Nat.testBit_div_two_pow, Fin.val_succ]
      congr 1
    rw [← Nat.mod_add_div (a &&& _) (2 ^ 8), hlow, hhigh, List.ofFn_succ]
    rfl

set_option maxRecDepth 4000 in
theorem testBit_gather_spread : ∀ (e : Fin 8 → Bool) (i : Fin 7),
    ((0x7f : UInt64) &&&
      ((UInt64.ofNat (spread (List.ofFn e)) * 0x0002040810204081) >>> 56)).toUInt8.toNat.testBit i =
      e i.castSucc := by
  decide

theorem testBit_gather (x : UInt64) (i : Fin 7) :
    ((0x7f : UInt64) &&&
      (((x &&& 0x8080808080808080) * 0x0002040810204081) >>> 56)).toUInt8.toNat.testBit i =
      x.toNat.testBit (8 * i.val + 7) := by
  have hmask : (0x8080808080808080 : UInt64) = UInt64.ofNat (spread (List.replicate 8 true)) := by
    decide
  have hx : x &&& 0x8080808080808080 =
      UInt64.ofNat (spread (List.ofFn fun j : Fin 8 => x.toNat.testBit (8 * j.val + 7))) := by
    rw [← and_spread, hmask, ← UInt64.ofNat_toNat (x := x), ← UInt64.ofNat_and,
      UInt64.ofNat_toNat]
  rw [hx, testBit_gather_spread]
  rfl

theorem borrow_of_zero_byte {m i : Nat} (hi : i < 7) (h : m / 2 ^ (8 * i) % 2 ^ 8 = 0) :
    (2 ^ 64 - 0x0101010101010101 + m) % 2 ^ 64 / 2 ^ (8 * i + 7) % 2 = 1 := by
  interval_cases i <;> omega

theorem testBit_findMatchesSoftware {w : UInt64} {b : UInt8} {i : Fin 7} (h : byteAt w i = b) :
    (findMatchesSoftware w b).toNat.testBit i = true := by
  have hzero : byteAt (w ^^^ 0x0101010101010101 * b.toUInt64) i = 0 := by
    rw [byteAt_xor, byteAt_splat, h, UInt8.xor_self]
  rw [findMatchesSoftware, testBit_gather]
  generalize w ^^^ 0x0101010101010101 * b.toUInt64 = m at hzero ⊢
  have hbyte : m.toNat / 2 ^ (8 * i.val) % 2 ^ 8 = 0 := by
    have hnat := toNat_byteAt m i.castSucc
    rw [Fin.val_castSucc, hzero] at hnat
    exact hnat.symm
  rw [UInt64.toNat_and, Nat.testBit_and, Bool.and_eq_true]
  constructor
  · rw [UInt64.toNat_sub, Nat.testBit_eq_decide_div_mod_eq, decide_eq_true_eq]
    exact borrow_of_zero_byte i.isLt hbyte
  · have hclear : m.toNat.testBit (8 * i.val + 7) = false := by
      have h7 : (m.toNat / 2 ^ (8 * i.val) % 2 ^ 8).testBit 7 = false := by rw [hbyte]; rfl
      rw [Nat.testBit_mod_two_pow, Nat.testBit_div_two_pow, Nat.add_comm] at h7
      simpa using h7
    have hi : 8 * i.val + 7 < 64 := by omega
    rw [← UInt64.toNat_toBitVec, UInt64.toBitVec_not, BitVec.testBit_toNat, BitVec.getLsbD_not,
      ← BitVec.testBit_toNat, UInt64.toNat_toBitVec, hclear, decide_eq_true hi]
    rfl

theorem testBit_findMatches (mt : Matcher) {w : UInt64} {b : UInt8} {i : Fin 7}
    (h : byteAt w i = b) : (findMatches mt w b).toNat.testBit i = true := by
  cases mt with
  | software => exact testBit_findMatchesSoftware h
  | simd => rw [findMatches, testBit_findMatchesSimd, decide_eq_true h]

end Matchers
end PortableLib.FastHt
