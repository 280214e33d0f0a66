import Mathlib.Algebra.Order.BigOperators.Group.List
import Mathlib.Data.Nat.ModEq
import Mathlib.Tactic.Linarith
import Mathlib.Tactic.Ring

/-! The 32-bit checksum of 16-bit words: running sums modulo 65535, with the reductions left out for
up to 360 words at a time. -/

namespace PortableLib.Fletcher
open List

def running : Nat → List Nat → Nat
  | _, [] => 0
  | a, w :: ws => (a + w) + running (a + w) ws

theorem running_append (a : Nat) (us ws : List Nat) :
    running a (us ++ ws) = running a us + running (a + us.sum) ws := by
  induction us generalizing a with
  | nil => simp [running]
  | cons u us ih =>
    rw [cons_append, running, running, ih, sum_cons, ← Nat.add_assoc a u us.sum,
      Nat.add_assoc (a + u)]

theorem running_modEq {m a a' : Nat} (h : a ≡ a' [MOD m]) (ws : List Nat) :
    running a ws ≡ running a' ws [MOD m] := by
  induction ws generalizing a a' with
  | nil => exact Nat.ModEq.refl 0
  | cons w ws ih =>
    have hw : a + w ≡ a' + w [MOD m] := h.add_right w
    exact hw.add (ih hw)

theorem two_mul_running_le {m : Nat} (a : Nat) {ws : List Nat} (h : ∀ w ∈ ws, w ≤ m) :
    2 * running a ws ≤ 2 * ws.length * a + m * (ws.length * (ws.length + 1)) := by
  induction ws generalizing a with
  | nil => exact Nat.zero_le _
  | cons w ws ih =>
    obtain ⟨hw, hws⟩ := forall_mem_cons.mp h
    have hrest := ih (a + w) hws
    have hscale : 2 * (ws.length + 1) * w ≤ 2 * (ws.length + 1) * m := Nat.mul_le_mul_left _ hw
    rw [running, length_cons]
    nlinarith only [hrest, hscale]

/-- `(x & 0xffff) + (x >> 16)` -/
def fold16 (x : Nat) : Nat := x % 65536 + x / 65536

theorem fold16_modEq (x : Nat) : fold16 x ≡ x [MOD 65535] := by
  have hx : x = fold16 x + 65535 * (x / 65536) := by
    unfold fold16
    omega
  calc fold16 x ≡ fold16 x + 65535 * (x / 65536) [MOD 65535] := by
        simp [Nat.ModEq]
    _ = x := hx.symm

structure Sums where
  sum1 : UInt32
  sum2 : UInt32
  wrapped : Bool

def wraps (a b : UInt32) : Bool := 2 ^ 32 ≤ a.toNat + b.toNat

def add (s : Sums) (d : UInt16) : Sums :=
  let sum1 := s.sum1 + d.toUInt32
  { sum1 := sum1
    sum2 := s.sum2 + sum1
    wrapped := s.wrapped || wraps s.sum1 d.toUInt32 || wraps s.sum2 sum1 }

def reduce (s : Sums) : Sums where
  sum1 := (s.sum1 &&& (0xffff : UInt32)) + (s.sum1 >>> (16 : UInt32))
  sum2 := (s.sum2 &&& (0xffff : UInt32)) + (s.sum2 >>> (16 : UInt32))
  wrapped := s.wrapped || wraps (s.sum1 &&& 0xffff) (s.sum1 >>> 16) ||
    wraps (s.sum2 &&& 0xffff) (s.sum2 >>> 16)

def blocks (s : Sums) (data : List UInt16) : Sums :=
  match data with
  | [] => s
  | d :: ds => blocks (reduce (((d :: ds).take 360).foldl add s)) ((d :: ds).drop 360)
termination_by data.length
decreasing_by simp only [length_drop, length_cons]; omega

def sums (data : List UInt16) : Sums := reduce (blocks ⟨0xffff, 0xffff, false⟩ data)

def fletcher32 (data : List UInt16) : UInt32 := ((sums data).sum2 <<< 16) ||| (sums data).sum1

def words (data : List UInt16) : List Nat := data.map UInt16.toNat

theorem wraps_of_lt {a b : UInt32} (h : a.toNat + b.toNat < 2 ^ 32) :
    wraps a b = false ∧ (a + b).toNat = a.toNat + b.toNat := by
  rw [UInt32.toNat_add, Nat.mod_eq_of_lt h]
  exact ⟨decide_eq_false (Nat.not_le.mpr h), rfl⟩

theorem words_le (data : List UInt16) : ∀ w ∈ words data, w ≤ 65535 := by
  intro w hw
  obtain ⟨d, -, rfl⟩ := mem_map.mp hw
  exact Nat.le_of_lt_succ d.toNat_lt

theorem foldl_add (s : Sums) (data : List UInt16)
    (h1 : s.sum1.toNat + (words data).sum < 2 ^ 32)
    (h2 : s.sum2.toNat + running s.sum1.toNat (words data) < 2 ^ 32) :
    (data.foldl add s).sum1.toNat = s.sum1.toNat + (words data).sum ∧
      (data.foldl add s).sum2.toNat = s.sum2.toNat + running s.sum1.toNat (words data) ∧
      (data.foldl add s).wrapped = s.wrapped := by
  induction data generalizing s with
  | nil => exact ⟨rfl, rfl, rfl⟩
  | cons d ds ih =>
    rw [words, map_cons, ← words, sum_cons, ← Nat.add_assoc] at h1
    rw [words, map_cons, ← words, running, ← Nat.add_assoc] at h2
    have hd : d.toUInt32.toNat = d.toNat := UInt16.toNat_toUInt32 d
    obtain ⟨hw1, hs1⟩ := wraps_of_lt (a := s.sum1) (b := d.toUInt32) (by rw [hd]; omega)
    rw [hd] at hs1
    obtain ⟨hw2, hs2⟩ := wraps_of_lt (a := s.sum2) (b := s.sum1 + d.toUInt32) (by rw [hs1]; omega)
    rw [hs1] at hs2
    have hadd1 : (add s d).sum1.toNat = s.sum1.toNat + d.toNat := hs1
    have hadd2 : (add s d).sum2.toNat = s.sum2.toNat + (s.sum1.toNat + d.toNat) := hs2
    have haddw : (add s d).wrapped = s.wrapped := by simp only [add, hw1, hw2, Bool.or_false]
    obtain ⟨ih1, ih2, ihw⟩ := ih (add s d) (by rw [hadd1]; exact h1)
      (by rw [hadd1, hadd2]; exact h2)
    rw [hadd1] at ih1 ih2
    rw [hadd2] at ih2
    rw [foldl_cons, words, map_cons, ← words, sum_cons, running, ← Nat.add_assoc, ← Nat.add_assoc]
    exact ⟨ih1, ih2, ihw.trans haddw⟩

theorem halves (x : UInt32) :
    wraps (x &&& 0xffff) (x >>> 16) = false ∧
      ((x &&& (0xffff : UInt32)) + (x >>> (16 : UInt32))).toNat = fold16 x.toNat := by
  have hlow : (x &&& 0xffff).toNat = x.toNat % 65536 := by
    rw [UInt32.toNat_and]
    exact Nat.and_two_pow_sub_one_eq_mod x.toNat 16
  have hhigh : (x >>> 16).toNat = x.toNat / 65536 := by
    rw [UInt32.toNat_shiftRight, Nat.shiftRight_eq_div_pow]
    rfl
  have hx := x.toNat_lt
  have hsum := wraps_of_lt (a := x &&& 0xffff) (b := x >>> 16) (by omega)
  rwa [hlow, hhigh] at hsum

theorem reduce_spec (s : Sums) :
    (reduce s).sum1.toNat = fold16 s.sum1.toNat ∧ (reduce s).sum2.toNat = fold16 s.sum2.toNat ∧
      (reduce s).wrapped = s.wrapped := by
  obtain ⟨hw1, h1⟩ := halves s.sum1
  obtain ⟨hw2, h2⟩ := halves s.sum2
  refine ⟨h1, h2, ?_⟩
  simp only [reduce, hw1, hw2, Bool.or_false]

structure Reduced (s : Sums) : Prop where
  sum1_le : s.sum1.toNat ≤ 65535 + 360
  sum2_le : s.sum2.toNat ≤ 65535 + 65535
  wrapped : s.wrapped = false

theorem Reduced.block {s : Sums} (h : Reduced s) (data : List UInt16)
    (hlen : data.length ≤ 360) :
    Reduced (reduce (data.foldl add s)) ∧
      (reduce (data.foldl add s)).sum1.toNat ≡ s.sum1.toNat + (words data).sum [MOD 65535] ∧
      (reduce (data.foldl add s)).sum2.toNat ≡
        s.sum2.toNat + running s.sum1.toNat (words data) [MOD 65535] := by
  have hwords : (words data).length = data.length := length_map _
  have hsum : (words data).sum ≤ 360 * 65535 := by
    calc (words data).sum ≤ (words data).length • 65535 := sum_le_card_nsmul _ _ (words_le data)
      _ ≤ 360 * 65535 := by
        rw [hwords]
        exact Nat.mul_le_mul_right 65535 hlen
  have hrun : 2 * running s.sum1.toNat (words data) ≤
      2 * 360 * (65535 + 360) + 65535 * (360 * 361) := by
    refine (two_mul_running_le s.sum1.toNat (words_le data)).trans ?_
    rw [hwords]
    gcongr
    · exact h.sum1_le
    · omega
  have hle1 := h.sum1_le
  have hle2 := h.sum2_le
  obtain ⟨h1, h2, hw⟩ := foldl_add s data (by omega) (by omega)
  obtain ⟨hr1, hr2, hrw⟩ := reduce_spec (data.foldl add s)
  refine ⟨⟨?_, ?_, ?_⟩, ?_, ?_⟩
  · rw [hr1, h1, fold16]
    omega
  · have := (data.foldl add s).sum2.toNat_lt
    rw [hr2, fold16]
    omega
  · rw [hrw, hw, h.wrapped]
  · rw [hr1, h1]
    exact fold16_modEq _
  · rw [hr2, h2]
    exact fold16_modEq _

theorem Reduced.blocks {s : Sums} (h : Reduced s) (data : List UInt16) :
    Reduced (blocks s data) ∧
      (blocks s data).sum1.toNat ≡ s.sum1.toNat + (words data).sum [MOD 65535] ∧
      (blocks s data).sum2.toNat ≡
        s.sum2.toNat + running s.sum1.toNat (words data) [MOD 65535] := by
  induction s, data using blocks.induct with
  | case1 s =>
    rw [Fletcher.blocks]
    exact ⟨h, Nat.ModEq.refl _, Nat.ModEq.refl _⟩
  | case2 s d ds ih =>
    obtain ⟨hb, hb1, hb2⟩ := h.block ((d :: ds).take 360) (by rw [length_take]; omega)
    obtain ⟨hr, hr1, hr2⟩ := ih hb
    have hsplit : words (d :: ds) = words ((d :: ds).take 360) ++ words ((d :: ds).drop 360) := by
      rw [words, words, words, ← map_append, take_append_drop]
    rw [Fletcher.blocks, hsplit, sum_append, running_append]
    refine ⟨hr, hr1.trans ?_, hr2.trans ?_⟩
    · rw [← Nat.add_assoc]
      exact hb1.add_right _
    · rw [← Nat.add_assoc]
      exact hb2.add (running_modEq hb1 _)

theorem Reduced.sums (data : List UInt16) :
    (sums data).wrapped = false ∧ (sums data).sum1.toNat < 65536 ∧ (sums data).sum2.toNat < 65536 ∧
      (sums data).sum1.toNat ≡ (words data).sum [MOD 65535] ∧
      (sums data).sum2.toNat ≡ running 0 (words data) [MOD 65535] := by
  have hstart : Reduced ⟨0xffff, 0xffff, false⟩ := ⟨by decide, by decide, rfl⟩
  obtain ⟨⟨hle1, hle2, hw⟩, h1, h2⟩ := hstart.blocks data
  obtain ⟨hr1, hr2, hrw⟩ := reduce_spec (Fletcher.blocks ⟨0xffff, 0xffff, false⟩ data)
  have hffff : (0xffff : UInt32).toNat ≡ 0 [MOD 65535] := by decide
  rw [Fletcher.sums, hr1, hr2, hrw]
  refine ⟨hw, by unfold fold16; omega, by unfold fold16; omega, ?_, ?_⟩
  · refine (fold16_modEq _).trans (h1.trans ?_)
    simpa only [Nat.zero_add] using hffff.add_right (words data).sum
  · refine (fold16_modEq _).trans (h2.trans ?_)
    simpa only [Nat.zero_add] using hffff.add (running_modEq hffff (words data))

/-- No addition wraps, and the two halves are the Fletcher sums modulo 65535. -/
theorem fletcher32_spec (data : List UInt16) :
    (sums data).wrapped = false ∧
      (sums data).sum1.toNat < 2 ^ 16 ∧ (sums data).sum2.toNat < 2 ^ 16 ∧
      (fletcher32 data).toNat % 2 ^ 16 = (sums data).sum1.toNat ∧
      (fletcher32 data).toNat / 2 ^ 16 = (sums data).sum2.toNat ∧
      (fletcher32 data).toNat % 2 ^ 16 ≡ (words data).sum [MOD 65535] ∧
      (fletcher32 data).toNat / 2 ^ 16 ≡ running 0 (words data) [MOD 65535] := by
  obtain ⟨hw, hlt1, hlt2, h1, h2⟩ := Reduced.sums data
  have hvalue :
      (fletcher32 data).toNat = (sums data).sum2.toNat * 2 ^ 16 + (sums data).sum1.toNat := by
    have hshift : ((sums data).sum2 <<< 16).toNat = (sums data).sum2.toNat <<< 16 := by
      rw [UInt32.toNat_shiftLeft, Nat.shiftLeft_eq]
      change (sums data).sum2.toNat * 2 ^ 16 % 2 ^ 32 = _
      rw [Nat.shiftLeft_eq, Nat.mod_eq_of_lt (by omega)]
    rw [fletcher32, UInt32.toNat_or, hshift, ← Nat.shiftLeft_add_eq_or_of_lt hlt1, Nat.shiftLeft_eq]
  have hlow : (fletcher32 data).toNat % 2 ^ 16 = (sums data).sum1.toNat := by omega
  have hhigh : (fletcher32 data).toNat / 2 ^ 16 = (sums data).sum2.toNat := by omega
  rw [hlow, hhigh]
  exact ⟨hw, hlt1, hlt2, rfl, rfl, h1, h2⟩

end PortableLib.Fletcher
