import Mathlib.Data.Finite.Prod
import PortableLib.Lib.Scramble

/-! The generators of `src/prng`. A step of any of them can be undone, so that a run comes back to
its seed and never gets stuck on a part of the way. -/

namespace PortableLib.Prng
open Function Scramble

def splitmix64 (x : UInt64) : UInt64 × UInt64 :=
  let x := x + 0x9E3779B97F4A7C15
  let z := x
  let z := z ^^^ ((z >>> 30) * 0xBF58476D1CE4E5B9)
  let z := z ^^^ ((z >>> 27) * 0x94D049BB133111EB)
  (x, z ^^^ (z >>> 31))

def rotl (x k : UInt64) : UInt64 := x <<< k ||| x >>> (64 - k)

structure Xs64star where
  v : UInt64

structure Xs128plus where
  v0 : UInt64
  v1 : UInt64

structure Xs1024star where
  v : Fin 16 → UInt64
  p : Fin 16

theorem land_fifteen_lt (n : Nat) : n &&& 15 < 16 := Nat.lt_succ_of_le Nat.and_le_right

def low4 (n : Nat) : Fin 16 := ⟨n &&& 15, land_fifteen_lt n⟩

def xs64starInit (makeseed seed : UInt64) : Xs64star :=
  ⟨if seed ≠ 0 then (splitmix64 seed).2 else makeseed⟩

def xs64starU64 (s : Xs64star) : Xs64star × UInt64 :=
  let v := s.v
  let v := v ^^^ v >>> 12
  let v := v ^^^ v <<< 25
  let v := v ^^^ v <<< 27
  (⟨v⟩, v * 2685821657736338717)

def xs128plusInit (makeseed seed : UInt64) : Xs128plus :=
  let z := xs64starInit makeseed seed
  let r := xs64starU64 z
  ⟨r.2, (xs64starU64 r.1).2⟩

def xs128plusU64 (s : Xs128plus) : Xs128plus × UInt64 :=
  let v1 := s.v0
  let v0 := s.v1
  let v1 := v1 ^^^ v1 <<< 23
  let v := v1 ^^^ v0 ^^^ v1 >>> 18 ^^^ v0 >>> 5
  (⟨v0, v⟩, v + v0)

def xs1024starInit (makeseed seed : UInt64) : Xs1024star :=
  let z := xs128plusInit makeseed seed
  ⟨fun i => out xs128plusU64 z i, low4 (out xs128plusU64 z 16).toNat⟩

def xs1024starU64 (s : Xs1024star) : Xs1024star × UInt64 :=
  let s0 := s.v s.p
  let p := low4 (s.p.val + 1)
  let s1 := s.v p
  let s1 := s1 ^^^ s1 <<< 31
  let w := s1 ^^^ s0 ^^^ s1 >>> 11 ^^^ s0 >>> 30
  (⟨update s.v p w, p⟩, w * 1181783497276652981)

structure Xoro128plus where
  v0 : UInt64
  v1 : UInt64

def xoro128plusInit (makeseed seed : UInt64) : Xoro128plus :=
  let seed := if seed = 0 then makeseed else seed
  ⟨seed, (splitmix64 seed).2⟩

def xoro128plusU64 (s : Xoro128plus) : Xoro128plus × UInt64 :=
  let r := s.v0 + s.v1
  let v1 := s.v1 ^^^ s.v0
  (⟨rotl s.v0 55 ^^^ v1 ^^^ v1 <<< 14, rotl v1 36⟩, r)

structure Romu where
  w : UInt64
  x : UInt64
  y : UInt64
  z : UInt64

def romuQuadInit (makeseed makeseed' a b : UInt64) : Romu :=
  let a := if a = 0 then makeseed else a
  let b := if b = 0 then makeseed' else b
  ⟨a, b, ~~~a, ~~~b⟩

def romuTrioInit (makeseed makeseed' a b : UInt64) : Romu :=
  let a := if a = 0 then makeseed else a
  let b := if b = 0 then makeseed' else b
  ⟨0, a, b, ~~~a⟩

def romuDuoInit (makeseed a : UInt64) : Romu :=
  let a := if a = 0 then makeseed else a
  ⟨0, a, ~~~a, 0⟩

def romuQuad (r : Romu) : Romu × UInt64 :=
  (⟨15241094284759029579 * r.z, r.z + rotl r.w 52, r.y - r.x, rotl (r.y + r.w) 19⟩, r.x)

def romuTrio (r : Romu) : Romu × UInt64 :=
  (⟨r.w, 15241094284759029579 * r.z, rotl (r.y - r.x) 12, rotl (r.z - r.y) 44⟩, r.x)

def romuDuo (r : Romu) : Romu × UInt64 :=
  (⟨r.w, 15241094284759029579 * r.y, rotl r.y 36 + rotl r.y 15 - r.x, r.z⟩, r.x)

theorem word_finite : Finite UInt64 :=
  Finite.of_injective UInt64.toFin fun _ _ h => UInt64.toFin_inj.mp h

theorem xorshl_injective (a : UInt64) (ha : 0 < (a % 64).toNat) :
    Injective fun x : UInt64 => x ^^^ x <<< a := by
  intro x y h
  exact UInt64.toBitVec_inj.mp (xor_shiftLeft_injective ha (congrArg UInt64.toBitVec h))

theorem xorshr_injective (a : UInt64) (ha : 0 < (a % 64).toNat) :
    Injective fun x : UInt64 => x ^^^ x >>> a := by
  intro x y h
  exact UInt64.toBitVec_inj.mp (xor_ushiftRight_injective ha (congrArg UInt64.toBitVec h))

theorem rotl_injective {k : UInt64} (hk : (k % 64).toNat + ((64 - k) % 64).toNat = 64) :
    Injective fun x => rotl x k := by
  intro x y h
  have hsub : 64 - (k % 64).toNat = ((64 - k) % 64).toNat := by omega
  have hrot := @rotate_injective 64 (k % 64).toNat (by omega) x.toBitVec y.toBitVec
  simp only [hsub] at hrot
  exact UInt64.toBitVec_inj.mp (hrot (congrArg UInt64.toBitVec h))

theorem mul_injective {c c' : UInt64} (h : c' * c = 1) : Injective fun x => c * x := by
  intro x y hxy
  have hinv : ∀ z, c' * (c * z) = z := fun z => by rw [← UInt64.mul_assoc, h, UInt64.one_mul]
  rw [← hinv x, ← hinv y]
  exact congrArg (c' * ·) hxy

theorem xor_cross (x y s t : UInt64) :
    x ^^^ y ^^^ x >>> s ^^^ y >>> t = x ^^^ x >>> s ^^^ (y ^^^ y >>> t) := by
  rw [UInt64.xor_assoc x y, UInt64.xor_comm y, ← UInt64.xor_assoc x, UInt64.xor_assoc (x ^^^ _)]

theorem cross_injective {l s t : UInt64} (y : UInt64) (hl : 0 < (l % 64).toNat)
    (hs : 0 < (s % 64).toNat) :
    Injective fun x => x ^^^ x <<< l ^^^ y ^^^ (x ^^^ x <<< l) >>> s ^^^ y >>> t := by
  intro x x' h
  simp only [xor_cross] at h
  exact xorshl_injective l hl (xorshr_injective s hs ((UInt64.xor_left_inj _).mp h))

instance : Finite Xs64star :=
  haveI := word_finite
  Finite.of_injective Xs64star.v fun ⟨_⟩ ⟨_⟩ h => congrArg Xs64star.mk h

instance : Finite Xs128plus :=
  haveI := word_finite
  Finite.of_injective (fun s => (s.v0, s.v1)) fun ⟨_, _⟩ ⟨_, _⟩ h => by
    obtain ⟨rfl, rfl⟩ := Prod.mk.inj h
    rfl

instance : Finite Xs1024star :=
  haveI := word_finite
  Finite.of_injective (fun s => (s.v, s.p)) fun ⟨_, _⟩ ⟨_, _⟩ h => by
    obtain ⟨rfl, rfl⟩ := Prod.mk.inj h
    rfl

instance : Finite Xoro128plus :=
  haveI := word_finite
  Finite.of_injective (fun s => (s.v0, s.v1)) fun ⟨_, _⟩ ⟨_, _⟩ h => by
    obtain ⟨rfl, rfl⟩ := Prod.mk.inj h
    rfl

instance : Finite Romu :=
  haveI := word_finite
  Finite.of_injective (fun r => (r.w, r.x, r.y, r.z)) fun ⟨_, _, _, _⟩ ⟨_, _, _, _⟩ h => by
    obtain ⟨rfl, h⟩ := Prod.mk.inj h
    obtain ⟨rfl, h⟩ := Prod.mk.inj h
    obtain ⟨rfl, rfl⟩ := Prod.mk.inj h
    rfl

theorem xs64star_lossless : Lossless xs64starU64 fun s => s.v = 0 := by
  refine lossless_of_injective ?_ ?_
  · rintro ⟨x⟩ ⟨y⟩ h
    have hv := Xs64star.mk.inj h
    exact congrArg _ (xorshr_injective 12 (by decide)
      (xorshl_injective 25 (by decide) (xorshl_injective 27 (by decide) hv)))
  · rintro ⟨x⟩ rfl
    rfl

theorem xs128plus_lossless : Lossless xs128plusU64 fun s => s.v0 = 0 ∧ s.v1 = 0 := by
  refine lossless_of_injective ?_ ?_
  · rintro ⟨x, y⟩ ⟨x', y'⟩ h
    obtain ⟨rfl, hv⟩ := Xs128plus.mk.inj h
    obtain rfl : x = x' := cross_injective y (by decide) (by decide) hv
    rfl
  · rintro ⟨x, y⟩ ⟨rfl, rfl⟩
    exact ⟨rfl, rfl⟩

theorem xs1024star_lossless : Lossless xs1024starU64 fun s => s.v = fun _ => 0 := by
  have hnext : ∀ p : Fin 16, p ≠ low4 (p.val + 1) := by decide
  have hcancel : ∀ p p' : Fin 16, low4 (p.val + 1) = low4 (p'.val + 1) → p = p' := by decide
  refine lossless_of_injective ?_ ?_
  · rintro ⟨v, p⟩ ⟨v', p'⟩ h
    obtain ⟨hv, hp⟩ := Xs1024star.mk.inj h
    obtain rfl := hcancel p p' hp
    have hsame : ∀ i, i ≠ low4 (p.val + 1) → v i = v' i := by
      intro i hi
      have hi' := congrFun hv i
      rwa [update_of_ne hi, update_of_ne hi] at hi'
    have hnew := congrFun hv (low4 (p.val + 1))
    simp only [update_self, hsame p (hnext p)] at hnew
    congr 1
    funext i
    by_cases hi : i = low4 (p.val + 1)
    · rw [hi]
      exact cross_injective (v' p) (by decide) (by decide) hnew
    · exact hsame i hi
  · rintro ⟨v, p⟩ rfl
    have hzero : (fun x : UInt64 =>
        x ^^^ x <<< 31 ^^^ x ^^^ (x ^^^ x <<< 31) >>> 11 ^^^ x >>> 30) 0 = 0 := by decide
    change update (fun _ => (0 : UInt64)) (low4 (p.val + 1)) _ = _
    exact (congrArg _ hzero).trans (update_eq_self (low4 (p.val + 1)) fun _ => (0 : UInt64))

theorem xoro128plus_lossless : Lossless xoro128plusU64 fun s => s.v0 = 0 ∧ s.v1 = 0 := by
  refine lossless_of_injective ?_ ?_
  · rintro ⟨x, y⟩ ⟨x', y'⟩ h
    obtain ⟨h0, h1⟩ := Xoro128plus.mk.inj h
    have hxor : y ^^^ x = y' ^^^ x' := rotl_injective (by decide) h1
    rw [hxor, UInt64.xor_left_inj, UInt64.xor_left_inj] at h0
    obtain rfl : x = x' := rotl_injective (by decide) h0
    obtain rfl : y = y' := (UInt64.xor_left_inj _).mp hxor
    rfl
  · rintro ⟨x, y⟩ ⟨rfl, rfl⟩
    exact ⟨rfl, rfl⟩

theorem romu_factor : (4888251478366616163 : UInt64) * 15241094284759029579 = 1 := by decide

theorem romuQuad_lossless :
    Lossless romuQuad fun r => r.w = 0 ∧ r.x = 0 ∧ r.y = 0 ∧ r.z = 0 := by
  refine lossless_of_injective ?_ ?_
  · rintro ⟨w, x, y, z⟩ ⟨w', x', y', z'⟩ h
    obtain ⟨hw, hx, hy, hz⟩ := Romu.mk.inj h
    obtain rfl : z = z' := mul_injective romu_factor hw
    obtain rfl : w = w' := rotl_injective (by decide) ((UInt64.add_right_inj _).mp hx)
    obtain rfl : y = y' := (UInt64.add_left_inj _).mp (rotl_injective (by decide) hz)
    obtain rfl : x = x' := (UInt64.sub_right_inj _).mp hy
    rfl
  · rintro ⟨w, x, y, z⟩ ⟨rfl, rfl, rfl, rfl⟩
    exact ⟨rfl, rfl, rfl, rfl⟩

theorem romuTrio_lossless : Lossless romuTrio fun r => r.x = 0 ∧ r.y = 0 ∧ r.z = 0 := by
  refine lossless_of_injective ?_ ?_
  · rintro ⟨w, x, y, z⟩ ⟨w', x', y', z'⟩ h
    obtain ⟨rfl, hx, hy, hz⟩ := Romu.mk.inj h
    obtain rfl : z = z' := mul_injective romu_factor hx
    obtain rfl : y = y' := (UInt64.sub_right_inj _).mp (rotl_injective (by decide) hz)
    obtain rfl : x = x' := (UInt64.sub_right_inj _).mp (rotl_injective (by decide) hy)
    rfl
  · rintro ⟨w, x, y, z⟩ ⟨rfl, rfl, rfl⟩
    exact ⟨rfl, (by decide : rotl (0 - 0) 12 = 0), (by decide : rotl (0 - 0) 44 = 0)⟩

theorem romuDuo_lossless : Lossless romuDuo fun r => r.x = 0 ∧ r.y = 0 := by
  refine lossless_of_injective ?_ ?_
  · rintro ⟨w, x, y, z⟩ ⟨w', x', y', z'⟩ h
    obtain ⟨rfl, hx, hy, rfl⟩ := Romu.mk.inj h
    obtain rfl : y = y' := mul_injective romu_factor hx
    obtain rfl : x = x' := (UInt64.sub_right_inj _).mp hy
    rfl
  · rintro ⟨w, x, y, z⟩ ⟨rfl, rfl⟩
    exact ⟨rfl, (by decide : rotl 0 36 + rotl 0 15 - 0 = 0)⟩

/-- A run of any generator comes back to where it started and gives the same words again, and from a
state with a bit set it never gets to the one without. -/
theorem generators_lossless :
    Lossless xs64starU64 (fun s => s.v = 0) ∧
    Lossless xs128plusU64 (fun s => s.v0 = 0 ∧ s.v1 = 0) ∧
    Lossless xs1024starU64 (fun s => s.v = fun _ => 0) ∧
    Lossless xoro128plusU64 (fun s => s.v0 = 0 ∧ s.v1 = 0) ∧
    Lossless romuQuad (fun r => r.w = 0 ∧ r.x = 0 ∧ r.y = 0 ∧ r.z = 0) ∧
    Lossless romuTrio (fun r => r.x = 0 ∧ r.y = 0 ∧ r.z = 0) ∧
    Lossless romuDuo (fun r => r.x = 0 ∧ r.y = 0) :=
  ⟨xs64star_lossless, xs128plus_lossless, xs1024star_lossless, xoro128plus_lossless,
    romuQuad_lossless, romuTrio_lossless, romuDuo_lossless⟩

theorem xs64star_word (s : Xs64star) : (xs64starU64 s).2 = 0 ↔ (xs64starU64 s).1.v = 0 := by
  have hfactor : (6415128727920758069 : UInt64) * 2685821657736338717 = 1 := by decide
  change (xs64starU64 s).1.v * 2685821657736338717 = 0 ↔ _
  rw [UInt64.mul_comm]
  exact ⟨fun h => mul_injective hfactor (h.trans (UInt64.mul_zero).symm),
    fun h => by rw [h, UInt64.mul_zero]⟩

theorem xs64star_out (s : Xs64star) (n : Nat) : out xs64starU64 s n = 0 ↔ s.v = 0 := by
  rw [out, xs64star_word, ← after_succ]
  exact xs64star_lossless.zero s (n + 1)

theorem xs128plus_out {s : Xs128plus} (h : s.v0 = 0 ∧ s.v1 = 0) (n : Nat) :
    out xs128plusU64 s n = 0 := by
  have hafter := (xs128plus_lossless.zero s n).mpr h
  rw [out]
  generalize after xs128plusU64 s n = s' at hafter
  obtain ⟨x, y⟩ := s'
  obtain ⟨rfl, rfl⟩ := hafter
  rfl

theorem xs1024star_out {s : Xs1024star} (h : s.v = fun _ => 0) (n : Nat) :
    out xs1024starU64 s n = 0 := by
  have hzero := (xs1024star_lossless.zero s (n + 1)).mpr h
  rw [after_succ] at hzero
  have hword : ∀ s : Xs1024star,
      (xs1024starU64 s).2 = (xs1024starU64 s).1.v (low4 (s.p.val + 1)) * 1181783497276652981 := by
    intro s
    exact congrArg (· * 1181783497276652981) (update_self (low4 (s.p.val + 1)) _ s.v).symm
  rw [out, hword, hzero, UInt64.zero_mul]

variable (makeseed makeseed' seed a b : UInt64)

theorem xs128plusInit_zero : ((xs128plusInit makeseed seed).v0 = 0 ∧
    (xs128plusInit makeseed seed).v1 = 0) ↔ (xs64starInit makeseed seed).v = 0 := by
  have h0 := xs64star_out (xs64starInit makeseed seed) 0
  have h1 := xs64star_out (xs64starInit makeseed seed) 1
  exact ⟨fun h => h0.mp h.1, fun h => ⟨h0.mpr h, h1.mpr h⟩⟩

theorem xs1024starInit_zero (h : (xs64starInit makeseed seed).v = 0) :
    (xs1024starInit makeseed seed).v = fun _ => 0 := by
  funext i
  exact xs128plus_out ((xs128plusInit_zero makeseed seed).mpr h) i

theorem not_ne_zero {x : UInt64} (hx : x = 0) : ~~~x ≠ 0 := by
  rw [hx]
  decide

theorem xs64starInit_stuck : (xs64starInit makeseed 0x61c8864680b583eb).v = 0 := by
  rw [xs64starInit, if_pos (by decide)]
  decide

/-- The first word of `xs64star` decides about the xorshift generators: if it is zero, and there
is a seed for this, so is all that they give. The romu generators start with a bit set, whatever
their seeds. -/
theorem seeded_runs :
    ((xs64starInit makeseed seed).v ≠ 0 → ∀ n,
      out xs64starU64 (xs64starInit makeseed seed) n ≠ 0 ∧
      ¬ ((after xs128plusU64 (xs128plusInit makeseed seed) n).v0 = 0 ∧
        (after xs128plusU64 (xs128plusInit makeseed seed) n).v1 = 0)) ∧
    ((xs64starInit makeseed seed).v = 0 → ∀ n,
      out xs64starU64 (xs64starInit makeseed seed) n = 0 ∧
      out xs128plusU64 (xs128plusInit makeseed seed) n = 0 ∧
      out xs1024starU64 (xs1024starInit makeseed seed) n = 0) ∧
    (∃ seed', (xs64starInit makeseed seed').v = 0) ∧
    (seed ≠ 0 → ∀ n, ¬ ((after xoro128plusU64 (xoro128plusInit makeseed seed) n).v0 = 0 ∧
      (after xoro128plusU64 (xoro128plusInit makeseed seed) n).v1 = 0)) ∧
    ∀ n,
      (let r := after romuQuad (romuQuadInit makeseed makeseed' a b) n
      ¬ (r.w = 0 ∧ r.x = 0 ∧ r.y = 0 ∧ r.z = 0)) ∧
      (let r := after romuTrio (romuTrioInit makeseed makeseed' a b) n
      ¬ (r.x = 0 ∧ r.y = 0 ∧ r.z = 0)) ∧
      (let r := after romuDuo (romuDuoInit makeseed a) n
      ¬ (r.x = 0 ∧ r.y = 0)) := by
  refine ⟨fun h n => ⟨?_, ?_⟩, fun h n => ⟨?_, ?_, ?_⟩, ⟨_, xs64starInit_stuck makeseed⟩,
    fun h n => ?_, fun n => ⟨?_, ?_, ?_⟩⟩
  · rwa [Ne, xs64star_out]
  · rwa [xs128plus_lossless.zero (xs128plusInit makeseed seed) n, xs128plusInit_zero]
  · rwa [xs64star_out]
  · exact xs128plus_out ((xs128plusInit_zero makeseed seed).mpr h) n
  · exact xs1024star_out (xs1024starInit_zero makeseed seed h) n
  · rw [xoro128plus_lossless.zero (xoro128plusInit makeseed seed) n]
    rintro ⟨h0, -⟩
    rw [xoro128plusInit] at h0
    simp only [if_neg h] at h0
    exact h h0
  · intro r hr
    have hzero := (romuQuad_lossless.zero (romuQuadInit makeseed makeseed' a b) n).mp hr
    exact not_ne_zero hzero.1 hzero.2.2.1
  · intro r hr
    have hzero := (romuTrio_lossless.zero (romuTrioInit makeseed makeseed' a b) n).mp hr
    exact not_ne_zero hzero.1 hzero.2.2
  · intro r hr
    have hzero := (romuDuo_lossless.zero (romuDuoInit makeseed a) n).mp hr
    exact not_ne_zero hzero.1 hzero.2

end PortableLib.Prng
