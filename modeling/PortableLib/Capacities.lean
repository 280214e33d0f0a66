import PortableLib.FastHt.Refinement
import PortableLib.Gstring.Refinement

/-! The capacities that come out of `NEXTPOW2`: the number of buckets of a hash table and the
blocks of a growable string. -/

namespace PortableLib
open TypeUtils

namespace FastHt

theorem htInit_capacity {size : UInt32} (hfits : FitsIn 32 size.toNat) (maxfill : UInt32)
    (salt : UInt64) :
    (htInit size maxfill salt).n.toNat ∈ powersFrom size.toNat ∧
      (htInit size maxfill salt).b.length = (htInit size maxfill salt).n.toNat := by
  refine ⟨?_, htInit_length size maxfill salt⟩
  rw [htInit]
  dsimp only
  rw [UInt32.toNat_toUInt64]
  split_ifs with h0 hpow
  · rw [h0]
    exact ⟨⟨7, rfl⟩, Nat.zero_le _⟩
  · have hleast := isLeast_rounded h0 hfits
    rw [if_pos hpow] at hleast
    exact hleast.1
  · have hleast := isLeast_rounded h0 hfits
    rw [if_neg hpow] at hleast
    exact hleast.1

end FastHt

namespace Gstring

theorem pow_of_nextPow2 {v : UInt64} (h0 : 0 < v.toNat) (hfits : FitsIn 64 v.toNat) :
    (nextPow2 v).toNat ∈ powersFrom v.toNat := (isLeast_nextPow2 h0 hfits.le).1

/-- The bytes that `grow_if` is asked to have room for, the terminator included; `len` is an
`int`. -/
def requested (g : Gstr) (len : UInt64) : Int := g.len.toNat + len.toUInt32.toInt32.toInt + 1

theorem toInt_toInt32 (x : UInt32) :
    x.toInt32.toInt = if x < 0x80000000 then (x.toNat : Int) else x.toNat - 2 ^ 32 := by
  have hbits : x.toInt32.toInt = x.toBitVec.toInt := rfl
  have hhalf : (0x80000000 : UInt32).toNat = 2 ^ 31 := rfl
  rw [hbits, BitVec.toInt_eq_toNat_cond, UInt32.toNat_toBitVec]
  simp only [UInt32.lt_iff_toNat_lt, hhalf]
  split_ifs <;> omega

theorem toNat_want {g : Gstr} {len : UInt64} (h0 : 0 ≤ requested g len)
    (h : requested g len < 2 ^ 64) :
    (g.len + asInt len + 1).toNat = (requested g len).toNat := by
  have hone : (1 : UInt64).toNat = 1 := rfl
  have hext : (0xFFFFFFFF00000000 : UInt64).toNat = 2 ^ 64 - 2 ^ 32 := rfl
  have hlow := len.toUInt32.toNat_lt
  rw [requested, toInt_toInt32] at h0 h ⊢
  rw [UInt64.toNat_add, UInt64.toNat_add, asInt, hone]
  split_ifs at h0 h ⊢ with hneg
  · rw [UInt32.toNat_toUInt64]
    omega
  · rw [UInt64.toNat_add, UInt32.toNat_toUInt64, hext]
    omega

theorem growIf_capacity (junk : Nat → UInt8) {g : Gstr} {len : UInt64} (h0 : 0 ≤ requested g len)
    (hfits : FitsIn 64 (requested g len).toNat) :
    ∃ g', growIf junk g len = some g' ∧ requested g len ≤ g'.cap.toNat ∧
      (g.cap.toNat.isPowerOfTwo ∨ g.cap.toNat < requested g len → g'.cap.toNat.isPowerOfTwo) ∧
      (g.str.len = g.cap.toNat → g'.str.len = g'.cap.toNat) := by
  have hle := hfits.le
  have hwant := toNat_want h0 (by omega)
  rw [← hwant] at hfits
  rw [growIf]
  generalize g.len + asInt len + 1 = want at hwant hfits
  have hreq : requested g len = want.toNat := by omega
  rw [hreq]
  by_cases hcap : g.cap < want
  · have hlt : g.cap.toNat < want.toNat := UInt64.lt_iff_toNat_lt.mp hcap
    obtain ⟨hpow, hroom⟩ := pow_of_nextPow2 (Nat.zero_lt_of_lt hlt) hfits
    have hne : nextPow2 want ≠ 0 := by
      intro hz
      rw [hz] at hroom
      exact absurd (Nat.zero_lt_of_lt hlt) (Nat.not_lt.mpr hroom)
    simp only [if_pos hcap, if_neg hne]
    exact ⟨_, rfl, Int.ofNat_le.mpr hroom, fun _ => hpow, fun _ => rfl⟩
  · have hge : ¬ g.cap.toNat < want.toNat := fun hlt => hcap (UInt64.lt_iff_toNat_lt.mpr hlt)
    simp only [if_neg hcap]
    exact ⟨g, rfl, by omega, fun h => h.resolve_right fun hlt => hge (Int.ofNat_lt.mp hlt), id⟩

theorem initGstr_cap_eq {n : UInt64} {src : Option (Block UInt8)} {g : Gstr}
    (hg : initGstr n src = some g) :
    g.cap = nextPow2 ((if n = 0 then 63 else n) + 1) ∧ g.str.len = g.cap.toNat := by
  unfold initGstr at hg
  dsimp only at hg
  generalize nextPow2 ((if n = 0 then 63 else n) + 1) = cap at hg ⊢
  cases src with
  | none =>
    obtain rfl := Option.some.inj hg
    exact ⟨rfl, rfl⟩
  | some src =>
    simp only [Option.bind_eq_bind, Option.bind_eq_some_iff, Block.copy] at hg
    obtain ⟨k, -, str, hcopy, hlast⟩ := hg
    split_ifs at hcopy
    obtain rfl := Option.some.inj hcopy
    obtain rfl := Option.some.inj hlast
    exact ⟨rfl, rfl⟩

theorem initGstr_capacity {n : UInt64} (hfits : FitsIn 64 (n.toNat + 1))
    {src : Option (Block UInt8)} {g : Gstr} (hg : initGstr n src = some g) :
    g.cap.toNat ∈ powersFrom (n.toNat + 1) ∧ g.str.len = g.cap.toNat := by
  obtain ⟨hcap, hblock⟩ := initGstr_cap_eq hg
  refine ⟨?_, hblock⟩
  rw [hcap]
  by_cases hn : n = 0
  · have hsixty : (nextPow2 ((if n = 0 then 63 else n) + 1)).toNat = 2 ^ 6 := by
      rw [if_pos hn]
      rfl
    rw [hsixty, hn]
    exact ⟨⟨6, rfl⟩, by decide⟩
  · have hle := hfits.le
    have hsucc : (n + 1).toNat = n.toNat + 1 := by
      have hone : (1 : UInt64).toNat = 1 := rfl
      rw [UInt64.toNat_add, hone]
      omega
    rw [if_neg hn, ← hsucc]
    rw [← hsucc] at hfits
    exact pow_of_nextPow2 (by omega) hfits

end Gstring

open FastHt Gstring

/-- `NEXTPOW2` gives the least power of two that is not below its argument. Wherever this power
fits, the buckets of a new hash table and the block of a new or grown string are as many as a
power of two that is at least what was asked for. -/
theorem nextPow2_capacities :
    (∀ v : UInt64, 1 ≤ v.toNat → v.toNat ≤ 2 ^ 63 →
      IsLeast (powersFrom v.toNat) (nextPow2 v).toNat) ∧
    (∀ (size maxfill : UInt32) (salt : UInt64), FitsIn 32 size.toNat →
      (htInit size maxfill salt).n.toNat ∈ powersFrom size.toNat ∧
        (htInit size maxfill salt).b.length = (htInit size maxfill salt).n.toNat) ∧
    (∀ (junk : Nat → UInt8) (g : Gstr) (len : UInt64), 0 ≤ requested g len →
      FitsIn 64 (requested g len).toNat →
      ∃ g', growIf junk g len = some g' ∧ requested g len ≤ g'.cap.toNat ∧
        (g.cap.toNat.isPowerOfTwo ∨ g.cap.toNat < requested g len → g'.cap.toNat.isPowerOfTwo) ∧
        (g.str.len = g.cap.toNat → g'.str.len = g'.cap.toNat)) ∧
    ∀ n : UInt64, FitsIn 64 (n.toNat + 1) → (initGstr n none).isSome ∧
      ∀ (src : Option (Block UInt8)) (g : Gstr), initGstr n src = some g →
        g.cap.toNat ∈ powersFrom (n.toNat + 1) ∧ g.str.len = g.cap.toNat :=
  ⟨fun _ => isLeast_nextPow2, fun _ maxfill salt hfits => htInit_capacity hfits maxfill salt,
    fun junk _ _ => growIf_capacity junk, fun _ hfits => ⟨rfl, fun _ _ => initGstr_capacity hfits⟩⟩

theorem nextPow2_capacities_thousand :
    IsLeast (powersFrom 1000) (nextPow2 1000).toNat ∧
      (htInit 1000 0 7).n.toNat ∈ powersFrom 1000 ∧
      (∃ g', growIf (fun _ => 0) ⟨⟨64, fun _ => 0⟩, 63, 64⟩ 1 = some g' ∧
        g'.cap.toNat.isPowerOfTwo) ∧
      ∀ g, initGstr 1000 none = some g → g.cap.toNat ∈ powersFrom 1001 := by
  obtain ⟨hleast, hbuckets, hgrow, hinit⟩ := nextPow2_capacities
  have hlt : (64 : UInt64).toNat < requested ⟨⟨64, fun _ => 0⟩, 63, 64⟩ 1 := by decide
  obtain ⟨g', hg', -, hpow, -⟩ := hgrow (fun _ => 0) ⟨⟨64, fun _ => 0⟩, 63, 64⟩ 1 (by decide)
    ⟨7, by decide, by decide⟩
  exact ⟨hleast 1000 (by decide) (by decide), (hbuckets 1000 0 7 ⟨10, by decide, by decide⟩).1,
    ⟨g', hg', hpow (.inr hlt)⟩, fun g hg => ((hinit 1000 ⟨10, by decide, by decide⟩).2 none g hg).1⟩

end PortableLib
