import PortableLib.ParseIp

/-! Netmasks and texts of addresses, `parse-ip.c`. -/

namespace PortableLib.ParseIp
open List Gstring
open Gstring.Escape (isdigit)
open StrToSize (value)

/-- The inner loop of `mask_to_cidr4`: what is left of the octet, and the count. -/
def octetLoop : Nat → UInt8 → UInt32 → Option (UInt8 × UInt32)
  | 0, _, _ => none
  | fuel + 1, v, n => if v &&& 0x80 ≠ 0 then octetLoop fuel (v <<< 1) (n + 1) else some (v, n)

/-- The outer loop; `none` inside is false, else what `*cidr` becomes. -/
def maskLoop : Nat → UInt32 → UInt32 → Option (Option UInt32)
  | 0, _, _ => none
  | fuel + 1, mask, n =>
    if mask = 0 then some (some n)
    else
      let v := ((0xff000000 &&& mask) >>> 24 &&& 0xff).toUInt8
      let mask := mask <<< 8
      if v = 0xff then maskLoop fuel mask (n + 8)
      else do
        let (v, n) ← octetLoop 9 v n
        if v ≠ 0 then return none
        if mask ≠ 0 then return none
        return some n

def maskToCidr4 (mask : UInt32) : Option (Option UInt32) := maskLoop 5 mask 0

def netmask (n : Nat) : Nat := (2 ^ n - 1) <<< (32 - n)

theorem netmask_eq {n : Nat} (hn : n ≤ 32) : netmask n = 2 ^ 32 - 2 ^ (32 - n) := by
  rw [netmask, Nat.shiftLeft_eq, Nat.sub_mul, ← Nat.pow_add, Nat.add_sub_cancel' hn, Nat.one_mul]

theorem octetLoop_add {fuel : Nat} {v : UInt8} {n : UInt32} :
    octetLoop fuel v n = (octetLoop fuel v 0).map fun r => (r.1, n + r.2) := by
  induction fuel generalizing v n with
  | zero => rfl
  | succ fuel ih =>
    rw [octetLoop, octetLoop]
    by_cases hbit : v &&& 0x80 ≠ 0
    · rw [if_pos hbit, if_pos hbit, ih, @ih _ (0 + 1), Option.map_map]
      congr 1
      funext r
      simp only [Function.comp_apply, UInt32.zero_add, UInt32.add_assoc]
    · rw [if_neg hbit, if_neg hbit]
      simp only [Option.map_some, UInt32.add_zero]

set_option maxRecDepth 4000 in
theorem octetLoop_left : ∀ n < 256, (fun v : UInt8 => v ≠ 0xff →
    octetLoop 9 v 0 = some ((octetLoop 9 v 0).getD (0, 0)) ∧
    (((octetLoop 9 v 0).getD (0, 0)).1 = 0 → ((octetLoop 9 v 0).getD (0, 0)).2.toNat < 8 ∧
      v.toNat = 256 - 2 ^ (8 - ((octetLoop 9 v 0).getD (0, 0)).2.toNat))) (UInt8.ofNat n) := by
  decide

set_option maxRecDepth 4000 in
theorem octetLoop_ones : ∀ n < 256, (fun v : UInt8 => v ≠ 0xff → ∀ j < 8,
    v.toNat = 256 - 2 ^ (8 - j) →
      (octetLoop 9 v 0).getD (0, 0) = (0, UInt32.ofNat j)) (UInt8.ofNat n) := by
  decide

theorem octetLoop_spec {v : UInt8} (hv : v ≠ 0xff) (n : UInt32) :
    ∃ r, octetLoop 9 v n = some (r.1, n + r.2) ∧
      (r.1 = 0 → r.2.toNat < 8 ∧ v.toNat = 256 - 2 ^ (8 - r.2.toNat)) ∧
      ∀ j < 8, v.toNat = 256 - 2 ^ (8 - j) → r = (0, UInt32.ofNat j) := by
  have hleft := octetLoop_left v.toNat v.toNat_lt
  have hones := octetLoop_ones v.toNat v.toNat_lt
  rw [UInt8.ofNat_toNat] at hleft hones
  obtain ⟨hsome, hzero⟩ := hleft hv
  exact ⟨(octetLoop 9 v 0).getD (0, 0), by rw [octetLoop_add, hsome]; rfl, hzero, hones hv⟩

theorem ones_cons {v w k j : Nat} (hv : v < 256) (hw : w < 2 ^ (8 * k)) (hj : j ≤ 8 * k + 8) :
    v * 2 ^ (8 * k) + w = 2 ^ (8 * k + 8) - 2 ^ (8 * k + 8 - j) ↔
      v = 255 ∧ 8 ≤ j ∧ w = 2 ^ (8 * k) - 2 ^ (8 * k - (j - 8)) ∨
        j < 8 ∧ v = 256 - 2 ^ (8 - j) ∧ w = 0 := by
  have hpow : 2 ^ (8 * k + 8) = 256 * 2 ^ (8 * k) := by rw [Nat.pow_add, Nat.mul_comm]
  have hpos := Nat.two_pow_pos (8 * k)
  rcases Nat.lt_or_ge j 8 with hlt | hge
  · have hrest : 2 ^ (8 * k + 8 - j) = 2 ^ (8 - j) * 2 ^ (8 * k) := by
      rw [← Nat.pow_add]
      congr 1
      omega
    have hle : 2 ^ (8 - j) ≤ 2 ^ 8 := Nat.pow_le_pow_right (by decide) (by omega)
    have hone : 2 ≤ 2 ^ (8 - j) := by
      calc 2 = 2 ^ 1 := rfl
        _ ≤ 2 ^ (8 - j) := Nat.pow_le_pow_right (by decide) (by omega)
    rw [hpow, hrest, ← Nat.sub_mul]
    constructor
    · intro heq
      have hdiv : v = 256 - 2 ^ (8 - j) := by
        have h := congrArg (· / 2 ^ (8 * k)) heq
        simp only [Nat.mul_div_cancel _ hpos] at h
        rwa [Nat.mul_comm, Nat.mul_add_div hpos, Nat.div_eq_of_lt hw, Nat.add_zero] at h
      rw [← hdiv] at heq
      exact Or.inr ⟨hlt, hdiv, by omega⟩
    · rintro (⟨-, hge, -⟩ | ⟨-, hv, hw⟩)
      · omega
      · rw [hv, hw, Nat.add_zero]
  · have hrest : 8 * k + 8 - j = 8 * k - (j - 8) := by omega
    have hle : 2 ^ (8 * k - (j - 8)) ≤ 2 ^ (8 * k) :=
      Nat.pow_le_pow_right (by decide) (Nat.sub_le _ _)
    rw [hpow, hrest]
    constructor
    · intro heq
      have hv : v = 255 := by
        by_contra hne
        have hmul : v * 2 ^ (8 * k) ≤ 254 * 2 ^ (8 * k) := Nat.mul_le_mul_right _ (by omega)
        omega
      subst hv
      exact Or.inl ⟨rfl, hge, by omega⟩
    · rintro (⟨rfl, -, hw⟩ | ⟨hlt, -, -⟩)
      · omega
      · omega

theorem mask_octet {mask : UInt32} {v w k : Nat} (hk : k < 4) (hv : v < 256) (hw : w < 2 ^ (8 * k))
    (hmask : mask.toNat = (v * 2 ^ (8 * k) + w) * 2 ^ (24 - 8 * k)) :
    (((0xff000000 &&& mask) >>> 24 &&& 0xff).toUInt8).toNat = v ∧
      (mask <<< 8).toNat = w * 2 ^ (32 - 8 * k) := by
  have hpos := Nat.two_pow_pos (8 * k)
  have h24 : 2 ^ (8 * k) * 2 ^ (24 - 8 * k) = 2 ^ 24 := by
    rw [← Nat.pow_add]
    congr 1
    omega
  have h32 : 2 ^ (8 * k) * 2 ^ (32 - 8 * k) = 2 ^ 32 := by
    rw [← Nat.pow_add]
    congr 1
    omega
  have hwide : 2 ^ (24 - 8 * k) * 2 ^ 8 = 2 ^ (32 - 8 * k) := by
    rw [← Nat.pow_add]
    congr 1
    omega
  have hhigh : mask.toNat / 2 ^ 24 = v := by
    rw [hmask, ← h24, Nat.mul_div_mul_right _ _ (Nat.two_pow_pos _), Nat.mul_comm,
      Nat.mul_add_div hpos, Nat.div_eq_of_lt hw, Nat.add_zero]
  constructor
  · rw [UInt32.toNat_toUInt8, UInt32.toNat_and, UInt32.toNat_shiftRight, UInt32.toNat_and,
      show (24 : UInt32).toNat % 32 = 24 from rfl, Nat.shiftRight_and_distrib,
      Nat.shiftRight_eq_div_pow _ 24, Nat.shiftRight_eq_div_pow _ 24, hhigh]
    rw [show (0xff000000 : UInt32).toNat / 2 ^ 24 = 2 ^ 8 - 1 from rfl,
      show (0xff : UInt32).toNat = 2 ^ 8 - 1 from rfl, Nat.and_two_pow_sub_one_eq_mod,
      Nat.and_comm, Nat.and_two_pow_sub_one_eq_mod]
    omega
  · rw [UInt32.toNat_shiftLeft, show (8 : UInt32).toNat % 32 = 8 from rfl, Nat.shiftLeft_eq, hmask,
      Nat.mul_assoc, hwide, ← h32, Nat.mul_mod_mul_right, Nat.mul_comm v, Nat.mul_add_mod,
      Nat.mod_eq_of_lt hw]

def Counted (k w : Nat) (n : UInt32) (r : Option UInt32) : Prop :=
  ∀ c, r = some c ↔ ∃ j ≤ 8 * k, c.toNat = n.toNat + j ∧ w = 2 ^ (8 * k) - 2 ^ (8 * k - j)

theorem counted_zero (k : Nat) (n : UInt32) : Counted k 0 n (some n) := by
  intro c
  constructor
  · rintro ⟨⟩
    exact ⟨0, Nat.zero_le _, rfl, (Nat.sub_self _).symm⟩
  · rintro ⟨j, hj, hc, heq⟩
    have hj0 : j = 0 := by
      by_contra hne
      have hlt : 2 ^ (8 * k - j) < 2 ^ (8 * k) := Nat.pow_lt_pow_right (by decide) (by omega)
      omega
    exact congrArg some (UInt32.toNat_inj.mp (by rw [hc, hj0, Nat.add_zero]))

variable {v w k : Nat} {n : UInt32}

theorem counted_full {r : Option UInt32} (hw : w < 2 ^ (8 * k)) (hn : (n + 8).toNat = n.toNat + 8)
    (h : Counted k w (n + 8) r) : Counted (k + 1) (255 * 2 ^ (8 * k) + w) n r := by
  intro c
  rw [h c, hn, show 8 * (k + 1) = 8 * k + 8 by omega]
  constructor
  · rintro ⟨j, hj, hc, heq⟩
    refine ⟨j + 8, by omega, by omega, (ones_cons (by decide) hw (by omega)).mpr ?_⟩
    exact Or.inl ⟨rfl, Nat.le_add_left _ _, by rw [Nat.add_sub_cancel]; exact heq⟩
  · rintro ⟨j, hj, hc, heq⟩
    rcases (ones_cons (by decide) hw hj).mp heq with ⟨-, hge, hw⟩ | ⟨hlt, hv, -⟩
    · exact ⟨j - 8, by omega, by omega, hw⟩
    · have hpos := Nat.two_pow_pos (8 - j)
      have hone : 2 ^ 1 ≤ 2 ^ (8 - j) := Nat.pow_le_pow_right (by decide) (by omega)
      omega

theorem counted_last {x : UInt8} (hx : x ≠ 0xff) (hv : x.toNat = v) (hw : w < 2 ^ (8 * k))
    (hn : n.toNat + 8 ≤ 32) : ∃ r, octetLoop 9 x n = some r ∧
      Counted (k + 1) (v * 2 ^ (8 * k) + w) n (if r.1 = 0 ∧ w = 0 then some r.2 else none) := by
  obtain ⟨r, hr, hzero, hones⟩ := octetLoop_spec hx n
  have hlt : v < 256 := hv ▸ x.toNat_lt
  have hnot : v ≠ 255 := fun h => hx (UInt8.toNat_inj.mp (by rw [hv, h]; rfl))
  refine ⟨_, hr, fun c => ?_⟩
  rw [show 8 * (k + 1) = 8 * k + 8 by omega]
  dsimp only
  constructor
  · intro hc
    split_ifs at hc with hdone
    obtain ⟨hj, hval⟩ := hzero hdone.1
    refine ⟨r.2.toNat, by omega, ?_, (ones_cons hlt hw (by omega)).mpr
      (Or.inr ⟨hj, hv ▸ hval, hdone.2⟩)⟩
    rw [← Option.some.inj hc, UInt32.toNat_add]
    exact Nat.mod_eq_of_lt (by omega)
  · rintro ⟨j, hj, hc, heq⟩
    rcases (ones_cons hlt hw hj).mp heq with ⟨hfull, -, -⟩ | ⟨hj, hval, hw⟩
    · exact absurd hfull hnot
    · have hrj := hones j hj (hv.trans hval)
      rw [hrj, if_pos ⟨rfl, hw⟩]
      refine congrArg some (UInt32.toNat_inj.mp ?_)
      rw [hc, UInt32.toNat_add, UInt32.toNat_ofNat_of_lt' (by change j < 2 ^ 32; omega)]
      exact Nat.mod_eq_of_lt (by omega)

theorem maskLoop_spec {mask : UInt32} (hk : k ≤ 4) (hw : w < 2 ^ (8 * k))
    (hmask : mask.toNat = w * 2 ^ (32 - 8 * k)) (hn : n.toNat + 8 * k ≤ 32) :
    ∃ r, maskLoop (k + 1) mask n = some r ∧ Counted k w n r := by
  have hzero : mask = 0 ↔ w = 0 := by
    rw [← UInt32.toNat_inj, hmask]
    exact Nat.mul_eq_zero.trans (or_iff_left (Nat.two_pow_pos _).ne')
  induction k generalizing w mask n with
  | zero =>
    have hw0 : w = 0 := Nat.lt_one_iff.mp hw
    rw [maskLoop, if_pos (hzero.mpr hw0), hw0]
    exact ⟨_, rfl, counted_zero 0 n⟩
  | succ k ih =>
    rw [maskLoop]
    by_cases hw0 : w = 0
    · rw [if_pos (hzero.mpr hw0), hw0]
      exact ⟨_, rfl, counted_zero (k + 1) n⟩
    rw [if_neg (hzero.not.mpr hw0)]
    have hpos := Nat.two_pow_pos (8 * k)
    -- the top octet and the rest
    have hsplit : w / 2 ^ (8 * k) * 2 ^ (8 * k) + w % 2 ^ (8 * k) = w := Nat.div_add_mod' w _
    have hv : w / 2 ^ (8 * k) < 256 := by
      rw [Nat.div_lt_iff_lt_mul hpos, show (256 : Nat) = 2 ^ 8 from rfl, ← Nat.pow_add]
      rwa [Nat.add_comm 8]
    have hw' := Nat.mod_lt w hpos
    generalize w / 2 ^ (8 * k) = v at hsplit hv
    generalize w % 2 ^ (8 * k) = w' at hsplit hw'
    subst hsplit
    obtain ⟨hoct, hrest⟩ := mask_octet (by omega) hv hw' (by
      rw [hmask]
      congr 2
      omega)
    have hzero' : mask <<< 8 = 0 ↔ w' = 0 := by
      rw [← UInt32.toNat_inj, hrest]
      exact Nat.mul_eq_zero.trans (or_iff_left (Nat.two_pow_pos _).ne')
    dsimp only
    generalize ((0xff000000 &&& mask) >>> 24 &&& 0xff).toUInt8 = x at hoct
    -- only a full octet lets the loop go on
    by_cases hfull : x = 0xff
    · obtain rfl : v = 255 := by rw [← hoct, hfull]; rfl
      have hn8 : (n + 8).toNat = n.toNat + 8 := by
        rw [UInt32.toNat_add]
        exact Nat.mod_eq_of_lt (by change n.toNat + 8 < 2 ^ 32; omega)
      obtain ⟨r, hr, hcount⟩ := ih (n := n + 8) (by omega) hw' hrest (by omega) hzero'
      rw [if_pos hfull]
      exact ⟨r, hr, counted_full hw' hn8 hcount⟩
    · obtain ⟨r, hr, hcount⟩ := counted_last (n := n) hfull hoct hw' (by omega)
      rw [if_neg hfull, hr]
      refine ⟨_, ?_, hcount⟩
      simp only [Option.bind_eq_bind, Option.bind_some, ← hzero']
      by_cases h₁ : r.1 = 0
      · by_cases h₂ : mask <<< 8 = 0
        · simp only [h₁, h₂, ne_eq, not_true, if_false, and_self, if_true]
          rfl
        · simp only [h₁, h₂, ne_eq, not_true, not_false_eq_true, if_false, and_false, if_true]
          rfl
      · simp only [h₁, ne_eq, not_false_eq_true, if_true, false_and, if_false]
        rfl

theorem maskToCidr4_spec (mask : UInt32) : ∃ r, maskToCidr4 mask = some r ∧
    ∀ c, r = some c ↔ c.toNat ≤ 32 ∧ mask.toNat = netmask c.toNat := by
  obtain ⟨r, hr, hcount⟩ := maskLoop_spec (k := 4) (n := 0) le_rfl mask.toNat_lt
    (Nat.mul_one mask.toNat).symm (by decide)
  refine ⟨r, hr, fun c => (hcount c).trans ?_⟩
  rw [show (0 : UInt32).toNat = 0 from rfl]
  constructor
  · rintro ⟨j, hj, hc, heq⟩
    rw [Nat.zero_add] at hc
    subst hc
    exact ⟨hj, heq.trans (netmask_eq hj).symm⟩
  · rintro ⟨hle, heq⟩
    exact ⟨c.toNat, hle, (Nat.zero_add _).symm, heq.trans (netmask_eq hle)⟩

def decimal (n : Nat) : List UInt8 := (Nat.toDigits 10 n).map fun c => UInt8.ofNat c.toNat

def snprintf (str : Block UInt8) (sz : Nat) (text : List UInt8) : Option (Block UInt8) :=
  if sz = 0 then some str
  else str.copy 0 (cstr (text.take (sz - 1))) ((text.take (sz - 1)).length + 1)

def quarter (a : UInt32) (i : UInt32) : UInt32 := a >>> (i * 8) &&& 0xff

def strIpv4 (str : Block UInt8) (sz : Nat) (a : UInt32) : Option (Block UInt8) :=
  snprintf str sz (dotted (decimal (quarter a 3).toNat) (decimal (quarter a 2).toNat)
    (decimal (quarter a 1).toNat) (decimal (quarter a 0).toNat))

theorem digitChar_checked : ∀ d < 10, (fun c : UInt8 => isdigit c = true ∧ value c = d)
    (UInt8.ofNat d.digitChar.toNat) := by
  decide

theorem number_decimal (n : Nat) : (∀ c ∈ decimal n, isdigit c = true) ∧
    number (decimal n) = n := by
  induction n using Nat.strongRecOn with
  | ind n ih =>
    rcases Nat.lt_or_ge n 10 with hlt | hge
    · obtain ⟨hdigit, hvalue⟩ := digitChar_checked n hlt
      rw [decimal, Nat.toDigits_of_lt_base hlt]
      exact ⟨forall_mem_singleton.mpr hdigit, hvalue⟩
    · obtain ⟨hdigit, hvalue⟩ := digitChar_checked (n % 10) (Nat.mod_lt n (by decide))
      obtain ⟨hdigits, hnumber⟩ := ih (n / 10) (by omega)
      rw [decimal, Nat.toDigits_of_base_le (by decide) hge, map_append, map_singleton]
      refine ⟨forall_mem_append.mpr ⟨hdigits, forall_mem_singleton.mpr hdigit⟩, ?_⟩
      rw [number, map_append, reverse_append, map_singleton, reverse_singleton, singleton_append,
        Nat.ofDigits_cons, hvalue]
      change n % 10 + 10 * number (decimal (n / 10)) = n
      rw [hnumber, Nat.mod_add_div]

theorem decimal_ne_nil {n : Nat} : decimal n ≠ [] := fun h =>
  Nat.toDigits_ne_nil (map_eq_nil_iff.mp h)

theorem octet_decimal {n : Nat} (h : n < 256) : Octet 3 (decimal n) where
  short := by
    rw [decimal, length_map]
    exact (Nat.length_toDigits_le_iff (by decide) (by decide)).mpr (h.trans (by decide))
  digit := (number_decimal n).1
  small := (number_decimal n).2.trans_le (Nat.le_of_lt_succ h)

theorem quarter_toNat (a : UInt32) {i : UInt32} (hi : i.toNat < 4) :
    (quarter a i).toNat = a.toNat / 256 ^ i.toNat % 256 := by
  have hshift : (i * 8).toNat % 32 = 8 * i.toNat := by
    rw [UInt32.toNat_mul, show (8 : UInt32).toNat = 8 from rfl]
    omega
  rw [quarter, UInt32.toNat_and, UInt32.toNat_shiftRight, hshift, Nat.shiftRight_eq_div_pow,
    show (0xff : UInt32).toNat = 2 ^ 8 - 1 from rfl, Nat.and_two_pow_sub_one_eq_mod,
    show (256 : Nat) = 2 ^ 8 from rfl, ← Nat.pow_mul]

theorem strIpv4_quad (a : UInt32) :
    Quad (dotted (decimal (quarter a 3).toNat) (decimal (quarter a 2).toNat)
      (decimal (quarter a 1).toNat) (decimal (quarter a 0).toNat)) a := by
  have hlt := a.toNat_lt
  have h₀ := quarter_toNat a (show (0 : UInt32).toNat < 4 by decide)
  have h₁ := quarter_toNat a (show (1 : UInt32).toNat < 4 by decide)
  have h₂ := quarter_toNat a (show (2 : UInt32).toNat < 4 by decide)
  have h₃ := quarter_toNat a (show (3 : UInt32).toNat < 4 by decide)
  rw [show (0 : UInt32).toNat = 0 from rfl] at h₀
  rw [show (1 : UInt32).toNat = 1 from rfl] at h₁
  rw [show (2 : UInt32).toNat = 2 from rfl] at h₂
  rw [show (3 : UInt32).toNat = 3 from rfl] at h₃
  have hdec : ∀ {x n : Nat}, n = x % 256 → decimal n ≠ [] ∧ Octet 3 (decimal n) := fun h =>
    ⟨decimal_ne_nil, octet_decimal (h.trans_lt (Nat.mod_lt _ (by decide)))⟩
  refine ⟨_, _, _, _, rfl, ?_, ?_⟩
  · simp only [forall_mem_cons]
    exact ⟨hdec h₃, hdec h₂, hdec h₁, hdec h₀, forall_mem_nil _⟩
  · rw [combined, (number_decimal _).2, (number_decimal _).2, (number_decimal _).2,
      (number_decimal _).2, h₀, h₁, h₂, h₃]
    omega

theorem Quad.length_le {t : List UInt8} {z : UInt32} (h : Quad t z) : t.length ≤ 15 := by
  obtain ⟨a, b, c, d, rfl, hall, -⟩ := h
  simp only [forall_mem_cons] at hall
  obtain ⟨⟨-, ha⟩, ⟨-, hb⟩, ⟨-, hc⟩, ⟨-, hd⟩, -⟩ := hall
  have ha := ha.short
  have hb := hb.short
  have hc := hc.short
  have hd := hd.short
  simp only [dotted, length_append, length_cons]
  omega

theorem Quad.nulFree {t : List UInt8} {z : UInt32} (h : Quad t z) : 0 ∉ t := by
  obtain ⟨a, b, c, d, rfl, hall, -⟩ := h
  simp only [forall_mem_cons] at hall
  obtain ⟨⟨-, ha⟩, ⟨-, hb⟩, ⟨-, hc⟩, ⟨-, hd⟩, -⟩ := hall
  simp only [dotted, mem_append, mem_cons, not_or]
  exact ⟨ha.nulFree, by decide, hb.nulFree, by decide, hc.nulFree, by decide, hd.nulFree⟩

theorem snprintf_spec {str : Block UInt8} {sz : Nat} {text : List UInt8} (h0 : 0 ∉ text)
    (hfit : text.length < sz) (hroom : sz ≤ str.len) :
    ∃ str', snprintf str sz text = some str' ∧ Terminated str' text := by
  have htake : text.take (sz - 1) = text := take_of_length_le (by omega)
  have hterm := terminated_cstr h0
  obtain ⟨str', hcopy, hlen, -, hnew⟩ := Block.copy_spec
    (show 0 + (text.length + 1) ≤ str.len by omega) hterm.room
  have hcells : ∀ i < text.length + 1, str'.cells i = (cstr text).cells i := by
    intro i hi
    rw [← hnew i hi, Nat.zero_add]
  refine ⟨str', ?_, by rw [hlen]; omega, ?_, (hcells _ (Nat.lt_succ_self _)).trans hterm.nul, h0⟩
  · rw [snprintf, if_neg (by omega), htake]
    exact hcopy
  · exact (map_range_congr fun i hi => hcells i (Nat.lt_succ_of_lt hi)).trans hterm.bytes

/-- The length of a mask is found for exactly the netmasks, and the text of an address in a buffer
of 16 bytes is read back. -/
theorem mask_and_text (junk : Nat → UInt8) (mask a : UInt32) {str : Block UInt8} {sz : Nat}
    (hsz : 16 ≤ sz) (hroom : sz ≤ str.len) :
    (∃ r, maskToCidr4 mask = some r ∧
      ∀ c, r = some c ↔ c.toNat ≤ 32 ∧ mask.toNat = netmask c.toNat) ∧
    ∃ str', strIpv4 str sz a = some str' ∧ parseIpv4 junk str' = some (some a) := by
  have hquad := strIpv4_quad a
  have hlen := hquad.length_le
  obtain ⟨str', hstr, hterm⟩ := snprintf_spec hquad.nulFree (by omega) hroom
  exact ⟨maskToCidr4_spec mask, str', hstr, by rw [parseIpv4_spec junk hterm, hquad.accepted]⟩

theorem mask_and_text_sixteen :
    (∃ r, maskToCidr4 0xfffff800 = some r ∧
      ∀ c, r = some c ↔ c.toNat ≤ 32 ∧ (0xfffff800 : UInt32).toNat = netmask c.toNat) ∧
    ∃ str', strIpv4 ⟨16, fun _ => 7⟩ 16 0x0a000001 = some str' ∧
      parseIpv4 (fun _ => 9) str' = some (some 0x0a000001) :=
  mask_and_text _ _ _ (by decide) (by decide)

end PortableLib.ParseIp
