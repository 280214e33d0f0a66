import PortableLib.StrToSize

/-! Size suffixes, `strtosize.c`: the product is formed in 64 bits, and compared with its factors
afterwards. -/

namespace PortableLib.StrToSize
open List Gstring Ctype

def KB_ : UInt64 := 1024
def MB_ : UInt64 := KB_ * 1024
def GB_ : UInt64 := MB_ * 1024
def TB_ : UInt64 := GB_ * 1024
def PB_ : UInt64 := TB_ * 1024
def EB_ : UInt64 := PB_ * 1024

/-- The cases of the `switch` for the letters. -/
def unit (c : UInt8) : Option UInt64 :=
  if c = 0x6b ∨ c = 0x4b then some KB_
  else if c = 0x4d then some MB_
  else if c = 0x47 then some GB_
  else if c = 0x54 then some TB_
  else if c = 0x50 then some PB_
  else if c = 0x45 then some EB_
  else none

/-- The two `switch`es, where the number ends at `endptr`. -/
def multiplier (str : Block UInt8) (endptr : Nat) : Option (Except Errno UInt64) := do
  let c ← str.read endptr
  if c = 0 then return .ok 1
  match if c = 0x20 then some 1 else unit c with
  | none => return .error .einval
  | some mult =>
    let d ← str.read (endptr + 1)
    if d = 0 ∨ d = 0x42 then return .ok mult
    if d = 0x62 then return .ok (mult / 8)
    if !isspace d then return .error .einval
    return .ok mult

/-- An error, or what `*ret` becomes. -/
def strtosize (str : Block UInt8) (base : Int) : Option (Except Errno UInt64) := do
  let r ← strtou64 str base
  let v := r.val.getD 0
  if let some e := r.ret then return .error e
  match ← r.endptr.elim (some (.ok 1)) (multiplier str) with
  | .error e => return .error e
  | .ok mult =>
    let res := v * mult
    if 0 < v ∧ (res < v ∨ res < mult) then return .error .erange
    return .ok res

/-- Success only with `n`, and an error when `n` is no 64-bit number. -/
structure NeverWraps (out : Option (Except Errno UInt64)) (n : Nat) : Prop where
  exact : ∀ x, out = some (.ok x) → x.toNat = n
  error : 2 ^ 64 ≤ n → ∃ e, out = some (.error e)

/-- Either the product fits, or what is left of it after the wrap is less than `v`. -/
def Sound (v m : Nat) : Prop := v < 2 ^ 64 / m ∨ v % (2 ^ 64 / m) * m < v

theorem wrapped {k : Nat} (hk : k ≤ 64) (v : Nat) :
    v * 2 ^ k % 2 ^ 64 = v % (2 ^ 64 / 2 ^ k) * 2 ^ k := by
  have hpow : 2 ^ (64 - k) * 2 ^ k = 2 ^ 64 := by rw [← Nat.pow_add, Nat.sub_add_cancel hk]
  rw [← hpow, Nat.mul_div_cancel _ (Nat.two_pow_pos k), Nat.mul_mod_mul_right]

theorem product_lt_iff {k : Nat} (hk : k ≤ 64) (v : Nat) :
    v * 2 ^ k < 2 ^ 64 ↔ v < 2 ^ 64 / 2 ^ k := by
  rw [Nat.lt_div_iff_mul_lt' (Nat.pow_dvd_pow 2 hk), Nat.mul_comm]

variable {v mult : UInt64} {k : Nat}

theorem neverWraps_iff {out : Option (Except Errno UInt64)} (hk : k ≤ 64)
    (hmult : mult.toNat = 2 ^ k) (hok : ¬ v * mult < v → out = some (.ok (v * mult)))
    (herr : v * mult < v → ∃ e, out = some (.error e)) :
    NeverWraps out (v.toNat * 2 ^ k) ↔ Sound v.toNat (2 ^ k) := by
  have hprod : (v * mult).toNat = v.toNat % (2 ^ 64 / 2 ^ k) * 2 ^ k := by
    rw [UInt64.toNat_mul, hmult, wrapped hk]
  have hlt : v * mult < v ↔ v.toNat % (2 ^ 64 / 2 ^ k) * 2 ^ k < v.toNat := by
    rw [UInt64.lt_iff_toNat_lt, hprod]
  rw [Sound, ← product_lt_iff hk, ← hlt]
  constructor
  · intro h
    by_contra hnot
    obtain ⟨hbig, hge⟩ := not_or.mp hnot
    obtain ⟨e, he⟩ := h.error (Nat.not_lt.mp hbig)
    rw [hok hge] at he
    cases he
  · rintro (hfit | hsmall)
    · have hexact : (v * mult).toNat = v.toNat * 2 ^ k := by
        rw [UInt64.toNat_mul, hmult, Nat.mod_eq_of_lt hfit]
      have hge : ¬ v * mult < v := by
        rw [UInt64.lt_iff_toNat_lt, hexact, Nat.not_lt]
        exact Nat.le_mul_of_pos_right _ (Nat.two_pow_pos k)
      refine ⟨fun x hx => ?_, fun hbig => absurd hfit (Nat.not_lt.mpr hbig)⟩
      rw [hok hge] at hx
      cases hx
      exact hexact
    · obtain ⟨e, he⟩ := herr hsmall
      refine ⟨fun x hx => ?_, fun _ => ⟨e, he⟩⟩
      rw [he] at hx
      cases hx

theorem test_iff (hk : k ≤ 64) (hmult : mult.toNat = 2 ^ k) :
    0 < v ∧ (v * mult < v ∨ v * mult < mult) ↔ v * mult < v := by
  have hprod : (v * mult).toNat = v.toNat % (2 ^ 64 / 2 ^ k) * 2 ^ k := by
    rw [UInt64.toNat_mul, hmult, wrapped hk]
  simp only [UInt64.lt_iff_toNat_lt, hprod, hmult, show (0 : UInt64).toNat = 0 from rfl]
  constructor
  · rintro ⟨hpos, hlt | hlt⟩
    · exact hlt
    · have hzero : v.toNat % (2 ^ 64 / 2 ^ k) = 0 :=
        Nat.lt_one_iff.mp (Nat.lt_of_mul_lt_mul_right (by rwa [Nat.one_mul]))
      rwa [hzero, Nat.zero_mul]
  · exact fun hlt => ⟨Nat.zero_lt_of_lt hlt, Or.inl hlt⟩

inductive Suffixed (u : Nat) : List UInt8 → Nat → Prop
  | plain : Suffixed u [] u
  | bytes {t : List UInt8} : Suffixed u (0x42 :: t) u
  | bits {t : List UInt8} : Suffixed u (0x62 :: t) (u / 8)
  | space {x : UInt8} {t : List UInt8} (h : isspace x = true) : Suffixed u (x :: t) u

theorem unit_spec {c : UInt8} {u : UInt64} (h : unit c = some u) :
    c ≠ 0 ∧ c ≠ 0x20 ∧ ∃ k, 10 ≤ k ∧ k ≤ 60 ∧ u.toNat = 2 ^ k := by
  have hne : c ≠ 0 ∧ c ≠ 0x20 := by
    constructor
    · rintro rfl
      cases h
    · rintro rfl
      cases h
  refine ⟨hne.1, hne.2, ?_⟩
  simp only [unit] at h
  split_ifs at h
  all_goals cases h
  · exact ⟨10, by decide, by decide, rfl⟩
  · exact ⟨20, by decide, by decide, rfl⟩
  · exact ⟨30, by decide, by decide, rfl⟩
  · exact ⟨40, by decide, by decide, rfl⟩
  · exact ⟨50, by decide, by decide, rfl⟩
  · exact ⟨60, by decide, by decide, rfl⟩

variable {b : Block UInt8} {p t : List UInt8} {c : UInt8} {u : UInt64} {m : Nat}

theorem multiplier_spec (hb : Terminated b (p ++ c :: t)) (hu : unit c = some u)
    (ht : Suffixed u.toNat t m) :
    ∃ mult : UInt64, ∃ k ≤ 64, multiplier b p.length = some (.ok mult) ∧ mult.toNat = m ∧
      m = 2 ^ k := by
  obtain ⟨hne, hsp, k, hlo, hhi, hk⟩ := unit_spec hu
  have hnext : b.read (p.length + 1) = some (t.headD 0) := by
    have hterm : Terminated b ((p ++ [c]) ++ t) := by
      rw [append_assoc]
      exact hb
    have hr := hterm.read_headD
    rwa [length_append, length_singleton] at hr
  rw [multiplier, hb.read, hnext]
  simp only [Option.bind_eq_bind, Option.bind_some, if_neg hne, if_neg hsp, hu]
  cases ht with
  | plain => exact ⟨u, k, by omega, rfl, rfl, hk⟩
  | bytes => exact ⟨u, k, by omega, rfl, rfl, hk⟩
  | bits =>
    refine ⟨u / 8, k - 3, by omega, rfl, UInt64.toNat_div u 8, ?_⟩
    rw [hk, show (8 : Nat) = 2 ^ 3 from rfl, Nat.pow_div (by omega) (by decide)]
  | @space x t h =>
    refine ⟨u, k, by omega, ?_, rfl, hk⟩
    have hx : ¬(x = 0 ∨ x = 0x42) ∧ ¬ x = 0x62 := by
      refine ⟨?_, ?_⟩
      · rintro (rfl | rfl)
        · cases h
        · cases h
      · rintro rfl
        cases h
    simp only [headD_cons, if_neg hx.1, if_neg hx.2, h, Bool.not_true, Bool.false_eq_true, if_false]
    rfl

variable {base : Int} {radix : Nat} {ws sign pre ds : List UInt8}

theorem strtosize_neverWraps_iff (h : Numeral base radix ws sign pre ds (c :: t))
    (hb : Terminated b (ws ++ (sign ++ (pre ++ (ds ++ c :: t)))))
    (hfit : Nat.ofDigits radix (ds.map value).reverse < 2 ^ 64) (hu : unit c = some u)
    (ht : Suffixed u.toNat t m) :
    NeverWraps (strtosize b base) (Nat.ofDigits radix (ds.map value).reverse * m) ↔
      Sound (Nat.ofDigits radix (ds.map value).reverse) m := by
  obtain ⟨v, hv, hnum⟩ := h.strtou64_fits hb hfit
  have hb' : Terminated b ((ws ++ (sign ++ (pre ++ ds))) ++ c :: t) := by
    simp only [append_assoc]
    exact hb
  obtain ⟨mult, k, hk, hmul, rfl, hpow⟩ := multiplier_spec hb' hu ht
  have hlen : (ws ++ (sign ++ (pre ++ ds))).length =
      ws.length + sign.length + pre.length + ds.length := by
    simp only [length_append]
    omega
  rw [hlen] at hmul
  have hrun : strtosize b base =
      some (if v * mult < v then .error .erange else .ok (v * mult)) := by
    rw [strtosize, hnum]
    simp only [Option.bind_eq_bind, Option.bind_some, Option.elim_some, Option.getD_some, hmul,
      test_iff hk hpow]
    split <;> rfl
  rw [← hv, hpow]
  exact neverWraps_iff hk hpow (fun hge => by rw [hrun, if_neg hge])
    fun hlt => ⟨.erange, by rw [hrun, if_pos hlt]⟩

end PortableLib.StrToSize
