import Mathlib.Algebra.Order.Field.Basic
import Mathlib.Algebra.Order.Field.Rat
import Mathlib.Tactic.FieldSimp
import Mathlib.Tactic.IntervalCases
import Mathlib.Tactic.Linarith
import PortableLib.ParseIp.Mask

/-! Sizes as texts for people, `humanize_size`. The digits behind the point are the first two of the
remainder, however many digits the remainder has. -/

namespace PortableLib.Humanize
open List Gstring ParseIp
open Gstring.Escape (isdigit)
open StrToSize (value)

structure DivisorPair where
  sz : UInt64
  suffix : List UInt8

def kB : UInt64 := 1024

def MB : UInt64 := 1024 * kB

def GB : UInt64 := 1024 * MB

def TB : UInt64 := 1024 * GB

def PB : UInt64 := 1024 * TB

def EB : UInt64 := 1024 * PB

def divisors : List DivisorPair :=
  [⟨EB, [0x45, 0x42]⟩, ⟨PB, [0x50, 0x42]⟩, ⟨TB, [0x54, 0x42]⟩, ⟨GB, [0x47, 0x42]⟩,
    ⟨MB, [0x4d, 0x42]⟩, ⟨kB, [0x6b, 0x42]⟩]

/-- The text with a remainder; `frac` has room for all its digits, and `%2.2s` prints two
characters. -/
def withFraction (n m : Nat) (suffix : List UInt8) : List UInt8 :=
  let frac := decimal m
  decimal n ++ 0x2e :: ((frac.take 2).leftpad 2 0x20 ++ 0x20 :: suffix)

/-- The text for a size above `p.sz`. -/
def scaled (p : DivisorPair) (nbytes : UInt64) : List UInt8 :=
  let n := nbytes / p.sz
  let m := nbytes % p.sz
  if 0 < m then withFraction n.toNat m.toNat p.suffix
  else decimal n.toNat ++ 0x20 :: p.suffix

/-- What is printed; the loop over the divisors ends with `bytes`. -/
def text : List DivisorPair → UInt64 → List UInt8
  | [], nbytes => decimal nbytes.toNat ++ [0x20, 0x62, 0x79, 0x74, 0x65, 0x73]
  | p :: ps, nbytes => if p.sz < nbytes then scaled p nbytes else text ps nbytes

def humanizeSize (buf : Block UInt8) (bufsize : Nat) (nbytes : UInt64) : Option (Block UInt8) :=
  snprintf buf bufsize (text divisors nbytes)

def fraction : List UInt8 → ℚ
  | [] => 0
  | c :: r =>
    if c = 0x2e then number (r.takeWhile isdigit) / 10 ^ (r.takeWhile isdigit).length else 0

def printed (t : List UInt8) : ℚ :=
  number (t.takeWhile isdigit) + fraction (t.dropWhile isdigit)

def unitOf (t : List UInt8) : Nat :=
  (divisors.find? fun p => p.suffix.isSuffixOf t).elim 1 fun p => p.sz.toNat

def Near (t : List UInt8) (n : Nat) : Prop :=
  |printed t * unitOf t - n| < (unitOf t : ℚ) / 100

/-- In every buffer with room for it, the text stands for a value close to `nbytes`. -/
def PrintsClose (nbytes : UInt64) : Prop :=
  ∀ (buf : Block UInt8) (bufsize : Nat), bufsize ≤ buf.len →
    (text divisors nbytes).length < bufsize →
      ∃ b, humanizeSize buf bufsize nbytes = some b ∧ Terminated b (text divisors nbytes) ∧
        Near (text divisors nbytes) nbytes.toNat

/-- The remainder `m` by `1024 ^ j` has `3 * j` digits, of which the first two are not too many
hundredths. -/
def Leads (j m : Nat) : Prop :=
  10 ^ (3 * j - 1) ≤ m ∧ m < 10 ^ (3 * j) ∧ (m / 10 ^ (3 * j - 2) - 1) * 1024 ^ j < 100 * m

/-- No fraction, one of a single digit, which is not printed next to the point, or one whose first
digits are right. -/
def Suits (n : Nat) : Prop :=
  n ≤ 1024 ∨ ∃ j, 1 ≤ j ∧ j ≤ 6 ∧ 1024 ^ j < n ∧ (j < 6 → n ≤ 1024 ^ (j + 1)) ∧
    (n % 1024 ^ j < 10 ∨ Leads j (n % 1024 ^ j))

variable {m t k U P Q q : Nat}

theorem hundredths_iff (hlo : 100 * Q ≤ U) (hhi : U < 120 * Q) (hm : m < U) (hP : 10 * P ≤ m)
    (htwo : m < 100 * P) (hcase : 10 * P ≤ Q ∨ P = Q ∨ 10 * Q ≤ P) :
    m / P * U < 100 * m + U ∧ 100 * m < m / P * U + U ↔
      10 * Q ≤ m ∧ m < 100 * Q ∧ (m / Q - 1) * U < 100 * m := by
  have hpos : 0 < P := by omega
  have hlead := Nat.div_add_mod m P
  have hrem := Nat.mod_lt m hpos
  have hten : 10 ≤ m / P := (Nat.le_div_iff_mul_le hpos).mpr hP
  have hstep : (m / P - 1) * U + U = m / P * U := by
    rw [← Nat.succ_mul, Nat.succ_eq_add_one, Nat.sub_add_cancel (by omega)]
  have hupper : m < P * (m / P + 1) := by
    rw [Nat.mul_add_one]
    omega
  rcases hcase with hsmall | rfl | hlarge
  · have hbig : 100 * m ≤ (m / P - 1) * U := by
      have hscale : (m / P + 1) * (10 * P) ≤ (m / P + 1) * Q := Nat.mul_le_mul_left _ hsmall
      have hunit : (m / P + 1) * (100 * Q) ≤ (m / P + 1) * U := Nat.mul_le_mul_left _ hlo
      have hnine : 10 * U ≤ m / P * U := Nat.mul_le_mul_right U hten
      nlinarith only [hscale, hunit, hnine, hupper, hstep]
    exact iff_of_false (fun h => by omega) (fun h => by omega)
  · have hhigh : 100 * m < m / P * U + U := by
      have hunit : (m / P + 1) * (100 * P) ≤ (m / P + 1) * U := Nat.mul_le_mul_left _ hlo
      nlinarith only [hunit, hupper]
    constructor
    · rintro ⟨hlow, -⟩
      exact ⟨hP, htwo, by omega⟩
    · rintro ⟨-, -, hlow⟩
      exact ⟨by omega, hhigh⟩
  · have hbig : m / P * U + U ≤ 100 * m := by
      have htwelve : m / P < 12 := (Nat.div_lt_iff_lt_mul hpos).mpr (by omega)
      have hunit : (m / P + 1) * U ≤ 12 * U := Nat.mul_le_mul_right U htwelve
      nlinarith only [hunit, hhi, hlarge, hP]
    exact iff_of_false (fun h => by omega) (fun h => by omega)

theorem length_decimal (hm : 10 ≤ m) :
    2 ≤ (decimal m).length ∧ 10 ^ ((decimal m).length - 1) ≤ m ∧ m < 10 ^ (decimal m).length := by
  have hlen : (decimal m).length = (Nat.toDigits 10 m).length := length_map _
  have hle : ∀ k, 0 < k → ((decimal m).length ≤ k ↔ m < 10 ^ k) := by
    intro k hk
    rw [hlen]
    exact Nat.length_toDigits_le_iff (by decide) hk
  have htwo : 2 ≤ (decimal m).length := by
    by_contra hlt
    have hone := (hle 1 Nat.one_pos).mp (by omega)
    omega
  refine ⟨htwo, ?_, (hle _ (by omega)).mp (Nat.le_refl _)⟩
  by_contra hlt
  have hshort := (hle _ (by omega)).mpr (Nat.lt_of_not_le hlt)
  omega

theorem number_take (m k : Nat) :
    number ((decimal m).take k) = m / 10 ^ ((decimal m).length - k) := by
  have hdigits : ∀ d ∈ ((decimal m).map value).reverse, d < 10 := by
    intro d hd
    obtain ⟨c, hc, rfl⟩ := mem_map.mp (mem_reverse.mp hd)
    exact (digit_spec ((number_decimal m).1 c hc)).2.1
  have hvalue : Nat.ofDigits 10 ((decimal m).map value).reverse = m := (number_decimal m).2
  rw [number, map_take, reverse_take, length_map,
    ← Nat.ofDigits_div_pow_eq_ofDigits_drop _ (by decide) _ hdigits, hvalue]

variable {o f : List UInt8} {c : UInt8} {r : List UInt8}

theorem takeWhile_digits (ho : ∀ c ∈ o, isdigit c = true) (hc : isdigit c = false) :
    (o ++ c :: r).takeWhile isdigit = o ∧ (o ++ c :: r).dropWhile isdigit = c :: r := by
  have hstop : ¬ isdigit c = true := by simp [hc]
  constructor
  · rw [takeWhile_append_of_pos ho, takeWhile_cons_of_neg hstop, append_nil]
  · rw [dropWhile_append_of_pos ho, dropWhile_cons_of_neg hstop]

theorem printed_whole (n : Nat) (hc : isdigit c = false) (hpoint : c ≠ 0x2e) :
    printed (decimal n ++ c :: r) = n := by
  obtain ⟨htake, hdrop⟩ := takeWhile_digits (r := r) (number_decimal n).1 hc
  rw [printed, htake, hdrop, (number_decimal n).2, fraction, if_neg hpoint, add_zero]

theorem printed_point (n : Nat) (hf : ∀ c ∈ f, isdigit c = true) (hc : isdigit c = false) :
    printed (decimal n ++ 0x2e :: (f ++ c :: r)) = n + (number f : ℚ) / 10 ^ f.length := by
  have hpoint : isdigit 0x2e = false := by decide
  obtain ⟨htake, hdrop⟩ := takeWhile_digits (r := f ++ c :: r) (number_decimal n).1 hpoint
  obtain ⟨hfrac, -⟩ := takeWhile_digits (r := r) hf hc
  rw [printed, htake, hdrop, (number_decimal n).2, fraction, if_pos rfl, hfrac]

theorem unitOf_append (p : DivisorPair) (hp : p ∈ divisors) (t : List UInt8) :
    unitOf (t ++ 0x20 :: p.suffix) = p.sz.toNat := by
  simp only [divisors, mem_cons, not_mem_nil, or_false] at hp
  rcases hp with rfl | rfl | rfl | rfl | rfl | rfl <;>
    simp [unitOf, divisors, isSuffixOf, isPrefixOf]

theorem near_iff {n : Nat} {t : List UInt8} (hU : unitOf t = U) (hn : q * U + m = n) {f : Nat}
    (ht : printed t = q + (f : ℚ) / 100) :
    Near t n ↔ f * U < 100 * m + U ∧ 100 * m < f * U + U := by
  have hdiff : printed t * unitOf t - n = ((f * U : Nat) - (100 * m : Nat) : ℚ) / 100 := by
    rw [ht, hU, ← hn]
    push_cast
    ring
  rw [Near, hdiff, hU, abs_div, abs_of_pos (by norm_num : (0 : ℚ) < 100),
    div_lt_div_iff_of_pos_right (by norm_num), abs_sub_lt_iff, sub_lt_iff_lt_add',
    sub_lt_iff_lt_add']
  norm_cast

theorem unit_bounds {j : Nat} (h1 : 1 ≤ j) (h6 : j ≤ 6) :
    100 * 10 ^ (3 * j - 2) ≤ 1024 ^ j ∧ 1024 ^ j < 120 * 10 ^ (3 * j - 2) ∧
      10 * 10 ^ (3 * j - 2) = 10 ^ (3 * j - 1) ∧ 100 * 10 ^ (3 * j - 2) = 10 ^ (3 * j) := by
  interval_cases j <;> decide

section
variable {p : DivisorPair} {n : Nat}

theorem isdigit_space : isdigit 0x20 = false := by decide

theorem near_whole (hp : p ∈ divisors) (hn : q * p.sz.toNat + m = n) (hm : 100 * m < p.sz.toNat) :
    Near (decimal q ++ 0x20 :: p.suffix) n := by
  have hprint := printed_whole (r := p.suffix) q isdigit_space (by decide)
  refine (near_iff (unitOf_append p hp _) hn (f := 0) ?_).mpr ⟨by omega, by omega⟩
  rw [hprint]
  simp

theorem near_single (hp : p ∈ divisors) (hn : q * p.sz.toNat + m = n)
    (hm : 100 * m < p.sz.toNat) (hten : m < 10) : Near (withFraction q m p.suffix) n := by
  have hone : (decimal m).length = 1 := by
    rw [decimal, Nat.toDigits_of_lt_base hten]
    rfl
  obtain ⟨d, hd⟩ := length_eq_one_iff.mp hone
  have htext : withFraction q m p.suffix =
      decimal q ++ 0x2e :: ([] ++ 0x20 :: d :: 0x20 :: p.suffix) := by
    rw [withFraction, hd]
    rfl
  have hunit : unitOf (withFraction q m p.suffix) = p.sz.toNat := by
    have hend := unitOf_append p hp (decimal q ++ [0x2e, 0x20, d])
    rw [append_assoc] at hend
    rw [htext]
    exact hend
  refine (near_iff hunit hn (f := 0) ?_).mpr ⟨by omega, by omega⟩
  rw [htext, printed_point q (fun _ h => absurd h not_mem_nil) isdigit_space]
  simp [number]

theorem near_digits (hp : p ∈ divisors) (hn : q * p.sz.toNat + m = n) (hten : 10 ≤ m) :
    Near (withFraction q m p.suffix) n ↔
      m / 10 ^ ((decimal m).length - 2) * p.sz.toNat < 100 * m + p.sz.toNat ∧
        100 * m < m / 10 ^ ((decimal m).length - 2) * p.sz.toNat + p.sz.toNat := by
  obtain ⟨htwo, -⟩ := length_decimal hten
  have hlen : ((decimal m).take 2).length = 2 := by rw [length_take, Nat.min_eq_left htwo]
  have hpad : ((decimal m).take 2).leftpad 2 0x20 = (decimal m).take 2 := by
    rw [leftpad, hlen, Nat.sub_self, replicate_zero, nil_append]
  have hdigits : ∀ c ∈ (decimal m).take 2, isdigit c = true :=
    fun c hc => (number_decimal m).1 c (mem_of_mem_take hc)
  have hunit := unitOf_append p hp (decimal q ++ 0x2e :: (decimal m).take 2)
  rw [append_assoc, cons_append] at hunit
  rw [withFraction, hpad]
  refine near_iff hunit hn ?_
  rw [printed_point q hdigits isdigit_space, hlen, number_take]
  norm_num

theorem pow_cases (i l : Nat) : 10 * 10 ^ i ≤ 10 ^ l ∨ 10 ^ i = 10 ^ l ∨ 10 * 10 ^ l ≤ 10 ^ i := by
  rcases Nat.lt_trichotomy i l with hlt | rfl | hgt
  · rw [← Nat.pow_succ']
    exact Or.inl (Nat.pow_le_pow_right (by decide) hlt)
  · exact Or.inr (Or.inl rfl)
  · rw [← Nat.pow_succ' (n := l)]
    exact Or.inr (Or.inr (Nat.pow_le_pow_right (by decide) hgt))

theorem near_digits_iff (hp : p ∈ divisors) {j : Nat} (h1 : 1 ≤ j) (h6 : j ≤ 6)
    (hsz : p.sz.toNat = 1024 ^ j) (hn : q * p.sz.toNat + m = n) (hten : 10 ≤ m)
    (hm : m < p.sz.toNat) : Near (withFraction q m p.suffix) n ↔ Leads j m := by
  obtain ⟨hlo, hhi, hQ1, hQ⟩ := unit_bounds h1 h6
  obtain ⟨htwo, hlow, hhigh⟩ := length_decimal hten
  rw [near_digits hp hn hten]
  rw [hsz] at hm ⊢
  have hcase := pow_cases ((decimal m).length - 2) (3 * j - 2)
  have hP1 : 10 * 10 ^ ((decimal m).length - 2) = 10 ^ ((decimal m).length - 1) := by
    rw [← Nat.pow_succ']
    congr 1
    omega
  have hP2 : 100 * 10 ^ ((decimal m).length - 2) = 10 ^ (decimal m).length := by
    rw [show (100 : Nat) = 10 ^ 2 from rfl, ← Nat.pow_add]
    congr 1
    omega
  rw [hundredths_iff hlo hhi hm (hP1.trans_le hlow) (hhigh.trans_eq hP2.symm) hcase, hQ1, hQ, Leads]

theorem near_scaled (hp : p ∈ divisors) {j : Nat} (h1 : 1 ≤ j) (h6 : j ≤ 6)
    (hsz : p.sz.toNat = 1024 ^ j) (nbytes : UInt64) :
    Near (scaled p nbytes) nbytes.toNat ↔
      nbytes.toNat % 1024 ^ j < 10 ∨ Leads j (nbytes.toNat % 1024 ^ j) := by
  have hn : (nbytes / p.sz).toNat * p.sz.toNat + (nbytes % p.sz).toNat = nbytes.toNat := by
    rw [UInt64.toNat_div, UInt64.toNat_mod, Nat.mul_comm]
    exact Nat.div_add_mod _ _
  have hlarge : 1024 ≤ p.sz.toNat := hsz ▸ Nat.le_self_pow (Nat.one_le_iff_ne_zero.mp h1) _
  have hm : (nbytes % p.sz).toNat < p.sz.toNat := by
    rw [UInt64.toNat_mod]
    exact Nat.mod_lt _ (Nat.lt_of_lt_of_le (by decide) hlarge)
  have hpos : 0 < nbytes % p.sz ↔ 0 < (nbytes % p.sz).toNat := UInt64.lt_iff_toNat_lt
  have hrem : nbytes.toNat % 1024 ^ j = (nbytes % p.sz).toNat := by rw [UInt64.toNat_mod, hsz]
  rw [scaled, hrem, if_congr hpos rfl rfl]
  generalize (nbytes % p.sz).toNat = m at hn hm
  by_cases hten : m < 10
  · refine iff_of_true ?_ (Or.inl hten)
    split_ifs with hzero
    · exact near_single hp hn (by omega) hten
    · exact near_whole hp hn (by omega)
  · rw [if_pos (by omega), or_iff_right hten]
    exact near_digits_iff hp h1 h6 hsz hn (Nat.le_of_not_lt hten) hm

end

theorem text_cases (nbytes : UInt64) :
    (nbytes.toNat ≤ 1024 ∧ text divisors nbytes = text [] nbytes) ∨
      ∃ j p, 1 ≤ j ∧ j ≤ 6 ∧ p ∈ divisors ∧ p.sz.toNat = 1024 ^ j ∧ 1024 ^ j < nbytes.toNat ∧
        (j < 6 → nbytes.toNat ≤ 1024 ^ (j + 1)) ∧ text divisors nbytes = scaled p nbytes := by
  have hlt : ∀ {s : UInt64} {u : Nat}, s.toNat = u → (s < nbytes ↔ u < nbytes.toNat) := by
    rintro s u rfl
    exact UInt64.lt_iff_toNat_lt
  have h6 : EB.toNat = 1024 ^ 6 := by decide
  have h5 : PB.toNat = 1024 ^ 5 := by decide
  have h4 : TB.toNat = 1024 ^ 4 := by decide
  have h3 : GB.toNat = 1024 ^ 3 := by decide
  have h2 : MB.toNat = 1024 ^ 2 := by decide
  have h1 : kB.toNat = 1024 ^ 1 := by decide
  simp only [divisors, text, hlt h6, hlt h5, hlt h4, hlt h3, hlt h2, hlt h1]
  split_ifs with c6 c5 c4 c3 c2 c1
  · exact Or.inr ⟨6, _, by decide, by decide, by simp, h6, c6, fun h => absurd h (by decide), rfl⟩
  · exact Or.inr ⟨5, _, by decide, by decide, by simp, h5, c5, fun _ => Nat.not_lt.mp c6, rfl⟩
  · exact Or.inr ⟨4, _, by decide, by decide, by simp, h4, c4, fun _ => Nat.not_lt.mp c5, rfl⟩
  · exact Or.inr ⟨3, _, by decide, by decide, by simp, h3, c3, fun _ => Nat.not_lt.mp c4, rfl⟩
  · exact Or.inr ⟨2, _, by decide, by decide, by simp, h2, c2, fun _ => Nat.not_lt.mp c3, rfl⟩
  · exact Or.inr ⟨1, _, by decide, by decide, by simp, h1, c1, fun _ => Nat.not_lt.mp c2, rfl⟩
  · exact Or.inl ⟨Nat.not_lt.mp c1, rfl⟩

theorem suits_iff {j n : Nat} (h1 : 1 ≤ j) (h6 : j ≤ 6) (hlt : 1024 ^ j < n)
    (hle : j < 6 → n ≤ 1024 ^ (j + 1)) :
    Suits n ↔ n % 1024 ^ j < 10 ∨ Leads j (n % 1024 ^ j) := by
  have hsmall : ¬ n ≤ 1024 :=
    Nat.not_le.mpr (lt_of_le_of_lt (Nat.le_self_pow (Nat.one_le_iff_ne_zero.mp h1) _) hlt)
  rw [Suits, or_iff_right hsmall]
  constructor
  · rintro ⟨i, hi1, hi6, hilt, hile, hfit⟩
    have hij : i = j := by
      rcases Nat.lt_trichotomy i j with hi | heq | hi
      · have hpow : 1024 ^ (i + 1) ≤ 1024 ^ j := Nat.pow_le_pow_right (by decide) hi
        have := hile (by omega)
        omega
      · exact heq
      · have hpow : 1024 ^ (j + 1) ≤ 1024 ^ i := Nat.pow_le_pow_right (by decide) hi
        have := hle (by omega)
        omega
    exact hij ▸ hfit
  · exact fun hfit => ⟨j, h1, h6, hlt, hle, hfit⟩

theorem unitOf_bytes (t : List UInt8) : unitOf (t ++ [0x20, 0x62, 0x79, 0x74, 0x65, 0x73]) = 1 := by
  simp [unitOf, divisors, isSuffixOf, isPrefixOf]

theorem near_text_iff (nbytes : UInt64) :
    Near (text divisors nbytes) nbytes.toNat ↔ Suits nbytes.toNat := by
  obtain ⟨hle, htext⟩ | ⟨j, p, h1, h6, hp, hsz, hlt, hle, htext⟩ := text_cases nbytes
  · refine iff_of_true ?_ (Or.inl hle)
    rw [htext, text, Near, unitOf_bytes, printed_whole _ isdigit_space (by decide)]
    norm_num
  · rw [htext, near_scaled hp h1 h6 hsz, suits_iff h1 h6 hlt hle]

theorem zero_notMem_decimal (n : Nat) : 0 ∉ decimal n :=
  fun h => (digit_spec ((number_decimal n).1 0 h)).2.2.1 rfl

theorem zero_notMem_text (nbytes : UInt64) : 0 ∉ text divisors nbytes := by
  obtain ⟨-, htext⟩ | ⟨j, p, -, -, hp, -, -, -, htext⟩ := text_cases nbytes
  · rw [htext, text, mem_append, not_or]
    exact ⟨zero_notMem_decimal _, by simp⟩
  · have hsuffix : 0 ∉ 0x20 :: p.suffix := by
      simp only [divisors, mem_cons, not_mem_nil, or_false] at hp
      rcases hp with rfl | rfl | rfl | rfl | rfl | rfl <;> simp
    have hpad : ∀ m, 0 ∉ ((decimal m).take 2).leftpad 2 0x20 := by
      intro m hmem
      rcases mem_append.mp hmem with hblank | hdigit
      · exact absurd (eq_of_mem_replicate hblank) (by decide)
      · exact zero_notMem_decimal m (mem_of_mem_take hdigit)
    rw [htext, scaled]
    split_ifs
    · rw [withFraction, mem_append, mem_cons, mem_append, not_or, not_or, not_or]
      exact ⟨zero_notMem_decimal _, by decide, hpad _, hsuffix⟩
    · rw [mem_append, not_or]
      exact ⟨zero_notMem_decimal _, hsuffix⟩

/-- Of 2024 bytes 1.10 kB are printed. -/
theorem humanizeSize_2024 : ¬ PrintsClose 2024 := by
  intro h
  obtain ⟨b, -, -, hnear⟩ := h ⟨64, fun _ => 0⟩ 64 (Nat.le_refl _) (by decide)
  have hsuits := (near_text_iff 2024).mp hnear
  rw [suits_iff (j := 1) (by decide) (by decide) (by decide) (by decide), Leads] at hsuits
  exact absurd hsuits (by decide)

/-- The printed value is close exactly for the sizes whose remainder has digits in the right
places. -/
theorem printsClose_iff (nbytes : UInt64) : PrintsClose nbytes ↔ Suits nbytes.toNat := by
  rw [← near_text_iff]
  constructor
  · intro h
    obtain ⟨b, -, -, hnear⟩ := h ⟨(text divisors nbytes).length + 1, fun _ => 0⟩ _ (Nat.le_refl _)
      (Nat.lt_succ_self _)
    exact hnear
  · intro hnear buf bufsize hroom hfit
    obtain ⟨b, hrun, hterm⟩ := snprintf_spec (zero_notMem_text nbytes) hfit hroom
    exact ⟨b, hrun, hterm, hnear⟩

end PortableLib.Humanize
