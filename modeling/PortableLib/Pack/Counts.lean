import PortableLib.Pack.Pieces
import PortableLib.Pack.Safety

/-! The repeat counts of a format. The loop of `__len_prefix` tests the character that it has read
once, so it stops at the letter after one digit and not otherwise. -/

namespace PortableLib.Pack
open List

/-- How `__len_prefix` ends: with a count, the number of characters that `fmt` has moved on and
what is in `c`, or with the return of `-E2BIG`. -/
inductive LenEnd
  | count (nn skipped : Nat) (c : UInt8)
  | tooBig
  deriving DecidableEq, Repr

/-- The loop of `__len_prefix` for at most `fuel` rounds. Only its head assigns `c`. -/
def lenRounds (c : UInt8) : Nat → Nat → Nat → Option LenEnd
  | 0, _, _ => none
  | fuel + 1, nn, skipped =>
    if c = 0 ∨ isdigit c = false then some (.count nn skipped c)
    else if nn > 1844674407370955161 ∨ nn = 1844674407370955161 ∧ digit c > 5 then some .tooBig
    else lenRounds c fuel (nn * 10 + digit c) (skipped + 1)

/-- `__len_prefix` on the format from its first digit on. -/
def lenMacro (text : List UInt8) (fuel : Nat) : Option LenEnd :=
  lenRounds (text.getD 1 0) fuel (digit (text.getD 0 0)) 1

section Macro
variable {c d t : UInt8} {rest : List UInt8}

theorem ne_zero_of_isdigit (hc : isdigit c = true) : c ≠ 0 := by
  rintro rfl
  cases hc

theorem lenRounds_digit (hc : isdigit c = true) (fuel nn skipped : Nat) :
    lenRounds c fuel nn skipped = (lenLoop (digit c) fuel nn).map fun _ => .tooBig := by
  have hgo : ¬ (c = 0 ∨ isdigit c = false) := by
    rw [hc, not_or]
    exact ⟨ne_zero_of_isdigit hc, Bool.true_eq_false.mp⟩
  induction fuel generalizing nn skipped with
  | zero => rfl
  | succ fuel ih =>
    rw [lenRounds, lenLoop, if_neg hgo]
    split_ifs
    · rfl
    · rw [ih, Option.map_map]
      rfl

theorem lenRounds_stop (hc : c = 0 ∨ isdigit c = false) (nn skipped : Nat) :
    lenRounds c 1 nn skipped = some (.count nn skipped c) := by
  rw [lenRounds, if_pos hc]

theorem digit_eq_zero_iff (hc : isdigit c = true) : digit c = 0 ↔ c = 48 := by
  rw [isdigit, Bool.and_eq_true, decide_eq_true_eq, decide_eq_true_eq,
    UInt8.le_iff_toNat_le] at hc
  have hlow : 48 ≤ c.toNat := hc.1
  rw [digit, ← UInt8.toNat_inj, show (48 : UInt8).toNat = 48 from rfl]
  omega

theorem lenLoop_ends_iff (hc : isdigit c = true) (hd : isdigit d = true) :
    (∃ fuel k, lenLoop (digit d) fuel (digit c) = some k) ↔ ¬ (c = 48 ∧ d = 48) := by
  rw [← digit_eq_zero_iff hc, ← digit_eq_zero_iff hd,
    ← lenLoop_eq_none_iff (digit_le hc) (digit_le hd)]
  constructor
  · rintro ⟨fuel, k, hk⟩ hnone
    obtain ⟨hc0, hd0⟩ := (lenLoop_eq_none_iff (digit_le hc) (digit_le hd)).mp hnone
    rw [hc0, hd0, lenLoop_zeros] at hk
    cases hk
  · intro hsome
    obtain ⟨k, hk⟩ := Option.ne_none_iff_exists'.mp hsome
    exact ⟨21, k, hk⟩

theorem lenPrefix_eq_macro (hc : isdigit c = true) (rest : List UInt8) :
    match lenPrefix c rest with
    | .ok nn => ∃ fuel, lenMacro (c :: rest) fuel = some (.count nn 1 (rest.getD 0 0))
    | .error (.tooBig _) => ∃ fuel, lenMacro (c :: rest) fuel = some .tooBig
    | .error _ => ∀ fuel, lenMacro (c :: rest) fuel = none := by
  cases rest with
  | nil => exact ⟨1, lenRounds_stop (.inl rfl) (digit c) 1⟩
  | cons t rest =>
    have hrounds : ∀ fuel, lenMacro (c :: t :: rest) fuel = lenRounds t fuel (digit c) 1 :=
      fun _ => rfl
    by_cases ht : isdigit t = true
    · simp only [lenPrefix, ht, if_true, hrounds, lenRounds_digit ht]
      cases hloop : lenLoop (digit t) 21 (digit c) with
      | none =>
        obtain ⟨hc0, ht0⟩ := (lenLoop_eq_none_iff (digit_le hc) (digit_le ht)).mp hloop
        intro fuel
        rw [hc0, ht0, lenLoop_zeros]
        rfl
      | some k => exact ⟨21, by rw [hloop]; rfl⟩
    · rw [lenPrefix, if_neg ht]
      exact ⟨1, lenRounds_stop (.inr (Bool.eq_false_iff.mpr ht)) (digit c) 1⟩

end Macro

def decimal (ds : List UInt8) : Nat := ds.foldl (fun n d => 10 * n + digit d) 0

theorem decimal_singleton (d : UInt8) : decimal [d] = digit d := by
  rw [decimal, foldl_cons, foldl_nil, Nat.mul_zero, Nat.zero_add]

/-- The macro ends, with the value of the digits and `fmt` on the letter behind them; it returns
`-E2BIG` only if the value has more than 32 bits. -/
def ReadsDecimal (ds : List UInt8) (t : Letter) (rest : List UInt8) : Prop :=
  ∃ fuel r, lenMacro (ds ++ t.char :: rest) fuel = some r ∧
    (r = .count (decimal ds) ds.length t.char ∨ r = .tooBig ∧ 2 ^ 32 ≤ decimal ds)

/-- A count is read as a decimal number exactly if it has one digit, or if it has to be refused and
does not start with two zeros. -/
theorem reads_decimal_iff (ds : List UInt8) (hne : ds ≠ []) (hds : ∀ d ∈ ds, isdigit d = true)
    (t : Letter) (rest : List UInt8) :
    ReadsDecimal ds t rest ↔
      ds.length = 1 ∨ 2 ^ 32 ≤ decimal ds ∧ ¬ [48, 48] <+: ds := by
  match ds with
  | [] => exact absurd rfl hne
  | [d] =>
    obtain ⟨-, -, hdigit, -⟩ := char_class t
    refine iff_of_true ⟨1, _, lenRounds_stop (.inr hdigit) (digit d) 1, .inl ?_⟩ (.inl rfl)
    rw [decimal_singleton]
    rfl
  | c :: d :: ds =>
    rw [forall_mem_cons, forall_mem_cons] at hds
    obtain ⟨hc, hd, -⟩ := hds
    have hrounds : ∀ fuel, lenMacro (c :: d :: ds ++ t.char :: rest) fuel =
        (lenLoop (digit d) fuel (digit c)).map fun _ => .tooBig :=
      fun fuel => lenRounds_digit hd fuel (digit c) 1
    have hlen : ¬ (c :: d :: ds).length = 1 := by
      simp only [length_cons]
      omega
    have hzeros : [48, 48] <+: c :: d :: ds ↔ c = 48 ∧ d = 48 := by
      rw [cons_prefix_cons, cons_prefix_cons, and_iff_left nil_prefix, eq_comm,
        eq_comm (a := (48 : UInt8)) (b := d)]
    rw [or_iff_right hlen, hzeros, ← lenLoop_ends_iff hc hd]
    constructor
    · rintro ⟨fuel, r, hr, hread⟩
      rw [hrounds] at hr
      obtain ⟨k, hk, rfl⟩ := Option.map_eq_some_iff.mp hr
      rcases hread with hread | ⟨-, hbig⟩
      · cases hread
      · exact ⟨hbig, fuel, k, hk⟩
    · rintro ⟨hbig, fuel, k, hk⟩
      exact ⟨fuel, _, by rw [hrounds, hk]; rfl, .inr ⟨rfl, hbig⟩⟩

theorem reads_decimal_seven : ReadsDecimal [55] .B [] :=
  (reads_decimal_iff [55] (by decide) (forall_mem_singleton.mpr rfl) .B []).mpr (.inl rfl)

/-- The count of `16B`, and the template `16B * L 32S` of the documentation. -/
theorem sixteen_not_read :
    ¬ ReadsDecimal [49, 54] .B [32, 42, 32, 76, 32, 51, 50, 83] ∧
      lenMacro [49, 54, 66, 32, 42, 32, 76, 32, 51, 50, 83] 21 = some .tooBig ∧
      ∀ args cap, pack [49, 54, 66, 32, 42, 32, 76, 32, 51, 50, 83] args cap =
        .error (.tooBig true) := by
  refine ⟨?_, by decide, fun _ _ => rfl⟩
  rintro ⟨fuel, r, hr, hread⟩
  have hrounds : lenMacro [49, 54, 66, 32, 42, 32, 76, 32, 51, 50, 83] fuel =
      (lenLoop 6 fuel 1).map fun _ => .tooBig := lenRounds_digit rfl fuel 1 1
  rw [cons_append, cons_append, nil_append] at hr
  obtain ⟨k, -, rfl⟩ := Option.map_eq_some_iff.mp (hrounds.symm.trans hr)
  rcases hread with hread | ⟨-, hbig⟩
  · cases hread
  · exact absurd hbig (by decide)

end PortableLib.Pack
