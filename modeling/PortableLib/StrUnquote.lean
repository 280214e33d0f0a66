import PortableLib.Gstring.Refinement

/-! Quotes taken off a string in place, `strunquote.c`. The length is that of the string after the
opening quote, and one less than that is taken for the index of the closing one. Neither pointer is
null. -/

namespace PortableLib.StrUnquote
open Gstring List

variable {s : List UInt8}

def readAt (s : Block UInt8) (i : Int) : Option UInt8 := if 0 ≤ i then s.read i.toNat else none

def writeAt (s : Block UInt8) (i : Int) (c : UInt8) : Option (Block UInt8) :=
  if 0 ≤ i then s.write i.toNat c else none

def IsQuote (c : UInt8) : Prop := c = 0x22 ∨ c = 0x27

instance (c : UInt8) : Decidable (IsQuote c) := inferInstanceAs (Decidable (_ ∨ _))

theorem IsQuote.ne_zero {c : UInt8} (h : IsQuote c) : c ≠ 0 := by
  rintro rfl
  exact absurd h (by decide)

/-- The length of `m` characters as an `int`. -/
def toInt (m : Nat) : Int := (Int32.ofNat m).toInt

/-- The result, the string, and where `*p_ret` points to if it is set. -/
def strunquote (s : Block UInt8) : Option (Int × Block UInt8 × Option Nat) := do
  let q ← s.read 0
  if ¬ IsQuote q then return (0, s, none)
  let n := toInt ((← strlen s s.len 1) - 1)
  if (← readAt s (n - 1)) ≠ q then return (-1, s, none)
  let s ← writeAt s (n - 1) 0
  return (q.toNat, s, some 1)

/-- Matched quotes come off, and a string without the closing one is refused and stays. No access is
outside the block, which ends with the terminator. -/
def Unquotes (s : List UInt8) : Prop :=
  ∃ r b p, strunquote (cstr s) = some (r, b, p) ∧
    (∀ q body, IsQuote q → s = q :: body ++ [q] →
      r = q.toNat ∧ ∃ i, p = some i ∧ Terminated (b.shift i) body) ∧
    ∀ q t, IsQuote q → s = q :: t → s.getLast? ≠ some q → r < 0 ∧ Terminated b s

theorem toInt_le (m : Nat) : toInt m ≤ m := by
  have hsize : Int32.size = 4294967296 := rfl
  rw [toInt, Int32.toInt_ofNat', Int.bmod, hsize]
  split <;> omega

theorem strunquote_of_not_isQuote (h : ¬ IsQuote (s.headD 0)) :
    strunquote (cstr s) = some (0, cstr s, none) := by
  have hread : (cstr s).read 0 = some (s.headD 0) := by
    rw [Block.read_of_lt (Nat.succ_pos _)]
    cases s <;> rfl
  rw [strunquote, hread]
  simp only [Option.bind_eq_bind, Option.bind_some, h, not_false_eq_true, if_true]
  rfl

section
variable {q : UInt8} {t : List UInt8}

theorem strunquote_cons (hq : IsQuote q) (h0 : 0 ∉ q :: t) :
    strunquote (cstr (q :: t)) = (readAt (cstr (q :: t)) (toInt t.length - 1)).bind fun c =>
      if c ≠ q then some (-1, cstr (q :: t), none)
      else (writeAt (cstr (q :: t)) (toInt t.length - 1) 0).bind fun b =>
        some ((q.toNat : Int), b, some 1) := by
  have hread : (cstr (q :: t)).read 0 = some q := Block.read_of_lt (Nat.succ_pos _)
  have hlen : strlen (cstr (q :: t)) (cstr (q :: t)).len 1 = some (t.length + 1) :=
    strlen_spec (terminated_cstr h0) (Nat.succ_le_succ (Nat.zero_le _)) (by
      change t.length + 1 < 1 + (t.length + 1 + 1)
      omega)
  rw [strunquote, hread]
  simp only [Option.bind_eq_bind, Option.bind_some, hq, not_true_eq_false, if_false, hlen,
    Nat.add_sub_cancel]
  rfl

theorem strunquote_of_eq (hq : IsQuote q) (h0 : 0 ∉ q :: t) {k : Nat}
    (hk : toInt t.length = k + 1) : ∃ b, (cstr (q :: t)).write k 0 = some b ∧
      strunquote (cstr (q :: t)) = if (q :: t)[k]? ≠ some q then some (-1, cstr (q :: t), none)
        else some ((q.toNat : Int), b, some 1) := by
  have hlt : k < (q :: t).length := by
    have := toInt_le t.length
    rw [length_cons]
    omega
  have hroom : k < (cstr (q :: t)).len := Nat.lt_succ_of_lt hlt
  have hread : readAt (cstr (q :: t)) k = some (q :: t)[k] := by
    rw [readAt, if_pos (Int.natCast_nonneg k), Int.toNat_natCast, Block.read_of_lt hroom]
    exact congrArg some (getD_eq_getElem _ _ hlt)
  refine ⟨_, Block.write_of_lt hroom 0, ?_⟩
  rw [strunquote_cons hq h0, hk, Int.add_sub_cancel, hread, Option.bind_some, writeAt,
    if_pos (Int.natCast_nonneg k), Int.toNat_natCast, Block.write_of_lt hroom, Option.bind_some,
    getElem?_eq_getElem hlt]
  simp only [ne_eq, Option.some.injEq]

theorem not_terminated {body : List UInt8} {k : Nat} (hq : q ≠ 0) (hk : k ≤ body.length)
    {b : Block UInt8} (hb : (cstr (q :: body ++ [q])).write k 0 = some b) :
    ¬ Terminated (b.shift 1) body := by
  intro hterm
  obtain ⟨-, rfl⟩ := Block.eq_of_write hb
  have hend : Function.update (cstr (q :: body ++ [q])).cells k 0 (1 + body.length) = q := by
    rw [Function.update_of_ne (by omega)]
    simp [cstr, Nat.add_comm 1]
  exact hq (hend.symm.trans hterm.nul)

theorem not_unquotes_quoted {body : List UInt8} (hq : IsQuote q) (h0 : 0 ∉ q :: (body ++ [q]))
    {k : Nat} (hk : toInt (body ++ [q]).length = k + 1) : ¬ Unquotes (q :: (body ++ [q])) := by
  obtain ⟨b, hb, hrun⟩ := strunquote_of_eq hq h0 hk
  have hle := toInt_le (body ++ [q]).length
  rw [length_append, length_singleton] at hk hle
  rintro ⟨r, b', p, hres, hquoted, -⟩
  obtain ⟨-, i, hi, hbody⟩ := hquoted q body hq rfl
  rw [hrun] at hres
  split at hres
  · cases hres
    cases hi
  · cases hres
    cases hi
    exact not_terminated (fun hq0 => h0 (hq0 ▸ mem_cons_self)) (by omega) hb hbody

theorem unquotes_open_iff (hq : IsQuote q) (h0 : 0 ∉ q :: t) (hlast : (q :: t).getLast? ≠ some q)
    {k : Nat} (hk : toInt t.length = k + 1) : Unquotes (q :: t) ↔ (q :: t)[k]? ≠ some q := by
  obtain ⟨b, -, hrun⟩ := strunquote_of_eq hq h0 hk
  constructor
  · rintro ⟨r, b', p, hres, -, hopen⟩ heq
    rw [hrun, if_neg (not_not_intro heq)] at hres
    cases hres
    exact absurd (hopen q t hq rfl hlast).1 (Int.not_lt.mpr (Int.natCast_nonneg _))
  · intro hne
    rw [if_pos hne] at hrun
    refine ⟨_, _, _, hrun, fun q' body hq' heq => ?_, fun q' t' _ _ _ => ?_⟩
    · obtain rfl : q = q' := (cons.inj heq).1
      rw [heq] at hlast
      exact absurd getLast?_concat hlast
    · exact ⟨by decide, terminated_cstr h0⟩

theorem not_unquotes_short (hq : IsQuote q) (h0 : 0 ∉ q :: t)
    (hshort : ∀ k : Nat, toInt t.length ≠ k + 1) : ¬ Unquotes (q :: t) := by
  have hneg : ¬ 0 ≤ toInt t.length - 1 := fun h =>
    hshort (toInt t.length - 1).toNat (by omega)
  rintro ⟨r, b, p, hres, -⟩
  rw [strunquote_cons hq h0, readAt, if_neg hneg] at hres
  cases hres

theorem unquotes_cons_iff (hq : IsQuote q) (h0 : 0 ∉ q :: t) :
    Unquotes (q :: t) ↔ (q :: t).getLast? ≠ some q ∧
      ∃ k : Nat, toInt t.length = k + 1 ∧ (q :: t)[k]? ≠ some q := by
  by_cases hpos : ∃ k : Nat, toInt t.length = k + 1
  · obtain ⟨k, hk⟩ := hpos
    have honly : (∃ j : Nat, toInt t.length = j + 1 ∧ (q :: t)[j]? ≠ some q) ↔
        (q :: t)[k]? ≠ some q := by
      refine ⟨fun ⟨j, hj, hne⟩ => ?_, fun hne => ⟨k, hk, hne⟩⟩
      obtain rfl : j = k := by omega
      exact hne
    rw [honly]
    by_cases hlast : (q :: t).getLast? = some q
    · refine iff_of_false ?_ fun h => h.1 hlast
      have hne : t ≠ [] := by
        rintro rfl
        exact absurd hk (by change (0 : Int) ≠ k + 1; omega)
      rw [getLast?_cons_of_ne_nil hne] at hlast
      obtain ⟨body, rfl⟩ : ∃ body, t = body ++ [q] :=
        ⟨t.dropLast, (dropLast_append_getLast? q hlast).symm⟩
      exact not_unquotes_quoted hq h0 hk
    · rw [and_iff_right hlast]
      exact unquotes_open_iff hq h0 hlast hk
  · exact iff_of_false (not_unquotes_short hq h0 fun k hk => hpos ⟨k, hk⟩)
      fun ⟨_, k, hk, _⟩ => hpos ⟨k, hk⟩

/-- `strunquote` does what it says exactly for the strings that do not begin with a quote and those
with at least two characters of which neither of the last two is that quote; where the length does
not fit into an `int`, what is left of it selects one of the two. -/
theorem strunquote_exact (h0 : 0 ∉ s) : Unquotes s ↔ ∀ q t, IsQuote q → s = q :: t →
    s.getLast? ≠ some q ∧ ∃ k : Nat, toInt t.length = k + 1 ∧ s[k]? ≠ some q := by
  by_cases hq : IsQuote (s.headD 0)
  · cases s with
    | nil => exact absurd hq (by decide)
    | cons q t =>
      rw [unquotes_cons_iff (q := q) hq h0]
      constructor
      · rintro h q' t' - heq
        obtain ⟨rfl, rfl⟩ := cons.inj heq
        exact h
      · exact fun h => h q t hq rfl
  · have hhead : ∀ q t, IsQuote q → s ≠ q :: t := by
      rintro q t hq' rfl
      exact hq hq'
    refine iff_of_true ⟨0, cstr s, none, strunquote_of_not_isQuote hq, ?_, ?_⟩
      fun q t hq' heq => absurd heq (hhead q t hq')
    · exact fun q body hq' heq => absurd heq (hhead q _ hq')
    · exact fun q t hq' heq => absurd heq (hhead q t hq')

theorem strunquote_exact_open : Unquotes [0x22, 0x61, 0x62] :=
  (strunquote_exact (s := [0x22, 0x61, 0x62]) (by decide)).mpr fun q t _ heq => by
    obtain ⟨rfl, rfl⟩ := cons.inj heq
    exact ⟨by decide, 1, by decide, by decide⟩

/-- `"a"` is refused, `""` leaves a quote, `"x` is taken for quoted, and for `"` alone the character
before the string is read. -/
theorem strunquote_fails :
    ((strunquote (cstr [0x22, 0x61, 0x22])).map fun r => r.1) = some (-1) ∧
      ((strunquote (cstr [0x22, 0x22])).map fun r => (r.1, r.2.1.first 3)) =
        some (0x22, some [0, 0x22, 0]) ∧
      ((strunquote (cstr [0x22, 0x78])).map fun r => r.1) = some 0x22 ∧
      (strunquote (cstr [0x22])).isNone ∧
      ¬ Unquotes [0x22, 0x61, 0x22] ∧ ¬ Unquotes [0x22, 0x22] ∧ ¬ Unquotes [0x22, 0x78] ∧
      ¬ Unquotes [0x22] := by
  have hq : IsQuote 0x22 := Or.inl rfl
  have hquoted : ∀ {t : List UInt8}, 0 ∉ (0x22 : UInt8) :: t →
      ((0x22 : UInt8) :: t).getLast? = some 0x22 → ¬ Unquotes (0x22 :: t) :=
    fun h0 hlast h => ((unquotes_cons_iff hq h0).mp h).1 hlast
  refine ⟨by decide, by decide, by decide, by decide, hquoted (by decide) rfl,
    hquoted (by decide) rfl, fun h => ?_, hquoted (by decide) rfl⟩
  obtain ⟨-, k, hk, hne⟩ := (unquotes_cons_iff hq (by decide)).mp h
  obtain rfl : k = 0 := by
    have hone : toInt [(0x78 : UInt8)].length = 1 := by decide
    omega
  exact hne rfl

end

end PortableLib.StrUnquote
