import Mathlib.Algebra.Order.Group.Nat
import Mathlib.Algebra.Ring.Int.Defs
import PortableLib.Lib.Block
import PortableLib.Lib.Occurrence
import PortableLib.Lib.Run

/-! The tables of `boyer_moore_search` in `utils/strmatch.h`. Patterns, texts and tables are
blocks with checked access, so that a step fails where the code would leave an array. -/

namespace PortableLib.StrMatch
open Run

/-- What the templates ask of a character type: its width in bytes and the `int` a character
promotes to. The size of the alphabet is an `int` only for types narrower than `int`. -/
class CharType (T : Type) where
  size : Nat
  size_lt : size < 4
  toInt : T → Int32

instance : CharType Int8 where
  size := 1
  size_lt := by decide
  toInt := Int8.toInt32

section model
variable {T : Type} [DecidableEq T] [CharType T]

/-- `1 << (sizeof(char_type) * 8)` -/
def alphabetSize (T : Type) [CharType T] : Nat := 2 ^ (CharType.size T * 8)

/-- A character as an index, converted to `size_t`. -/
def charIndex (c : T) : Nat := ((CharType.toInt c).toInt % 2 ^ 64).toNat

/-- `m_bad_char[m_pat[i]] = m1 - i;` -/
def badCharStep (pat : Block T) (bc : Block Nat) (i : Nat) : Option (Block Nat) := do
  bc.write (charIndex (← pat.read i)) (pat.len - 1 - i)

def calcBadChar (pat : Block T) : Option (Block Nat) := do
  let bc : Block Nat := { len := alphabetSize T, cells := fun _ => 0 }
  let bc ← bc.fill 0 (alphabetSize T) pat.len
  (List.range (pat.len - 1)).foldlM (badCharStep pat) bc

/-- `while (g >= 0 && eq(m_pat[g], m_pat[g + q])) --g;` with `g` one more than in the code, where
it ends at -1. -/
def descend (pat : Block T) (q : Nat) : Nat → Option Nat
  | 0 => some 0
  | g + 1 => do
    if (← pat.read g) = (← pat.read (g + q)) then descend pat q g else some (g + 1)

/-- The variables of `calc_suffixes`; `g` is one more than in the code. -/
structure Suffixes where
  suff : Block Nat
  f : Nat
  g : Nat

/-- The branch of `calc_suffixes` that compares. -/
def measureSuffix (pat : Block T) (st : Suffixes) (i : Nat) : Option Suffixes := do
  let g := if i + 1 < st.g then i + 1 else st.g
  let g ← descend pat (pat.len - 1 - i) g
  let suff ← st.suff.write i (i + 1 - g)
  return { suff := suff, f := i, g := g }

/-- One round of `calc_suffixes`; `suff[j]` is only looked at if `i > g`. -/
def suffixStep (pat : Block T) (st : Suffixes) (i : Nat) : Option Suffixes :=
  if st.g ≤ i then do
    let l ← st.suff.read (i + pat.len - 1 - st.f)
    if l < i + 1 - st.g then
      let suff ← st.suff.write i l
      return { st with suff := suff }
    else measureSuffix pat st i
  else measureSuffix pat st i

def calcSuffixes (pat : Block T) : Option (Block Nat) := do
  let suff : Block Nat := { len := pat.len, cells := fun _ => 0 }
  let suff ← suff.write (pat.len - 1) pat.len
  let st ← (List.range (pat.len - 1)).reverse.foldlM (suffixStep pat) ⟨suff, 0, pat.len⟩
  return st.suff

/-- `for (; j < k; ++j) if (m_good_shift[j] == m_patlen) m_good_shift[j] = k;` over `n` cells. -/
def lowerTo (m k : Nat) : Nat → Nat → Block Nat → Option (Block Nat)
  | 0, _, gs => some gs
  | n + 1, j, gs => do
    let gs ← if (← gs.read j) = m then gs.write j k else some gs
    lowerTo m k n (j + 1) gs

/-- One round of the first pass of `calc_good_shift`. -/
def borderStep (m : Nat) (suff : Block Nat) (st : Block Nat × Nat) (i : Nat) :
    Option (Block Nat × Nat) := do
  if (← suff.read i) = i + 1 then
    let k := m - 1 - i
    let gs ← lowerTo m k (k - st.2) st.2 st.1
    return (gs, max st.2 k)
  else some st

def suffixShiftStep (m : Nat) (suff gs : Block Nat) (i : Nat) : Option (Block Nat) := do
  gs.write (m - 1 - (← suff.read i)) (m - 1 - i)

def calcGoodShift (pat : Block T) : Option (Block Nat) := do
  let m := pat.len
  let suff ← calcSuffixes pat
  let gs : Block Nat := { len := m, cells := fun _ => 0 }
  let gs ← gs.fill 0 m m
  let st ← (List.range m).reverse.foldlM (borderStep m suff) (gs, 0)
  (List.range (m - 1)).foldlM (suffixShiftStep m suff) st.1

end model

variable {T : Type}

section badChar
variable [CharType T] {pat : Block T} {bc : Block Nat} {i n : Nat}

structure BadCharTable (pat : Block T) (n : Nat) (bc : Block Nat) : Prop where
  len : bc.len = alphabetSize T
  le : ∀ a < bc.len, bc.cells a ≤ pat.len
  far : ∀ p < n, bc.cells (charIndex (pat.cells p)) ≤ pat.len - 1 - p

theorem badCharStep_eq (hi : i < pat.len) (bc : Block Nat) :
    badCharStep pat bc i = bc.write (charIndex (pat.cells i)) (pat.len - 1 - i) := by
  rw [badCharStep, Block.read_of_lt hi]
  rfl

theorem badCharStep_spec (hi : i < pat.len - 1) (hidx : charIndex (pat.cells i) < alphabetSize T)
    (h : BadCharTable pat i bc) :
    ∃ bc', badCharStep pat bc i = some bc' ∧ BadCharTable pat (i + 1) bc' := by
  obtain ⟨bc', hwrite, hlen, hself, hother⟩ :=
    Block.write_spec (h.len.symm ▸ hidx) (pat.len - 1 - i)
  refine ⟨bc', ?_, hlen.trans h.len, fun a ha => ?_, fun p hp => ?_⟩
  · rw [badCharStep_eq (by omega)]
    exact hwrite
  · by_cases heq : a = charIndex (pat.cells i)
    · rw [heq, hself]
      omega
    · rw [hother a heq]
      exact h.le a (hlen ▸ ha)
  · by_cases heq : charIndex (pat.cells p) = charIndex (pat.cells i)
    · rw [heq, hself]
      omega
    · have hpi : p ≠ i := fun hpi => heq (hpi ▸ rfl)
      rw [hother _ heq]
      exact h.far p (by omega)

theorem fill_whole (n a : Nat) :
    (⟨n, fun _ => 0⟩ : Block Nat).fill 0 n a =
      some ⟨n, fun i => if 0 ≤ i ∧ i < 0 + n then a else 0⟩ :=
  Block.fill_of_le (Nat.le_of_eq (Nat.zero_add n)) a

theorem calcBadChar_spec
    (hidx : ∀ i < pat.len - 1, charIndex (pat.cells i) < alphabetSize T) :
    ∃ bc, calcBadChar pat = some bc ∧ BadCharTable pat (pat.len - 1) bc := by
  rw [calcBadChar, fill_whole]
  apply foldlM_range_invariant (fun i bc hi => badCharStep_spec hi (hidx i hi))
  refine ⟨rfl, fun a ha => ?_, fun p hp => absurd hp (Nat.not_lt_zero p)⟩
  exact Nat.le_of_eq (if_pos ⟨Nat.zero_le a, Nat.lt_of_lt_of_eq ha (Nat.zero_add _).symm⟩)

theorem charIndex_lt_of_calcBadChar (h : calcBadChar pat = some bc) (hi : i < pat.len - 1) :
    charIndex (pat.cells i) < alphabetSize T := by
  rw [calcBadChar, fill_whole] at h
  have hlen : ∀ (bc : Block Nat) (i : Nat) (bc' : Block Nat), bc.len = alphabetSize T →
      badCharStep pat bc i = some bc' → bc'.len = alphabetSize T := by
    intro bc i bc' hbc hstep
    simp only [badCharStep, Block.write, Option.bind_eq_bind, Option.bind_eq_some_iff] at hstep
    obtain ⟨c, -, hstep⟩ := hstep
    split at hstep
    · exact Option.some.inj hstep ▸ hbc
    · cases hstep
  obtain ⟨r, r', hr, hstep⟩ := exists_step_of_foldlM hlen rfl h i (List.mem_range.mpr hi)
  rw [badCharStep_eq (by omega), Block.write] at hstep
  split at hstep
  · next hlt => exact hr ▸ hlt
  · cases hstep

end badChar

section suffixes
variable {x : Nat → T} {m i g l : Nat}

structure Stops (x : Nat → T) (m i g : Nat) : Prop where
  le : g ≤ i + 1
  eq : ∀ p, g ≤ p → p ≤ i → x p = x (p + (m - 1 - i))
  ne : ∀ p, p + 1 = g → x p ≠ x (p + (m - 1 - i))

structure IsSuffix (x : Nat → T) (m i l : Nat) : Prop where
  le : l ≤ i + 1
  stops : Stops x m i (i + 1 - l)

theorem Stops.unique {g' : Nat} (h : Stops x m i g) (h' : Stops x m i g') : g = g' := by
  have hnot : ∀ {a b : Nat}, Stops x m i a → Stops x m i b → ¬ a < b := by
    intro a b ha hb hlt
    have hble := hb.le
    exact hb.ne (b - 1) (by omega) (ha.eq (b - 1) (by omega) (by omega))
  have hlt := hnot h h'
  have hgt := hnot h' h
  omega

theorem Stops.isSuffix (h : Stops x m i g) : IsSuffix x m i (i + 1 - g) := by
  have hle := h.le
  refine ⟨by omega, ?_⟩
  rw [Nat.sub_sub_self hle]
  exact h

theorem descend_spec [DecidableEq T] {pat : Block T} (hi : i < pat.len) (hg : g ≤ i + 1)
    (heq : ∀ p, g ≤ p → p ≤ i → pat.cells p = pat.cells (p + (pat.len - 1 - i))) :
    ∃ g', descend pat (pat.len - 1 - i) g = some g' ∧ Stops pat.cells pat.len i g' := by
  induction g with
  | zero => exact ⟨0, rfl, hg, heq, fun p hp => absurd hp (Nat.succ_ne_zero p)⟩
  | succ g ih =>
    have hlo : pat.read g = some (pat.cells g) := Block.read_of_lt (by omega)
    have hhi : pat.read (g + (pat.len - 1 - i)) = some (pat.cells (g + (pat.len - 1 - i))) :=
      Block.read_of_lt (by omega)
    rw [descend, hlo, hhi]
    simp only [Option.bind_eq_bind, Option.bind_some]
    split
    next hsame =>
      apply ih (by omega)
      intro p hp hpi
      rcases Nat.eq_or_lt_of_le hp with rfl | hlt
      · exact hsame
      · exact heq p hlt hpi
    next hdiff =>
      refine ⟨g + 1, rfl, hg, heq, fun p hp => ?_⟩
      obtain rfl : p = g := by omega
      exact hdiff

section calcSuffixes
variable {pat : Block T} {st : Suffixes}

structure SuffixesInv (pat : Block T) (c : Nat) (st : Suffixes) : Prop where
  len : st.suff.len = pat.len
  done : ∀ i, c ≤ i → i < pat.len → IsSuffix pat.cells pat.len i (st.suff.cells i)
  seen : st.g < c → c ≤ st.f ∧ st.f + 1 < pat.len ∧ Stops pat.cells pat.len st.f st.g

theorem SuffixesInv.write (h : SuffixesInv pat (i + 1) st) (hi : i + 1 < pat.len)
    (hl : IsSuffix pat.cells pat.len i l) :
    ∃ suff, st.suff.write i l = some suff ∧ suff.len = pat.len ∧
      ∀ k, i ≤ k → k < pat.len → IsSuffix pat.cells pat.len k (suff.cells k) := by
  have hlt : i < st.suff.len := by
    rw [h.len]
    omega
  obtain ⟨suff, hwrite, hlen, hself, hother⟩ := Block.write_spec hlt l
  refine ⟨suff, hwrite, hlen.trans h.len, fun k hk hkm => ?_⟩
  rcases Nat.eq_or_lt_of_le hk with rfl | hgt
  · rw [hself]
    exact hl
  · rw [hother k (Nat.ne_of_gt hgt)]
    exact h.done k hgt hkm

variable [DecidableEq T]

theorem measureSuffix_spec (h : SuffixesInv pat (i + 1) st) (hi : i + 1 < pat.len)
    (heq : ∀ p, st.g ≤ p → p ≤ i → pat.cells p = pat.cells (p + (pat.len - 1 - i))) :
    ∃ st', measureSuffix pat st i = some st' ∧ SuffixesInv pat i st' := by
  have hstart : ∀ p, (if i + 1 < st.g then i + 1 else st.g) ≤ p → p ≤ i →
      pat.cells p = pat.cells (p + (pat.len - 1 - i)) := by
    intro p hp hpi
    apply heq p _ hpi
    split at hp <;> omega
  have hle : (if i + 1 < st.g then i + 1 else st.g) ≤ i + 1 := by split <;> omega
  obtain ⟨g, hg, hstops⟩ := descend_spec (by omega) hle hstart
  obtain ⟨suff, hwrite, hlen, hdone⟩ := h.write hi hstops.isSuffix
  refine ⟨⟨suff, i, g⟩, ?_, hlen, hdone, fun _ => ⟨Nat.le_refl i, hi, hstops⟩⟩
  simp only [measureSuffix, hg, hwrite, Option.bind_eq_bind, Option.bind_some, pure]

theorem suffixStep_spec (h : SuffixesInv pat (i + 1) st) (hi : i + 1 < pat.len) :
    ∃ st', suffixStep pat st i = some st' ∧ SuffixesInv pat i st' := by
  rw [suffixStep]
  split
  next hgi =>
    obtain ⟨hif, hfm, hstops⟩ := h.seen (Nat.lt_succ_of_le hgi)
    -- inside the remembered part the pattern repeats what stands around `j`
    obtain ⟨j, hj⟩ : ∃ j, j = i + pat.len - 1 - st.f := ⟨_, rfl⟩
    have hjs : IsSuffix pat.cells pat.len j (st.suff.cells j) := h.done j (by omega) (by omega)
    have hmove : ∀ p, st.g ≤ p → p ≤ i → pat.cells p = pat.cells (p + j - i) := by
      intro p hp hpi
      rw [hstops.eq p hp (by omega)]
      congr 1
      omega
    have hback : ∀ p, p ≤ i → p + j - i + (pat.len - 1 - j) = p + (pat.len - 1 - i) := by omega
    have hread : st.suff.read j = some (st.suff.cells j) := Block.read_of_lt (by rw [h.len]; omega)
    rw [← hj, hread]
    simp only [Option.bind_eq_bind, Option.bind_some]
    split
    next hshort =>
      have hl : IsSuffix pat.cells pat.len i (st.suff.cells j) := by
        refine ⟨by omega, by omega, fun p hp hpi => ?_, fun p hp hsame => ?_⟩
        · rw [hmove p (by omega) hpi, hjs.stops.eq (p + j - i) (by omega) (by omega), hback p hpi]
        · apply hjs.stops.ne (p + j - i) (by omega)
          rw [← hmove p (by omega) (by omega), hback p (by omega)]
          exact hsame
      obtain ⟨suff, hwrite, hlen, hdone⟩ := h.write hi hl
      refine ⟨{ st with suff := suff }, ?_, hlen, hdone,
        fun _ => ⟨Nat.le_of_succ_le hif, hfm, hstops⟩⟩
      simp only [hwrite, Option.bind_some, pure]
    next hlong =>
      apply measureSuffix_spec h hi
      intro p hp hpi
      rw [hmove p hp hpi, hjs.stops.eq (p + j - i) (by omega) (by omega), hback p hpi]
  next hgi => exact measureSuffix_spec h hi fun p hp hpi => by omega

theorem calcSuffixes_spec (hm : 0 < pat.len) :
    ∃ suff, calcSuffixes pat = some suff ∧ suff.len = pat.len ∧
      ∀ i < pat.len, IsSuffix pat.cells pat.len i (suff.cells i) := by
  obtain ⟨suff, hwrite, hlen, hself, -⟩ :=
    Block.write_spec (show pat.len - 1 < (⟨pat.len, fun _ => 0⟩ : Block Nat).len by
      exact Nat.sub_lt hm Nat.one_pos) pat.len
  have hwhole : IsSuffix pat.cells pat.len (pat.len - 1) pat.len := by
    refine ⟨by omega, by omega, fun p _ _ => ?_, fun p hp => ?_⟩
    · rw [Nat.sub_self, Nat.add_zero]
    · omega
  have hinit : SuffixesInv pat (pat.len - 1) ⟨suff, 0, pat.len⟩ := by
    refine ⟨hlen, fun i hi him => ?_, fun hlt => ?_⟩
    · obtain rfl : i = pat.len - 1 := by omega
      rw [hself]
      exact hwhole
    · exact absurd hlt (Nat.not_lt.mpr (Nat.sub_le _ _))
  obtain ⟨st, hst, hinv⟩ := foldlM_range_reverse_invariant (I := SuffixesInv pat)
    (fun i st hi h => suffixStep_spec h (Nat.add_lt_of_lt_sub hi)) hinit
  refine ⟨st.suff, ?_, hinv.len, fun i hi => hinv.done i (Nat.zero_le i) hi⟩
  simp only [calcSuffixes, hwrite, hst, Option.bind_eq_bind, Option.bind_some, pure]

end calcSuffixes

theorem IsSuffix.eq_succ_iff (h : IsSuffix x m i l) (hi : i < m) :
    l = i + 1 ↔ Period x m (m - 1 - i) := by
  constructor
  · rintro rfl k hk hkm
    have heq := h.stops.eq (k - (m - 1 - i)) (by omega) (by omega)
    rwa [Nat.sub_add_cancel hk] at heq
  · intro hp
    have hzero : Stops x m i 0 := by
      refine ⟨Nat.zero_le _, fun p _ hpi => ?_, fun p hp => absurd hp (Nat.succ_ne_zero p)⟩
      have heq := hp (p + (m - 1 - i)) (Nat.le_add_left _ _) (by omega)
      rwa [Nat.add_sub_cancel] at heq
    have hle := h.le
    have huniq := h.stops.unique hzero
    omega

theorem IsSuffix.fits (h : IsSuffix x m i l) (hi : i + 1 < m) :
    Fits x m (m - 1 - l) (m - 1 - i) := by
  have hle := h.le
  constructor
  · intro k hk hkm hs
    have heq := h.stops.eq (k - (m - 1 - i)) (by omega) (by omega)
    rwa [Nat.sub_add_cancel hs] at heq
  · intro hs heq
    apply h.stops.ne (m - 1 - l - (m - 1 - i)) (by omega)
    rw [Nat.sub_add_cancel hs]
    exact heq

theorem IsSuffix.eq_of_fits {p : Nat} (h : IsSuffix x m i l) (hi : i + 1 < m) (hp : p < m)
    (hs : m - 1 - i ≤ p) (hfits : Fits x m p (m - 1 - i)) : p = m - 1 - l := by
  have hstops : Stops x m i (p + 1 - (m - 1 - i)) := by
    refine ⟨by omega, fun k hk hki => ?_, fun k hk hsame => ?_⟩
    · have heq := hfits.1 (k + (m - 1 - i)) (by omega) (by omega) (Nat.le_add_left _ _)
      rwa [Nat.add_sub_cancel] at heq
    · apply hfits.2 hs
      have hkp : k = p - (m - 1 - i) := by omega
      rw [hkp, Nat.sub_add_cancel hs] at hsame
      exact hsame
  have huniq := h.stops.unique hstops
  have hle := h.le
  omega

end suffixes

section goodShift
variable {x : Nat → T} {m k n j : Nat} {gs suff : Block Nat}

theorem lowerTo_spec (hlen : gs.len = m) (hjn : j + n ≤ m)
    (hm : ∀ p, j ≤ p → p < j + n → gs.cells p = m) :
    ∃ gs', lowerTo m k n j gs = some gs' ∧ gs'.len = m ∧
      (∀ p, j ≤ p → p < j + n → gs'.cells p = k) ∧
      ∀ p, p < j ∨ j + n ≤ p → gs'.cells p = gs.cells p := by
  induction n generalizing j gs with
  | zero => exact ⟨gs, rfl, hlen, fun p hp hlt => absurd hlt (Nat.not_lt.mpr hp), fun _ _ => rfl⟩
  | succ n ih =>
    have hj : j < gs.len := by omega
    obtain ⟨gs₁, hwrite, hlen₁, hself, hother⟩ := Block.write_spec hj k
    have hm₁ : ∀ p, j + 1 ≤ p → p < j + 1 + n → gs₁.cells p = m := by
      intro p hp hlt
      rw [hother p (by omega)]
      exact hm p (by omega) (by omega)
    obtain ⟨gs₂, hrest, hlen₂, hin, hout⟩ := ih (hlen₁.trans hlen) (by omega) hm₁
    refine ⟨gs₂, ?_, hlen₂, fun p hp hlt => ?_, fun p hp => ?_⟩
    · simp only [lowerTo, Block.read_of_lt hj, hm j (Nat.le_refl j) (by omega), hwrite, hrest,
        Option.bind_eq_bind, Option.bind_some, if_true]
    · rcases Nat.eq_or_lt_of_le hp with rfl | hgt
      · rw [hout j (Or.inl (Nat.lt_succ_self j)), hself]
      · exact hin p hgt (by omega)
    · rw [hout p (by omega), hother p (by omega)]

structure LeastAbove (x : Nat → T) (m p k : Nat) : Prop where
  lt : p < k
  le : k ≤ m
  period : Period x m k
  least : ∀ r, p < r → r < k → ¬ Period x m r

structure BordersInv (x : Nat → T) (m c : Nat) (st : Block Nat × Nat) : Prop where
  len : st.1.len = m
  bound : st.2 + c ≤ m
  low : ∀ p < st.2, LeastAbove x m p (st.1.cells p)
  high : ∀ p, st.2 ≤ p → p < m → st.1.cells p = m
  clear : ∀ k, st.2 < k → k + c < m → ¬ Period x m k

theorem borderStep_spec {i : Nat} {st : Block Nat × Nat} (hsuff : suff.len = m)
    (hs : ∀ i < m, IsSuffix x m i (suff.cells i)) (hi : i < m) (h : BordersInv x m (i + 1) st) :
    ∃ st', borderStep m suff st i = some st' ∧ BordersInv x m i st' := by
  obtain ⟨gs, j⟩ := st
  have hread : suff.read i = some (suff.cells i) := Block.read_of_lt (hsuff ▸ hi)
  have hbound : j + (i + 1) ≤ m := h.bound
  rw [borderStep, hread]
  simp only [Option.bind_eq_bind, Option.bind_some]
  split
  next heq =>
    have hperiod := ((hs i hi).eq_succ_iff hi).mp heq
    have hjk : j ≤ m - 1 - i := by omega
    have hjn : j + (m - 1 - i - j) = m - 1 - i := by omega
    obtain ⟨gs', hgs', hlen, hin, hout⟩ := lowerTo_spec (k := m - 1 - i) (n := m - 1 - i - j) h.len
      (by omega) fun p hp hlt => h.high p hp (by omega)
    rw [hjn] at hin hout
    refine ⟨(gs', m - 1 - i), ?_, hlen, ?_, fun p hp => ?_, fun p hp hpm => ?_, fun k hk hkm => ?_⟩
    · rw [hgs', Nat.max_eq_right hjk]
      rfl
    · dsimp only
      omega
    · rcases Nat.lt_or_ge p j with hlt | hge
      · rw [hout p (Or.inl hlt)]
        exact h.low p hlt
      · rw [hin p hge hp]
        refine ⟨hp, by omega, hperiod, fun r hr hrk => ?_⟩
        exact h.clear r (Nat.lt_of_le_of_lt hge hr) (by omega)
    · rw [hout p (Or.inr hp)]
      exact h.high p (hjk.trans hp) hpm
    · dsimp only at hk
      omega
  next hne =>
    refine ⟨(gs, j), rfl, h.len, by dsimp only; omega, h.low, h.high, fun k hk hkm => ?_⟩
    rcases Nat.lt_or_ge (k + (i + 1)) m with hlt | hge
    · exact h.clear k hk hlt
    · obtain rfl : k = m - 1 - i := by omega
      exact fun hp => hne (((hs i hi).eq_succ_iff hi).mpr hp)

theorem BordersInv.leastAbove {st : Block Nat × Nat} (h : BordersInv x m 0 st) {p : Nat}
    (hp : p < m) : LeastAbove x m p (st.1.cells p) := by
  rcases Nat.lt_or_ge p st.2 with hlt | hge
  · exact h.low p hlt
  · rw [h.high p hge hp]
    refine ⟨hp, Nat.le_refl m, period_length, fun r hr hrm => ?_⟩
    exact h.clear r (Nat.lt_of_le_of_lt hge hr) hrm

structure ShiftsInv (x : Nat → T) (m c : Nat) (gs : Block Nat) : Prop where
  len : gs.len = m
  pos : ∀ p < m, 0 < gs.cells p
  le : ∀ p < m, gs.cells p ≤ m
  fits : ∀ p < m, Fits x m p (gs.cells p)
  least : ∀ p < m, ∀ r, 0 < r → r < gs.cells p → p < r ∨ m ≤ r + c → ¬ Fits x m p r

theorem ShiftsInv.of_leastAbove (hlen : gs.len = m)
    (h : ∀ p < m, LeastAbove x m p (gs.cells p)) : ShiftsInv x m 0 gs := by
  refine ⟨hlen, fun p hp => ?_, fun p hp => (h p hp).le, fun p hp => ?_, ?_⟩
  · exact Nat.lt_of_le_of_lt (Nat.zero_le p) (h p hp).lt
  · exact (fits_iff_period (h p hp).lt).mpr (h p hp).period
  · intro p hp r hr hlt hrange hfits
    have hle := (h p hp).le
    have hpr : p < r := by omega
    exact (h p hp).least r hpr hlt ((fits_iff_period hpr).mp hfits)

theorem suffixShiftStep_spec {i : Nat} (hsuff : suff.len = m)
    (hs : ∀ i < m, IsSuffix x m i (suff.cells i)) (hi : i + 1 < m) (h : ShiftsInv x m i gs) :
    ∃ gs', suffixShiftStep m suff gs i = some gs' ∧ ShiftsInv x m (i + 1) gs' := by
  have hread : suff.read i = some (suff.cells i) := Block.read_of_lt (by omega)
  have hsi := hs i (by omega)
  have hl := hsi.le
  have hlt : m - 1 - suff.cells i < gs.len := by
    rw [h.len]
    omega
  obtain ⟨gs', hwrite, hlen, hself, hother⟩ := Block.write_spec hlt (m - 1 - i)
  refine ⟨gs', ?_, hlen.trans h.len, fun p hp => ?_, fun p hp => ?_, fun p hp => ?_,
    fun p hp r hr hlt hrange => ?_⟩
  · rw [suffixShiftStep, hread]
    exact hwrite
  all_goals by_cases heq : p = m - 1 - suff.cells i
  · rw [heq, hself]
    omega
  · rw [hother p heq]
    exact h.pos p hp
  · rw [heq, hself]
    omega
  · rw [hother p heq]
    exact h.le p hp
  · rw [heq, hself]
    exact hsi.fits hi
  · rw [hother p heq]
    exact h.fits p hp
  · -- the cell just written: a smaller shift is neither beyond it nor looked at yet
    rw [heq, hself] at hlt
    omega
  · rw [hother p heq] at hlt
    by_cases hpr : p < r
    · exact h.least p hp r hr hlt (Or.inl hpr)
    · intro hfits
      by_cases hri : r = m - 1 - i
      · subst hri
        exact heq (hsi.eq_of_fits hi hp (Nat.not_lt.mp hpr) hfits)
      · exact h.least p hp r hr hlt (Or.inr (by omega)) hfits

structure GoodShiftTable (pat : Block T) (gs : Block Nat) : Prop where
  len : gs.len = pat.len
  least : ∀ i < pat.len, LeastFit pat.cells pat.len i (gs.cells i)

theorem calcGoodShift_spec [DecidableEq T] {pat : Block T} (hm : 0 < pat.len) :
    ∃ gs, calcGoodShift pat = some gs ∧ GoodShiftTable pat gs := by
  obtain ⟨suff, hsuff, hlen, hs⟩ := calcSuffixes_spec hm
  have hinit : BordersInv pat.cells pat.len pat.len
      (⟨pat.len, fun i => if 0 ≤ i ∧ i < 0 + pat.len then pat.len else 0⟩, 0) := by
    refine ⟨rfl, ?_, fun p hp => absurd hp (Nat.not_lt_zero p), fun p _ hp => ?_, fun k _ hk => ?_⟩
    · exact Nat.le_of_eq (Nat.zero_add _)
    · exact if_pos ⟨Nat.zero_le p, Nat.lt_of_lt_of_eq hp (Nat.zero_add _).symm⟩
    · omega
  obtain ⟨st, hst, hborders⟩ := foldlM_range_reverse_invariant
    (fun i st hi => borderStep_spec hlen hs hi) hinit
  have hshifts := ShiftsInv.of_leastAbove hborders.len fun p hp => hborders.leastAbove hp
  obtain ⟨gs, hgs, hinv⟩ := foldlM_range_invariant
    (fun i gs hi => suffixShiftStep_spec hlen hs (Nat.add_lt_of_lt_sub hi)) hshifts
  refine ⟨gs, ?_, hinv.len, fun i hi => ⟨hinv.pos i hi, hinv.le i hi, hinv.fits i hi, ?_⟩⟩
  · simp only [calcGoodShift, hsuff, fill_whole, hst, hgs, Option.bind_eq_bind, Option.bind_some]
  · intro r hr hlt
    exact hinv.least i hi r hr hlt (by omega)

end goodShift
end PortableLib.StrMatch
