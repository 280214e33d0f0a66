import PortableLib.StrMatch.Tables

/-! `boyer_moore_search` of `utils/strmatch.h`: the object its constructor makes and
`matchall`. The text is a block of memory that may go on after the `textlen` characters that are
searched. -/

namespace PortableLib.StrMatch
open Run

structure BoyerMoore (T : Type) where
  pat : Block T
  badChar : Block Nat
  goodShift : Block Nat

namespace BoyerMoore
variable {T : Type} [DecidableEq T] [CharType T]

def new (pat : Block T) : Option (BoyerMoore T) := do
  let goodShift ← calcGoodShift pat
  let badChar ← calcBadChar pat
  return { pat := pat, badChar := badChar, goodShift := goodShift }

/-- `for (i = m_patlen-1; i >= 0 && eq(m_pat[i], text[i+j]); --i);` with `i` one more than in
the code. -/
def compareDown (pat text : Block T) (j : Nat) : Nat → Option Nat
  | 0 => some 0
  | i + 1 => do
    if (← pat.read i) = (← text.read (i + j)) then compareDown pat text j i else some (i + 1)

/-- `m_bad_char[text[i+j]] - m_patlen + 1 + i` -/
def badCharShift (bm : BoyerMoore T) (text : Block T) (j i : Nat) : Option Int := do
  let bc ← bm.badChar.read (charIndex (← text.read (i + j)))
  return (bc : Int) - bm.pat.len + 1 + i

/-- One round of `matchall`. The shift is not negative, being at least `m_good_shift[i]`. -/
def attempt (bm : BoyerMoore T) (text : Block T) (j : Nat) : Option (Bool × Nat) := do
  match ← compareDown bm.pat text j bm.pat.len with
  | 0 => return (true, j + (← bm.goodShift.read 0))
  | i + 1 =>
    let gs ← bm.goodShift.read i
    let bc ← bm.badCharShift text j i
    return (false, j + (max (gs : Int) bc).toNat)

/-- The loop runs while `j <= n` for `n = textlen - m_patlen`, which may be negative. -/
def matchall (bm : BoyerMoore T) (text : Block T) (textlen : Nat) : Option (List Nat) :=
  scan id (bm.attempt text) (offsets textlen bm.pat.len) (textlen + 2) 0

end BoyerMoore

variable {T : Type} {pat text : Block T} {i j d : Nat}

structure Differs (pat text : Block T) (j i : Nat) : Prop where
  lt : i < pat.len
  eq : ∀ k, i < k → k < pat.len → text.cells (j + k) = pat.cells k
  ne : text.cells (j + i) ≠ pat.cells i

theorem Differs.not_occurs (h : Differs pat text j i) :
    ¬ Occurs pat.cells pat.len text.cells j := fun hoc => h.ne (hoc i h.lt)

theorem Differs.unique {i' : Nat} (h : Differs pat text j i) (h' : Differs pat text j i') :
    i = i' := by
  rcases Nat.lt_trichotomy i i' with hlt | rfl | hgt
  · exact absurd (h.eq i' hlt h'.lt) h'.ne
  · rfl
  · exact absurd (h'.eq i hgt h.lt) h.ne

def EndsAt (pat text : Block T) (j r : Nat) : Prop :=
  (r = 0 ∧ Occurs pat.cells pat.len text.cells j) ∨ ∃ i, r = i + 1 ∧ Differs pat text j i

namespace BoyerMoore
variable [DecidableEq T] {bm : BoyerMoore T}

theorem compareDown_spec (hi : i ≤ pat.len) (htext : j + pat.len ≤ text.len)
    (heq : ∀ k, i ≤ k → k < pat.len → text.cells (j + k) = pat.cells k) :
    ∃ r, compareDown pat text j i = some r ∧ EndsAt pat text j r := by
  induction i with
  | zero => exact ⟨0, rfl, Or.inl ⟨rfl, fun k hk => heq k (Nat.zero_le k) hk⟩⟩
  | succ i ih =>
    have hpat : pat.read i = some (pat.cells i) := Block.read_of_lt hi
    have hread : text.read (i + j) = some (text.cells (i + j)) := Block.read_of_lt (by omega)
    rw [compareDown, hpat, hread]
    simp only [Option.bind_eq_bind, Option.bind_some]
    split
    next hsame =>
      apply ih (Nat.le_of_succ_le hi)
      intro k hk hkm
      rcases Nat.eq_or_lt_of_le hk with rfl | hlt
      · rw [Nat.add_comm, hsame]
      · exact heq k hlt hkm
    next hdiff =>
      refine ⟨i + 1, rfl, Or.inr ⟨i, rfl, hi, heq, fun hsame => hdiff ?_⟩⟩
      rw [← hsame, Nat.add_comm]

theorem compareDown_endsAt (htext : j + pat.len ≤ text.len) :
    ∃ r, compareDown pat text j pat.len = some r ∧ EndsAt pat text j r :=
  compareDown_spec (Nat.le_refl _) htext fun _ hk hkm => absurd hkm (Nat.not_lt.mpr hk)

variable [CharType T]

structure WellFormed (bm : BoyerMoore T) : Prop where
  pos : 0 < bm.pat.len
  good : GoodShiftTable bm.pat bm.goodShift
  bad : BadCharTable bm.pat (bm.pat.len - 1) bm.badChar

theorem new_spec (hm : 0 < pat.len)
    (hidx : ∀ i < pat.len - 1, charIndex (pat.cells i) < alphabetSize T) :
    ∃ bm, new pat = some bm ∧ bm.pat = pat ∧ bm.WellFormed := by
  obtain ⟨gs, hgs, hgood⟩ := calcGoodShift_spec hm
  obtain ⟨bc, hbc, hbad⟩ := calcBadChar_spec hidx
  refine ⟨⟨pat, bc, gs⟩, ?_, rfl, hm, hgood, hbad⟩
  simp only [new, hgs, hbc, Option.bind_eq_bind, Option.bind_some, pure]

theorem index_lt_of_new (h : new pat = some bm) {i : Nat} (hi : i < pat.len - 1) :
    charIndex (pat.cells i) < alphabetSize T := by
  simp only [new, Option.bind_eq_bind, Option.bind_eq_some_iff] at h
  obtain ⟨gs, -, bc, hbc, -⟩ := h
  exact charIndex_lt_of_calcBadChar hbc hi

omit [DecidableEq T] in
theorem WellFormed.not_occurs_of_occurs (hbm : bm.WellFormed)
    (h : Occurs bm.pat.cells bm.pat.len text.cells j) (hd : 0 < d)
    (hlt : d < bm.goodShift.cells 0) :
    ¬ Occurs bm.pat.cells bm.pat.len text.cells (j + d) := fun hoc =>
  (hbm.good.least 0 hbm.pos).least d hd hlt ((fits_iff_period hd).mpr (h.period hoc))

omit [DecidableEq T] in
theorem WellFormed.not_occurs_of_lt_goodShift (hbm : bm.WellFormed)
    (h : Differs bm.pat text j i) (hd : 0 < d) (hlt : d < bm.goodShift.cells i) :
    ¬ Occurs bm.pat.cells bm.pat.len text.cells (j + d) := fun hoc =>
  (hbm.good.least i h.lt).least d hd hlt (Occurs.fits h.lt h.eq h.ne hoc)

/-- What `badCharShift` returns where it reads inside the table. -/
def badCharShiftAt (bm : BoyerMoore T) (text : Block T) (j i : Nat) : Int :=
  (bm.badChar.cells (charIndex (text.cells (j + i))) : Int) - bm.pat.len + 1 + i

/-- Of an attempt at `j`: the character that ends the comparison is an index of the table. -/
def InAlphabet (pat text : Block T) (j : Nat) : Prop :=
  ∀ i, Differs pat text j i → charIndex (text.cells (j + i)) < alphabetSize T

omit [DecidableEq T] in
theorem WellFormed.not_occurs_of_lt_badChar (hbm : bm.WellFormed) (h : Differs bm.pat text j i)
    (hidx : charIndex (text.cells (j + i)) < alphabetSize T) (hd : 0 < d)
    (hlt : (d : Int) < bm.badCharShiftAt text j i) :
    ¬ Occurs bm.pat.cells bm.pat.len text.cells (j + d) := by
  intro hoc
  have hle := hbm.bad.le _ (hbm.bad.len.symm ▸ hidx)
  have him := h.lt
  rw [badCharShiftAt] at hlt
  have hchar : text.cells (j + i) = bm.pat.cells (i - d) := hoc.at (by omega) (by omega)
  have hfar := hbm.bad.far (i - d) (by omega)
  rw [← hchar] at hfar
  omega

omit [DecidableEq T] in
theorem badCharShift_eq (hbm : bm.WellFormed) (hread : j + i < text.len)
    (hidx : charIndex (text.cells (j + i)) < alphabetSize T) :
    bm.badCharShift text j i = some (bm.badCharShiftAt text j i) := by
  have hcell := Block.read_of_lt (hbm.bad.len.symm ▸ hidx)
  rw [badCharShift, Nat.add_comm i j, Block.read_of_lt hread]
  simp only [Option.bind_eq_bind, Option.bind_some, hcell, pure, badCharShiftAt]

omit [DecidableEq T] in
theorem badCharShift_eq_none (hbm : bm.WellFormed)
    (hidx : ¬ charIndex (text.cells (j + i)) < alphabetSize T) :
    bm.badCharShift text j i = none := by
  have hcell : bm.badChar.read (charIndex (text.cells (j + i))) = none :=
    if_neg (hbm.bad.len.symm ▸ hidx)
  rw [badCharShift, Nat.add_comm i j, Block.read]
  split
  · simp only [Option.bind_eq_bind, Option.bind_some, hcell, Option.bind_none]
  · rfl

theorem attempt_of_occurs (hbm : bm.WellFormed) (htext : j + bm.pat.len ≤ text.len)
    (h : Occurs bm.pat.cells bm.pat.len text.cells j) :
    bm.attempt text j = some (true, j + bm.goodShift.cells 0) := by
  obtain ⟨r, hr, ⟨rfl, -⟩ | ⟨i, -, hdiff⟩⟩ := compareDown_endsAt htext
  · have hread := Block.read_of_lt (hbm.good.len.symm ▸ hbm.pos)
    simp only [attempt, hr, hread, Option.bind_eq_bind, Option.bind_some, pure]
  · exact absurd h hdiff.not_occurs

theorem attempt_of_differs (hbm : bm.WellFormed) (htext : j + bm.pat.len ≤ text.len)
    (h : Differs bm.pat text j i) :
    bm.attempt text j = (bm.badCharShift text j i).map fun bc =>
      (false, j + (max (bm.goodShift.cells i : Int) bc).toNat) := by
  obtain ⟨r, hr, ⟨-, hoc⟩ | ⟨i', rfl, hdiff⟩⟩ := compareDown_endsAt htext
  · exact absurd hoc h.not_occurs
  · obtain rfl := h.unique hdiff
    have hread := Block.read_of_lt (hbm.good.len.symm ▸ h.lt)
    simp only [attempt, hr, hread, Option.bind_eq_bind, Option.bind_some, pure]
    exact (Option.map_eq_bind).symm

theorem attempt_faithful {hi : Nat} (hbm : bm.WellFormed) (htext : j + bm.pat.len ≤ text.len)
    (hC : InAlphabet bm.pat text j) :
    ∃ found j', bm.attempt text j = some (found, j') ∧
      Faithful bm.pat.cells bm.pat.len text.cells hi id j found j' := by
  obtain ⟨-, -, ⟨-, hoc⟩ | ⟨i, -, hdiff⟩⟩ := compareDown_endsAt htext
  · have hgs := (hbm.good.least 0 hbm.pos).pos
    refine ⟨true, _, attempt_of_occurs hbm htext hoc, ?_⟩
    apply Faithful.of_shift rfl hgs ⟨fun _ => hoc, fun _ => rfl⟩
    exact fun d hd hlt _ => hbm.not_occurs_of_occurs hoc hd hlt
  · have hgs := (hbm.good.least i hdiff.lt).pos
    have him := hdiff.lt
    have hbc := badCharShift_eq hbm (show j + i < text.len by omega) (hC i hdiff)
    refine ⟨false, _, (attempt_of_differs hbm htext hdiff).trans (congrArg _ hbc), ?_⟩
    apply Faithful.of_shift rfl (by omega)
    · exact ⟨fun h => absurd h Bool.false_ne_true, fun h => absurd h hdiff.not_occurs⟩
    · intro d hd hlt _
      rcases Nat.lt_or_ge d (bm.goodShift.cells i) with hgood | hge
      · exact hbm.not_occurs_of_lt_goodShift hdiff hd hgood
      · have hbad : (d : Int) < bm.badCharShiftAt text j i := by omega
        exact hbm.not_occurs_of_lt_badChar hdiff (hC i hdiff) hd hbad

theorem le_of_attempt {found : Bool} {j' : Nat} (h : bm.attempt text j = some (found, j')) :
    j ≤ j' := by
  rw [attempt, Option.bind_eq_bind, Option.bind_eq_some_iff] at h
  obtain ⟨r, -, h⟩ := h
  split at h
  · simp only [Option.bind_eq_some_iff, pure, Option.some.injEq, Prod.mk.injEq] at h
    obtain ⟨gs, -, -, rfl⟩ := h
    exact Nat.le_add_right j gs
  · simp only [Option.bind_eq_bind, Option.bind_eq_some_iff, pure, Option.some.injEq,
      Prod.mk.injEq] at h
    obtain ⟨gs, -, bc, -, -, rfl⟩ := h
    exact Nat.le_add_right j _

theorem matchall_eq_occurrences_iff {textlen : Nat} (hbm : bm.WellFormed)
    (htext : textlen ≤ text.len) :
    bm.matchall text textlen = some (occurrences bm.pat.cells bm.pat.len text.cells 0
        (offsets textlen bm.pat.len)) ↔
      ∀ j, Scans id (bm.attempt text) (offsets textlen bm.pat.len) 0 j →
        j < offsets textlen bm.pat.len → InAlphabet bm.pat text j := by
  have hin : ∀ j, j < offsets textlen bm.pat.len → j + bm.pat.len ≤ text.len :=
    fun j hj => (lt_offsets_iff.mp hj).trans htext
  apply scan_eq_occurrences_iff (I := fun _ => True)
  · exact fun j found j' => le_of_attempt
  · intro j _ hj hC
    obtain ⟨found, j', hstep, hfaith⟩ := attempt_faithful hbm (hin j hj) hC
    exact ⟨found, j', hstep, trivial, hfaith⟩
  · intro j found j' _ hj hC hstep
    rw [InAlphabet, not_forall] at hC
    obtain ⟨i, hC⟩ := hC
    rw [Classical.not_imp] at hC
    rw [attempt_of_differs hbm (hin j hj) hC.1, badCharShift_eq_none hbm hC.2] at hstep
    cases hstep
  · trivial
  · rw [offsets]
    dsimp only [id]
    omega

end BoyerMoore
end PortableLib.StrMatch
