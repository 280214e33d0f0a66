import PortableLib.StrMatch.BoyerMoore

/-! `boyer_moore_search::turbo_matchall` of `utils/strmatch.h`. It remembers how much of the text
the last attempt matched, does not compare that part again, and takes it into account when it
moves on. -/

namespace PortableLib.StrMatch

/-- The variables of `turbo_matchall` that live across the rounds. -/
structure Turbo where
  j : Nat
  u : Nat
  shift : Nat

namespace BoyerMoore

section model
variable {T : Type} [DecidableEq T]

/-- The comparison of `turbo_matchall`, which jumps over what is remembered; `i` is one more than
in the code, and the first argument bounds the number of comparisons. -/
def turboCompare (pat text : Block T) (st : Turbo) : Nat → Nat → Option Nat
  | _, 0 => some 0
  | 0, _ + 1 => none
  | fuel + 1, i + 1 => do
    if (← pat.read i) = (← text.read (i + st.j)) then
      turboCompare pat text st fuel (if st.u ≠ 0 ∧ i = pat.len - st.shift then i - st.u else i)
    else some (i + 1)

/-- Where `turbo_matchall` goes on after a mismatch at `i`. No shift is negative, being at least
`gs`. -/
def turboNext (patlen : Nat) (st : Turbo) (i : Nat) (bcShift : Int) (gs : Nat) : Turbo :=
  let v := patlen - 1 - i
  let turboShift : Int := (st.u : Int) - v
  let shift := max (max turboShift bcShift) gs
  if shift = gs then { j := st.j + gs, u := min (patlen - gs) v, shift := gs }
  else
    let shift := if turboShift < bcShift then max shift (st.u + 1) else shift
    { j := st.j + shift.toNat, u := 0, shift := shift.toNat }

variable [CharType T]

/-- One round of `turbo_matchall`. -/
def turboAttempt (bm : BoyerMoore T) (text : Block T) (st : Turbo) : Option (Bool × Turbo) := do
  match ← turboCompare bm.pat text st bm.pat.len bm.pat.len with
  | 0 =>
    let shift ← bm.goodShift.read 0
    return (true, { j := st.j + shift, u := bm.pat.len - shift, shift := shift })
  | i + 1 =>
    let bcShift ← bm.badCharShift text st.j i
    let gs ← bm.goodShift.read i
    return (false, turboNext bm.pat.len st i bcShift gs)

def turboMatchall (bm : BoyerMoore T) (text : Block T) (textlen : Nat) : Option (List Nat) :=
  scan Turbo.j (bm.turboAttempt text) (offsets textlen bm.pat.len) (textlen + 2)
    { j := 0, u := 0, shift := bm.pat.len }

end model

variable {T : Type} {pat text : Block T} {st : Turbo} {i d : Nat}

def Remembers (pat text : Block T) (st : Turbo) : Prop :=
  st.u = 0 ∨ st.u + st.shift ≤ pat.len ∧
    ∀ k, pat.len - st.shift - st.u ≤ k → k < pat.len - st.shift →
      text.cells (st.j + k) = pat.cells k ∧ pat.cells (k + st.shift) = pat.cells k

theorem turboCompare_spec [DecidableEq T] {fuel : Nat} (h : Remembers pat text st)
    (hfuel : i ≤ fuel) (hi : i ≤ pat.len) (htext : st.j + pat.len ≤ text.len)
    (heq : ∀ k, i ≤ k → k < pat.len → text.cells (st.j + k) = pat.cells k) :
    ∃ r, turboCompare pat text st fuel i = some r ∧ EndsAt pat text st.j r := by
  induction fuel generalizing i with
  | zero =>
    obtain rfl : i = 0 := Nat.le_zero.mp hfuel
    exact ⟨0, rfl, Or.inl ⟨rfl, fun k hk => heq k (Nat.zero_le k) hk⟩⟩
  | succ fuel ih =>
    cases i with
    | zero => exact ⟨0, rfl, Or.inl ⟨rfl, fun k hk => heq k (Nat.zero_le k) hk⟩⟩
    | succ i =>
      have hpat : pat.read i = some (pat.cells i) := Block.read_of_lt hi
      have hread : text.read (i + st.j) = some (text.cells (i + st.j)) :=
        Block.read_of_lt (by omega)
      rw [turboCompare, hpat, hread]
      simp only [Option.bind_eq_bind, Option.bind_some]
      split
      next hsame =>
        have hfrom : ∀ k, i ≤ k → k < pat.len → text.cells (st.j + k) = pat.cells k := by
          intro k hk hkm
          rcases Nat.eq_or_lt_of_le hk with rfl | hlt
          · rw [Nat.add_comm, hsame]
          · exact heq k hlt hkm
        split
        next hjump =>
          obtain hzero | ⟨hbound, hpart⟩ := h
          · exact absurd hzero hjump.1
          · apply ih (by omega) (by omega)
            intro k hk hkm
            rcases Nat.lt_or_ge k i with hlt | hge
            · exact (hpart k (by omega) (by omega)).1
            · exact hfrom k hge hkm
        next => exact ih (by omega) (by omega) hfrom
      next hdiff =>
        refine ⟨i + 1, rfl, Or.inr ⟨i, rfl, hi, heq, fun hsame => hdiff ?_⟩⟩
        rw [← hsame, Nat.add_comm]

/-- The two symbols `shift` apart that the remembered part and the mismatch bring into the text
differ, and in every copy that covers both with the repeated part they would be equal. -/
theorem Remembers.not_occurs_of_lt_turboShift (h : Remembers pat text st)
    (hdiff : Differs pat text st.j i) (hlt : (d : Int) < (st.u : Int) - (pat.len - 1 - i : Nat)) :
    ¬ Occurs pat.cells pat.len text.cells (st.j + d) := by
  intro hoc
  have him := hdiff.lt
  obtain hzero | ⟨hbound, hpart⟩ := h
  · omega
  -- the remembered part ends at the mismatch's own symbol, `shift` before it
  obtain ⟨htext, hpat⟩ := hpart (i - st.shift) (by omega) (by omega)
  obtain ⟨-, hrepeat⟩ := hpart (i - st.shift - d) (by omega) (by omega)
  have hsum : i - st.shift + st.shift = i := by omega
  have hsum' : i - st.shift - d + st.shift = i - d := by omega
  rw [hsum] at hpat
  rw [hsum'] at hrepeat
  have hfar : text.cells (st.j + i) = pat.cells (i - d) := hoc.at (by omega) (by omega)
  have hnear : text.cells (st.j + (i - st.shift)) = pat.cells (i - st.shift - d) :=
    hoc.at (by omega) (by omega)
  apply hdiff.ne
  calc text.cells (st.j + i) = pat.cells (i - d) := hfar
    _ = pat.cells (i - st.shift - d) := hrepeat
    _ = text.cells (st.j + (i - st.shift)) := hnear.symm
    _ = pat.cells (i - st.shift) := htext
    _ = pat.cells i := hpat.symm

theorem remembers_of_fits {s u : Nat} (hlen : u + s ≤ pat.len)
    (htext : ∀ k, pat.len - u ≤ k → k < pat.len → text.cells (st.j + k) = pat.cells k)
    (hfits : ∀ k, pat.len - u ≤ k → k < pat.len → s ≤ k → pat.cells (k - s) = pat.cells k) :
    Remembers pat text ⟨st.j + s, u, s⟩ := by
  refine Or.inr ⟨hlen, fun k hk hkm => ?_⟩
  dsimp only at hk hkm ⊢
  have hrepeat := hfits (k + s) (by omega) (by omega) (Nat.le_add_left s k)
  have hat := htext (k + s) (by omega) (by omega)
  rw [Nat.add_sub_cancel] at hrepeat
  refine ⟨?_, hrepeat.symm⟩
  rw [hrepeat, ← hat]
  congr 1
  omega

section next
variable {m gs : Nat} {bc : Int}

theorem turboNext_of_goodShift (hturbo : (st.u : Int) - (m - 1 - i : Nat) ≤ gs) (hbc : bc ≤ gs) :
    turboNext m st i bc gs = ⟨st.j + gs, min (m - gs) (m - 1 - i), gs⟩ :=
  if_pos (max_eq_right (max_le hturbo hbc))

theorem turboNext_of_badChar (hturbo : (st.u : Int) - (m - 1 - i : Nat) < bc)
    (hgs : (gs : Int) < bc) :
    turboNext m st i bc gs =
      ⟨st.j + (max bc (st.u + 1)).toNat, 0, (max bc (st.u + 1)).toNat⟩ := by
  have hmax : max (max ((st.u : Int) - (m - 1 - i : Nat)) bc) gs = bc := by omega
  rw [turboNext, hmax, if_neg (Int.ne_of_gt hgs), if_pos hturbo]

theorem turboNext_of_turboShift (hbc : bc ≤ (st.u : Int) - (m - 1 - i : Nat))
    (hgs : (gs : Int) < (st.u : Int) - (m - 1 - i : Nat)) :
    turboNext m st i bc gs = ⟨st.j + ((st.u : Int) - (m - 1 - i : Nat)).toNat, 0,
      ((st.u : Int) - (m - 1 - i : Nat)).toNat⟩ := by
  have hmax : max (max ((st.u : Int) - (m - 1 - i : Nat)) bc) gs =
      (st.u : Int) - (m - 1 - i : Nat) := by omega
  rw [turboNext, hmax, if_neg (Int.ne_of_gt hgs), if_neg (Int.not_lt.mpr hbc)]

theorem le_turboNext_j : st.j ≤ (turboNext m st i bc gs).j := by
  rw [turboNext]
  split <;> exact Nat.le_add_right _ _

end next

section attempt
variable [DecidableEq T]

theorem turboCompare_endsAt (h : Remembers pat text st) (htext : st.j + pat.len ≤ text.len) :
    ∃ r, turboCompare pat text st pat.len pat.len = some r ∧ EndsAt pat text st.j r :=
  turboCompare_spec h (Nat.le_refl _) (Nat.le_refl _) htext
    fun _ hk hkm => absurd hkm (Nat.not_lt.mpr hk)

variable [CharType T] {bm : BoyerMoore T}

theorem turboAttempt_of_occurs (hbm : bm.WellFormed) (h : Remembers bm.pat text st)
    (htext : st.j + bm.pat.len ≤ text.len)
    (hoc : Occurs bm.pat.cells bm.pat.len text.cells st.j) :
    bm.turboAttempt text st = some (true, ⟨st.j + bm.goodShift.cells 0,
      bm.pat.len - bm.goodShift.cells 0, bm.goodShift.cells 0⟩) := by
  obtain ⟨r, hr, ⟨rfl, -⟩ | ⟨i, -, hdiff⟩⟩ := turboCompare_endsAt h htext
  · have hread := Block.read_of_lt (hbm.good.len.symm ▸ hbm.pos)
    simp only [turboAttempt, hr, hread, Option.bind_eq_bind, Option.bind_some, pure]
  · exact absurd hoc hdiff.not_occurs

theorem turboAttempt_of_differs (hbm : bm.WellFormed) (h : Remembers bm.pat text st)
    (htext : st.j + bm.pat.len ≤ text.len) (hdiff : Differs bm.pat text st.j i) :
    bm.turboAttempt text st = (bm.badCharShift text st.j i).map fun bc =>
      (false, turboNext bm.pat.len st i bc (bm.goodShift.cells i)) := by
  obtain ⟨r, hr, ⟨-, hoc⟩ | ⟨i', rfl, hdiff'⟩⟩ := turboCompare_endsAt h htext
  · exact absurd hoc hdiff.not_occurs
  · obtain rfl := hdiff.unique hdiff'
    have hread := Block.read_of_lt (hbm.good.len.symm ▸ hdiff.lt)
    simp only [turboAttempt, hr, hread, Option.bind_eq_bind, Option.bind_some, pure]
    exact Option.map_eq_bind.symm

theorem le_of_turboAttempt {found : Bool} {st' : Turbo}
    (h : bm.turboAttempt text st = some (found, st')) : st.j ≤ st'.j := by
  rw [turboAttempt, Option.bind_eq_bind, Option.bind_eq_some_iff] at h
  obtain ⟨r, -, h⟩ := h
  split at h
  · simp only [Option.bind_eq_some_iff, pure, Option.some.injEq, Prod.mk.injEq] at h
    obtain ⟨gs, -, -, rfl⟩ := h
    exact Nat.le_add_right _ gs
  · simp only [Option.bind_eq_bind, Option.bind_eq_some_iff, pure, Option.some.injEq,
      Prod.mk.injEq] at h
    obtain ⟨bc, -, gs, -, -, rfl⟩ := h
    exact le_turboNext_j

/-- Of a round after which the bad character decides how far to move on: where the code stretches
that move to `u + 1`, the offsets this adds hold no occurrence. -/
def StretchesOverNone (bm : BoyerMoore T) (text : Block T) (hi : Nat) (st : Turbo) : Prop :=
  ∀ i, Differs bm.pat text st.j i →
    (st.u : Int) - (bm.pat.len - 1 - i : Nat) < bm.badCharShiftAt text st.j i →
    (bm.goodShift.cells i : Int) < bm.badCharShiftAt text st.j i →
    ∀ d : Nat, bm.badCharShiftAt text st.j i ≤ d → d ≤ st.u → st.j + d < hi →
      ¬ Occurs bm.pat.cells bm.pat.len text.cells (st.j + d)

theorem turboAttempt_faithful {hi : Nat} (hbm : bm.WellFormed) (h : Remembers bm.pat text st)
    (htext : st.j + bm.pat.len ≤ text.len) (hC : InAlphabet bm.pat text st.j)
    (hstretch : StretchesOverNone bm text hi st) :
    ∃ found st', bm.turboAttempt text st = some (found, st') ∧ Remembers bm.pat text st' ∧
      Faithful bm.pat.cells bm.pat.len text.cells hi Turbo.j st found st' := by
  obtain ⟨-, -, ⟨-, hoc⟩ | ⟨i, -, hdiff⟩⟩ := turboCompare_endsAt h htext
  · have hleast := hbm.good.least 0 hbm.pos
    have hle := hleast.le
    have hpos := hleast.pos
    refine ⟨true, _, turboAttempt_of_occurs hbm h htext hoc, ?_, ?_⟩
    · apply remembers_of_fits (by omega) (fun k _ hkm => hoc k hkm)
      exact fun k hk hkm hs => hleast.fits.1 k (by omega) hkm hs
    · apply Faithful.of_shift rfl hpos ⟨fun _ => hoc, fun _ => rfl⟩
      exact fun d hd hlt _ => hbm.not_occurs_of_occurs hoc hd hlt
  · have hleast := hbm.good.least i hdiff.lt
    have hle := hleast.le
    have hpos := hleast.pos
    have him := hdiff.lt
    have hidx := hC i hdiff
    have hbc := badCharShift_eq hbm (show st.j + i < text.len by omega) hidx
    have hstep := (turboAttempt_of_differs hbm h htext hdiff).trans (congrArg _ hbc)
    have hfound : false = true ↔ Occurs bm.pat.cells bm.pat.len text.cells st.j :=
      ⟨fun h => absurd h Bool.false_ne_true, fun h => absurd h hdiff.not_occurs⟩
    refine ⟨false, _, hstep, ?_⟩
    -- the longest of the three shifts decides; the turbo shift goes before the bad character
    have hlongest : ((st.u : Int) - (bm.pat.len - 1 - i : Nat) ≤ bm.goodShift.cells i ∧
          bm.badCharShiftAt text st.j i ≤ bm.goodShift.cells i) ∨
        ((st.u : Int) - (bm.pat.len - 1 - i : Nat) < bm.badCharShiftAt text st.j i ∧
          (bm.goodShift.cells i : Int) < bm.badCharShiftAt text st.j i) ∨
        (bm.badCharShiftAt text st.j i ≤ (st.u : Int) - (bm.pat.len - 1 - i : Nat) ∧
          (bm.goodShift.cells i : Int) < (st.u : Int) - (bm.pat.len - 1 - i : Nat)) := by omega
    obtain ⟨hturbo, hbad⟩ | ⟨hturbo, hgs⟩ | ⟨hbad, hgs⟩ := hlongest
    · rw [turboNext_of_goodShift hturbo hbad]
      refine ⟨remembers_of_fits (by omega) ?_ ?_, ?_⟩
      · exact fun k hk hkm => hdiff.eq k (by omega) hkm
      · exact fun k hk hkm hs => hleast.fits.1 k (by omega) hkm hs
      · apply Faithful.of_shift rfl hpos hfound
        exact fun d hd hlt _ => hbm.not_occurs_of_lt_goodShift hdiff hd hlt
    · rw [turboNext_of_badChar hturbo hgs]
      refine ⟨Or.inl rfl, Faithful.of_shift rfl (by omega) hfound fun d hd hlt hdhi => ?_⟩
      by_cases hshort : (d : Int) < bm.badCharShiftAt text st.j i
      · exact hbm.not_occurs_of_lt_badChar hdiff hidx hd hshort
      · exact hstretch i hdiff hturbo hgs d (by omega) (by omega) hdhi
    · rw [turboNext_of_turboShift hbad hgs]
      refine ⟨Or.inl rfl, Faithful.of_shift rfl (by omega) hfound fun d hd hlt _ => ?_⟩
      exact h.not_occurs_of_lt_turboShift hdiff (by omega)

theorem turboAttempt_passes {hi : Nat} {found : Bool} {st' : Turbo} (hbm : bm.WellFormed)
    (h : Remembers bm.pat text st) (htext : st.j + bm.pat.len ≤ text.len)
    (hC : ¬ (InAlphabet bm.pat text st.j ∧ StretchesOverNone bm text hi st))
    (hstep : bm.turboAttempt text st = some (found, st')) :
    ∃ p, st.j < p ∧ p < st'.j ∧ p < hi ∧ Occurs bm.pat.cells bm.pat.len text.cells p := by
  have hidx : InAlphabet bm.pat text st.j := by
    intro i hdiff
    by_contra hidx
    rw [turboAttempt_of_differs hbm h htext hdiff, badCharShift_eq_none hbm hidx] at hstep
    cases hstep
  rw [and_iff_right hidx, StretchesOverNone] at hC
  push Not at hC
  obtain ⟨i, hdiff, hturbo, hgs, d, hbad, hdu, hdhi, hoc⟩ := hC
  have him := hdiff.lt
  have hbc := badCharShift_eq hbm (show st.j + i < text.len by omega) (hidx i hdiff)
  rw [turboAttempt_of_differs hbm h htext hdiff, hbc, Option.map_some,
    turboNext_of_badChar hturbo hgs] at hstep
  obtain ⟨-, rfl⟩ := Prod.mk.inj (Option.some.inj hstep)
  refine ⟨st.j + d, ?_, ?_, hdhi, hoc⟩
  · omega
  · dsimp only
    omega

theorem turboMatchall_eq_occurrences_iff {textlen : Nat} (hbm : bm.WellFormed)
    (htext : textlen ≤ text.len) :
    bm.turboMatchall text textlen = some (occurrences bm.pat.cells bm.pat.len text.cells 0
        (offsets textlen bm.pat.len)) ↔
      ∀ st, Scans Turbo.j (bm.turboAttempt text) (offsets textlen bm.pat.len)
          ⟨0, 0, bm.pat.len⟩ st → st.j < offsets textlen bm.pat.len →
        InAlphabet bm.pat text st.j ∧
          StretchesOverNone bm text (offsets textlen bm.pat.len) st := by
  have hin : ∀ j, j < offsets textlen bm.pat.len → j + bm.pat.len ≤ text.len :=
    fun j hj => (lt_offsets_iff.mp hj).trans htext
  apply scan_eq_occurrences_iff (I := Remembers bm.pat text)
  · exact fun st found st' => le_of_turboAttempt
  · exact fun st h hj hC => turboAttempt_faithful hbm h (hin st.j hj) hC.1 hC.2
  · exact fun st found st' h hj hC hstep => turboAttempt_passes hbm h (hin st.j hj) hC hstep
  · exact Or.inl rfl
  · rw [offsets]
    dsimp only
    omega

end attempt
end BoyerMoore
end PortableLib.StrMatch
