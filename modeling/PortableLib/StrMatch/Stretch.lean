import PortableLib.StrMatch.Narrow

/-! When `turbo_matchall` finds what `matchall` finds. The move that is stretched to `u + 1` passes
over an occurrence for some patterns. -/

namespace PortableLib.StrMatch
variable {T : Type} [DecidableEq T] [CharType T]

/-- Both return, and return the same vector. -/
def TurboAgrees (pat text : Block T) (textlen : Nat) : Prop :=
  ∃ v, boyerMooreSearch pat text textlen = some v ∧ turboSearch pat text textlen = some v

namespace BoyerMoore

/-- `m_bad_char[c] - m_patlen + 1 + i` -/
def badShift (bm : BoyerMoore T) (c : T) (i : Nat) : Int :=
  (bm.badChar.cells (charIndex c) : Int) - bm.pat.len + 1 + i

/-- A round of the loop of `turbo_matchall` starts in `st`. -/
def Starts (bm : BoyerMoore T) (text : Block T) (textlen : Nat) (st : Turbo) : Prop :=
  Scans Turbo.j (bm.turboAttempt text) (offsets textlen bm.pat.len) ⟨0, 0, bm.pat.len⟩ st ∧
    st.j < offsets textlen bm.pat.len

/-- The good shift for `i₀` is a period, a copy of the pattern may follow `d` after it, which
differs from the pattern at `i` first, and the bad character that it brings there is what decides
on the next move. -/
structure Overreaches (bm : BoyerMoore T) (i₀ d i : Nat) : Prop where
  lt : i₀ < bm.goodShift.cells i₀
  room : bm.goodShift.cells i₀ + d ≤ bm.pat.len
  period : Period bm.pat.cells bm.pat.len (bm.goodShift.cells i₀ + d)
  le : d ≤ i
  lt_len : i < bm.pat.len
  fits : Fits bm.pat.cells bm.pat.len i d
  good : (bm.goodShift.cells i : Int) < bm.badShift (bm.pat.cells (i - d)) i
  turbo : ((bm.pat.len - bm.goodShift.cells i₀ : Nat) : Int) - (bm.pat.len - 1 - i : Nat) <
    bm.badShift (bm.pat.cells (i - d)) i

variable {bm : BoyerMoore T} {text : Block T} {st : Turbo} {i₀ i d hi : Nat}

structure Follows (bm : BoyerMoore T) (text : Block T) (st : Turbo) (i₀ : Nat) : Prop where
  lt : i₀ < bm.pat.len
  shift : st.shift = bm.goodShift.cells i₀
  le : st.shift ≤ st.j
  u : st.u = min (bm.pat.len - st.shift) (bm.pat.len - 1 - i₀)
  text : ∀ k, i₀ < k → k < bm.pat.len → text.cells (st.j - st.shift + k) = bm.pat.cells k

def Recalls (bm : BoyerMoore T) (text : Block T) (st : Turbo) : Prop :=
  st.u = 0 ∨ ∃ i₀, Follows bm text st i₀

omit [DecidableEq T] in
theorem Recalls.remembers (hbm : bm.WellFormed) (h : Recalls bm text st) :
    Remembers bm.pat text st := by
  obtain hzero | ⟨i₀, hf⟩ := h
  · exact Or.inl hzero
  · obtain ⟨-, hle, hfits, -⟩ := hbm.good.least i₀ hf.lt
    have hshift := hf.shift
    have hj := hf.le
    have hu := hf.u
    refine Or.inr ⟨by omega, fun k hk hkm => ?_⟩
    have htext := hf.text (k + st.shift) (by omega) (by omega)
    have hrepeat := hfits.1 (k + st.shift) (by omega) (by omega) (by omega)
    rw [← hshift, Nat.add_sub_cancel] at hrepeat
    refine ⟨?_, hrepeat.symm⟩
    rw [hrepeat, ← htext]
    congr 1
    omega

theorem turboNext_cases (m : Nat) (st : Turbo) (i : Nat) (bc : Int) (gs : Nat) :
    (turboNext m st i bc gs).u = 0 ∨
      turboNext m st i bc gs = ⟨st.j + gs, min (m - gs) (m - 1 - i), gs⟩ := by
  rw [turboNext]
  split
  · exact Or.inr rfl
  · exact Or.inl rfl

theorem Recalls.turboAttempt {found : Bool} {st' : Turbo} (hbm : bm.WellFormed)
    (h : Recalls bm text st) (htext : st.j + bm.pat.len ≤ text.len)
    (hstep : bm.turboAttempt text st = some (found, st')) : Recalls bm text st' := by
  have hrem := h.remembers hbm
  obtain ⟨-, -, ⟨-, hoc⟩ | ⟨i, -, hdiff⟩⟩ := turboCompare_endsAt hrem htext
  · rw [turboAttempt_of_occurs hbm hrem htext hoc] at hstep
    obtain ⟨-, rfl⟩ := Prod.mk.inj (Option.some.inj hstep)
    have hpos := (hbm.good.least 0 hbm.pos).pos
    refine Or.inr ⟨0, hbm.pos, rfl, Nat.le_add_left _ _, by dsimp only; omega, fun k _ hk => ?_⟩
    rw [Nat.add_sub_cancel]
    exact hoc k hk
  · rw [turboAttempt_of_differs hbm hrem htext hdiff, Option.map_eq_some_iff] at hstep
    obtain ⟨bc, -, hnext⟩ := hstep
    obtain ⟨-, rfl⟩ := Prod.mk.inj hnext
    obtain hzero | hgood := turboNext_cases bm.pat.len st i bc (bm.goodShift.cells i)
    · exact Or.inl hzero
    · rw [hgood]
      refine Or.inr ⟨i, hdiff.lt, rfl, Nat.le_add_left _ _, rfl, fun k hk hkm => ?_⟩
      rw [Nat.add_sub_cancel]
      exact hdiff.eq k hk hkm

theorem Starts.recalls {textlen : Nat} (hbm : bm.WellFormed) (hlen : textlen ≤ text.len)
    (h : bm.Starts text textlen st) : Recalls bm text st := by
  refine h.1.keeps (Or.inl rfl) fun st found st' hst hlt hstep => ?_
  exact hst.turboAttempt hbm ((lt_offsets_iff.mp hlt).trans hlen) hstep

omit [DecidableEq T] in
theorem Follows.shift_lt (hbm : bm.WellFormed) (h : Follows bm text st i₀)
    (hdiff : Differs bm.pat text st.j i) (hd : 0 < d) (hdu : d ≤ st.u)
    (hturbo : (st.u : Int) - (bm.pat.len - 1 - i : Nat) < d)
    (hoc : Occurs bm.pat.cells bm.pat.len text.cells (st.j + d)) : i₀ < st.shift := by
  by_contra hle
  have hi := hdiff.lt
  have hj := h.le
  have hu := h.u
  have hi₀ := h.lt
  have hfits := (hbm.good.least i₀ hi₀).fits.2
  rw [← h.shift] at hfits
  apply hfits (Nat.not_lt.mp hle)
  have hnow : text.cells (st.j + (i₀ + d)) = bm.pat.cells (i₀ + d) :=
    hdiff.eq (i₀ + d) (by omega) (by omega)
  have hbefore : text.cells (st.j - st.shift + (i₀ + d)) = bm.pat.cells (i₀ + d) :=
    h.text (i₀ + d) (by omega) (by omega)
  calc bm.pat.cells (i₀ - st.shift)
      = text.cells (st.j - st.shift + (i₀ + d)) := (hoc.at (by omega) (by omega)).symm
    _ = bm.pat.cells (i₀ + d) := hbefore
    _ = text.cells (st.j + (i₀ + d)) := hnow.symm
    _ = bm.pat.cells i₀ := hoc.at (by omega) (by omega)

omit [DecidableEq T] in
theorem Follows.le_of_differs (hbm : bm.WellFormed) (h : Follows bm text st i₀)
    (hshift : i₀ < st.shift) (hdiff : Differs bm.pat text st.j i) : st.u ≤ i := by
  by_contra hlt
  have hj := h.le
  have hu := h.u
  have hfits := (hbm.good.least i₀ h.lt).fits.1
  rw [← h.shift] at hfits
  have hrepeat := hfits (i + st.shift) (by omega) (by omega) (Nat.le_add_left _ _)
  rw [Nat.add_sub_cancel] at hrepeat
  have htext := h.text (i + st.shift) (by omega) (by omega)
  apply hdiff.ne
  rw [hrepeat, ← htext]
  congr 1
  omega

omit [DecidableEq T] in
/-- A text in which a move is stretched over an occurrence shows what the pattern is like. -/
theorem overreaches_of_stretch (hbm : bm.WellFormed) (h : Recalls bm text st)
    (hstretch : ¬ StretchesOverNone bm text hi st) : ∃ i₀ d i, bm.Overreaches i₀ d i := by
  rw [StretchesOverNone] at hstretch
  push Not at hstretch
  obtain ⟨i, hdiff, hturbo, hgood, d, hbad, hdu, -, hoc⟩ := hstretch
  obtain hzero | ⟨i₀, hf⟩ := h
  · omega
  have hlt := hf.shift_lt hbm hdiff (by omega) hdu (by omega) hoc
  have hle := hf.le_of_differs hbm hlt hdiff
  have hj := hf.le
  have hu := hf.u
  have hfits := Occurs.fits hdiff.lt hdiff.eq hdiff.ne hoc
  have hchar : bm.badCharShiftAt text st.j i = bm.badShift (bm.pat.cells (i - d)) i := by
    have hi := hdiff.lt
    rw [badCharShiftAt, hoc.at (k := i - d) (by omega) (by omega), badShift]
  rw [hchar] at hturbo hgood
  have hwhole : st.u = bm.pat.len - st.shift := by omega
  refine ⟨i₀, d, i, hf.shift ▸ hlt, by rw [← hf.shift]; omega, ?_, by omega, hdiff.lt, hfits, hgood,
    ?_⟩
  · rw [← hf.shift]
    intro k hk hkm
    rw [← hf.text k (by omega) hkm]
    exact (hoc.at (by omega) (by omega)).symm
  · rw [← hf.shift, ← hwhole]
    exact hturbo

def echo (pat : Block T) (i₀ off : Nat) (c : T) : Block T where
  len := off + pat.len
  cells k := if k = i₀ then c else if k < off then pat.cells k else pat.cells (k - off)

section echo
variable {pat : Block T} {off : Nat} {c : T}

omit [DecidableEq T] [CharType T] in
theorem echo_behind (hi₀ : i₀ < off) (k : Nat) :
    (echo pat i₀ off c).cells (off + k) = pat.cells k := by
  have hne : ¬ off + k = i₀ := by omega
  have hge : ¬ off + k < off := by omega
  show (if off + k = i₀ then c else if off + k < off then _ else _) = _
  rw [if_neg hne, if_neg hge, Nat.add_sub_cancel_left]

omit [DecidableEq T] [CharType T] in
theorem echo_self : (echo pat i₀ off c).cells i₀ = c := if_pos rfl

omit [DecidableEq T] [CharType T] in
theorem echo_before (hperiod : Period pat.cells pat.len off) {k : Nat} (hk : i₀ < k)
    (hkm : k < pat.len) : (echo pat i₀ off c).cells k = pat.cells k := by
  have hne : ¬ k = i₀ := Nat.ne_of_gt hk
  show (if k = i₀ then c else if k < off then _ else _) = _
  rw [if_neg hne]
  split
  next => rfl
  next hge => exact hperiod k (Nat.not_lt.mp hge) hkm

omit [DecidableEq T] [CharType T] in
theorem echo_mem {p k : Nat} (hoff : off ≤ pat.len) (hp : p < pat.len) (hc : c = pat.cells p)
    (hk : k < off + pat.len) : ∃ q < pat.len, (echo pat i₀ off c).cells k = pat.cells q := by
  simp only [echo]
  split_ifs
  · exact ⟨p, hp, hc⟩
  · exact ⟨k, by omega, rfl⟩
  · exact ⟨k - off, by omega, rfl⟩

omit [DecidableEq T] in
theorem echo_narrow {p : Nat} (hpat : Narrow pat) (hoff : off ≤ pat.len) (hp : p < pat.len)
    (hc : c = pat.cells p) : Narrow (echo pat i₀ off c) := by
  intro k hk
  obtain ⟨q, hq, heq⟩ := @echo_mem T i₀ pat off c p k hoff hp hc hk
  rw [heq]
  exact hpat q hq

end echo

section witness
variable {c : T}

theorem Overreaches.first_round (hbm : bm.WellFormed) (h : bm.Overreaches i₀ d i)
    (hc : c ≠ bm.pat.cells i₀) (hidx : charIndex c < alphabetSize T) :
    bm.turboAttempt (echo bm.pat i₀ (bm.goodShift.cells i₀ + d) c) ⟨0, 0, bm.pat.len⟩ =
      some (false, ⟨bm.goodShift.cells i₀, bm.pat.len - bm.goodShift.cells i₀,
        bm.goodShift.cells i₀⟩) := by
  have hlt := h.lt
  have hroom := h.room
  generalize htext : echo bm.pat i₀ (bm.goodShift.cells i₀ + d) c = text
  have hself : text.cells (0 + i₀) = c := by
    rw [← htext, Nat.zero_add]
    exact echo_self
  have hlen : text.len = bm.goodShift.cells i₀ + d + bm.pat.len := htext ▸ rfl
  have hdiff : Differs bm.pat text 0 i₀ := by
    refine ⟨by omega, fun k hk hkm => ?_, ?_⟩
    · rw [← htext, Nat.zero_add]
      exact echo_before h.period hk hkm
    · rw [hself]
      exact hc
  have hidx' : charIndex (text.cells (0 + i₀)) < alphabetSize T := hself ▸ hidx
  have hbc := badCharShift_eq hbm (show 0 + i₀ < text.len by omega) hidx'
  have hle := hbm.bad.le _ (hbm.bad.len.symm ▸ hidx')
  have hshort : bm.badCharShiftAt text 0 i₀ ≤ bm.goodShift.cells i₀ := by
    rw [badCharShiftAt]
    omega
  have hstart : Remembers bm.pat text ⟨0, 0, bm.pat.len⟩ := Or.inl rfl
  have hattempt := turboAttempt_of_differs hbm hstart
    (show 0 + bm.pat.len ≤ text.len by omega) hdiff
  rw [hattempt, hbc, Option.map_some, turboNext_of_goodShift (by dsimp only; omega) hshort]
  congr 3
  · exact Nat.zero_add _
  · omega

omit [DecidableEq T] in
theorem Overreaches.not_stretchesOverNone {text : Block T} (hbm : bm.WellFormed)
    (h : bm.Overreaches i₀ d i)
    (hoc : Occurs bm.pat.cells bm.pat.len text.cells (bm.goodShift.cells i₀ + d)) :
    ¬ StretchesOverNone bm text (bm.goodShift.cells i₀ + d + 1)
      ⟨bm.goodShift.cells i₀, bm.pat.len - bm.goodShift.cells i₀, bm.goodShift.cells i₀⟩ := by
  intro hnone
  have hroom := h.room
  have hlt := h.lt
  have hi := h.lt_len
  have hle := h.le
  have hshifted : ∀ k, d ≤ k → k < bm.pat.len →
      text.cells (bm.goodShift.cells i₀ + k) = bm.pat.cells (k - d) := fun k hk hkm =>
    hoc.at (by omega) (by omega)
  have hdiff : Differs bm.pat text (bm.goodShift.cells i₀) i := by
    refine ⟨hi, fun k hk hkm => ?_, ?_⟩
    · rw [hshifted k (by omega) hkm]
      exact h.fits.1 k hk hkm (by omega)
    · rw [hshifted i hle hi]
      exact h.fits.2 hle
  have hchar : bm.badCharShiftAt text (bm.goodShift.cells i₀) i =
      bm.badShift (bm.pat.cells (i - d)) i := by
    rw [badCharShiftAt, hshifted i hle hi, badShift]
  -- the character that the copy brings stands `d` before `i` in the pattern
  have hpos : 0 < d := Nat.pos_of_ne_zero fun hzero => h.fits.2 hle (hzero ▸ rfl)
  have hfar := hbm.bad.far (i - d) (by omega)
  refine hnone i hdiff ?_ ?_ d ?_ ?_ (Nat.lt_succ_self _) hoc
  · rw [hchar]
    exact h.turbo
  · rw [hchar]
    exact h.good
  · rw [hchar, badShift]
    omega
  · dsimp only
    omega

theorem Overreaches.exists_text (hbm : bm.WellFormed) (h : bm.Overreaches i₀ d i)
    (hpat : Narrow bm.pat) (hsize : 0 < CharType.size T) :
    ∃ text : Block T, Narrow text ∧ ∃ st, bm.Starts text text.len st ∧
      ¬ StretchesOverNone bm text (offsets text.len bm.pat.len) st := by
  have hroom := h.room
  have hlt := h.lt
  -- of two different characters of the pattern one is not the one at `i₀`
  obtain ⟨p, hp, hne⟩ : ∃ p < bm.pat.len, bm.pat.cells p ≠ bm.pat.cells i₀ := by
    have hi := h.lt_len
    by_cases heq : bm.pat.cells i = bm.pat.cells i₀
    · exact ⟨i - d, by omega, heq ▸ h.fits.2 h.le⟩
    · exact ⟨i, hi, heq⟩
  have hfirst := h.first_round hbm hne (hpat.charIndex_lt hsize hp)
  have hoc : Occurs bm.pat.cells bm.pat.len (echo bm.pat i₀ (bm.goodShift.cells i₀ + d)
      (bm.pat.cells p)).cells (bm.goodShift.cells i₀ + d) := fun k _ =>
    echo_behind (by omega) k
  have hoff : offsets (bm.goodShift.cells i₀ + d + bm.pat.len) bm.pat.len =
      bm.goodShift.cells i₀ + d + 1 := by
    rw [offsets]
    omega
  refine ⟨echo bm.pat i₀ (bm.goodShift.cells i₀ + d) (bm.pat.cells p),
    echo_narrow hpat hroom hp rfl, _, ⟨Scans.head ?_ hfirst (Scans.refl _), ?_⟩, ?_⟩
  · show 0 < offsets (bm.goodShift.cells i₀ + d + bm.pat.len) bm.pat.len
    omega
  · show bm.goodShift.cells i₀ < offsets (bm.goodShift.cells i₀ + d + bm.pat.len) bm.pat.len
    omega
  · show ¬ StretchesOverNone bm _ (offsets (bm.goodShift.cells i₀ + d + bm.pat.len) bm.pat.len) _
    rw [hoff]
    exact h.not_stretchesOverNone hbm hoc

end witness
end BoyerMoore

section agrees
variable {pat text : Block T} {textlen : Nat}

theorem turboAgrees_iff_starts {bm : BoyerMoore T} (hsize : 0 < CharType.size T)
    (hm : 0 < pat.len) (hpat : Narrow pat) (htext : Narrow text) (hlen : textlen ≤ text.len)
    (hnew : BoyerMoore.new pat = some bm) :
    TurboAgrees pat text textlen ↔ ∀ st, bm.Starts text textlen st →
      BoyerMoore.StretchesOverNone bm text (offsets textlen pat.len) st := by
  obtain ⟨bm', hnew', rfl, hwf⟩ := hpat.new_spec hsize hm
  obtain rfl := Option.some.inj (hnew.symm.trans hnew')
  have hfound := boyerMooreSearch_eq hsize hm hpat htext hlen
  have hturbo : turboSearch bm.pat text textlen = bm.turboMatchall text textlen := by
    rw [turboSearch, hnew]
    rfl
  have hiff := BoyerMoore.turboMatchall_eq_occurrences_iff hwf hlen
  constructor
  · rintro ⟨v, hv, hv'⟩ st ⟨hscans, hlt⟩
    obtain rfl := Option.some.inj (hfound.symm.trans hv)
    exact (hiff.mp (hturbo.symm.trans hv') st hscans hlt).2
  · intro hall
    refine ⟨_, hfound, hturbo.trans (hiff.mpr fun st hscans hlt => ⟨?_, hall st ⟨hscans, hlt⟩⟩)⟩
    exact htext.inAlphabet hsize ((lt_offsets_iff.mp hlt).trans hlen)

/-- Turbo mode finds the same as `matchall` in a text exactly if no round that is reached is
stretched over an occurrence, and it does so in every text exactly if the pattern leaves no room
for that. -/
theorem turboAgrees_iff (hsize : 0 < CharType.size T) (hm : 0 < pat.len) (hpat : Narrow pat) :
    (∀ (text : Block T) (textlen : Nat), Narrow text → textlen ≤ text.len →
      (TurboAgrees pat text textlen ↔ ∀ bm, BoyerMoore.new pat = some bm → ∀ st,
        bm.Starts text textlen st →
          BoyerMoore.StretchesOverNone bm text (offsets textlen pat.len) st)) ∧
    ((∀ (text : Block T) (textlen : Nat), Narrow text → textlen ≤ text.len →
      TurboAgrees pat text textlen) ↔
        ∀ bm, BoyerMoore.new pat = some bm → ∀ i₀ d i, ¬ bm.Overreaches i₀ d i) := by
  obtain ⟨bm, hnew, rfl, hwf⟩ := hpat.new_spec hsize hm
  have hof : ∀ {P : BoyerMoore T → Prop},
      (∀ bm', BoyerMoore.new bm.pat = some bm' → P bm') ↔ P bm := by
    intro P
    refine ⟨fun h => h bm hnew, fun h bm' hnew' => ?_⟩
    obtain rfl := Option.some.inj (hnew.symm.trans hnew')
    exact h
  rw [hof]
  refine ⟨fun text textlen htext hlen => ?_, ?_, ?_⟩
  · rw [hof]
    exact turboAgrees_iff_starts hsize hm hpat htext hlen hnew
  · intro hall i₀ d i hover
    obtain ⟨text, htext, st, hst, hnot⟩ := hover.exists_text hwf hpat hsize
    have hagrees := hall text text.len htext (Nat.le_refl _)
    exact hnot ((turboAgrees_iff_starts hsize hm hpat htext (Nat.le_refl _) hnew).mp hagrees st hst)
  · intro hnone text textlen htext hlen
    refine (turboAgrees_iff_starts hsize hm hpat htext hlen hnew).mpr fun st hst => ?_
    by_contra hnot
    obtain ⟨i₀, d, i, hover⟩ :=
      BoyerMoore.overreaches_of_stretch hwf (hst.recalls hwf hlen) hnot
    exact hnone i₀ d i hover

end agrees

theorem turboAgrees_iff_aba :
    TurboAgrees (ofChars [97, 98, 97]) (ofChars [97, 98, 97, 98, 97]) 5 ∧
      ∀ bm, BoyerMoore.new (ofChars [97, 98, 97]) = some bm → ∀ st,
        bm.Starts (ofChars [97, 98, 97, 98, 97]) 5 st → BoyerMoore.StretchesOverNone bm
          (ofChars [97, 98, 97, 98, 97]) (offsets 5 (ofChars [97, 98, 97]).len) st := by
  have hagrees : TurboAgrees (ofChars [97, 98, 97]) (ofChars [97, 98, 97, 98, 97]) 5 :=
    ⟨[0, 2], by decide, by decide⟩
  have hnarrow : Narrow (ofChars [97, 98, 97]) := by decide
  have hiff := (turboAgrees_iff (by decide) (by decide) hnarrow).1
    (ofChars [97, 98, 97, 98, 97]) 5 (by decide) (by decide)
  exact ⟨hagrees, hiff.mp hagrees⟩

/-- The second of two occurrences of `eaacaeaa` side by side is not reported in turbo mode. -/
theorem turbo_misses_eaacaeaa :
    ¬ ∀ pat text : Block Int8, 0 < pat.len → Narrow pat → Narrow text →
      TurboAgrees pat text text.len := by
  intro hall
  obtain ⟨v, hfound, hturbo⟩ := hall (ofChars [101, 97, 97, 99, 97, 101, 97, 97])
    (ofChars [101, 97, 97, 99, 97, 101, 97, 97, 101, 97, 97, 99, 97, 101, 97, 97])
    (by decide) (by decide) (by decide)
  have hboth : boyerMooreSearch (ofChars [101, 97, 97, 99, 97, 101, 97, 97])
    (ofChars [101, 97, 97, 99, 97, 101, 97, 97, 101, 97, 97, 99, 97, 101, 97, 97]) 16 =
      some [0, 8] := by decide
  have hone : turboSearch (ofChars [101, 97, 97, 99, 97, 101, 97, 97])
    (ofChars [101, 97, 97, 99, 97, 101, 97, 97, 101, 97, 97, 99, 97, 101, 97, 97]) 16 =
      some [0] := by decide
  have heq := (hboth.symm.trans hfound).trans (hturbo.symm.trans hone)
  exact absurd heq (by decide)

end PortableLib.StrMatch
