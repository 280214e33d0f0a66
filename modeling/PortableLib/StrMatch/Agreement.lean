import PortableLib.StrMatch.Kmp
import PortableLib.StrMatch.Turbo
import PortableLib.StrMatch.RabinKarp

/-! When the four matchers of `utils/strmatch.h` return the same offsets. -/

namespace PortableLib.StrMatch
variable {T : Type} [DecidableEq T] [CharType T]

section searches

def kmpSearch (pat text : Block T) (textlen : Nat) : Option (List Nat) := do
  (← Kmp.new pat).matchall text textlen

def boyerMooreSearch (pat text : Block T) (textlen : Nat) : Option (List Nat) := do
  (← BoyerMoore.new pat).matchall text textlen

def turboSearch (pat text : Block T) (textlen : Nat) : Option (List Nat) := do
  (← BoyerMoore.new pat).turboMatchall text textlen

end searches

/-- All four return, and return the same vector. -/
def Agree (pat text : Block T) (textlen : Nat) : Prop :=
  ∃ v, kmpSearch pat text textlen = some v ∧ boyerMooreSearch pat text textlen = some v ∧
    turboSearch pat text textlen = some v ∧ RabinKarp.matchall pat text textlen = some v

/-- Where the four matchers agree. -/
structure Agreeable (pat text : Block T) (textlen : Nat) : Prop where
  /-- `1 << (m_patlen-1)` is defined. -/
  short : pat.len ≤ 32
  /-- There is memory for the characters the rolling hash reads after the text. -/
  memory : pat.len ≤ text.len ∧ (pat.len ≤ textlen → textlen < text.len)
  /-- The characters before the last one are indices of `m_bad_char`. -/
  index : ∀ i < pat.len - 1, charIndex (pat.cells i) < alphabetSize T
  /-- So are the characters that end an attempt of `matchall`. -/
  lookups : ∀ bm, BoyerMoore.new pat = some bm → ∀ j,
    Scans id (bm.attempt text) (offsets textlen pat.len) 0 j → j < offsets textlen pat.len →
      BoyerMoore.InAlphabet pat text j
  /-- So are those that end an attempt of `turbo_matchall`, which also stretches no move over an
  occurrence. -/
  stretches : ∀ bm, BoyerMoore.new pat = some bm → ∀ st,
    Scans Turbo.j (bm.turboAttempt text) (offsets textlen pat.len) ⟨0, 0, pat.len⟩ st →
      st.j < offsets textlen pat.len → BoyerMoore.InAlphabet pat text st.j ∧
        bm.StretchesOverNone text (offsets textlen pat.len) st
  /-- No two occurrences overlap. -/
  apart : ∀ p q, p < q → q + pat.len ≤ textlen → Occurs pat.cells pat.len text.cells p →
    Occurs pat.cells pat.len text.cells q → p + pat.len ≤ q

variable {pat text : Block T} {textlen : Nat}

omit [CharType T] in
theorem kmpSearch_eq (hm : 0 < pat.len) (htext : textlen ≤ text.len) :
    kmpSearch pat text textlen = some (keepApart pat.len 0
      (occurrences pat.cells pat.len text.cells 0 (offsets textlen pat.len))) := by
  obtain ⟨kmp, hkmp, rfl, hwf⟩ := Kmp.new_spec hm
  rw [kmpSearch, hkmp]
  exact Kmp.matchall_spec hwf htext

omit [CharType T] in
theorem kmpSearch_eq_occurrences_iff (hm : 0 < pat.len) (htext : textlen ≤ text.len) :
    kmpSearch pat text textlen =
        some (occurrences pat.cells pat.len text.cells 0 (offsets textlen pat.len)) ↔
      ∀ p q, p < q → q + pat.len ≤ textlen → Occurs pat.cells pat.len text.cells p →
        Occurs pat.cells pat.len text.cells q → p + pat.len ≤ q := by
  rw [kmpSearch_eq hm htext, Option.some.injEq, keepApart_occurrences_eq_iff]
  simp only [lt_offsets_iff]

/-- The four matchers agree exactly if a pattern is no longer than an `int` has bits, the memory
after the text may be read, no lookup leaves the table of bad characters, turbo mode stretches no
move over an occurrence, and no two occurrences overlap. -/
theorem matchers_agree_iff (hm : 0 < pat.len) (htext : textlen ≤ text.len) :
    Agree pat text textlen ↔ Agreeable pat text textlen := by
  constructor
  · rintro ⟨v, hkmp, hbm, hturbo, hrk⟩
    obtain ⟨⟨-, hshort, hmem⟩, rfl⟩ := RabinKarp.matchall_eq_some_iff.mp hrk
    rw [boyerMooreSearch, Option.bind_eq_bind, Option.bind_eq_some_iff] at hbm
    obtain ⟨bm, hnew, hbm⟩ := hbm
    have hindex : ∀ i < pat.len - 1, charIndex (pat.cells i) < alphabetSize T :=
      fun i hi => BoyerMoore.index_lt_of_new hnew hi
    obtain ⟨bm', hnew', rfl, hwf⟩ := BoyerMoore.new_spec hm hindex
    obtain rfl := Option.some.inj (hnew.symm.trans hnew')
    rw [turboSearch, hnew] at hturbo
    refine ⟨hshort, hmem, hindex, ?_, ?_, (kmpSearch_eq_occurrences_iff hm htext).mp hkmp⟩
    · intro bm₁ hbm₁
      obtain rfl := Option.some.inj (hnew.symm.trans hbm₁)
      exact (BoyerMoore.matchall_eq_occurrences_iff hwf htext).mp hbm
    · intro bm₁ hbm₁
      obtain rfl := Option.some.inj (hnew.symm.trans hbm₁)
      exact (BoyerMoore.turboMatchall_eq_occurrences_iff hwf htext).mp hturbo
  · intro h
    obtain ⟨bm, hnew, rfl, hwf⟩ := BoyerMoore.new_spec hm h.index
    refine ⟨_, (kmpSearch_eq_occurrences_iff hm htext).mpr h.apart, ?_, ?_,
      RabinKarp.matchall_spec hm h.short h.memory.1 h.memory.2⟩
    · rw [boyerMooreSearch, hnew]
      exact (BoyerMoore.matchall_eq_occurrences_iff hwf htext).mpr (h.lookups bm hnew)
    · rw [turboSearch, hnew]
      exact (BoyerMoore.turboMatchall_eq_occurrences_iff hwf htext).mpr (h.stretches bm hnew)

/-- A text of `char`s in memory. -/
def ofChars (cs : List Int8) : Block Int8 := { len := cs.length, cells := fun i => cs.getD i 0 }

theorem matchers_agree_ab :
    Agree (ofChars [97, 98]) (ofChars [97, 98, 120, 97, 98, 0]) 5 ∧
      Agreeable (ofChars [97, 98]) (ofChars [97, 98, 120, 97, 98, 0]) 5 := by
  have hagree : Agree (ofChars [97, 98]) (ofChars [97, 98, 120, 97, 98, 0]) 5 :=
    ⟨[0, 3], by decide, by decide, by decide, by decide⟩
  exact ⟨hagree, (matchers_agree_iff (by decide) (by decide)).mp hagree⟩

/-- The overlapping occurrences of `aa` in `aaa`: `kmp_search` reports one of them, the others
report both. -/
theorem matchers_differ_aa :
    kmpSearch (ofChars [97, 97]) (ofChars [97, 97, 97, 0]) 3 = some [0] ∧
      boyerMooreSearch (ofChars [97, 97]) (ofChars [97, 97, 97, 0]) 3 = some [0, 1] ∧
      turboSearch (ofChars [97, 97]) (ofChars [97, 97, 97, 0]) 3 = some [0, 1] ∧
      RabinKarp.matchall (ofChars [97, 97]) (ofChars [97, 97, 97, 0]) 3 = some [0, 1] ∧
      ¬ Agree (ofChars [97, 97]) (ofChars [97, 97, 97, 0]) 3 := by
  have hkmp : kmpSearch (ofChars [97, 97]) (ofChars [97, 97, 97, 0]) 3 = some [0] := by
    decide
  have hbm : boyerMooreSearch (ofChars [97, 97]) (ofChars [97, 97, 97, 0]) 3 = some [0, 1] := by
    decide
  refine ⟨hkmp, hbm, by decide, by decide, ?_⟩
  rintro ⟨v, hv, hv', -⟩
  have heq : [0] = [0, 1] := Option.some.inj ((hkmp.symm.trans hv).trans (hv'.symm.trans hbm))
  exact absurd heq (by decide)

end PortableLib.StrMatch
