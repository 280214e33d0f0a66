import PortableLib.StrMatch.Agreement

/-! Patterns and texts over a narrow alphabet, where no lookup leaves the table of bad
characters. -/

namespace PortableLib.StrMatch
variable {T : Type} [CharType T]

/-- No character is negative or wider than eight bits. -/
def Narrow (b : Block T) : Prop :=
  ∀ i < b.len, 0 ≤ (CharType.toInt (b.cells i)).toInt ∧
    (CharType.toInt (b.cells i)).toInt < 2 ^ 8

section alphabet
variable {pat text : Block T} {i j : Nat}

theorem Narrow.charIndex_lt (h : Narrow pat) (hsize : 0 < CharType.size T) (hi : i < pat.len) :
    charIndex (pat.cells i) < alphabetSize T := by
  obtain ⟨hlow, hhigh⟩ := h i hi
  have hwide : 2 ^ 8 ≤ alphabetSize T := Nat.pow_le_pow_right (by decide) (by omega)
  rw [charIndex]
  omega

theorem Narrow.inAlphabet (h : Narrow text) (hsize : 0 < CharType.size T)
    (htext : j + pat.len ≤ text.len) : BoyerMoore.InAlphabet pat text j := by
  intro i hdiff
  have hi := hdiff.lt
  exact h.charIndex_lt hsize (by omega)

variable [DecidableEq T]

theorem Narrow.new_spec (h : Narrow pat) (hsize : 0 < CharType.size T) (hm : 0 < pat.len) :
    ∃ bm, BoyerMoore.new pat = some bm ∧ bm.pat = pat ∧ bm.WellFormed :=
  BoyerMoore.new_spec hm fun _ hi => h.charIndex_lt hsize (by omega)

theorem boyerMooreSearch_eq {textlen : Nat} (hsize : 0 < CharType.size T) (hm : 0 < pat.len)
    (hpat : Narrow pat) (htext : Narrow text) (hlen : textlen ≤ text.len) :
    boyerMooreSearch pat text textlen =
      some (occurrences pat.cells pat.len text.cells 0 (offsets textlen pat.len)) := by
  obtain ⟨bm, hnew, rfl, hwf⟩ := hpat.new_spec hsize hm
  rw [boyerMooreSearch, hnew]
  apply (BoyerMoore.matchall_eq_occurrences_iff hwf hlen).mpr
  intro j _ hj
  exact htext.inAlphabet hsize ((lt_offsets_iff.mp hj).trans hlen)

end alphabet

/-- Of a text with no memory behind it: `matchall` comes to an end, and reports where the pattern
stands, in order. -/
theorem boyerMooreSearch_exact [DecidableEq T] {pat text : Block T} (hsize : 0 < CharType.size T)
    (hm : 0 < pat.len) (hpat : Narrow pat) (htext : Narrow text) :
    ∃ r, boyerMooreSearch pat text text.len = some r ∧ r.Pairwise (· < ·) ∧
      ∀ p, p ∈ r ↔ p + pat.len ≤ text.len ∧ Occurs pat.cells pat.len text.cells p := by
  refine ⟨_, boyerMooreSearch_eq hsize hm hpat htext (Nat.le_refl _), ?_, fun p => ?_⟩
  · exact List.Pairwise.filter _ List.pairwise_lt_range'
  · rw [mem_occurrences, lt_offsets_iff, and_iff_right (Nat.zero_le p)]

instance decidableNarrow (b : Block T) : Decidable (Narrow b) := Nat.decidableBallLT _ _

theorem boyerMooreSearch_exact_aba :
    ∃ r, boyerMooreSearch (ofChars [97, 98, 97]) (ofChars [97, 98, 97, 98, 97]) 5 = some r ∧
      r.Pairwise (· < ·) ∧ ∀ p, p ∈ r ↔ p + 3 ≤ 5 ∧ Occurs (ofChars [97, 98, 97]).cells 3
        (ofChars [97, 98, 97, 98, 97]).cells p :=
  boyerMooreSearch_exact (by decide) (by decide) (by decide) (by decide)

end PortableLib.StrMatch
