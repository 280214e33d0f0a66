import Mathlib.Data.List.Basic

/-! The contract of the C library's `qsort`, and the freedom it leaves: elements that compare equal
come out in either order, and nothing is said about an inconsistent comparison. -/

namespace PortableLib.Qsort
open List
variable {α : Type*} {cmp : α → α → Int} {l : List α} {a b : α}

/-- What `qsort` asks of the comparison on the elements of the array. -/
structure Consistent (cmp : α → α → Int) (l : List α) : Prop where
  swap : ∀ a ∈ l, ∀ b ∈ l, cmp a b ≤ 0 ↔ 0 ≤ cmp b a
  trans : ∀ a ∈ l, ∀ b ∈ l, ∀ c ∈ l, cmp a b ≤ 0 → cmp b c ≤ 0 → cmp a c ≤ 0

def Sorts (qsort : (α → α → Int) → List α → List α) : Prop :=
  ∀ cmp l, Consistent cmp l → qsort cmp l ~ l ∧ (qsort cmp l).Pairwise fun a b => cmp a b ≤ 0

theorem Consistent.total (h : Consistent cmp l) (ha : a ∈ l) (hb : b ∈ l) :
    cmp a b ≤ 0 ∨ cmp b a ≤ 0 := by
  rw [h.swap b hb a ha]
  exact Int.le_total _ _

def within (cmp : α → α → Int) (l : List α) (a b : α) : Prop := b ∈ l → a ∈ l ∧ cmp a b ≤ 0

theorem Consistent.within_total (h : Consistent cmp l) (a b : α) :
    within cmp l a b ∨ within cmp l b a := by
  by_cases ha : a ∈ l
  · by_cases hb : b ∈ l
    · rcases h.total ha hb with hab | hba
      · exact Or.inl fun _ => ⟨ha, hab⟩
      · exact Or.inr fun _ => ⟨hb, hba⟩
    · exact Or.inl fun hb' => absurd hb' hb
  · exact Or.inr fun ha' => absurd ha' ha

theorem Consistent.within_trans (h : Consistent cmp l) {a b c : α} (hab : within cmp l a b)
    (hbc : within cmp l b c) : within cmp l a c := by
  intro hc
  obtain ⟨hb, hbc⟩ := hbc hc
  obtain ⟨ha, hab⟩ := hab hb
  exact ⟨ha, h.trans a ha b hb c hc hab hbc⟩

section Choice
open Classical

noncomputable def le (cmp : α → α → Int) (l : List α) (a b : α) : Bool := decide (within cmp l a b)

theorem Consistent.le_trans (h : Consistent cmp l) (a b c : α) (hab : le cmp l a b = true)
    (hbc : le cmp l b c = true) : le cmp l a c = true :=
  decide_eq_true (h.within_trans (of_decide_eq_true hab) (of_decide_eq_true hbc))

theorem Consistent.le_total (h : Consistent cmp l) (a b : α) :
    (le cmp l a b || le cmp l b a) = true := by
  rw [Bool.or_eq_true]
  exact (h.within_total a b).imp decide_eq_true decide_eq_true

noncomputable def sortFrom (arrange : List α → List α) (junk : List α) (cmp : α → α → Int)
    (l : List α) : List α :=
  if Consistent cmp l then (arrange l).mergeSort (le cmp l) else junk

variable {arrange : List α → List α} {junk : List α}

theorem sortFrom_sorts (harrange : ∀ l, arrange l ~ l) : Sorts (sortFrom arrange junk) := by
  intro cmp l h
  rw [sortFrom, if_pos h]
  have hperm : (arrange l).mergeSort (le cmp l) ~ l :=
    (mergeSort_perm _ _).trans (harrange l)
  refine ⟨hperm, ?_⟩
  apply (pairwise_mergeSort h.le_trans h.le_total (arrange l)).imp_of_mem
  intro a b _ hb hab
  exact (of_decide_eq_true hab (hperm.mem_iff.mp hb)).2

theorem exists_sorts_junk (junk : List α) : ∃ qsort : (α → α → Int) → List α → List α,
    Sorts qsort ∧ ∀ cmp l, ¬Consistent cmp l → qsort cmp l = junk :=
  ⟨sortFrom id junk, sortFrom_sorts fun l => Perm.refl l, fun _ _ h => if_neg h⟩

theorem exists_sorts_before (h : Consistent cmp l) (ha : a ∈ l) (hb : b ∈ l) (hne : a ≠ b)
    (hab : cmp a b ≤ 0) : ∃ qsort : (α → α → Int) → List α → List α,
    Sorts qsort ∧ [a, b] <+ qsort cmp l := by
  refine ⟨sortFrom (fun l => if a ∈ l then a :: l.erase a else l) [], sortFrom_sorts ?_, ?_⟩
  · intro l
    by_cases hl : a ∈ l
    · rw [if_pos hl]
      exact (perm_cons_erase hl).symm
    · rw [if_neg hl]
  · rw [sortFrom, if_pos h, if_pos ha]
    have hsub : [a, b] <+ a :: l.erase a :=
      (singleton_sublist.mpr ((mem_erase_of_ne hne.symm).mpr hb)).cons_cons a
    have hle : le cmp l a b = true := decide_eq_true fun _ => ⟨ha, hab⟩
    exact pair_sublist_mergeSort h.le_trans h.le_total hle hsub

end Choice

end PortableLib.Qsort
