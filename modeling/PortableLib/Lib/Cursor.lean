import Mathlib.Data.List.GetD

/-! Walking a sequence with a cursor: a first call, then calls of `next`, each of which may have no
result. What is seen at a position is a status and the item there. -/

namespace PortableLib.Cursor
open List

section Walk
variable {σ ρ α : Type*}

def walk (first : Option σ) (next : σ → Option σ) : Nat → Option σ
  | 0 => first
  | k + 1 => (walk first next k).bind next

variable {first : Option σ} {next : σ → Option σ} {R : σ → List α → Prop} {l : List α}

/-- `R s l` says that `l` is still to come at `s`, its head being the current item. If `next` drops
the head, the walk goes through the list. -/
theorem walk_through (hfirst : ∃ s, first = some s ∧ R s l)
    (hnext : ∀ s a l, R s (a :: l) → ∃ s', next s = some s' ∧ R s' l) {k : Nat}
    (hk : k ≤ l.length) : ∃ s, walk first next k = some s ∧ R s (l.drop k) := by
  induction k with
  | zero => exact hfirst
  | succ k ih =>
    obtain ⟨s, hs, hR⟩ := ih (Nat.le_of_succ_le hk)
    rw [drop_eq_getElem_cons hk] at hR
    obtain ⟨s', hs', hR'⟩ := hnext s _ _ hR
    exact ⟨s', by rw [walk, hs, Option.bind_some, hs'], hR'⟩

theorem walk_forever (hfirst : ∃ s, first = some s ∧ R s l)
    (hnext : ∀ s l, R s l → ∃ s', next s = some s' ∧ R s' l.tail) (k : Nat) :
    ∃ s, walk first next k = some s ∧ R s (l.drop k) := by
  induction k with
  | zero => exact hfirst
  | succ k ih =>
    obtain ⟨s, hs, hR⟩ := ih
    obtain ⟨s', hs', hR'⟩ := hnext s _ hR
    rw [tail_drop] at hR'
    exact ⟨s', by rw [walk, hs, Option.bind_some, hs'], hR'⟩

end Walk

section Seen
variable {γ α : Type*} {good bad : γ} {null : α}

def seen (good bad : γ) (null : α) (l : List α) (k : Nat) : γ × α :=
  (if k < l.length then good else bad, l.getD k null)

theorem seen_drop (l : List α) (k : Nat) :
    seen good bad null (l.drop k) 0 = seen good bad null l k := by
  have hlen : 0 < (l.drop k).length ↔ k < l.length := by
    rw [length_drop]
    exact Nat.sub_pos_iff_lt
  have hitem : (l.drop k).getD 0 null = l.getD k null := by
    rw [getD_eq_getElem?_getD, getD_eq_getElem?_getD, getElem?_drop, Nat.add_zero]
  rw [seen, seen, hitem]
  simp only [hlen]

theorem eq_of_seen (hne : good ≠ bad) {l l' : List α} {v : Nat → γ × α}
    (h : ∀ k ≤ l.length, v k = seen good bad null l k)
    (h' : ∀ k ≤ l'.length, v k = seen good bad null l' k) : l = l' := by
  have hle : ∀ {l l' : List α}, (∀ k ≤ l.length, v k = seen good bad null l k) →
      (∀ k ≤ l'.length, v k = seen good bad null l' k) → l'.length ≤ l.length := by
    intro l l' h h'
    apply Nat.le_of_not_lt
    intro hlt
    have heq := (h' l.length (Nat.le_of_lt hlt)).symm.trans (h l.length (Nat.le_refl _))
    have hfst := congrArg Prod.fst heq
    rw [seen, seen, if_pos hlt, if_neg (Nat.lt_irrefl _)] at hfst
    exact hne hfst
  have hlen : l.length = l'.length := Nat.le_antisymm (hle h' h) (hle h h')
  apply ext_getElem hlen
  intro k hk hk'
  have heq := (h k (Nat.le_of_lt hk)).symm.trans (h' k (Nat.le_of_lt hk'))
  have hsnd := congrArg Prod.snd heq
  rw [seen, seen] at hsnd
  rwa [getD_eq_getElem _ _ hk, getD_eq_getElem _ _ hk'] at hsnd

end Seen

end PortableLib.Cursor
