import Mathlib.Data.List.Forall2

/-! Lists that are compared at the first place where they differ. -/

namespace PortableLib.Lexicographic
open List

variable {α ι : Type} [LT α] {l l' : List α}

def Rising (l l' : List α) : Prop := Forall₂ (fun a b => a = b ∨ a < b) l l'

theorem Rising.append_lt_append (h : Rising l l') (hne : l ≠ l') (r r' : List α) :
    l ++ r < l' ++ r' := by
  induction h with
  | nil => exact absurd rfl hne
  | cons hab _ ih =>
    rw [cons_append, cons_append, cons_lt_cons_iff]
    rcases hab with rfl | hlt
    · exact Or.inr ⟨rfl, ih fun heq => hne (heq ▸ rfl)⟩
    · exact Or.inl hlt

theorem Rising.forall_append_lt_iff [Std.Irrefl (· < · : α → α → Prop)] [Nonempty ι]
    (h : Rising l l') (f : ι → List α) : (∀ i j, l ++ f i < l' ++ f j) ↔ l ≠ l' := by
  constructor
  · rintro hall rfl
    obtain ⟨i⟩ := ‹Nonempty ι›
    exact List.lt_irrefl _ (hall i i)
  · intro hne i j
    exact h.append_lt_append hne (f i) (f j)

end PortableLib.Lexicographic
