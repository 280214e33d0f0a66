import Mathlib.Data.List.Basic

/-! Traces of one thread over non-recursive locks. Acquiring a held lock blocks for ever and
releasing a free one is an error; both end the trace with `none`. -/

namespace PortableLib.LockTrace
variable {L : Type*} [DecidableEq L]

inductive Step (L : Type*)
  | acquire (l : L)
  | release (l : L)
  deriving DecidableEq, Repr

def locks : List L → List (Step L) → Option (List L)
  | held, [] => some held
  | held, .acquire l :: ss => if l ∈ held then none else locks (l :: held) ss
  | held, .release l :: ss => if l ∈ held then locks (held.erase l) ss else none

def Neutral (held : List L) (ss : List (Step L)) : Prop := locks held ss = some held

instance (held : List L) (ss : List (Step L)) : Decidable (Neutral held ss) :=
  inferInstanceAs (Decidable (_ = _))

theorem locks_append (held : List L) (ss ts : List (Step L)) :
    locks held (ss ++ ts) = (locks held ss).bind fun held => locks held ts := by
  induction ss generalizing held with
  | nil => rfl
  | cons s ss ih =>
    cases s with
    | acquire l =>
      simp only [List.cons_append, locks]
      split_ifs
      · rfl
      · exact ih _
    | release l =>
      simp only [List.cons_append, locks]
      split_ifs
      · exact ih _
      · rfl

theorem neutral_nil (held : List L) : Neutral held [] := rfl

theorem Neutral.append {held : List L} {ss ts : List (Step L)} (hs : Neutral held ss)
    (ht : Neutral held ts) : Neutral held (ss ++ ts) := by
  rw [Neutral, locks_append, hs]
  exact ht

theorem Neutral.section {held : List L} {l : L} {ss : List (Step L)} (hl : l ∉ held)
    (hs : Neutral (l :: held) ss) : Neutral held (.acquire l :: (ss ++ [.release l])) := by
  rw [Neutral, locks, if_neg hl, locks_append, hs]
  simp [locks]

theorem neutral_flatMap {ι : Type*} {held : List L} {f : ι → List (Step L)} {is : List ι}
    (h : ∀ i ∈ is, Neutral held (f i)) : Neutral held (is.flatMap f) := by
  induction is with
  | nil => rfl
  | cons i is ih =>
    rw [List.flatMap_cons]
    exact (h i List.mem_cons_self).append (ih fun j hj => h j (List.mem_cons_of_mem i hj))

end PortableLib.LockTrace
