import Mathlib.Data.List.Basic
import Mathlib.Data.List.Nodup

/-! Linked lists in a heap. The links are functions on addresses; a list is what one meets by
following them. -/

namespace PortableLib.Links
open List

variable {α : Type} {f g : α → α} {a x y z : α} {l : List α}

def Threads (f : α → α) : α → List α → α → Prop
  | a, [], z => a = z
  | a, x :: l, z => a = x ∧ Threads f (f x) l z

theorem Threads.congr (h : Threads f a l z) (hfg : ∀ x ∈ l, g x = f x) : Threads g a l z := by
  induction l generalizing a with
  | nil => exact h
  | cons x l ih =>
    obtain ⟨rfl, hrest⟩ := h
    refine ⟨rfl, ?_⟩
    rw [hfg a mem_cons_self]
    exact ih hrest fun y hy => hfg y (mem_cons_of_mem a hy)

theorem threads_snoc : Threads f a (l ++ [x]) z ↔ Threads f a l x ∧ f x = z := by
  induction l generalizing a with
  | nil => exact Iff.rfl
  | cons y l ih =>
    rw [cons_append]
    exact (and_congr_right fun _ => ih).trans and_assoc.symm

theorem Threads.redirect (h : Threads f a (l ++ [x]) z) (hkeep : ∀ u ∈ l, g u = f u)
    (hx : g x = y) : Threads g a (l ++ [x]) y :=
  threads_snoc.mpr ⟨(threads_snoc.mp h).1.congr hkeep, hx⟩

structure Dlist (null : α) (nxt prv : α → α) (first last : α) (l : List α) : Prop where
  nodup : l.Nodup
  nonnull : null ∉ l
  forward : Threads nxt first l null
  backward : Threads prv last l.reverse null

section Dlist
variable {null first last first' last' : α} {nxt prv nxt' prv' : α → α}

theorem dlist_nil : Dlist null nxt prv null null [] :=
  ⟨nodup_nil, not_mem_nil, rfl, rfl⟩

theorem Dlist.congr (h : Dlist null nxt prv first last l) (hn : ∀ x ∈ l, nxt' x = nxt x)
    (hp : ∀ x ∈ l, prv' x = prv x) : Dlist null nxt' prv' first last l :=
  ⟨h.nodup, h.nonnull, h.forward.congr hn,
    h.backward.congr fun x hx => hp x (mem_reverse.mp hx)⟩

theorem Dlist.first_mem (h : Dlist null nxt prv first last l) (hfirst : first ≠ null) :
    first ∈ l := by
  cases l with
  | nil => exact absurd h.forward hfirst
  | cons x l => exact h.forward.1 ▸ mem_cons_self

theorem Dlist.eq_snoc (h : Dlist null nxt prv first last l) (hlast : last ≠ null) :
    ∃ t, l = t ++ [last] := by
  rcases eq_nil_or_concat l with rfl | ⟨t, x, rfl⟩
  · exact absurd h.backward hlast
  · have hback := h.backward
    rw [concat_eq_append, reverse_append, reverse_singleton, singleton_append] at hback
    exact ⟨t, by rw [concat_eq_append, hback.1]⟩

theorem Dlist.eq_nil (h : Dlist null nxt prv first last l) (hlast : last = null) : l = [] := by
  rcases eq_nil_or_concat l with rfl | ⟨t, x, rfl⟩
  · rfl
  · have hback := h.backward
    rw [concat_eq_append, reverse_append, reverse_singleton, singleton_append] at hback
    refine absurd ?_ h.nonnull
    rw [← hlast, hback.1, concat_eq_append]
    exact mem_append_right t mem_cons_self

theorem Dlist.insertHead (h : Dlist null nxt prv first last l) (hx : x ∉ l) (hnull : x ≠ null)
    (hnx : nxt' x = first) (hpx : prv' x = null) (hn : ∀ y ∈ l, nxt' y = nxt y)
    (hp : ∀ y ∈ l, y ≠ first → prv' y = prv y) (hfirst : first ≠ null → prv' first = x)
    (hlast : first = null → last' = x) (hlast' : first ≠ null → last' = last) :
    Dlist null nxt' prv' x last' (x :: l) where
  nodup := nodup_cons.mpr ⟨hx, h.nodup⟩
  nonnull := by
    rw [mem_cons, not_or]
    exact ⟨hnull.symm, h.nonnull⟩
  forward := ⟨rfl, hnx ▸ h.forward.congr hn⟩
  backward := by
    rw [reverse_cons]
    apply threads_snoc.mpr
    refine ⟨?_, hpx⟩
    cases l with
    | nil => exact hlast h.forward
    | cons y t =>
      obtain rfl : first = y := h.forward.1
      have hne : first ≠ null := fun heq => h.nonnull (heq ▸ mem_cons_self)
      have hfresh : first ∉ t := (nodup_cons.mp h.nodup).1
      have hback := h.backward
      rw [reverse_cons] at hback ⊢
      rw [hlast' hne]
      refine hback.redirect (fun u hu => ?_) (hfirst hne)
      have hu' := mem_reverse.mp hu
      exact hp u (mem_cons_of_mem first hu') fun heq => hfresh (heq ▸ hu')

theorem Dlist.backward_tail {t : List α} (h : Dlist null nxt prv first x (t ++ [x])) :
    Threads prv (prv x) t.reverse null := by
  have hback := h.backward
  rw [reverse_append, reverse_singleton, singleton_append] at hback
  exact hback.2

theorem Dlist.prv_mem {t : List α} (h : Dlist null nxt prv first x (t ++ [x]))
    (hprv : prv x ≠ null) : prv x ∈ t := by
  have hback := h.backward_tail
  rw [← mem_reverse]
  cases hrev : t.reverse with
  | nil =>
    rw [hrev] at hback
    exact absurd hback hprv
  | cons y r =>
    rw [hrev] at hback
    exact hback.1 ▸ mem_cons_self

theorem Dlist.removeTail {t : List α} (h : Dlist null nxt prv first x (t ++ [x]))
    (hn : ∀ y ∈ t, y ≠ prv x → nxt' y = nxt y) (hend : prv x ≠ null → nxt' (prv x) = null)
    (hp : ∀ y ∈ t, prv' y = prv y) (hfirst : prv x = null → first' = null)
    (hfirst' : prv x ≠ null → first' = first) : Dlist null nxt' prv' first' (prv x) t := by
  have hnodup : t.Nodup := (nodup_append.mp h.nodup).1
  have hnonnull : null ∉ t := fun hmem => h.nonnull (mem_append_left [x] hmem)
  have hback := h.backward_tail
  refine ⟨hnodup, hnonnull, ?_, hback.congr fun y hy => hp y (mem_reverse.mp hy)⟩
  rcases eq_nil_or_concat t with rfl | ⟨s, y, rfl⟩
  · exact hfirst hback
  · rw [concat_eq_append] at *
    rw [reverse_append, reverse_singleton, singleton_append] at hback
    obtain ⟨hy, -⟩ := hback
    have hne : prv x ≠ null := fun heq => hnonnull (by simp [← heq, hy])
    have hfresh : y ∉ s := by
      intro hmem
      exact (nodup_append.mp hnodup).2.2 y hmem y mem_cons_self rfl
    rw [hfirst' hne]
    refine (threads_snoc.mp h.forward).1.redirect (fun u hu => ?_) (hy ▸ hend hne)
    exact hn u (mem_append_left [y] hu) fun heq => hfresh (hy ▸ heq ▸ hu)

end Dlist
end PortableLib.Links
