import Mathlib.Logic.Function.Basic
import PortableLib.Lib.Links

/-! Rings of links. With one more node `r` in front, whose own links are the ends of a doubly
linked list, the list is a ring through `r`, and the cases at the ends of the list disappear. -/

namespace PortableLib.Links
open List

variable {α : Type} {f f' g g' : α → α} {r a b c x y z : α} {l u v w : List α}

theorem Threads.take (h : Threads f (f r) (u ++ v) z) :
    Threads f (f r) u (f (u.getLastD r)) := by
  induction u generalizing r with
  | nil => rfl
  | cons y u ih =>
    obtain ⟨rfl, hrest⟩ := h
    rw [getLastD_cons]
    exact ⟨rfl, ih hrest⟩

theorem Threads.drop (h : Threads f (f r) (u ++ v) z) :
    Threads f (f (u.getLastD r)) v z := by
  induction u generalizing r with
  | nil => exact h
  | cons y u ih =>
    obtain ⟨rfl, hrest⟩ := h
    rw [getLastD_cons]
    exact ih hrest

theorem Threads.headD_eq (h : Threads f a v z) : a = v.headD z := by
  cases v with
  | nil => exact h
  | cons y v => exact h.1

theorem Threads.splice (hu : Threads f (f r) u z) (hnodup : (r :: u).Nodup)
    (hkeep : ∀ y ∈ r :: u, y ≠ u.getLastD r → f' y = f y)
    (hw : Threads f' (f' (u.getLastD r)) w a) : Threads f' (f' r) (u ++ w) a := by
  induction u generalizing r with
  | nil => exact hw
  | cons y u ih =>
    obtain ⟨hy, hrest⟩ := hu
    rw [getLastD_cons] at hkeep hw
    have hnodup' := nodup_cons.mp hnodup
    have hne : r ≠ u.getLastD y := fun heq => hnodup'.1 (heq ▸ getLastD_mem_cons)
    refine ⟨(hkeep r mem_cons_self hne).trans hy, ?_⟩
    rw [← hy] at hrest hkeep hnodup' hw ⊢
    exact ih hrest hnodup'.2 (fun z hz => hkeep z (mem_cons_of_mem r hz)) hw

theorem getLastD_reverse : v.reverse.getLastD r = v.headD r := by
  cases v with
  | nil => rfl
  | cons y v => rw [reverse_cons, getLastD_concat, headD_cons]

structure Ring (r : α) (f g : α → α) (l : List α) : Prop where
  nodup : (r :: l).Nodup
  fwd : Threads f (f r) l r
  bwd : Threads g (g r) l.reverse r

theorem Ring.symm (h : Ring r f g l) : Ring r g f l.reverse where
  nodup := nodup_cons.mpr ⟨fun hr => (nodup_cons.mp h.nodup).1 (mem_reverse.mp hr),
    nodup_reverse.mpr (nodup_cons.mp h.nodup).2⟩
  fwd := h.bwd
  bwd := by
    rw [reverse_reverse]
    exact h.fwd

theorem Ring.next (h : Ring r f g (u ++ v)) : f (u.getLastD r) = v.headD r := h.fwd.drop.headD_eq

theorem Ring.prev (h : Ring r f g (u ++ v)) : g (v.headD r) = u.getLastD r := by
  have hsymm := h.symm
  rw [reverse_append] at hsymm
  rw [← getLastD_reverse, hsymm.next, ← getLastD_reverse, reverse_reverse]

theorem Threads.rest (hf : Threads f (f r) (u ++ v) r) (hnodup : (r :: (u ++ v)).Nodup)
    (hkeep : ∀ y ∈ r :: (u ++ v), y ≠ u.getLastD r → f' y = f y) :
    Threads f' (v.headD r) v r := by
  have hdrop := hf.drop
  rw [← hdrop.headD_eq]
  refine hdrop.congr fun y hy => hkeep y (mem_cons_of_mem r (mem_append_right u hy)) ?_
  rintro rfl
  -- a node of the second part is neither `r` nor in the first part
  rw [← cons_append] at hnodup
  exact (nodup_append.mp hnodup).2.2 _ getLastD_mem_cons _ hy rfl

theorem threads_insert (hf : Threads f (f r) (u ++ v) r) (hnodup : (r :: (u ++ v)).Nodup)
    (hkeep : ∀ y ∈ r :: (u ++ v), y ≠ u.getLastD r → f' y = f y)
    (hlast : f' (u.getLastD r) = x) (hx : f' x = v.headD r) :
    Threads f' (f' r) (u ++ x :: v) r := by
  have hsub : (r :: u).Sublist (r :: (u ++ v)) := (sublist_append_left u v).cons_cons r
  refine hf.take.splice (hnodup.sublist hsub) (fun y hy => hkeep y (hsub.subset hy)) ⟨hlast, ?_⟩
  rw [hx]
  exact hf.rest hnodup hkeep

theorem threads_splice (hf : Threads f (f r) (u ++ v) r) (hnodup : (r :: (u ++ v)).Nodup)
    (hw : Threads f (f x) w x) (hwnodup : (x :: w).Nodup)
    (hkeep : ∀ y ∈ r :: (u ++ v), y ≠ u.getLastD r → f' y = f y)
    (hkeep' : ∀ y ∈ x :: w, y ≠ w.getLastD x → f' y = f y) (hx : f' (u.getLastD r) = f' x)
    (hlast : f' (w.getLastD x) = v.headD r) : Threads f' (f' r) (u ++ (w ++ v)) r := by
  have hsub : (r :: u).Sublist (r :: (u ++ v)) := (sublist_append_left u v).cons_cons r
  refine hf.take.splice (hnodup.sublist hsub) (fun y hy => hkeep y (hsub.subset hy)) ?_
  rw [hx]
  refine hw.splice hwnodup hkeep' ?_
  rw [hlast]
  exact hf.rest hnodup hkeep

theorem Ring.insert (h : Ring r f g (u ++ v)) (hx : x ∉ r :: (u ++ v))
    (hf : ∀ y ∈ r :: (u ++ v), y ≠ u.getLastD r → f' y = f y)
    (hg : ∀ y ∈ r :: (u ++ v), y ≠ v.headD r → g' y = g y)
    (hfa : f' (u.getLastD r) = x) (hfx : f' x = v.headD r) (hgb : g' (v.headD r) = x)
    (hgx : g' x = u.getLastD r) : Ring r f' g' (u ++ x :: v) where
  nodup := by
    have hperm : (x :: (r :: (u ++ v))).Perm (r :: (u ++ x :: v)) :=
      (Perm.swap r x (u ++ v)).trans (perm_middle.symm.cons r)
    exact hperm.nodup (nodup_cons.mpr ⟨hx, h.nodup⟩)
  fwd := threads_insert h.fwd h.nodup hf hfa hfx
  bwd := by
    have hsymm := h.symm
    rw [reverse_append] at hsymm
    rw [reverse_append, reverse_cons, append_assoc, singleton_append]
    rw [← getLastD_reverse] at hg hgb
    refine threads_insert hsymm.fwd hsymm.nodup (fun y hy => hg y ?_) hgb ?_
    · rwa [mem_cons, ← reverse_append, mem_reverse, ← mem_cons] at hy
    · rw [hgx, ← getLastD_reverse, reverse_reverse]

theorem threads_remove (hf : Threads f (f r) (u ++ x :: v) r) (hnodup : (r :: (u ++ x :: v)).Nodup)
    (hkeep : ∀ y ∈ r :: (u ++ v), y ≠ u.getLastD r → f' y = f y)
    (hlast : f' (u.getLastD r) = v.headD r) : Threads f' (f' r) (u ++ v) r := by
  have hsub : (r :: u).Sublist (r :: (u ++ v)) := (sublist_append_left u v).cons_cons r
  have hsub' : (r :: u).Sublist (r :: (u ++ x :: v)) := (sublist_append_left u _).cons_cons r
  have hdrop := hf.drop.2
  refine hf.take.splice (hnodup.sublist hsub') (fun y hy => hkeep y (hsub.subset hy)) ?_
  rw [hlast, ← hdrop.headD_eq]
  refine hdrop.congr fun y hy => hkeep y (mem_cons_of_mem r (mem_append_right u hy)) ?_
  rintro rfl
  rw [← cons_append] at hnodup
  exact (nodup_append.mp hnodup).2.2 _ getLastD_mem_cons _ (mem_cons_of_mem x hy) rfl

theorem Ring.remove (h : Ring r f g (u ++ x :: v))
    (hf : ∀ y ∈ r :: (u ++ v), y ≠ u.getLastD r → f' y = f y)
    (hg : ∀ y ∈ r :: (u ++ v), y ≠ v.headD r → g' y = g y)
    (hfa : f' (u.getLastD r) = v.headD r) (hgb : g' (v.headD r) = u.getLastD r) :
    Ring r f' g' (u ++ v) where
  nodup := h.nodup.sublist (((sublist_cons_self x v).append_left u).cons_cons r)
  fwd := threads_remove h.fwd h.nodup hf hfa
  bwd := by
    have hsymm := h.symm
    rw [reverse_append, reverse_cons, append_assoc, singleton_append] at hsymm
    rw [reverse_append]
    rw [← getLastD_reverse] at hg hgb
    refine threads_remove hsymm.fwd hsymm.nodup (fun y hy => hg y ?_) ?_
    · rwa [mem_cons, ← reverse_append, mem_reverse, ← mem_cons] at hy
    · rw [hgb, ← getLastD_reverse, reverse_reverse]

theorem Ring.append {f₂ g₂ : α → α} (h : Ring r f g u) (h₂ : Ring r f₂ g₂ v) (hd : u.Disjoint v)
    (hf : ∀ y ∈ r :: u, y ≠ u.getLastD r → f' y = f y) (hfa : f' (u.getLastD r) = f₂ r)
    (hf₂ : ∀ y ∈ v, f' y = f₂ y)
    (hg₂ : ∀ y ∈ r :: v, y ≠ v.headD r → g' y = g₂ y) (hga : g' (v.headD r) = g r)
    (hg : ∀ y ∈ u, g' y = g y) : Ring r f' g' (u ++ v) where
  nodup := by
    obtain ⟨hr, hu⟩ := nodup_cons.mp h.nodup
    obtain ⟨hr₂, hv⟩ := nodup_cons.mp h₂.nodup
    refine nodup_cons.mpr ⟨fun hmem => (mem_append.mp hmem).elim hr hr₂, ?_⟩
    exact nodup_append.mpr ⟨hu, hv, fun y hy z hz heq => hd hy (heq ▸ hz)⟩
  fwd := by
    refine h.fwd.splice h.nodup hf ?_
    rw [hfa]
    exact h₂.fwd.congr hf₂
  bwd := by
    rw [← getLastD_reverse] at hg₂ hga
    rw [reverse_append]
    refine h₂.symm.fwd.splice h₂.symm.nodup (fun y hy => hg₂ y ?_) ?_
    · rwa [mem_cons, mem_reverse, ← mem_cons] at hy
    · rw [hga]
      exact h.bwd.congr fun y hy => hg y (mem_reverse.mp hy)

theorem Ring.congr (h : Ring r f g l) (hf : ∀ y ∈ r :: l, f' y = f y)
    (hg : ∀ y ∈ r :: l, g' y = g y) : Ring r f' g' l where
  nodup := h.nodup
  fwd := by
    rw [hf r mem_cons_self]
    exact h.fwd.congr fun y hy => hf y (mem_cons_of_mem r hy)
  bwd := by
    rw [hg r mem_cons_self]
    exact h.bwd.congr fun y hy => hg y (mem_cons_of_mem r (mem_reverse.mp hy))

theorem getLastD_mem_append (r : α) (u v : List α) : u.getLastD r ∈ r :: (u ++ v) :=
  ((sublist_append_left u v).cons_cons r).subset getLastD_mem_cons

theorem headD_mem_append (r : α) (u v : List α) : v.headD r ∈ r :: (u ++ v) := by
  cases v with
  | nil => exact mem_cons_self
  | cons y v => exact mem_cons_of_mem r (mem_append_right u mem_cons_self)

theorem Ring.ne_last (h : Ring r f g l) (hne : l ≠ []) : r ≠ l.getLastD r := by
  obtain ⟨u, x, rfl⟩ := (eq_nil_or_concat l).resolve_left hne
  rw [concat_eq_append, getLastD_concat]
  rintro rfl
  exact (nodup_cons.mp h.nodup).1 (by rw [concat_eq_append]; exact mem_append_right u mem_cons_self)

theorem Ring.ne_head (h : Ring r f g l) (hne : l ≠ []) : r ≠ l.headD r := by
  rw [← getLastD_reverse]
  exact h.symm.ne_last fun hnil => hne (reverse_eq_nil_iff.mp hnil)

theorem Ring.links (h : Ring r f g (u ++ x :: v)) :
    f x = v.headD r ∧ g x = u.getLastD r := by
  refine ⟨?_, h.prev⟩
  rw [← singleton_append, ← append_assoc] at h
  rw [← h.next, getLastD_concat]

section Update
variable [DecidableEq α]

theorem Ring.link (h : Ring r f g (u ++ v)) (hx : x ∉ r :: (u ++ v)) :
    Ring r (Function.update (Function.update f x (v.headD r)) (u.getLastD r) x)
      (Function.update (Function.update g (v.headD r) x) x (u.getLastD r)) (u ++ x :: v) := by
  have hoff : ∀ y ∈ r :: (u ++ v), y ≠ x := fun y hy heq => hx (heq ▸ hy)
  have hlast := hoff _ (getLastD_mem_append r u v)
  have hhead := hoff _ (headD_mem_append r u v)
  refine h.insert hx (fun y hy hne => ?_) (fun y hy hne => ?_) ?_ ?_ ?_ ?_
  · rw [Function.update_of_ne hne, Function.update_of_ne (hoff y hy)]
  · rw [Function.update_of_ne (hoff y hy), Function.update_of_ne hne]
  · rw [Function.update_self]
  · rw [Function.update_of_ne hlast.symm, Function.update_self]
  · rw [Function.update_of_ne hhead, Function.update_self]
  · rw [Function.update_self]

theorem Ring.unlink (h : Ring r f g (u ++ x :: v)) :
    Ring r (Function.update f (u.getLastD r) (v.headD r))
      (Function.update g (v.headD r) (u.getLastD r)) (u ++ v) :=
  h.remove (fun _ _ hne => Function.update_of_ne hne _ _)
    (fun _ _ hne => Function.update_of_ne hne _ _) (Function.update_self ..)
    (Function.update_self ..)

theorem Ring.splice (h : Ring r f g (u ++ v)) (hw : Ring x f g w)
    (hd : (r :: (u ++ v)).Disjoint (x :: w)) (hne : w ≠ []) :
    Ring r (Function.update (Function.update f (u.getLastD r) (f x)) (w.getLastD x) (v.headD r))
      (Function.update (Function.update g (w.headD x) (u.getLastD r)) (v.headD r) (g x))
      (u ++ (w ++ v)) where
  nodup := by
    have hnodup : (w ++ (r :: u ++ v)).Nodup :=
      nodup_append.mpr ⟨(nodup_cons.mp hw.nodup).2, h.nodup, fun y hy z hz heq =>
        hd hz (heq ▸ mem_cons_of_mem x hy)⟩
    exact (perm_append_comm_assoc ..).nodup hnodup
  fwd := by
    have hlast : w.getLastD x ∈ x :: w := getLastD_mem_cons
    have hne' : ∀ y ∈ r :: (u ++ v), ∀ z ∈ x :: w, y ≠ z := fun y hy z hz heq => hd hy (heq ▸ hz)
    have hprev := getLastD_mem_append r u v
    refine threads_splice h.fwd h.nodup hw.fwd hw.nodup (fun y hy hy' => ?_)
      (fun y hy hy' => ?_) ?_ (Function.update_self ..)
    · rw [Function.update_of_ne (hne' y hy _ hlast), Function.update_of_ne hy']
    · rw [Function.update_of_ne hy', Function.update_of_ne (hne' _ hprev y hy).symm]
    · rw [Function.update_of_ne (hne' _ hprev _ hlast), Function.update_self,
        Function.update_of_ne (hw.ne_last hne), Function.update_of_ne
          (hne' _ hprev x mem_cons_self).symm]
  bwd := by
    have hfirst : w.headD x ∈ x :: w := headD_mem_append x [] w
    have hne' : ∀ y ∈ r :: (u ++ v), ∀ z ∈ x :: w, y ≠ z := fun y hy z hz heq => hd hy (heq ▸ hz)
    have hnext := headD_mem_append r u v
    have hsymm := h.symm
    rw [reverse_append] at hsymm
    rw [reverse_append, reverse_append, append_assoc]
    refine threads_splice hsymm.fwd hsymm.nodup hw.symm.fwd hw.symm.nodup (fun y hy hy' => ?_)
      (fun y hy hy' => ?_) ?_ ?_
    · rw [getLastD_reverse] at hy'
      rw [mem_cons, ← reverse_append, mem_reverse, ← mem_cons] at hy
      rw [Function.update_of_ne hy', Function.update_of_ne (hne' y hy _ hfirst)]
    · rw [getLastD_reverse] at hy'
      rw [mem_cons, mem_reverse, ← mem_cons] at hy
      rw [Function.update_of_ne (hne' _ hnext y hy).symm, Function.update_of_ne hy']
    · rw [getLastD_reverse, Function.update_self,
        Function.update_of_ne (hne' _ hnext x mem_cons_self).symm,
        Function.update_of_ne (hw.ne_head hne)]
    · rw [getLastD_reverse, Function.update_of_ne (hne' _ hnext _ hfirst).symm,
        Function.update_self, ← getLastD_reverse, reverse_reverse]

end Update

theorem dlist_iff_ring [DecidableEq α] {null first last : α} {nxt prv : α → α} :
    Dlist null nxt prv first last l ↔
      Ring null (Function.update nxt null first) (Function.update prv null last) l := by
  have hoff : ∀ {k : α → α} {e : α}, null ∉ l → ∀ y ∈ l, Function.update k null e y = k y := by
    intro k e hnull y hy
    apply Function.update_of_ne
    rintro rfl
    exact hnull hy
  constructor
  · intro h
    refine ⟨nodup_cons.mpr ⟨h.nonnull, h.nodup⟩, ?_, ?_⟩
    · rw [Function.update_self]
      exact h.forward.congr (hoff h.nonnull)
    · rw [Function.update_self]
      exact h.backward.congr fun y hy => hoff h.nonnull y (mem_reverse.mp hy)
  · intro h
    obtain ⟨hnull, hnodup⟩ := nodup_cons.mp h.nodup
    have hfwd := h.fwd
    have hbwd := h.bwd
    rw [Function.update_self] at hfwd hbwd
    exact ⟨hnodup, hnull, hfwd.congr fun y hy => (hoff hnull y hy).symm,
      hbwd.congr fun y hy => (hoff hnull y (mem_reverse.mp hy)).symm⟩

theorem Dlist.first_eq {null first last : α} {nxt prv : α → α}
    (h : Dlist null nxt prv first last l) : first = l.headD null := h.forward.headD_eq

theorem Dlist.last_eq {null first last : α} {nxt prv : α → α}
    (h : Dlist null nxt prv first last l) : last = l.getLastD null := by
  rw [h.backward.headD_eq, ← getLastD_reverse, reverse_reverse]

end PortableLib.Links
