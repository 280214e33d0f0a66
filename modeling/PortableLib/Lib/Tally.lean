import Mathlib.Algebra.BigOperators.Group.Finset.Piecewise
import PortableLib.Lib.Interleave

/-! Two ways to take a concurrent run apart: sums over all threads, which a step changes in one
place only, and the events of each thread, which only its own steps add to. -/

namespace PortableLib.Interleave
open List

section Sums

variable {Tid P M : Type} [Fintype Tid] [AddCommMonoid M] {f : Tid → P → M} {pc : Tid → P}
  {t : Tid} {p : P}

def tally (f : Tid → P → M) (pc : Tid → P) : M := ∑ t, f t (pc t)

theorem tally_eq_add [DecidableEq Tid] (f : Tid → P → M) (pc : Tid → P) (t : Tid) :
    tally f pc = f t (pc t) + ∑ u ∈ Finset.univ.erase t, f u (pc u) :=
  (Finset.add_sum_erase _ _ (Finset.mem_univ t)).symm

theorem tally_update [DecidableEq Tid] :
    tally f (Function.update pc t p) + f t (pc t) = tally f pc + f t p := by
  have hothers : ∑ u ∈ Finset.univ.erase t, f u (Function.update pc t p u) =
      ∑ u ∈ Finset.univ.erase t, f u (pc u) := by
    apply Finset.sum_congr rfl
    intro u hu
    rw [Function.update_of_ne (Finset.ne_of_mem_erase hu)]
  rw [tally_eq_add f (Function.update pc t p) t, tally_eq_add f pc t, hothers,
    Function.update_self]
  ac_rfl

theorem le_tally [DecidableEq Tid] (f : Tid → P → Nat) (pc : Tid → P) (t : Tid) :
    f t (pc t) ≤ tally f pc := by
  rw [tally_eq_add f pc t]
  exact Nat.le_add_right _ _

end Sums

section Keyed

variable {K X : Type} [DecidableEq K] {xs ys : List (K × X)} {k l : K} {x : X}

def on (k : K) (xs : List (K × X)) : List X :=
  xs.filterMap fun p => if p.1 = k then some p.2 else none

@[simp] theorem on_nil : on k ([] : List (K × X)) = [] := rfl

@[simp] theorem on_append : on k (xs ++ ys) = on k xs ++ on k ys := filterMap_append

@[simp] theorem on_self : on k [(k, x)] = [x] := by
  simp [on]

theorem on_of_ne (h : l ≠ k) : on k [(l, x)] = [] := by
  simp [on, h]

theorem on_cons (p : K × X) : on k (p :: xs) = (if p.1 = k then [p.2] else []) ++ on k xs := by
  by_cases h : p.1 = k
  · simp [on, h]
  · simp [on, h]

theorem sum_on [Fintype K] {M : Type} [AddCommMonoid M] (f : X → M) (xs : List (K × X)) :
    (xs.map fun p => f p.2).sum = ∑ k, ((on k xs).map f).sum := by
  induction xs with
  | nil => simp
  | cons p xs ih =>
    have hhead : ∀ k, (((if p.1 = k then [p.2] else []).map f).sum : M) =
        if p.1 = k then f p.2 else 0 := by
      intro k
      by_cases h : p.1 = k
      · simp [h]
      · simp [h]
    simp only [on_cons, map_append, sum_append, hhead, Finset.sum_add_distrib,
      Finset.sum_ite_eq, Finset.mem_univ, if_true, map_cons, sum_cons, ih]

theorem mem_of_mem_on (h : x ∈ on k xs) : ∃ p ∈ xs, p.2 = x := by
  rw [on, mem_filterMap] at h
  obtain ⟨p, hp, heq⟩ := h
  by_cases hk : p.1 = k
  · rw [if_pos hk] at heq
    exact ⟨p, hp, Option.some.inj heq⟩
  · rw [if_neg hk] at heq
    exact absurd heq nofun

theorem coe_flatMap {Y : Type} (f : X → List Y) (xs : List X) :
    ((xs.flatMap f : List Y) : Multiset Y) = (xs.map fun x => (f x : Multiset Y)).sum := by
  induction xs with
  | nil => rfl
  | cons x xs ih => rw [flatMap_cons, ← Multiset.coe_add, ih, map_cons, sum_cons]

theorem perm_of_on [Fintype K] {Y Z : Type} {ys : List (K × Y)} {f : X → List Z} {g : Y → List Z}
    (h : ∀ k, ((on k xs).flatMap f).Perm ((on k ys).flatMap g)) :
    (xs.flatMap fun p => f p.2).Perm (ys.flatMap fun p => g p.2) := by
  rw [← Multiset.coe_eq_coe, coe_flatMap, coe_flatMap, sum_on fun x => (f x : Multiset Z),
    sum_on fun y => (g y : Multiset Z)]
  apply Finset.sum_congr rfl
  intro k _
  rw [← coe_flatMap, ← coe_flatMap]
  exact Multiset.coe_eq_coe.mpr (h k)

end Keyed

end PortableLib.Interleave
