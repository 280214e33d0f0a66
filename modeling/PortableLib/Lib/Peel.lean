import Mathlib.Data.List.Basic

/-! Solving a system of equations by peeling. Each equation names some cells and asks for the sum
of their values; if the equations can be ordered so that each one has a cell of its own that no
later equation uses, then they are solved in the opposite order, one cell each. -/

namespace PortableLib.Peel
open List

variable {ε κ β : Type} {op : β → β → β} {z : β} {cs : List κ}

def total (op : β → β → β) (z : β) (b : κ → β) (cs : List κ) : β :=
  cs.foldr (fun c v => op (b c) v) z

theorem total_cons (b : κ → β) (c : κ) : total op z b (c :: cs) = op (b c) (total op z b cs) := rfl

theorem total_congr {b b' : κ → β} (h : ∀ c ∈ cs, b c = b' c) :
    total op z b cs = total op z b' cs := by
  induction cs with
  | nil => rfl
  | cons a cs ih =>
    rw [total_cons, total_cons, h a mem_cons_self, ih fun c hc => h c (mem_cons_of_mem a hc)]

variable [DecidableEq κ]

inductive Peels (cells : ε → List κ) : List (ε × κ) → Prop
  | nil : Peels cells []
  | cons {e : ε} {c : κ} {ps : List (ε × κ)} : (cells e).count c = 1 →
      (∀ p ∈ ps, p.2 ∉ cells e) → Peels cells ps → Peels cells ((e, c) :: ps)

def solve (op : β → β → β) (z : β) (cells : ε → List κ) (rhs : ε → β) :
    (κ → β) → List (ε × κ) → κ → β
  | b, [] => b
  | b, p :: ps =>
    solve op z cells rhs (Function.update b p.2 (op (rhs p.1) (total op z b (cells p.1)))) ps

section Solve
variable {cells : ε → List κ} {rhs : ε → β} {b : κ → β} {ps : List (ε × κ)} {c : κ}

theorem Peels.count_eq_one (hp : Peels cells ps) : ∀ p ∈ ps, (cells p.1).count p.2 = 1 := by
  induction hp with
  | nil => exact fun p hp => absurd hp not_mem_nil
  | cons hc _ _ ih =>
    intro p hp
    rcases mem_cons.mp hp with rfl | hp
    · exact hc
    · exact ih p hp

theorem Peels.tail {p : ε × κ} (hp : Peels cells (p :: ps)) : Peels cells ps := by
  cases hp with
  | cons _ _ hrest => exact hrest

theorem total_update_of_notMem (h : c ∉ cs) (v : β) :
    total op z (Function.update b c v) cs = total op z b cs := by
  apply total_congr
  intro a ha
  apply Function.update_of_ne
  rintro rfl
  exact h ha

theorem solve_of_notMem (h : ∀ p ∈ ps, p.2 ≠ c) : solve op z cells rhs b ps c = b c := by
  induction ps generalizing b with
  | nil => rfl
  | cons p ps ih =>
    rw [solve, ih fun q hq => h q (mem_cons_of_mem p hq)]
    exact Function.update_of_ne (h p mem_cons_self).symm _ _

variable [hassoc : Std.Associative op] [hcomm : Std.Commutative op]

theorem total_update (hz : ∀ a, op z a = a) (hc : cs.count c = 1) (hb : b c = z) (v : β) :
    total op z (Function.update b c v) cs = op v (total op z b cs) := by
  induction cs with
  | nil => cases hc
  | cons a cs ih =>
    rw [total_cons, total_cons]
    by_cases ha : a = c
    · have hno : c ∉ cs := by
        rw [ha, count_cons_self] at hc
        exact count_eq_zero.mp (Nat.succ.inj hc)
      rw [ha, Function.update_self, hb, hz, total_update_of_notMem hno]
    · rw [count_cons_of_ne ha] at hc
      rw [Function.update_of_ne ha, ih hc]
      ac_rfl

theorem solve_spec (hz : ∀ a, op z a = a) (hself : ∀ a, op a a = z) (hp : Peels cells ps)
    (hb : ∀ p ∈ ps, b p.2 = z) : ∀ p ∈ ps, total op z (solve op z cells rhs b ps) (cells p.1) =
      rhs p.1 := by
  induction hp generalizing b with
  | nil => exact fun p hp => absurd hp not_mem_nil
  | @cons e c ps hc hlater _ ih =>
    intro p hp
    rw [solve]
    have hmem : c ∈ cells e := count_pos_iff.mp (by omega)
    rcases mem_cons.mp hp with rfl | hp
    · -- the cells of the last equation are not touched again
      rw [total_congr fun a ha => solve_of_notMem fun q hq hqa => hlater q hq (hqa ▸ ha),
        total_update hz hc (hb _ mem_cons_self), hassoc.assoc, hself, hcomm.comm, hz]
    · apply ih _ p hp
      intro q hq
      have hne : q.2 ≠ c := fun h => hlater q hq (h ▸ hmem)
      rw [Function.update_of_ne hne]
      exact hb q (mem_cons_of_mem _ hq)

end Solve
end PortableLib.Peel
