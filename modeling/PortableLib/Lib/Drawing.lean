import Mathlib.Algebra.GroupWithZero.Nat
import Mathlib.Data.List.Basic

/-! A stream of items that is made in pieces: what is left of the last piece, and the key that the
next piece is made of. Taking items out of it does not depend on how they are asked for. -/

namespace PortableLib.Drawing
open List

variable {κ β : Type*} {next : κ → List β × κ}

@[simp] def draw (next : κ → List β × κ) : Nat → List β × κ → List β × (List β × κ)
  | 0, g => ([], g)
  | n + 1, (b :: bs, k) =>
    let r := draw next n (bs, k)
    (b :: r.1, r.2)
  | n + 1, ([], k) =>
    match next k with
    | ([], k') => ([], ([], k'))
    | (b :: bs, k') =>
      let r := draw next n (bs, k')
      (b :: r.1, r.2)

theorem draw_nil {k : κ} (hk : (next k).1 ≠ []) (n : Nat) :
    draw next (n + 1) ([], k) = draw next (n + 1) (next k) := by
  rw [draw]
  generalize next k = p at hk
  obtain ⟨bs, k'⟩ := p
  cases bs with
  | nil => exact absurd rfl hk
  | cons b bs => rfl

theorem draw_of_le {n : Nat} {bs : List β} {k : κ} (h : n ≤ bs.length) :
    draw next n (bs, k) = (bs.take n, (bs.drop n, k)) := by
  induction n generalizing bs with
  | zero => rfl
  | succ n ih =>
    cases bs with
    | nil => exact absurd h (Nat.not_succ_le_zero n)
    | cons b bs => rw [draw, ih (Nat.le_of_succ_le_succ h)]; rfl

variable (hnext : ∀ k, (next k).1 ≠ [])
include hnext

theorem length_draw (n : Nat) (g : List β × κ) : (draw next n g).1.length = n := by
  induction n generalizing g with
  | zero => rfl
  | succ n ih =>
    obtain ⟨bs, k⟩ := g
    cases bs with
    | cons b bs => rw [draw, length_cons, ih]
    | nil =>
      rw [draw_nil (hnext k)]
      obtain ⟨b, bs, hbs⟩ := exists_cons_of_ne_nil (hnext k)
      rw [← Prod.eta (next k), hbs, draw, length_cons, ih]

theorem draw_add (m n : Nat) (g : List β × κ) :
    draw next (m + n) g =
      ((draw next m g).1 ++ (draw next n (draw next m g).2).1,
        (draw next n (draw next m g).2).2) := by
  induction m generalizing g with
  | zero => rw [Nat.zero_add]; rfl
  | succ m ih =>
    obtain ⟨bs, k⟩ := g
    have hcons : ∀ b bs k, draw next (m + 1 + n) (b :: bs, k) =
        ((draw next (m + 1) (b :: bs, k)).1 ++ (draw next n (draw next (m + 1) (b :: bs, k)).2).1,
          (draw next n (draw next (m + 1) (b :: bs, k)).2).2) := by
      intro b bs k
      rw [Nat.add_right_comm, draw, ih]
      rfl
    cases bs with
    | cons b bs => exact hcons b bs k
    | nil =>
      obtain ⟨b, bs, hbs⟩ := exists_cons_of_ne_nil (hnext k)
      rw [Nat.add_right_comm, draw_nil (hnext k), draw_nil (hnext k), ← Prod.eta (next k), hbs,
        ← hcons, Nat.add_right_comm]

def drawAll (next : κ → List β × κ) : List Nat → List β × κ → List (List β) × (List β × κ)
  | [], g => ([], g)
  | n :: ns, g =>
    let r := drawAll next ns (draw next n g).2
    ((draw next n g).1 :: r.1, r.2)

theorem drawAll_flatten (ns : List Nat) (g : List β × κ) :
    ((drawAll next ns g).1.flatten, (drawAll next ns g).2) = draw next ns.sum g := by
  induction ns generalizing g with
  | nil => rfl
  | cons n ns ih =>
    rw [sum_cons, draw_add hnext, ← ih]
    rfl

theorem map_length_drawAll (ns : List Nat) (g : List β × κ) :
    (drawAll next ns g).1.map length = ns := by
  induction ns generalizing g with
  | nil => rfl
  | cons n ns ih => rw [drawAll, map_cons, length_draw hnext, ih]

end PortableLib.Drawing
