import PortableLib.Lib.Block

/-! Reading a terminated buffer from its beginning to its end, with a body that may write to it. -/

namespace PortableLib.InPlace
open List

variable {α σ τ ρ ε : Type*} {z a : α} {b b' : Block α} {i j : Nat} {l : List α}

structure Left (z : α) (b : Block α) (i : Nat) (l : List α) : Prop where
  len_eq : b.len = i + l.length + 1
  cells_eq : ∀ j, b.cells (i + j) = l.getD j z

theorem Left.read (h : Left z b i l) : b.read i = some (l.headD z) := by
  have hlen := h.len_eq
  rw [Block.read_of_lt (by omega), ← Nat.add_zero i, h.cells_eq]
  cases l <;> rfl

theorem Left.tail (h : Left z b i (a :: l)) : Left z b (i + 1) l := by
  constructor
  · rw [h.len_eq, length_cons, Nat.add_right_comm i]
    rfl
  · intro j
    rw [Nat.add_right_comm, Nat.add_assoc, h.cells_eq, getD_cons_succ]

theorem Left.lt_len (h : Left z b i l) (hj : j ≤ i) : j < b.len := by
  have hlen := h.len_eq
  omega

theorem Left.write (h : Left z b i l) (hw : b.write j a = some b') (hj : j < i) :
    Left z b' i l := by
  obtain ⟨-, rfl⟩ := Block.eq_of_write hw
  refine ⟨h.len_eq, fun k => ?_⟩
  rw [← h.cells_eq]
  exact Function.update_of_ne (by omega) _ _

def goOn (f : σ → Option (Except ε ρ)) : Except ε σ → Option (Except ε ρ)
  | .error e => some (.error e)
  | .ok x => f x

/-- `for (; (c = *s); s++) body`, for the terminator `z`; `str` is the buffer of a state. -/
def loop [DecidableEq α] (str : σ → Block α) (z : α) (body : Nat → α → σ → Option (Except ε σ)) :
    Nat → Nat → σ → Option (Except ε σ)
  | 0, _, _ => none
  | fuel + 1, i, x => ((str x).read i).bind fun c =>
    if c = z then some (.ok x) else (body i c x).bind (goOn (loop str z body fuel (i + 1)))

section loop
variable [DecidableEq α] {str : σ → Block α} {body : Nat → α → σ → Option (Except ε σ)}
  {fuel : Nat} {x : σ} {c : α} {u w : List α}

theorem loop_nil (h : Left z (str x) i []) : loop str z body (fuel + 1) i x = some (.ok x) := by
  rw [loop, h.read]
  exact if_pos rfl

theorem loop_cons (h : Left z (str x) i (c :: l)) (hc : c ≠ z) :
    loop str z body (fuel + 1) i x =
      (body i c x).bind (goOn (loop str z body fuel (i + 1))) := by
  rw [loop, h.read]
  exact if_neg hc

/-- `R i l x t` relates the state before place `i`, with `l` still to be read, to what `step` has
made of the elements before. Where each round keeps it, so does the loop. -/
theorem loop_append (R : Nat → List α → σ → τ → Prop) (step : τ → α → τ) (Fits : τ → α → Prop)
    (hleft : ∀ i l x t, R i l x t → Left z (str x) i l)
    (hbody : ∀ i c l x t, R i (c :: l) x t → c ≠ z → Fits t c →
      ∃ x', body i c x = some (.ok x') ∧ R (i + 1) l x' (step t c))
    (hz : z ∉ u) {t : τ} (hfits : ∀ p c q, u = p ++ c :: q → Fits (p.foldl step t) c)
    (h : R i (u ++ w) x t) (fuel : Nat) :
    ∃ x', loop str z body (fuel + u.length) i x = loop str z body fuel (i + u.length) x' ∧
      R (i + u.length) w x' (u.foldl step t) := by
  induction u generalizing i x t with
  | nil => exact ⟨x, rfl, h⟩
  | cons c u ih =>
    have hc : c ≠ z := fun heq => hz (heq ▸ mem_cons_self)
    obtain ⟨x₁, hx₁, h₁⟩ := hbody i c (u ++ w) x t h hc (hfits [] c u rfl)
    obtain ⟨x', hx', h'⟩ := ih (fun hmem => hz (mem_cons_of_mem c hmem))
      (fun p c' q hu => hfits (c :: p) c' q (congrArg (c :: ·) hu)) h₁
    refine ⟨x', ?_, ?_⟩
    · rw [length_cons, ← Nat.add_assoc, loop_cons (hleft _ _ _ _ h) hc, hx₁, Nat.add_comm u.length,
        ← Nat.add_assoc]
      exact hx'
    · rw [length_cons, Nat.add_comm u.length, ← Nat.add_assoc]
      exact h'

end loop
end PortableLib.InPlace
