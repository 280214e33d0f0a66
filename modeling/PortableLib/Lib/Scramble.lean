import Mathlib.Dynamics.PeriodicPts.Lemmas

/-! Steps on the bits of a word that lose none of them. A machine with finitely many states whose
step loses nothing comes back to where it started. -/

namespace PortableLib.Scramble
open Function

section Words

variable {w : Nat}

theorem xor_shiftLeft_injective {a : Nat} (ha : 0 < a) :
    Injective fun x : BitVec w => x ^^^ x <<< a := by
  intro x y h
  apply BitVec.eq_of_getLsbD_eq
  intro i
  -- a bit meets a lower one only
  induction i using Nat.strong_induction_on with
  | _ i ih =>
  intro hi
  have hbit := congrArg (fun v => v.getLsbD i) h
  simp only [BitVec.getLsbD_xor, BitVec.getLsbD_shiftLeft, hi, decide_true, Bool.true_and] at hbit
  by_cases hlt : i < a
  · rw [decide_eq_true hlt] at hbit
    simpa only [Bool.not_true, Bool.false_and, Bool.xor_false] using hbit
  · rw [ih (i - a) (by omega) (by omega)] at hbit
    exact Bool.xor_left_inj.mp hbit

theorem xor_ushiftRight_injective {a : Nat} (ha : 0 < a) :
    Injective fun x : BitVec w => x ^^^ x >>> a := by
  intro x y h
  have hhigh : ∀ n i, w ≤ i + n → x.getLsbD i = y.getLsbD i := by
    intro n
    induction n with
    | zero =>
      intro i hi
      rw [BitVec.getLsbD_of_ge x i hi, BitVec.getLsbD_of_ge y i hi]
    | succ n ih =>
      intro i hi
      have hbit := congrArg (fun v => v.getLsbD i) h
      simp only [BitVec.getLsbD_xor, BitVec.getLsbD_ushiftRight] at hbit
      rw [ih (a + i) (by omega)] at hbit
      exact Bool.xor_left_inj.mp hbit
  exact BitVec.eq_of_getLsbD_eq fun i _ => hhigh w i (Nat.le_add_left w i)

theorem rotate_injective {a : Nat} (ha : a ≤ w) :
    Injective fun x : BitVec w => x <<< a ||| x >>> (w - a) := by
  intro x y h
  apply BitVec.eq_of_getLsbD_eq
  intro i hi
  by_cases hlt : i + a < w
  · have hbit := congrArg (fun v => v.getLsbD (i + a)) h
    have hx := BitVec.getLsbD_of_ge x (w - a + (i + a)) (by omega)
    have hy := BitVec.getLsbD_of_ge y (w - a + (i + a)) (by omega)
    simp only [BitVec.getLsbD_or, BitVec.getLsbD_shiftLeft, BitVec.getLsbD_ushiftRight, hx, hy,
      decide_eq_true hlt, decide_eq_false (Nat.not_lt.mpr (Nat.le_add_left a i)),
      Nat.add_sub_cancel, Bool.not_false, Bool.true_and, Bool.or_false] at hbit
    exact hbit
  · have hbit := congrArg (fun v => v.getLsbD (i + a - w)) h
    have hleft : i + a - w < a := by omega
    have hright : w - a + (i + a - w) = i := by omega
    simp only [BitVec.getLsbD_or, BitVec.getLsbD_shiftLeft, BitVec.getLsbD_ushiftRight, hright,
      decide_eq_true hleft, Bool.not_true, Bool.and_false, Bool.false_and, Bool.false_or] at hbit
    exact hbit

end Words

section Machines

variable {σ β : Type*}

def after (next : σ → σ × β) (s : σ) (n : Nat) : σ := (fun s => (next s).1)^[n] s

def out (next : σ → σ × β) (s : σ) (n : Nat) : β := (next (after next s n)).2

variable {next : σ → σ × β} {Z : σ → Prop}

theorem after_add (s : σ) (m n : Nat) : after next s (m + n) = after next (after next s n) m :=
  iterate_add_apply _ m n s

theorem after_succ (s : σ) (n : Nat) : after next s (n + 1) = (next (after next s n)).1 :=
  iterate_succ_apply' _ n s

theorem after_closed (hZ : ∀ s, Z s → Z (next s).1) {s : σ} (h : Z s) (n : Nat) :
    Z (after next s n) := by
  induction n with
  | zero => exact h
  | succ n ih =>
    rw [after_succ]
    exact hZ _ ih

/-- Runs come back, and into `Z` they only get from `Z`. -/
structure Lossless (next : σ → σ × β) (Z : σ → Prop) : Prop where
  returns : ∀ s, ∃ n > 0, after next s n = s ∧ ∀ i, out next s (i + n) = out next s i
  zero : ∀ s n, Z (after next s n) ↔ Z s

theorem lossless_of_injective [Finite σ] (hnext : Injective fun s => (next s).1)
    (hZ : ∀ s, Z s → Z (next s).1) : Lossless next Z := by
  have hback : ∀ s, ∃ n > 0, after next s n = s := fun s => hnext.mem_periodicPts s
  refine ⟨fun s => ?_, fun s n => ⟨fun h => ?_, fun h => after_closed hZ h n⟩⟩
  · obtain ⟨n, hpos, hn⟩ := hback s
    refine ⟨n, hpos, hn, fun i => ?_⟩
    rw [out, out, after_add, hn]
  · -- the rest of a round leads from the later state to the earlier one
    obtain ⟨m, hpos, hm⟩ := hback s
    have hround : ∀ k, after next s (k * m) = s := by
      intro k
      induction k with
      | zero => rw [Nat.zero_mul]; rfl
      | succ k ih => rw [Nat.succ_mul, after_add, hm, ih]
    have hle : n ≤ n * m := Nat.le_mul_of_pos_right n hpos
    have hrest := after_closed hZ h (n * m - n)
    rw [← after_add, Nat.sub_add_cancel hle, hround] at hrest
    exact hrest

end Machines

end PortableLib.Scramble
