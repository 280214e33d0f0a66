import Mathlib.Data.List.Basic
import Mathlib.Logic.Function.Basic

/-! Circular buffers. The buffer holds a window of a sequence that only ever grows: the element
with number `i` is in slot `i % size`. -/

namespace PortableLib.Circular
open List

variable {α : Type} {size lo : Nat} {slot : Nat → α} {xs : List α} {x : α}

theorem mod_ne_of_window {i j : Nat} (hi : lo ≤ i) (hij : i < j) (hj : j < lo + size) :
    i % size ≠ j % size := by
  intro heq
  have hd := Nat.sub_mod_eq_zero_of_mod_eq heq.symm
  have hsmall : j - i < size := by omega
  rw [Nat.mod_eq_of_lt hsmall] at hd
  omega

def bump (size i : Nat) : Nat := if i + 1 = size then 0 else i + 1

theorem bump_mod (hsize : 0 < size) (n : Nat) : bump size (n % size) = (n + 1) % size := by
  have hlt := Nat.mod_lt n hsize
  have hsum : (n + 1) % size = (n % size + 1) % size := (Nat.mod_add_mod n size 1).symm
  unfold bump
  rw [hsum]
  by_cases h : n % size + 1 = size
  · rw [if_pos h, h, Nat.mod_self]
  · have hsucc : n % size + 1 < size := Nat.lt_of_le_of_ne hlt h
    rw [if_neg h, Nat.mod_eq_of_lt hsucc]

section Window
variable {hi : Nat}

/-- The two ends of a window that is not full are the same slot exactly if nothing is in it. -/
theorem mod_eq_mod_iff (hle : lo ≤ hi) (hroom : hi < lo + size) :
    lo % size = hi % size ↔ lo = hi := by
  constructor
  · intro heq
    by_contra hne
    exact mod_ne_of_window (Nat.le_refl lo) (Nat.lt_of_le_of_ne hle hne) hroom heq
  · exact fun heq => heq ▸ rfl

theorem bump_eq_mod_iff (hle : lo ≤ hi) (hroom : hi < lo + size) :
    bump size (hi % size) = lo % size ↔ hi + 1 = lo + size := by
  have hpos : 0 < size := by omega
  rw [bump_mod hpos]
  constructor
  · intro heq
    by_contra hne
    have hfits : hi + 1 < lo + size := Nat.lt_of_le_of_ne hroom hne
    exact mod_ne_of_window (Nat.le_refl lo) (Nat.lt_succ_of_le hle) hfits heq.symm
  · intro heq
    rw [heq, Nat.add_mod_right]

theorem count_eq (hle : lo ≤ hi) (hroom : hi < lo + size) :
    (if lo % size < hi % size then hi % size - lo % size
      else if hi % size < lo % size then size - lo % size + hi % size else 0) = hi - lo := by
  have hlt : lo % size < size := Nat.mod_lt lo (by omega)
  obtain ⟨k, rfl⟩ := Nat.exists_eq_add_of_le hle
  have hk : k < size := by omega
  rw [Nat.add_sub_cancel_left, ← Nat.mod_add_mod]
  generalize lo % size = r at hlt
  by_cases hwrap : r + k < size
  · rw [Nat.mod_eq_of_lt hwrap]
    split_ifs <;> omega
  · have hback : r + k - size < size := by omega
    rw [Nat.mod_eq_sub_mod (Nat.le_of_not_lt hwrap), Nat.mod_eq_of_lt hback]
    split_ifs <;> omega

end Window

/-- The elements of `xs` from number `lo` on are in their slots. -/
def Holds (size : Nat) (slot : Nat → α) (xs : List α) (lo : Nat) : Prop :=
  ∀ i, lo ≤ i → i < xs.length → xs[i]? = some (slot (i % size))

theorem Holds.mono {lo' : Nat} (h : Holds size slot xs lo) (hlo : lo ≤ lo') :
    Holds size slot xs lo' := fun i hi => h i (Nat.le_trans hlo hi)

theorem Holds.write (h : Holds size slot xs lo) (hroom : xs.length < lo + size) :
    Holds size (Function.update slot (xs.length % size) x) xs lo := by
  intro i hi hlt
  rw [Function.update_of_ne (mod_ne_of_window hi hlt hroom)]
  exact h i hi hlt

theorem Holds.snoc (h : Holds size slot xs lo) (hx : slot (xs.length % size) = x) :
    Holds size slot (xs ++ [x]) lo := by
  intro i hi hlt
  rw [length_append, length_singleton] at hlt
  rcases Nat.lt_succ_iff_lt_or_eq.mp hlt with hold | rfl
  · rw [getElem?_append_left hold]
    exact h i hi hold
  · rw [getElem?_concat_length, hx]

theorem Holds.take_succ (h : Holds size slot xs lo) (hlt : lo < xs.length) :
    xs.take (lo + 1) = xs.take lo ++ [slot (lo % size)] := by
  rw [List.take_add_one, h lo (Nat.le_refl lo) hlt, Option.toList_some]

end PortableLib.Circular
