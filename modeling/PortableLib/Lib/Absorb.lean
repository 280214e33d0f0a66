import Mathlib.Data.List.Basic

/-! Taking in a sequence by blocks of `B` items. How it is cut into chunks does not matter if what
is left of one chunk is put in front of the next. -/

namespace PortableLib.Absorb
open List

variable {α β : Type*} {B : Nat} {f : α → List β → α}

@[simp] def drain (B : Nat) (f : α → List β → α) : Nat → α → List β → α × List β
  | 0, a, xs => (a, xs)
  | fuel + 1, a, xs =>
    if B ≤ xs.length then drain B f fuel (f a (xs.take B)) (xs.drop B) else (a, xs)

def absorb (B : Nat) (f : α → List β → α) (a : α) (xs : List β) : α × List β :=
  drain B f xs.length a xs

theorem drain_short {fuel : Nat} {a : α} {xs : List β} (h : xs.length < B) :
    drain B f fuel a xs = (a, xs) := by
  cases fuel with
  | zero => rfl
  | succ fuel => rw [drain, if_neg (Nat.not_le_of_lt h)]

theorem absorb_short {a : α} {xs : List β} (h : xs.length < B) : absorb B f a xs = (a, xs) :=
  drain_short h

section
variable (hB : 0 < B)
include hB

theorem drain_congr {fuel fuel' : Nat} {a : α} {xs : List β} (h : xs.length ≤ fuel)
    (h' : xs.length ≤ fuel') : drain B f fuel a xs = drain B f fuel' a xs := by
  induction fuel generalizing fuel' a xs with
  | zero =>
    obtain rfl := length_eq_zero_iff.mp (Nat.le_zero.mp h)
    exact (drain_short hB).symm
  | succ fuel ih =>
    by_cases hle : B ≤ xs.length
    · obtain ⟨n, rfl⟩ := Nat.exists_eq_add_of_le' (Nat.lt_of_lt_of_le hB (Nat.le_trans hle h'))
      rw [drain, drain, if_pos hle, if_pos hle]
      apply ih
      · rw [length_drop]
        omega
      · rw [length_drop]
        omega
    · rw [drain_short (Nat.lt_of_not_le hle), drain_short (Nat.lt_of_not_le hle)]

theorem absorb_step {a : α} {xs : List β} (h : B ≤ xs.length) :
    absorb B f a xs = absorb B f (f a (xs.take B)) (xs.drop B) := by
  obtain ⟨n, hn⟩ := Nat.exists_eq_add_of_le' (Nat.lt_of_lt_of_le hB h)
  rw [absorb, hn, drain, if_pos h, absorb]
  apply drain_congr hB
  · rw [length_drop]
    omega
  · exact Nat.le_refl _

theorem absorb_append (a : α) (xs ys : List β) : absorb B f a (xs ++ ys) =
    absorb B f (absorb B f a xs).1 ((absorb B f a xs).2 ++ ys) := by
  induction hn : xs.length using Nat.strongRecOn generalizing a xs with
  | _ n ih =>
    by_cases hle : B ≤ xs.length
    · have hlen : (xs.drop B).length < n := by
        rw [length_drop]
        omega
      have hle' : B ≤ (xs ++ ys).length := by
        rw [length_append]
        omega
      rw [absorb_step hB hle, absorb_step hB hle', take_append_of_le_length hle,
        drop_append_of_le_length hle, ih _ hlen _ _ rfl]
    · rw [absorb_short (Nat.lt_of_not_le hle)]

theorem length_absorb (a : α) (xs : List β) : (absorb B f a xs).2.length < B := by
  induction hn : xs.length using Nat.strongRecOn generalizing a xs with
  | _ n ih =>
    by_cases hle : B ≤ xs.length
    · have hlen : (xs.drop B).length < n := by
        rw [length_drop]
        omega
      rw [absorb_step hB hle]
      exact ih _ hlen _ _ rfl
    · rw [absorb_short (Nat.lt_of_not_le hle)]
      exact Nat.lt_of_not_le hle

end

end PortableLib.Absorb
