import PortableLib.Lib.Image
import Mathlib.Data.List.Nodup

/-! Arrays of equal slots: the addresses of the first `n` slots of `size` bytes from `start` on. -/

namespace PortableLib.Slots
open List PortableLib.Image

variable {start size n p : Nat}

def slots (start size n : Nat) : List Nat := (range n).map fun i => start + i * size

theorem length_slots : (slots start size n).length = n := by
  rw [slots, length_map, length_range]

theorem slots_succ : slots start size (n + 1) = slots start size n ++ [start + n * size] := by
  unfold slots
  rw [range_succ, map_append, map_singleton]

theorem mem_slots : p ∈ slots start size n ↔ ∃ i < n, p = start + i * size := by
  unfold slots
  rw [mem_map]
  constructor
  · rintro ⟨i, hi, rfl⟩
    exact ⟨i, mem_range.mp hi, rfl⟩
  · rintro ⟨i, hi, rfl⟩
    exact ⟨i, mem_range.mpr hi, rfl⟩

theorem mul_add_le_of_lt {i j : Nat} (size : Nat) (h : i < j) : i * size + size ≤ j * size := by
  rw [← Nat.succ_mul]
  exact Nat.mul_le_mul_right size h

theorem slot_bounds (h : p ∈ slots start size n) : start ≤ p ∧ p + size ≤ start + n * size := by
  obtain ⟨i, hi, rfl⟩ := mem_slots.mp h
  have hle := mul_add_le_of_lt size hi
  omega

theorem slot_dvd {d : Nat} (hstart : d ∣ start) (hsize : d ∣ size) (h : p ∈ slots start size n) :
    d ∣ p := by
  obtain ⟨i, -, rfl⟩ := mem_slots.mp h
  exact Nat.dvd_add hstart (Nat.dvd_mul_left_of_dvd hsize i)

theorem slots_apart :
    (slots start size n).Pairwise fun p q => Apart (p, size) (q, size) := by
  unfold slots
  apply pairwise_map.mpr
  refine pairwise_lt_range.imp fun {i j} hij => .inl ?_
  have hle := mul_add_le_of_lt size hij
  simp only
  omega

end PortableLib.Slots
