import Mathlib.Data.List.Range
import Mathlib.Data.Multiset.Range
import Mathlib.Data.Multiset.MapFold
import Mathlib.Logic.Equiv.Basic

/-! Blocks of cells with checked access. What the cells beyond the length hold is nobody's
business: no access reaches them. -/

namespace PortableLib

structure Block (α : Type*) where
  len : Nat
  cells : Nat → α

namespace Block
variable {α : Type*}

def read (b : Block α) (i : Nat) : Option α := if i < b.len then some (b.cells i) else none

def write (b : Block α) (i : Nat) (a : α) : Option (Block α) :=
  if i < b.len then some { b with cells := Function.update b.cells i a } else none

def swap (b : Block α) (i j : Nat) : Option (Block α) := do
  let x ← b.read i
  let y ← b.read j
  let b ← b.write i y
  b.write j x

/-- `memset`, counted in cells. -/
def fill (b : Block α) (lo cnt : Nat) (a : α) : Option (Block α) :=
  if lo + cnt ≤ b.len then
    some { b with cells := fun i => if lo ≤ i ∧ i < lo + cnt then a else b.cells i }
  else none

/-- `memcpy` from the first `cnt` cells of `src` to the cells from `lo` on. -/
def copy (b : Block α) (lo : Nat) (src : Block α) (cnt : Nat) : Option (Block α) :=
  if lo + cnt ≤ b.len ∧ cnt ≤ src.len then
    some { b with
      cells := fun i => if lo ≤ i ∧ i < lo + cnt then src.cells (i - lo) else b.cells i }
  else none

/-- `realloc` to `len` cells; what is new in the block is up to the allocator. -/
def realloc (b : Block α) (len : Nat) (junk : Nat → α) : Block α where
  len := len
  cells i := if i < b.len then b.cells i else junk i

def shift (b : Block α) (lo : Nat) : Block α where
  len := b.len - lo
  cells i := b.cells (lo + i)

def first (b : Block α) (n : Nat) : Option (List α) :=
  if n ≤ b.len then some ((List.range n).map b.cells) else none

theorem shift_shift (b : Block α) (i j : Nat) : (b.shift i).shift j = b.shift (i + j) := by
  simp only [shift, Nat.sub_sub, Nat.add_assoc]

theorem shift_zero (b : Block α) : b.shift 0 = b := by
  simp only [shift, Nat.sub_zero, Nat.zero_add]

theorem first_of_le {b : Block α} {n : Nat} (h : n ≤ b.len) :
    b.first n = some ((List.range n).map b.cells) := if_pos h

theorem read_of_lt {b : Block α} {i : Nat} (h : i < b.len) : b.read i = some (b.cells i) := if_pos h

theorem lt_of_read {b : Block α} {i : Nat} {a : α} (h : b.read i = some a) : i < b.len := by
  by_contra hlt
  rw [read, if_neg hlt] at h
  cases h

theorem write_of_lt {b : Block α} {i : Nat} (h : i < b.len) (a : α) :
    b.write i a = some { b with cells := Function.update b.cells i a } := if_pos h

theorem eq_of_write {b b' : Block α} {i : Nat} {a : α} (h : b.write i a = some b') :
    i < b.len ∧ { b with cells := Function.update b.cells i a } = b' := by
  by_cases hlt : i < b.len
  · rw [write_of_lt hlt] at h
    exact ⟨hlt, Option.some.inj h⟩
  · rw [write, if_neg hlt] at h
    cases h

theorem write_spec {b : Block α} {i : Nat} (h : i < b.len) (a : α) :
    ∃ b', b.write i a = some b' ∧ b'.len = b.len ∧ b'.cells i = a ∧
      ∀ j, j ≠ i → b'.cells j = b.cells j :=
  ⟨_, write_of_lt h a, rfl, Function.update_self i a b.cells,
    fun _ hj => Function.update_of_ne hj a b.cells⟩

theorem fill_of_le {b : Block α} {lo cnt : Nat} (h : lo + cnt ≤ b.len) (a : α) :
    b.fill lo cnt a =
      some { b with cells := fun i => if lo ≤ i ∧ i < lo + cnt then a else b.cells i } := if_pos h

theorem copy_of_le {b src : Block α} {lo cnt : Nat} (h : lo + cnt ≤ b.len) (hs : cnt ≤ src.len) :
    b.copy lo src cnt = some { b with
      cells := fun i => if lo ≤ i ∧ i < lo + cnt then src.cells (i - lo) else b.cells i } :=
  if_pos ⟨h, hs⟩

theorem copy_spec {b src : Block α} {lo cnt : Nat} (h : lo + cnt ≤ b.len) (hs : cnt ≤ src.len) :
    ∃ b', b.copy lo src cnt = some b' ∧ b'.len = b.len ∧
      (∀ i < lo, b'.cells i = b.cells i) ∧ ∀ i < cnt, b'.cells (lo + i) = src.cells i := by
  refine ⟨_, copy_of_le h hs, rfl, fun i hi => ?_, fun i hi => ?_⟩
  · exact if_neg fun hc => absurd hc.1 (Nat.not_le.mpr hi)
  · dsimp only
    rw [if_pos ⟨Nat.le_add_right _ _, Nat.add_lt_add_left hi _⟩, Nat.add_sub_cancel_left]

theorem copy_congr {src src' : Block α} {cnt : Nat} (hs : cnt ≤ src.len) (hs' : cnt ≤ src'.len)
    (hcells : ∀ i < cnt, src.cells i = src'.cells i) (b : Block α) (lo : Nat) :
    b.copy lo src cnt = b.copy lo src' cnt := by
  by_cases h : lo + cnt ≤ b.len
  · rw [copy_of_le h hs, copy_of_le h hs']
    congr 2
    funext i
    by_cases hi : lo ≤ i ∧ i < lo + cnt
    · rw [if_pos hi, if_pos hi, hcells _ (by omega)]
    · rw [if_neg hi, if_neg hi]
  · rw [copy, copy, if_neg fun hc => h hc.1, if_neg fun hc => h hc.1]

theorem swap_of_lt {b : Block α} {i j : Nat} (hi : i < b.len) (hj : j < b.len) :
    b.swap i j = some { b with cells := b.cells ∘ Equiv.swap i j } := by
  have hcells : Function.update (Function.update b.cells i (b.cells j)) j (b.cells i) =
      b.cells ∘ Equiv.swap i j := by
    funext k
    rw [Function.comp_apply, Equiv.swap_apply_def]
    by_cases hkj : k = j
    · subst hkj
      rw [Function.update_self]
      by_cases hki : k = i
      · rw [if_pos hki, hki]
      · rw [if_neg hki, if_pos rfl]
    · rw [Function.update_of_ne hkj, if_neg hkj]
      by_cases hki : k = i
      · subst hki
        rw [Function.update_self, if_pos rfl]
      · rw [Function.update_of_ne hki, if_neg hki]
  simp only [swap, read_of_lt hi, read_of_lt hj, write_of_lt hi, Option.bind_eq_bind,
    Option.bind_some]
  rw [write, if_pos hj, hcells]

end Block

def elems {α : Type*} (h : Nat → α) (n : Nat) : Multiset α := (Multiset.range n).map h

section elems
variable {α : Type*} {h : Nat → α} {n : Nat}

theorem elems_succ : elems h (n + 1) = h n ::ₘ elems h n := by
  rw [elems, Multiset.range_succ, Multiset.map_cons, elems]

theorem elems_congr {h' : Nat → α} (heq : ∀ i < n, h i = h' i) : elems h n = elems h' n :=
  Multiset.map_congr rfl fun i hi => heq i (Multiset.mem_range.mp hi)

theorem mem_elems {a : α} : a ∈ elems h n ↔ ∃ i < n, h i = a := by
  simp only [elems, Multiset.mem_map, Multiset.mem_range]

theorem elems_swap {i j : Nat} (hi : i < n) (hj : j < n) :
    elems (h ∘ Equiv.swap i j) n = elems h n := by
  have hlt : ∀ k, k < n → Equiv.swap i j k < n := by
    intro k hk
    rw [Equiv.swap_apply_def]
    split_ifs <;> assumption
  have hrange : (Multiset.range n).map (Equiv.swap i j) = Multiset.range n := by
    apply (Multiset.Nodup.ext (Multiset.Nodup.map (Equiv.injective _) (Multiset.nodup_range n))
      (Multiset.nodup_range n)).mpr
    intro k
    rw [Multiset.mem_map, Multiset.mem_range]
    constructor
    · rintro ⟨l, hl, rfl⟩
      exact hlt l (Multiset.mem_range.mp hl)
    · intro hk
      exact ⟨Equiv.swap i j k, Multiset.mem_range.mpr (hlt k hk), Equiv.swap_apply_self i j k⟩
  rw [elems, ← Multiset.map_map, hrange, elems]

theorem cons_elems_swap {i : Nat} (hi : i ≤ n) :
    h i ::ₘ elems (h ∘ Equiv.swap i n) n = elems h (n + 1) := by
  rw [← elems_swap (Nat.lt_succ_of_le hi) (Nat.lt_succ_self n), elems_succ, Function.comp_apply,
    Equiv.swap_apply_right]

end elems

section firsts
variable {α : Type*} {n m : Nat} {f g k : Nat → α}

theorem map_range_congr (h : ∀ i < n, f i = g i) : (List.range n).map f = (List.range n).map g :=
  List.map_congr_left fun i hi => h i (List.mem_range.mp hi)

theorem map_range_add (hg : ∀ i < n, f i = g i) (hk : ∀ i < m, f (n + i) = k i) :
    (List.range (n + m)).map f = (List.range n).map g ++ (List.range m).map k := by
  rw [List.range_add, List.map_append, List.map_map, map_range_congr hg]
  exact congrArg _ (map_range_congr hk)

theorem map_range_update {i : Nat} (a : α) :
    (List.range n).map (Function.update f i a) = ((List.range n).map f).set i a := by
  apply List.ext_getElem
  · rw [List.length_set, List.length_map, List.length_map]
  · intro j hj _
    rw [List.getElem_map, List.getElem_range, List.getElem_set, List.getElem_map,
      List.getElem_range]
    by_cases hij : i = j
    · rw [if_pos hij, hij, Function.update_self]
    · rw [if_neg hij, Function.update_of_ne (Ne.symm hij)]

end firsts
end PortableLib
