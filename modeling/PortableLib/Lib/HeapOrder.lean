import Mathlib.Logic.Equiv.Basic
import Mathlib.Order.Basic
import Mathlib.Order.Nat

/-! Binary heaps in an array: cell `i` has its children in cells `2 * i + 1` and `2 * i + 2`. Only
parents from `lo` on are looked at, so that a heap can be built from its end. -/

namespace PortableLib.HeapOrder
variable {α : Type*} {le : α → α → Prop} {h : Nat → α} {n lo : Nat}

def parent (i : Nat) : Nat := (i - 1) / 2

theorem parent_lt {i : Nat} (hi : 0 < i) : parent i < i := by
  unfold parent
  omega

theorem parent_eq_iff {i p : Nat} (hi : 0 < i) : parent i = p ↔ i = 2 * p + 1 ∨ i = 2 * p + 2 := by
  unfold parent
  omega

def Ordered (le : α → α → Prop) (h : Nat → α) (n lo : Nat) : Prop :=
  ∀ i, 0 < i → i < n → lo ≤ parent i → le (h (parent i)) (h i)

structure DownOrder (le : α → α → Prop) (h : Nat → α) (n lo pos : Nat) : Prop where
  apart : ∀ i, 0 < i → i < n → lo ≤ parent i → parent i ≠ pos → le (h (parent i)) (h i)
  grand : 0 < pos → lo ≤ parent pos → ∀ i, 0 < i → i < n → parent i = pos →
    le (h (parent pos)) (h i)

structure UpOrder (le : α → α → Prop) (h : Nat → α) (n pos : Nat) : Prop where
  apart : ∀ i, 0 < i → i < n → i ≠ pos → le (h (parent i)) (h i)
  grand : 0 < pos → ∀ i, 0 < i → i < n → parent i = pos → le (h (parent pos)) (h i)

theorem Ordered.downOrder (ho : Ordered le h n (lo + 1)) : DownOrder le h n lo lo where
  apart i hi hin hp hne := ho i hi hin (Nat.lt_of_le_of_ne hp (Ne.symm hne))
  grand hpos hp := absurd (parent_lt hpos) (Nat.not_lt.mpr hp)

theorem DownOrder.finish {pos : Nat} (ho : DownOrder le h n lo pos)
    (hch : ∀ i, 0 < i → i < n → parent i = pos → le (h pos) (h i)) : Ordered le h n lo := by
  intro i hi hin hp
  by_cases hpos : parent i = pos
  · rw [hpos]
    exact hch i hi hin hpos
  · exact ho.apart i hi hin hp hpos

theorem swap_apply_pos (i j : Nat) : (h ∘ Equiv.swap i j) i = h j := by
  rw [Function.comp_apply, Equiv.swap_apply_left]

theorem swap_apply_child (i j : Nat) : (h ∘ Equiv.swap i j) j = h i := by
  rw [Function.comp_apply, Equiv.swap_apply_right]

theorem swap_apply_other {i j k : Nat} (hi : k ≠ i) (hj : k ≠ j) :
    (h ∘ Equiv.swap i j) k = h k := by
  rw [Function.comp_apply, Equiv.swap_apply_of_ne_of_ne hi hj]

theorem DownOrder.step {pos j : Nat} (ho : DownOrder le h n lo pos) (hlo : lo ≤ pos) (hj : 0 < j)
    (hjn : j < n) (hpj : parent j = pos) (hle : le (h j) (h pos))
    (hmin : ∀ i, 0 < i → i < n → parent i = pos → le (h j) (h i)) :
    DownOrder le (h ∘ Equiv.swap pos j) n lo j := by
  have hlt : pos < j := hpj ▸ parent_lt hj
  constructor
  · intro i hi hin hp hne
    have hpi := parent_lt hi
    by_cases hip : parent i = pos
    · rw [hip, swap_apply_pos]
      by_cases hij : i = j
      · rw [hij, swap_apply_child]
        exact hle
      · rw [swap_apply_other (by omega) hij]
        exact hmin i hi hin hip
    · rw [swap_apply_other hip hne]
      by_cases hipos : i = pos
      · -- the cell at `pos` is now the old child: here the grandparent clause is needed
        subst hipos
        rw [swap_apply_pos]
        exact ho.grand hi hp j hj hjn hpj
      · have hij : i ≠ j := fun hij => hip (hij ▸ hpj)
        rw [swap_apply_other hipos hij]
        exact ho.apart i hi hin hp hip
  · intro _ hp i hi hin hpi
    have hji : j < i := hpi ▸ parent_lt hi
    rw [hpj, swap_apply_pos, swap_apply_other (by omega) (by omega), ← hpi]
    exact ho.apart i hi hin (by omega) (by omega)

theorem UpOrder.finish {pos : Nat} (ho : UpOrder le h n pos)
    (hpos : 0 < pos → le (h (parent pos)) (h pos)) : Ordered le h n 0 := by
  intro i hi hin _
  by_cases hip : i = pos
  · rw [hip]
    exact hpos (hip ▸ hi)
  · exact ho.apart i hi hin hip

theorem Ordered.snoc (ho : Ordered le h n 0) (a : α) :
    UpOrder le (Function.update h n a) (n + 1) n where
  apart i hi hin hne := by
    have hpi := parent_lt hi
    rw [Function.update_of_ne hne, Function.update_of_ne (by omega)]
    exact ho i hi (by omega) (Nat.zero_le _)
  grand _ i hi hin hpi := absurd (parent_lt hi) (by omega)

theorem UpOrder.step [IsTrans α le] {pos : Nat} (ho : UpOrder le h n pos) (hpos : 0 < pos)
    (hn : pos < n) (hle : le (h pos) (h (parent pos))) :
    UpOrder le (h ∘ Equiv.swap pos (parent pos)) n (parent pos) := by
  have hlt := parent_lt hpos
  constructor
  · intro i hi hin hne
    have hpi := parent_lt hi
    by_cases hip : i = pos
    · subst hip
      rw [swap_apply_pos, swap_apply_child]
      exact hle
    · rw [swap_apply_other hip hne]
      by_cases hpp : parent i = pos
      · rw [hpp, swap_apply_pos]
        exact ho.grand hpos i hi hin hpp
      · by_cases hsib : parent i = parent pos
        · rw [hsib, swap_apply_child]
          exact IsTrans.trans _ _ _ hle (hsib ▸ ho.apart i hi hin hip)
        · rw [swap_apply_other hpp hsib]
          exact ho.apart i hi hin hip
  · intro hp0 i hi hin hpi
    have hpp := parent_lt hp0
    have hup := ho.apart (parent pos) hp0 (hlt.trans hn) hlt.ne
    rw [swap_apply_other (k := parent (parent pos)) (by omega) hpp.ne]
    by_cases hip : i = pos
    · subst hip
      rw [swap_apply_pos]
      exact hup
    · have hlti : parent pos < i := hpi ▸ parent_lt hi
      rw [swap_apply_other hip hlti.ne']
      exact IsTrans.trans _ _ _ hup (hpi ▸ ho.apart i hi hin hip)

theorem Ordered.replace [IsTrans α le] {k pos : Nat} (ho : Ordered le h (k + 1) 0) (hk : pos < k)
    (hpar : 0 < pos → le (h (parent pos)) (h k)) :
    DownOrder le (h ∘ Equiv.swap pos k) k 0 pos := by
  constructor
  · intro i hi hik _ hne
    have hp := parent_lt hi
    rw [swap_apply_other hne (hp.trans hik).ne]
    by_cases hip : i = pos
    · subst hip
      rw [swap_apply_pos]
      exact hpar hi
    · rw [swap_apply_other hip hik.ne]
      exact ho i hi (Nat.lt_succ_of_lt hik) (Nat.zero_le _)
  · intro hpos _ i hi hik hpi
    have hp := parent_lt hpos
    have hlt : pos < i := hpi ▸ parent_lt hi
    have hle := ho i hi (Nat.lt_succ_of_lt hik) (Nat.zero_le _)
    rw [hpi] at hle
    have hle' := ho pos hpos (Nat.lt_succ_of_lt hk) (Nat.zero_le _)
    rw [swap_apply_other hp.ne (hp.trans hk).ne, swap_apply_other hlt.ne' hik.ne]
    exact IsTrans.trans _ _ _ hle' hle

section replaceParent
variable {k pos : Nat}

theorem replaceParent_up :
    ((h ∘ Equiv.swap pos k) ∘ Equiv.swap pos (parent pos)) (parent pos) = h k := by
  rw [swap_apply_child, swap_apply_pos]

theorem replaceParent_down (hpos : 0 < pos) (hk : pos < k) :
    ((h ∘ Equiv.swap pos k) ∘ Equiv.swap pos (parent pos)) pos = h (parent pos) := by
  have hp := parent_lt hpos
  rw [swap_apply_pos, swap_apply_other hp.ne (hp.trans hk).ne]

theorem replaceParent_other {i : Nat} (hi : i ≠ pos) (hip : i ≠ parent pos) (hik : i < k) :
    ((h ∘ Equiv.swap pos k) ∘ Equiv.swap pos (parent pos)) i = h i := by
  rw [swap_apply_other hi hip, swap_apply_other hi hik.ne]

theorem Ordered.replaceParent_children [IsTrans α le] (ho : Ordered le h (k + 1) 0)
    (hpos : 0 < pos) (hk : pos < k) {i : Nat} (hi : 0 < i) (hik : i < k) (hpi : parent i = pos) :
    le (((h ∘ Equiv.swap pos k) ∘ Equiv.swap pos (parent pos)) pos)
      (((h ∘ Equiv.swap pos k) ∘ Equiv.swap pos (parent pos)) i) := by
  have hlt : pos < i := hpi ▸ parent_lt hi
  have hle := ho i hi (Nat.lt_succ_of_lt hik) (Nat.zero_le _)
  have hle' := ho pos hpos (Nat.lt_succ_of_lt hk) (Nat.zero_le _)
  rw [hpi] at hle
  rw [replaceParent_down hpos hk,
    replaceParent_other hlt.ne' ((parent_lt hpos).trans hlt).ne' hik]
  exact IsTrans.trans _ _ _ hle' hle

theorem Ordered.replaceParent_iff [IsTrans α le] (ho : Ordered le h (k + 1) 0)
    (hpos : 0 < pos) (hk : pos < k) (hpar : le (h k) (h (parent pos))) :
    Ordered le ((h ∘ Equiv.swap pos k) ∘ Equiv.swap pos (parent pos)) k 0 ↔
      (0 < parent pos → le (h (parent (parent pos))) (h k)) := by
  have hp := parent_lt hpos
  have hpk := hp.trans hk
  constructor
  · intro ho' hpp
    have hppp := parent_lt hpp
    have hle := ho' (parent pos) hpp hpk (Nat.zero_le _)
    rwa [replaceParent_up, replaceParent_other (hppp.trans hp).ne hppp.ne
      (hppp.trans hpk)] at hle
  · intro hgrand i hi hik _
    have hle := ho i hi (Nat.lt_succ_of_lt hik) (Nat.zero_le _)
    have hpi := parent_lt hi
    by_cases hpipos : parent i = pos
    · rw [hpipos]
      exact ho.replaceParent_children hpos hk hi hik hpipos
    · by_cases hip : i = pos
      · subst hip
        rw [replaceParent_up, replaceParent_down hi hk]
        exact hpar
      · by_cases hipp : i = parent pos
        · subst hipp
          rw [replaceParent_up, replaceParent_other hpipos hpi.ne (hpi.trans hpk)]
          exact hgrand hi
        · rw [replaceParent_other hip hipp hik]
          by_cases hsib : parent i = parent pos
          · rw [hsib] at hle ⊢
            rw [replaceParent_up]
            exact IsTrans.trans _ _ _ hpar hle
          · rw [replaceParent_other hpipos hsib (hpi.trans hik)]
            exact hle

end replaceParent

theorem Ordered.root_le [Std.Refl le] [IsTrans α le] (ho : Ordered le h n 0) {i : Nat}
    (hi : i < n) : le (h 0) (h i) := by
  induction i using Nat.strongRecOn with
  | _ i ih =>
    rcases Nat.eq_zero_or_pos i with rfl | hpos
    · exact refl_of le _
    · have hlt := parent_lt hpos
      exact IsTrans.trans _ _ _ (ih (parent i) hlt (hlt.trans hi)) (ho i hpos hi (Nat.zero_le _))

end PortableLib.HeapOrder
