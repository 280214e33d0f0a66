import Mathlib.Algebra.BigOperators.Ring.Finset
import Mathlib.Data.Finset.Prod
import Mathlib.Data.Int.GCD
import Mathlib.Data.List.GetD
import Mathlib.Data.Nat.ModEq
import Mathlib.Logic.Function.Iterate
import Mathlib.Order.Interval.Finset.Nat

/-! Two neighbouring blocks of an array change places in situ. The new place of an item is a
function of the old one, and the items move along the cycles of this function: a cycle is followed
by exchanging each of its places in turn with the one that it began at. -/

namespace PortableLib.Juggling
open List

variable {α : Type*} {f : Nat → Nat} {a : Nat → α} {c n p q : Nat}

def exchange (a : Nat → α) (p c : Nat) : Nat → α :=
  Function.update (Function.update a p (a c)) c (a p)

theorem exchange_self (a : Nat → α) (c : Nat) : exchange a c c = a := by
  rw [exchange, Function.update_idem, Function.update_eq_self]

theorem exchange_left (a : Nat → α) (h : p ≠ c) : exchange a p c p = a c := by
  rw [exchange, Function.update_of_ne h, Function.update_self]

theorem exchange_right (a : Nat → α) (p c : Nat) : exchange a p c c = a p := by
  rw [exchange, Function.update_self]

theorem exchange_of_ne (a : Nat → α) (hp : q ≠ p) (hc : q ≠ c) : exchange a p c q = a q := by
  rw [exchange, Function.update_of_ne hc, Function.update_of_ne hp]

def follow (f : Nat → Nat) (c : Nat) : Nat → Nat → (Nat → α) → (Nat → α)
  | 0, _, a => a
  | n + 1, p, a => follow f c n (f p) (exchange a (f p) c)

theorem follow_succ (f : Nat → Nat) (c n p : Nat) (a : Nat → α) :
    follow f c (n + 1) p a = exchange (follow f c n p a) (f^[n + 1] p) c := by
  induction n generalizing p a with
  | zero => rfl
  | succ n ih =>
    change follow f c (n + 1) (f p) (exchange a (f p) c) = _
    rw [ih]
    rfl

/-- The first places of a cycle are pairwise different. -/
def Distinct (f : Nat → Nat) (c n : Nat) : Prop :=
  ∀ i < n, ∀ j < n, f^[i] c = f^[j] c → i = j

theorem follow_open (h : Distinct f c n) (k : Nat) (hk : k < n) :
    (∀ i < k, follow f c k c a (f^[i + 1] c) = a (f^[i] c)) ∧
      follow f c k c a c = a (f^[k] c) ∧
      ∀ q, (∀ i ≤ k, q ≠ f^[i] c) → follow f c k c a q = a q := by
  induction k with
  | zero => exact ⟨fun i hi => absurd hi (Nat.not_lt_zero i), rfl, fun _ _ => rfl⟩
  | succ k ih =>
    obtain ⟨hmoved, hfirst, hothers⟩ := ih (Nat.lt_of_succ_lt hk)
    have hne : ∀ i j, i < n → j < n → i ≠ j → f^[i] c ≠ f^[j] c :=
      fun i j hi hj hij heq => hij (h i hi j hj heq)
    have hc : ∀ i, 0 < i → i < n → f^[i] c ≠ c :=
      fun i hi hin => hne i 0 hin (Nat.zero_lt_of_lt hin) (Nat.ne_of_gt hi)
    rw [follow_succ]
    refine ⟨fun i hi => ?_, ?_, fun q hq => ?_⟩
    · rcases Nat.lt_succ_iff_lt_or_eq.mp hi with hi | rfl
      · rw [exchange_of_ne _ (hne _ _ (by omega) hk (by omega)) (hc _ (Nat.succ_pos i) (by omega))]
        exact hmoved i hi
      · rw [exchange_left _ (hc _ (Nat.succ_pos i) hk)]
        exact hfirst
    · rw [exchange_right]
      refine hothers _ fun i hi => ?_
      exact hne _ _ hk (by omega) (by omega)
    · have h0 : q ≠ c := hq 0 (Nat.zero_le _)
      rw [exchange_of_ne _ (hq _ le_rfl) h0]
      exact hothers q fun i hi => hq i (Nat.le_succ_of_le hi)

theorem follow_cycle (h : Distinct f c n) (hn : 0 < n) (hclosed : f^[n] c = c) :
    (∀ i < n, follow f c n c a (f^[i + 1] c) = a (f^[i] c)) ∧
      ∀ q, (∀ i < n, q ≠ f^[i] c) → follow f c n c a q = a q := by
  obtain ⟨k, rfl⟩ := Nat.exists_eq_succ_of_ne_zero (Nat.ne_of_gt hn)
  obtain ⟨hmoved, hfirst, hothers⟩ := follow_open (a := a) h k (Nat.lt_succ_self k)
  rw [follow_succ, hclosed, exchange_self]
  refine ⟨fun i hi => ?_, fun q hq => hothers q fun i hi => hq i (Nat.lt_succ_of_le hi)⟩
  rcases Nat.lt_succ_iff_lt_or_eq.mp hi with hi | rfl
  · exact hmoved i hi
  · rw [hclosed]
    exact hfirst

/-- The cycles that begin at `c`, `c + 1`, … , of which there are `g`. -/
def followAll (f : Nat → Nat) (c n g : Nat) (a : Nat → α) : Nat → α :=
  (range g).foldl (fun a i => follow f (c + i) n (c + i) a) a

theorem followAll_succ (f : Nat → Nat) (c n g : Nat) (a : Nat → α) :
    followAll f c n (g + 1) a = follow f (c + g) n (c + g) (followAll f c n g a) := by
  rw [followAll, range_succ, foldl_append]
  rfl

theorem followAll_cycles {g : Nat} (hn : 0 < n)
    (h : ∀ i < g, ∀ j < n, ∀ i' < g, ∀ j' < n, f^[j] (c + i) = f^[j'] (c + i') →
      i = i' ∧ j = j')
    (hclosed : ∀ i < g, f^[n] (c + i) = c + i) :
    (∀ i < g, ∀ j < n, followAll f c n g a (f^[j + 1] (c + i)) = a (f^[j] (c + i))) ∧
      ∀ q, (∀ i < g, ∀ j < n, q ≠ f^[j] (c + i)) → followAll f c n g a q = a q := by
  induction g with
  | zero => exact ⟨fun i hi => absurd hi (Nat.not_lt_zero i), fun _ _ => rfl⟩
  | succ g ih =>
    obtain ⟨hmoved, hothers⟩ := ih
      (fun i hi j hj i' hi' j' hj' => h i (by omega) j hj i' (by omega) j' hj')
      fun i hi => hclosed i (by omega)
    have hdistinct : Distinct f (c + g) n :=
      fun i hi j hj heq => (h g (by omega) i hi g (by omega) j hj heq).2
    obtain ⟨hmoved', hothers'⟩ := follow_cycle (a := followAll f c n g a) hdistinct hn
      (hclosed g (by omega))
    -- a place of an earlier cycle is no place of this one
    have hapart : ∀ i < g, ∀ j < n, ∀ j' < n, f^[j] (c + i) ≠ f^[j'] (c + g) := by
      intro i hi j hj j' hj' heq
      have hig := (h i (by omega) j hj g (by omega) j' hj' heq).1
      omega
    have hback : ∀ i < g, ∀ j < n, ∀ j' < n, f^[j + 1] (c + i) ≠ f^[j'] (c + g) := by
      intro i hi j hj
      rcases Nat.lt_or_ge (j + 1) n with hj1 | hj1
      · exact hapart i hi (j + 1) hj1
      · have hlast : j + 1 = n := by omega
        rw [hlast, hclosed i (by omega)]
        exact hapart i hi 0 hn
    rw [followAll_succ]
    refine ⟨fun i hi j hj => ?_, fun q hq => ?_⟩
    · rcases Nat.lt_succ_iff_lt_or_eq.mp hi with hi | rfl
      · rw [hothers' _ fun j' hj' => hback i hi j hj j' hj']
        exact hmoved i hi j hj
      · rw [hmoved' j hj]
        refine hothers _ fun i' hi' j' hj' => ?_
        exact (hapart i' hi' j' hj' j hj).symm
    · rw [hothers' q fun j hj => hq g (by omega) j hj]
      exact hothers q fun i hi j hj => hq i (by omega) j hj

def shift (s k l p : Nat) : Nat := if s + k ≤ p then p - k else p + l

section Blocks

variable {s k l : Nat}

theorem shift_eq (hp : p < k + l) : shift s k l (s + p) = s + (p + l) % (k + l) := by
  rw [shift]
  split
  · rw [Nat.mod_eq_sub_mod (by omega), Nat.mod_eq_of_lt (by omega)]
    omega
  · rw [Nat.mod_eq_of_lt (by omega), Nat.add_assoc]

theorem shift_iterate (hp : p < k + l) (j : Nat) :
    (shift s k l)^[j] (s + p) = s + (p + j * l) % (k + l) := by
  induction j with
  | zero =>
    rw [Nat.zero_mul, Nat.add_zero, Nat.mod_eq_of_lt hp]
    rfl
  | succ j ih =>
    rw [Function.iterate_succ_apply', ih, shift_eq (Nat.mod_lt _ (by omega)), Nat.mod_add_mod,
      Nat.succ_mul, Nat.add_assoc]

theorem shift_closed (hp : p < k + l) :
    (shift s k l)^[(k + l) / k.gcd l] (s + p) = s + p := by
  have hg : k.gcd l ∣ k + l := Nat.dvd_add (Nat.gcd_dvd_left k l) (Nat.gcd_dvd_right k l)
  have hsteps : (k + l) / k.gcd l * l = (k + l) * (l / k.gcd l) := by
    rw [Nat.div_mul_right_comm hg, Nat.mul_div_assoc _ (Nat.gcd_dvd_right k l)]
  rw [shift_iterate hp, hsteps, Nat.add_mul_mod_self_left, Nat.mod_eq_of_lt hp]

theorem shift_distinct (hl : 0 < l) {i j i' j' : Nat} (hi : i < k.gcd l) (hi' : i' < k.gcd l)
    (hj : j < (k + l) / k.gcd l) (hj' : j' < (k + l) / k.gcd l)
    (heq : (shift s k l)^[j] (s + k + i) = (shift s k l)^[j'] (s + k + i')) : i = i' ∧ j = j' := by
  have hgl : k.gcd l ≤ l := Nat.le_of_dvd hl (Nat.gcd_dvd_right k l)
  rw [Nat.add_assoc, Nat.add_assoc, shift_iterate (by omega), shift_iterate (by omega)] at heq
  have hmod : k + i + j * l ≡ k + i' + j' * l [MOD k + l] := Nat.add_left_cancel heq
  have hk : k ≡ 0 [MOD k.gcd l] := (Nat.modEq_zero_iff_dvd).mpr (Nat.gcd_dvd_left k l)
  have hmul : ∀ j, j * l ≡ 0 [MOD k.gcd l] := fun j =>
    (Nat.modEq_zero_iff_dvd).mpr (Dvd.dvd.mul_left (Nat.gcd_dvd_right k l) j)
  have hrest : ∀ i j, k + i + j * l ≡ i [MOD k.gcd l] := by
    intro i j
    have h := (hk.add_right i).add (hmul j)
    rwa [Nat.zero_add, Nat.add_zero] at h
  have hg : k.gcd l ∣ k + l := Nat.dvd_add (Nat.gcd_dvd_left k l) (Nat.gcd_dvd_right k l)
  have hii : i = i' := by
    have h := ((hrest i j).symm.trans (hmod.of_dvd hg)).trans (hrest i' j')
    exact h.eq_of_lt_of_lt hi hi'
  subst hii
  refine ⟨rfl, ?_⟩
  have hjl : j * l ≡ j' * l [MOD k + l] := Nat.ModEq.add_left_cancel' (k + i) hmod
  have hcancel := Nat.ModEq.cancel_right_div_gcd (by omega) hjl
  rw [Nat.gcd_add_self_left] at hcancel
  exact hcancel.eq_of_lt_of_lt hj hj'

theorem shift_covers (hl : 0 < l) (hq : q < k + l) :
    ∃ i < k.gcd l, ∃ j < (k + l) / k.gcd l, (shift s k l)^[j] (s + k + i) = s + q := by
  have hg : k.gcd l ∣ k + l := Nat.dvd_add (Nat.gcd_dvd_left k l) (Nat.gcd_dvd_right k l)
  have hgl : k.gcd l ≤ l := Nat.le_of_dvd hl (Nat.gcd_dvd_right k l)
  let starts := Finset.range (k.gcd l) ×ˢ Finset.range ((k + l) / k.gcd l)
  let place := fun i : Nat × Nat => (shift s k l)^[i.2] (s + k + i.1)
  have hinj : Set.InjOn place starts := by
    rintro ⟨i, j⟩ hi ⟨i', j'⟩ hi' heq
    obtain ⟨hi, hj⟩ := Finset.mem_product.mp hi
    obtain ⟨hi', hj'⟩ := Finset.mem_product.mp hi'
    rw [Finset.mem_range] at hi hj hi' hj'
    obtain ⟨rfl, rfl⟩ := shift_distinct hl hi hi' hj hj' heq
    rfl
  have hsub : starts.image place ⊆ Finset.Ico s (s + (k + l)) := by
    intro p hp
    obtain ⟨⟨i, j⟩, hi, rfl⟩ := Finset.mem_image.mp hp
    have hi' := Finset.mem_range.mp (Finset.mem_product.mp hi).1
    change (shift s k l)^[j] (s + k + i) ∈ Finset.Ico s (s + (k + l))
    rw [Nat.add_assoc, shift_iterate (by omega), Finset.mem_Ico]
    have hlt := Nat.mod_lt (k + i + j * l) (show 0 < k + l by omega)
    omega
  have hcard : (Finset.Ico s (s + (k + l))).card ≤ (starts.image place).card := by
    rw [Finset.card_image_of_injOn hinj, Finset.card_product, Finset.card_range,
      Finset.card_range, Nat.card_Ico, Nat.mul_div_cancel' hg, Nat.add_sub_cancel_left]
  have hmem : s + q ∈ starts.image place := by
    rw [Finset.eq_of_subset_of_card_le hsub hcard, Finset.mem_Ico]
    omega
  obtain ⟨⟨i, j⟩, hi, heq⟩ := Finset.mem_image.mp hmem
  obtain ⟨hi, hj⟩ := Finset.mem_product.mp hi
  exact ⟨i, Finset.mem_range.mp hi, j, Finset.mem_range.mp hj, heq⟩

/-- Following all cycles takes every item of the two blocks to its place. -/
theorem followAll_shift (hl : 0 < l) (a : Nat → α) :
    (∀ q < k + l, followAll (shift s k l) (s + k) ((k + l) / k.gcd l) (k.gcd l) a
        (shift s k l (s + q)) = a (s + q)) ∧
      ∀ q, q < s ∨ s + (k + l) ≤ q →
        followAll (shift s k l) (s + k) ((k + l) / k.gcd l) (k.gcd l) a q = a q := by
  have hg : k.gcd l ∣ k + l := Nat.dvd_add (Nat.gcd_dvd_left k l) (Nat.gcd_dvd_right k l)
  have hgl : k.gcd l ≤ l := Nat.le_of_dvd hl (Nat.gcd_dvd_right k l)
  have hpos : 0 < (k + l) / k.gcd l :=
    Nat.div_pos (by omega) (Nat.gcd_pos_of_pos_right k hl)
  obtain ⟨hmoved, hothers⟩ := followAll_cycles (f := shift s k l) (c := s + k) (a := a) hpos
    (fun i hi j hj i' hi' j' hj' heq => shift_distinct hl hi hi' hj hj' heq)
    fun i hi => by
      rw [Nat.add_assoc]
      exact shift_closed (by omega)
  refine ⟨fun q hq => ?_, fun q hq => hothers q fun i hi j _ heq => ?_⟩
  · obtain ⟨i, hi, j, hj, heq⟩ := shift_covers (s := s) hl hq
    have h := hmoved i hi j hj
    rwa [Function.iterate_succ_apply', heq] at h
  · rw [Nat.add_assoc, shift_iterate (by omega)] at heq
    have hlt := Nat.mod_lt (k + i + j * l) (show 0 < k + l by omega)
    omega

end Blocks

section Lists

variable {A B N O R : List α}

theorem getElem?_add (A B : List α) (i : Nat) : (A ++ B)[A.length + i]? = B[i]? := by
  rw [getElem?_append_right (Nat.le_add_right _ _), Nat.add_sub_cancel_left]

theorem followAll_blocks (hO : O ≠ []) :
    followAll (shift A.length N.length O.length) (A.length + N.length)
        ((N.length + O.length) / N.length.gcd O.length) (N.length.gcd O.length)
        (fun i => (A ++ (N ++ (O ++ R)))[i]?) = fun i => (A ++ (O ++ (N ++ R)))[i]? := by
  obtain ⟨hmoved, hothers⟩ := followAll_shift (s := A.length) (k := N.length)
    (length_pos_iff.mpr hO) fun i => (A ++ (N ++ (O ++ R)))[i]?
  funext q
  rcases Nat.lt_or_ge q A.length with hA | hA
  · rw [hothers q (.inl hA), getElem?_append_left hA, getElem?_append_left hA]
  obtain ⟨q, rfl⟩ := Nat.exists_eq_add_of_le hA
  rw [getElem?_add]
  rcases Nat.lt_or_ge q O.length with hqO | hqO
  · have hq := hmoved (N.length + q) (by omega)
    rw [shift, if_pos (by omega), show A.length + (N.length + q) - N.length = A.length + q by omega,
      getElem?_add, getElem?_add, getElem?_append_left hqO] at hq
    rw [hq, getElem?_append_left hqO]
  obtain ⟨q, rfl⟩ := Nat.exists_eq_add_of_le hqO
  rw [getElem?_add]
  rcases Nat.lt_or_ge q N.length with hqN | hqN
  · have hq := hmoved q (by omega)
    rw [shift, if_neg (by omega), show A.length + q + O.length = A.length + (O.length + q) by omega,
      getElem?_add, getElem?_append_left hqN] at hq
    rw [hq, getElem?_append_left hqN]
  · obtain ⟨q, rfl⟩ := Nat.exists_eq_add_of_le hqN
    rw [hothers _ (.inr (by omega)), getElem?_add, getElem?_add,
      show O.length + (N.length + q) = N.length + (O.length + q) by omega, getElem?_add,
      getElem?_add]

end Lists

end PortableLib.Juggling
