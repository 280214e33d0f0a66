import Mathlib.Data.Nat.Digits.Defs

/-! Numbers read digit by digit, the most significant digit first, and the test for an overflow that
is made before a digit is taken in. -/

namespace PortableLib.Horner
open List
variable {b v d m : Nat} {ds : List Nat}

def horner (b v : Nat) (ds : List Nat) : Nat := ds.foldl (fun v d => v * b + d) v

theorem horner_nil : horner b v [] = v := rfl

theorem horner_cons : horner b v (d :: ds) = horner b (v * b + d) ds := rfl

theorem horner_eq_ofDigits : horner b 0 ds = Nat.ofDigits b ds.reverse := by
  have hfold : ∀ v, horner b v ds = v * b ^ ds.length + Nat.ofDigits b ds.reverse := by
    induction ds with
    | nil => intro v; simp [horner_nil]
    | cons d ds ih =>
      intro v
      rw [horner_cons, ih, reverse_cons, Nat.ofDigits_append, Nat.ofDigits_singleton, length_cons,
        length_reverse]
      ring
  rw [hfold, Nat.zero_mul, Nat.zero_add]

theorem le_horner (hb : 0 < b) : v ≤ horner b v ds := by
  induction ds generalizing v with
  | nil => exact Nat.le_refl v
  | cons d ds ih =>
    calc v ≤ v * b := Nat.le_mul_of_pos_right v hb
      _ ≤ v * b + d := Nat.le_add_right _ _
      _ ≤ horner b v (d :: ds) := ih

theorem cutoff_iff (hd : d < b) : m / b < v ∨ v = m / b ∧ m % b < d ↔ m < v * b + d := by
  have hm := Nat.div_add_mod m b
  have hr : m % b < b := Nat.mod_lt m (Nat.zero_lt_of_lt hd)
  rw [Nat.mul_comm] at hm
  constructor
  · rintro (hlt | ⟨rfl, hlt⟩)
    · have hstep : (m / b + 1) * b ≤ v * b := Nat.mul_le_mul_right b hlt
      rw [Nat.add_mul, Nat.one_mul] at hstep
      omega
    · omega
  · intro hlt
    rcases Nat.lt_trichotomy (m / b) v with hv | hv | hv
    · exact Or.inl hv
    · refine Or.inr ⟨hv.symm, ?_⟩
      rw [hv] at hm
      omega
    · have hstep : (v + 1) * b ≤ m / b * b := Nat.mul_le_mul_right b hv
      rw [Nat.add_mul, Nat.one_mul] at hstep
      omega

def guarded (m b : Nat) : Nat → List Nat → Option Nat
  | v, [] => some v
  | v, d :: ds => if m / b < v ∨ v = m / b ∧ m % b < d then none else guarded m b (v * b + d) ds

/-- The test is made for every digit, and refuses exactly the numbers above `m`. -/
theorem guarded_eq (hds : ∀ d ∈ ds, d < b) (hv : v ≤ m) :
    guarded m b v ds = if horner b v ds ≤ m then some (horner b v ds) else none := by
  induction ds generalizing v with
  | nil => exact (if_pos hv).symm
  | cons d ds ih =>
    obtain ⟨hd, hds⟩ := forall_mem_cons.mp hds
    rw [guarded, horner_cons]
    by_cases hlt : m < v * b + d
    · have hbig : m < horner b (v * b + d) ds := hlt.trans_le (le_horner (Nat.zero_lt_of_lt hd))
      rw [if_pos ((cutoff_iff hd).mpr hlt), if_neg (Nat.not_le.mpr hbig)]
    · rw [if_neg ((cutoff_iff hd).not.mpr hlt)]
      exact ih hds (Nat.le_of_not_lt hlt)

end PortableLib.Horner
