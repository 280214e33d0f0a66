import Mathlib.Logic.Function.Basic

/-! Tickets that a counter gives out one by one. Each ticket is in the hands of one thread until it
is done. -/

namespace PortableLib.Tickets

variable {Tid : Type}

structure Issued (no : Nat) (holds : Tid → Option Nat) (done : Nat → Prop) : Prop where
  taken : ∀ k < no, (∃ t, holds t = some k) ∨ done k
  held : ∀ t k, holds t = some k → k < no ∧ ¬ done k
  done : ∀ k, done k → k < no
  once : ∀ t u k, holds t = some k → holds u = some k → t = u

inductive Move (no no' : Nat) (has has' : Option Nat) (done done' : Nat → Prop) :
    Option Nat → Prop
  | keep (hno : no' = no) (hhas : has' = has) (hdone : ∀ k, done' k ↔ done k) :
      Move no no' has has' done done' none
  | take (hno : no' = no + 1) (hnone : has = none) (hhas : has' = some no)
      (hdone : ∀ k, done' k ↔ done k) : Move no no' has has' done done' none
  | finish (k : Nat) (hno : no' = no) (hsome : has = some k) (hhas : has' = none)
      (hdone : ∀ i, done' i ↔ done i ∨ i = k) : Move no no' has has' done done' (some k)

variable {no no' : Nat} {has has' fin : Option Nat} {holds : Tid → Option Nat}
  {done done' : Nat → Prop} {t : Tid} {k : Nat}

theorem Move.le (hm : Move no no' has has' done done' fin) : no ≤ no' := by
  cases hm with
  | keep hno => exact Nat.le_of_eq hno.symm
  | take hno => omega
  | finish k hno => exact Nat.le_of_eq hno.symm

theorem Move.mono (hm : Move no no' has has' done done' fin) (hk : done k) : done' k := by
  cases hm with
  | keep _ _ hdone => exact (hdone k).mpr hk
  | take _ _ _ hdone => exact (hdone k).mpr hk
  | finish i _ _ _ hdone => exact (hdone k).mpr (.inl hk)

theorem Move.finished (hm : Move no no' has has' done done' (some k)) : done' k := by
  cases hm with
  | finish _ _ _ _ hdone => exact (hdone k).mpr (.inr rfl)

theorem issued_none : Issued 0 (fun _ : Tid => none) fun _ => False where
  taken := nofun
  held := nofun
  done := nofun
  once := nofun

theorem Issued.done_iff (h : Issued no holds done) (hnone : ∀ t, holds t ≠ some k) :
    done k ↔ k < no := by
  refine ⟨h.done k, fun hk => ?_⟩
  rcases h.taken k hk with ⟨t, ht⟩ | hdone
  · exact absurd ht (hnone t)
  · exact hdone

variable [DecidableEq Tid]

theorem Issued.take (h : Issued no holds done) (hnone : holds t = none) :
    Issued (no + 1) (Function.update holds t (some no)) done where
  taken k hk := by
    by_cases hlast : k = no
    · exact .inl ⟨t, by rw [Function.update_self, hlast]⟩
    · rcases h.taken k (by omega) with ⟨u, hu⟩ | hdone
      · refine .inl ⟨u, ?_⟩
        rw [Function.update_of_ne, hu]
        rintro rfl
        rw [hnone] at hu
        cases hu
      · exact .inr hdone
  held u k hu := by
    by_cases hut : u = t
    · rw [hut, Function.update_self] at hu
      obtain rfl := Option.some.inj hu
      exact ⟨Nat.lt_succ_self _, fun hdone => Nat.lt_irrefl _ (h.done _ hdone)⟩
    · rw [Function.update_of_ne hut] at hu
      obtain ⟨hlt, hdone⟩ := h.held u k hu
      exact ⟨Nat.lt_succ_of_lt hlt, hdone⟩
  done k hk := Nat.lt_succ_of_lt (h.done k hk)
  once u v k hu hv := by
    by_cases hut : u = t
    · by_cases hvt : v = t
      · exact hut.trans hvt.symm
      · rw [hut, Function.update_self] at hu
        rw [Function.update_of_ne hvt] at hv
        obtain rfl := Option.some.inj hu
        exact absurd (h.held v _ hv).1 (Nat.lt_irrefl _)
    · rw [Function.update_of_ne hut] at hu
      by_cases hvt : v = t
      · rw [hvt, Function.update_self] at hv
        obtain rfl := Option.some.inj hv
        exact absurd (h.held u _ hu).1 (Nat.lt_irrefl _)
      · rw [Function.update_of_ne hvt] at hv
        exact h.once u v k hu hv

theorem Issued.finish (h : Issued no holds done) (hk : holds t = some k)
    (hdone : ∀ i, done' i ↔ done i ∨ i = k) :
    Issued no (Function.update holds t none) done' where
  taken i hi := by
    rcases h.taken i hi with ⟨u, hu⟩ | hold
    · by_cases hut : u = t
      · rw [hut, hk] at hu
        exact .inr ((hdone i).mpr (.inr (Option.some.inj hu).symm))
      · exact .inl ⟨u, by rw [Function.update_of_ne hut, hu]⟩
    · exact .inr ((hdone i).mpr (.inl hold))
  held u i hu := by
    have hut : u ≠ t := by
      rintro rfl
      rw [Function.update_self] at hu
      cases hu
    rw [Function.update_of_ne hut] at hu
    obtain ⟨hlt, hnot⟩ := h.held u i hu
    refine ⟨hlt, fun hi => ?_⟩
    rcases (hdone i).mp hi with hold | rfl
    · exact hnot hold
    · exact hut (h.once u t i hu hk)
  done i hi := by
    rcases (hdone i).mp hi with hold | rfl
    · exact h.done i hold
    · exact (h.held t i hk).1
  once u v i hu hv := by
    have hold : ∀ s, Function.update holds t none s = some i → holds s = some i := by
      intro s hs
      by_cases hst : s = t
      · rw [hst, Function.update_self] at hs
        cases hs
      · rwa [Function.update_of_ne hst] at hs
    exact h.once u v i (hold u hu) (hold v hv)

/-- Every step keeps the tickets apart. -/
theorem Issued.move (h : Issued no holds done) (hm : Move no no' (holds t) has' done done' fin) :
    Issued no' (Function.update holds t has') done' := by
  cases hm with
  | keep hno hhas hdone =>
    obtain rfl : done' = done := funext fun k => propext (hdone k)
    rw [hno, hhas, Function.update_eq_self]
    exact h
  | take hno hnone hhas hdone =>
    obtain rfl : done' = done := funext fun k => propext (hdone k)
    rw [hno, hhas]
    exact h.take hnone
  | finish k hno hsome hhas hdone =>
    rw [hno, hhas]
    exact h.finish hsome hdone

end PortableLib.Tickets
