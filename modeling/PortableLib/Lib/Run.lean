import Mathlib.Data.List.Basic

/-! Finite runs of a partial deterministic machine with outputs. A step that cannot be
completed ends the run with `none`. -/

namespace PortableLib.Run
variable {σ τ ι ρ : Type*}

def run (step : σ → ι → Option (σ × ρ)) : σ → List ι → Option (σ × List ρ)
  | s, [] => some (s, [])
  | s, i :: is => (step s i).bind fun p => (run step p.1 is).map fun q => (q.1, p.2 :: q.2)

def runTotal (spec : τ → ι → τ × ρ) : τ → List ι → τ × List ρ
  | t, [] => (t, [])
  | t, i :: is =>
    ((runTotal spec (spec t i).1 is).1, (spec t i).2 :: (runTotal spec (spec t i).1 is).2)

def StepsMeet (step : σ → ι → Option (σ × ρ)) (C : σ → ι → Prop) : σ → List ι → Prop
  | _, [] => True
  | s, i :: is => C s i ∧ ∀ p ∈ step s i, StepsMeet step C p.1 is

instance decidableStepsMeet (step : σ → ι → Option (σ × ρ)) (C : σ → ι → Prop)
    [∀ s i, Decidable (C s i)] : ∀ s is, Decidable (StepsMeet step C s is)
  | _, [] => isTrue trivial
  | s, i :: is =>
    have : DecidablePred fun p : σ × ρ => StepsMeet step C p.1 is :=
      fun p => decidableStepsMeet step C p.1 is
    inferInstanceAs (Decidable (C s i ∧ ∀ p ∈ step s i, StepsMeet step C p.1 is))

theorem StepsMeet.and_forall {step : σ → ι → Option (σ × ρ)} {C : σ → ι → Prop} {P : ι → Prop}
    {s : σ} {is : List ι} (h : StepsMeet step C s is) (hP : ∀ i ∈ is, P i) :
    StepsMeet step (fun s i => C s i ∧ P i) s is := by
  induction is generalizing s with
  | nil => trivial
  | cons i is ih =>
    refine ⟨⟨h.1, hP i List.mem_cons_self⟩, fun p hp => ?_⟩
    exact ih (h.2 p hp) fun j hj => hP j (List.mem_cons_of_mem i hj)

theorem stepsMeet_of_forall {step : σ → ι → Option (σ × ρ)} {C : σ → ι → Prop} {s : σ}
    {is : List ι} (h : ∀ s, ∀ i ∈ is, C s i) : StepsMeet step C s is := by
  induction is generalizing s with
  | nil => trivial
  | cons i is ih =>
    exact ⟨h s i List.mem_cons_self, fun p _ => ih fun s j hj => h s j (List.mem_cons_of_mem i hj)⟩

theorem stepsMeet_and {step : σ → ι → Option (σ × ρ)} {C D : σ → ι → Prop} {s : σ} {is : List ι} :
    StepsMeet step (fun s i => C s i ∧ D s i) s is ↔
      StepsMeet step C s is ∧ StepsMeet step D s is := by
  induction is generalizing s with
  | nil => exact iff_of_true trivial ⟨trivial, trivial⟩
  | cons i is ih =>
    constructor
    · rintro ⟨⟨hC, hD⟩, h⟩
      exact ⟨⟨hC, fun p hp => (ih.mp (h p hp)).1⟩, hD, fun p hp => (ih.mp (h p hp)).2⟩
    · rintro ⟨⟨hC, hCs⟩, hD, hDs⟩
      exact ⟨⟨hC, hD⟩, fun p hp => ih.mpr ⟨hCs p hp, hDs p hp⟩⟩

theorem stepsMeet_congr {step : σ → ι → Option (σ × ρ)} {C D : σ → ι → Prop} {I : σ → Prop}
    (hstep : ∀ s i p, I s → D s i → step s i = some p → I p.1)
    (hiff : ∀ s i, I s → (C s i ↔ D s i)) {s : σ} {is : List ι} (hs : I s) :
    StepsMeet step C s is ↔ StepsMeet step D s is := by
  induction is generalizing s with
  | nil => exact Iff.rfl
  | cons i is ih =>
    constructor
    · intro h
      have hD := (hiff s i hs).mp h.1
      exact ⟨hD, fun p hp => (ih (hstep s i p hs hD hp)).mp (h.2 p hp)⟩
    · intro h
      exact ⟨(hiff s i hs).mpr h.1, fun p hp => (ih (hstep s i p hs h.1 hp)).mpr (h.2 p hp)⟩

theorem StepsMeet.append_right {step : σ → ι → Option (σ × ρ)} {C : σ → ι → Prop} {s : σ}
    {is js : List ι} {q : σ × List ρ} (h : StepsMeet step C s (is ++ js))
    (hrun : run step s is = some q) : StepsMeet step C q.1 js := by
  induction is generalizing s q with
  | nil =>
    obtain rfl := Option.some.inj hrun
    exact h
  | cons i is ih =>
    simp only [run, Option.bind_eq_some_iff, Option.map_eq_some_iff] at hrun
    obtain ⟨p, hp, q', hq', rfl⟩ := hrun
    exact @ih p.1 q' (h.2 p hp) hq'

theorem StepsMeet.append {step : σ → ι → Option (σ × ρ)} {C : σ → ι → Prop} {s : σ}
    {is js : List ι} {q : σ × List ρ} (h : StepsMeet step C s is)
    (hrun : run step s is = some q) (hjs : StepsMeet step C q.1 js) :
    StepsMeet step C s (is ++ js) := by
  induction is generalizing s q with
  | nil =>
    obtain rfl := Option.some.inj hrun
    exact hjs
  | cons i is ih =>
    simp only [run, Option.bind_eq_some_iff, Option.map_eq_some_iff] at hrun
    obtain ⟨p, hp, q', hq', rfl⟩ := hrun
    refine ⟨h.1, fun p' hp' => ?_⟩
    obtain rfl := Option.some.inj (hp.symm.trans hp')
    exact @ih p.1 q' (h.2 p hp) hq' hjs

theorem run_append_eq (step : σ → ι → Option (σ × ρ)) (s : σ) (is js : List ι) :
    run step s (is ++ js) = (run step s is).bind fun q =>
      (run step q.1 js).map fun q' => (q'.1, q.2 ++ q'.2) := by
  induction is generalizing s with
  | nil =>
    change _ = (run step s js).map fun q' => (q'.1, [] ++ q'.2)
    simp only [List.nil_append, Option.map_id_fun', id_eq]
  | cons i is ih =>
    simp only [List.cons_append, run, ih, Option.bind_assoc, Option.map_bind, Option.bind_map,
      Option.map_map, Function.comp_def]

theorem run_append {step : σ → ι → Option (σ × ρ)} {s : σ} {is js : List ι} {q q' : σ × List ρ}
    (hrun : run step s is = some q) (hrun' : run step q.1 js = some q') :
    run step s (is ++ js) = some (q'.1, q.2 ++ q'.2) := by
  rw [run_append_eq, hrun, Option.bind_some, hrun', Option.map_some]

/-- An invariant under which every admissible step completes holds after every admissible
run, and the run completes. -/
theorem run_invariant {step : σ → ι → Option (σ × ρ)} {C : σ → ι → Prop} {I : σ → Prop}
    (hstep : ∀ s i, I s → C s i → ∃ p, step s i = some p ∧ I p.1)
    {s : σ} {is : List ι} (hs : I s) (hC : StepsMeet step C s is) :
    ∃ q, run step s is = some q ∧ I q.1 := by
  induction is generalizing s with
  | nil => exact ⟨(s, []), rfl, hs⟩
  | cons i is ih =>
    obtain ⟨p, hp, hInv⟩ := hstep s i hs hC.1
    obtain ⟨q, hq, hq'⟩ := ih hInv (hC.2 p hp)
    exact ⟨(q.1, p.2 :: q.2), by simp only [run, hp, hq, Option.bind_some, Option.map_some], hq'⟩

theorem run_good {step : σ → ι → Option (σ × ρ)} {C : σ → ι → Prop} {I : σ → Prop} {G : ρ → Prop}
    (hstep : ∀ s i, I s → C s i → ∃ p, step s i = some p ∧ I p.1 ∧ G p.2)
    {s : σ} {is : List ι} (hs : I s) (hC : StepsMeet step C s is) :
    ∃ q, run step s is = some q ∧ I q.1 ∧ ∀ r ∈ q.2, G r := by
  induction is generalizing s with
  | nil => exact ⟨(s, []), rfl, hs, fun r hr => absurd hr List.not_mem_nil⟩
  | cons i is ih =>
    obtain ⟨p, hp, hI, hG⟩ := hstep s i hs hC.1
    obtain ⟨q, hq, hI', hall⟩ := ih hI (hC.2 p hp)
    refine ⟨(q.1, p.2 :: q.2), ?_, hI', List.forall_mem_cons.mpr ⟨hG, hall⟩⟩
    simp only [run, hp, hq, Option.bind_some, Option.map_some]

/-- Where the outputs of a step are good exactly on admissible inputs, a run completes with good
outputs exactly if all its steps are admissible. -/
theorem run_good_iff {step : σ → ι → Option (σ × ρ)} {C : σ → ι → Prop} {I : σ → Prop}
    {G : ρ → Prop}
    (hstep : ∀ s i, I s → C s i → ∃ p, step s i = some p ∧ I p.1 ∧ G p.2)
    (hgood : ∀ s i p, I s → step s i = some p → G p.2 → C s i)
    {s : σ} {is : List ι} (hs : I s) :
    (∃ q, run step s is = some q ∧ ∀ r ∈ q.2, G r) ↔ StepsMeet step C s is := by
  constructor
  · induction is generalizing s with
    | nil => exact fun _ => trivial
    | cons i is ih =>
      rintro ⟨q, hq, hG⟩
      simp only [run, Option.bind_eq_some_iff, Option.map_eq_some_iff] at hq
      obtain ⟨p, hp, q', hq', rfl⟩ := hq
      have hC := hgood s i p hs hp (hG _ List.mem_cons_self)
      obtain ⟨p', hp', hI, -⟩ := hstep s i hs hC
      obtain rfl := Option.some.inj (hp.symm.trans hp')
      have hrest := ih hI ⟨q', hq', fun r hr => hG r (List.mem_cons_of_mem _ hr)⟩
      exact ⟨hC, fun p' hp' => by rwa [Option.some.inj (hp'.symm.trans hp)]⟩
  · intro hC
    obtain ⟨q, hq, -, hall⟩ := run_good hstep hs hC
    exact ⟨q, hq, hall⟩

theorem run_keeps {step : σ → ι → Option (σ × ρ)} {I : σ → Prop}
    (hstep : ∀ s i p, I s → step s i = some p → I p.1) {s : σ} {is : List ι} {q : σ × List ρ}
    (hs : I s) (hrun : run step s is = some q) : I q.1 := by
  induction is generalizing s q with
  | nil => exact Option.some.inj hrun ▸ hs
  | cons i is ih =>
    simp only [run, Option.bind_eq_some_iff, Option.map_eq_some_iff] at hrun
    obtain ⟨p, hp, q', hq', rfl⟩ := hrun
    exact @ih p.1 q' (hstep s i p hs hp) hq'

theorem run_of_steps {step step' : σ → ι → Option (σ × ρ)} {C : σ → ι → Prop} {I : σ → Prop}
    (hstep : ∀ s i p, I s → C s i → step s i = some p → step' s i = some p ∧ I p.1)
    {s : σ} {is : List ι} {q : σ × List ρ} (hs : I s) (hC : StepsMeet step C s is)
    (hrun : run step s is = some q) : run step' s is = some q := by
  induction is generalizing s q with
  | nil => exact hrun
  | cons i is ih =>
    simp only [run, Option.bind_eq_some_iff, Option.map_eq_some_iff] at hrun
    obtain ⟨p, hp, q', hq', rfl⟩ := hrun
    obtain ⟨hp', hI⟩ := hstep s i p hs hC.1 hp
    rw [run, hp', Option.bind_some, ih hI (hC.2 p hp) hq', Option.map_some]

/-- An invariant that a step breaks exactly if it does not meet `C` holds in all states of a run
exactly if all its steps meet `C`. -/
theorem forall_prefix_iff {step : σ → ι → Option (σ × ρ)} {C : σ → ι → Prop} {I : σ → Prop}
    (hkeep : ∀ s i p, I s → C s i → step s i = some p → I p.1)
    (hbreak : ∀ s i, I s → ¬ C s i → ∃ p, step s i = some p ∧ ¬ I p.1)
    {s : σ} {is : List ι} (hs : I s) :
    (∀ js, js <+: is → ∀ q, run step s js = some q → I q.1) ↔ StepsMeet step C s is := by
  induction is generalizing s with
  | nil =>
    refine iff_of_true (fun js hjs q hq => ?_) trivial
    obtain rfl := List.prefix_nil.mp hjs
    obtain rfl := Option.some.inj hq
    exact hs
  | cons i is ih =>
    constructor
    · intro hall
      have hone : ∀ p, step s i = some p → I p.1 := by
        intro p hp
        refine hall [i] ⟨is, rfl⟩ (p.1, [p.2]) ?_
        simp only [run, hp, Option.bind_some, Option.map_some]
      have hC : C s i := by
        by_contra hC
        obtain ⟨p, hp, hnot⟩ := hbreak s i hs hC
        exact hnot (hone p hp)
      refine ⟨hC, fun p hp => (ih (hone p hp)).mp fun js hjs q hq => ?_⟩
      refine hall (i :: js) (List.prefix_cons_inj i |>.mpr hjs) (q.1, p.2 :: q.2) ?_
      rw [Option.mem_def] at hp
      simp only [run, hp, hq, Option.bind_some, Option.map_some]
    · rintro ⟨hC, hrest⟩ js hjs q hq
      cases js with
      | nil =>
        obtain rfl := Option.some.inj hq
        exact hs
      | cons j js =>
        obtain ⟨rfl, htail⟩ := List.cons_prefix_cons.mp hjs
        simp only [run, Option.bind_eq_some_iff, Option.map_eq_some_iff] at hq
        obtain ⟨p, hp, q', hq', rfl⟩ := hq
        exact (ih (hkeep s j p hs hC hp)).mpr (hrest p hp) js htail q' hq'

/-- A forward simulation with equal outputs lifts from steps to runs. -/
theorem run_simulates {step : σ → ι → Option (σ × ρ)} {f : τ → ι → τ × ρ}
    {C : σ → ι → Prop} {R : σ → τ → Prop}
    (hstep : ∀ s t i, R s t → C s i →
      ∃ p, step s i = some p ∧ R p.1 (f t i).1 ∧ p.2 = (f t i).2)
    {s : σ} {t : τ} {is : List ι} (hs : R s t) (hC : StepsMeet step C s is) :
    ∃ q, run step s is = some q ∧ R q.1 (runTotal f t is).1 ∧
      q.2 = (runTotal f t is).2 := by
  induction is generalizing s t with
  | nil => exact ⟨(s, []), rfl, hs, rfl⟩
  | cons i is ih =>
    obtain ⟨p, hp, hR, hr⟩ := hstep s t i hs hC.1
    obtain ⟨q, hq, hR', hr'⟩ := ih hR (hC.2 p hp)
    refine ⟨(q.1, p.2 :: q.2), ?_, hR', congrArg₂ List.cons hr hr'⟩
    simp only [run, hp, hq, Option.bind_some, Option.map_some]

theorem run_abstracts {step : σ → ι → Option (σ × ρ)} {spec : τ → ι → Option (τ × ρ)}
    {I : σ → Prop} {abs : σ → τ}
    (hstep : ∀ s i, I s → ((step s i).map fun p => (abs p.1, p.2)) = spec (abs s) i)
    (hkeep : ∀ s i p, I s → step s i = some p → I p.1) {s : σ} (hs : I s) (is : List ι) :
    ((run step s is).map fun q => (abs q.1, q.2)) = run spec (abs s) is := by
  induction is generalizing s with
  | nil => rfl
  | cons i is ih =>
    rw [run, run, ← hstep s i hs]
    cases hp : step s i with
    | none => rfl
    | some p =>
      rw [Option.bind_some, Option.map_some, Option.bind_some, ← ih (hkeep s i p hs hp),
        Option.map_map, Option.map_map]
      rfl

/-- The run gives the outputs of the abstract one exactly if every step of the abstract run meets
`C`, where a step that does not meet it cannot give the abstract output. The inputs may be
restricted by `D`. -/
theorem run_simulates_iff {step : σ → ι → Option (σ × ρ)} {f : τ → ι → τ × ρ}
    {C D : τ → ι → Prop} {R : σ → τ → Prop}
    (hstep : ∀ s t i, R s t → D t i → C t i →
      ∃ p, step s i = some p ∧ R p.1 (f t i).1 ∧ p.2 = (f t i).2)
    (hgood : ∀ s t i p, R s t → D t i → step s i = some p → p.2 = (f t i).2 → C t i)
    {s : σ} {t : τ} {is : List ι} (hs : R s t) (hD : StepsMeet (fun t i => some (f t i)) D t is) :
    (∃ q, run step s is = some q ∧ q.2 = (runTotal f t is).2) ↔
      StepsMeet (fun t i => some (f t i)) C t is := by
  induction is generalizing s t with
  | nil => exact iff_of_true ⟨(s, []), rfl, rfl⟩ trivial
  | cons i is ih =>
    constructor
    · rintro ⟨q, hq, hr⟩
      simp only [run, Option.bind_eq_some_iff, Option.map_eq_some_iff] at hq
      obtain ⟨p, hp, q', hq', rfl⟩ := hq
      obtain ⟨hr₁, hr₂⟩ := List.cons.inj hr
      have hC := hgood s t i p hs hD.1 hp hr₁
      obtain ⟨p', hp', hR, -⟩ := hstep s t i hs hD.1 hC
      obtain rfl := Option.some.inj (hp.symm.trans hp')
      refine ⟨hC, fun t' ht' => ?_⟩
      obtain rfl := Option.some.inj ht'
      exact (ih hR (hD.2 _ rfl)).mp ⟨q', hq', hr₂⟩
    · rintro ⟨hC, hrest⟩
      obtain ⟨p, hp, hR, hr⟩ := hstep s t i hs hD.1 hC
      obtain ⟨q, hq, hr'⟩ := (ih hR (hD.2 _ rfl)).mpr (hrest _ rfl)
      refine ⟨(q.1, p.2 :: q.2), ?_, congrArg₂ List.cons hr hr'⟩
      simp only [run, hp, hq, Option.bind_some, Option.map_some]

theorem runTotal_simulates {f : σ → ι → σ × ρ} {g : τ → ι → τ × ρ} {C : τ → ι → Prop}
    {R : σ → τ → Prop}
    (hstep : ∀ s t i, R s t → C t i → R (f s i).1 (g t i).1 ∧ (f s i).2 = (g t i).2)
    {s : σ} {t : τ} {is : List ι} (hs : R s t) (hC : StepsMeet (fun t i => some (g t i)) C t is) :
    R (runTotal f s is).1 (runTotal g t is).1 ∧ (runTotal f s is).2 = (runTotal g t is).2 := by
  induction is generalizing s t with
  | nil => exact ⟨hs, rfl⟩
  | cons i is ih =>
    obtain ⟨hR, hr⟩ := hstep s t i hs hC.1
    obtain ⟨hR', hr'⟩ := ih hR (hC.2 _ rfl)
    exact ⟨hR', congrArg₂ List.cons hr hr'⟩

theorem foldlM_invariant {f : σ → ι → Option σ} {P : ι → Prop} {I : σ → List ι → Prop}
    (hstep : ∀ s xs x, I s xs → P x → ∃ s', f s x = some s' ∧ I s' (x :: xs))
    {s : σ} {xs is : List ι} (hs : I s xs) (hP : ∀ i ∈ is, P i) :
    ∃ s', is.foldlM f s = some s' ∧ I s' (is.reverse ++ xs) := by
  induction is generalizing s xs with
  | nil => exact ⟨s, rfl, hs⟩
  | cons i is ih =>
    obtain ⟨s₁, h₁, hs₁⟩ := hstep s xs i hs (hP i List.mem_cons_self)
    obtain ⟨s₂, h₂, hs₂⟩ := ih hs₁ fun j hj => hP j (List.mem_cons_of_mem i hj)
    refine ⟨s₂, ?_, ?_⟩
    · rw [List.foldlM_cons, h₁]
      exact h₂
    · rw [List.reverse_cons, List.append_assoc]
      exact hs₂

theorem foldlM_range_invariant {f : σ → Nat → Option σ} {I : Nat → σ → Prop} {n : Nat}
    (hstep : ∀ i s, i < n → I i s → ∃ s', f s i = some s' ∧ I (i + 1) s') {s : σ} (hs : I 0 s) :
    ∃ s', (List.range n).foldlM f s = some s' ∧ I n s' := by
  induction n with
  | zero => exact ⟨s, rfl, hs⟩
  | succ n ih =>
    obtain ⟨s₁, h₁, hs₁⟩ := ih fun i s hi => hstep i s (Nat.lt_succ_of_lt hi)
    obtain ⟨s₂, h₂, hs₂⟩ := hstep n s₁ (Nat.lt_succ_self n) hs₁
    refine ⟨s₂, ?_, hs₂⟩
    rw [List.range_succ, List.foldlM_append, h₁]
    change List.foldlM f s₁ [n] = some s₂
    rw [List.foldlM_cons, h₂]
    rfl

theorem foldlM_range_reverse_invariant {f : σ → Nat → Option σ} {I : Nat → σ → Prop} {n : Nat}
    (hstep : ∀ i s, i < n → I (i + 1) s → ∃ s', f s i = some s' ∧ I i s') {s : σ} (hs : I n s) :
    ∃ s', (List.range n).reverse.foldlM f s = some s' ∧ I 0 s' := by
  induction n generalizing s with
  | zero => exact ⟨s, rfl, hs⟩
  | succ n ih =>
    obtain ⟨s₁, h₁, hs₁⟩ := hstep n s (Nat.lt_succ_self n) hs
    obtain ⟨s₂, h₂, hs₂⟩ := ih (fun i s hi => hstep i s (Nat.lt_succ_of_lt hi)) hs₁
    refine ⟨s₂, ?_, hs₂⟩
    rw [List.range_succ, List.reverse_append, List.reverse_singleton, List.singleton_append,
      List.foldlM_cons, h₁]
    exact h₂

theorem foldlM_keeps {f : σ → ι → Option σ} {I : σ → Prop}
    (hstep : ∀ r i r', I r → f r i = some r' → I r') {s s' : σ} {is : List ι} (hs : I s)
    (h : is.foldlM f s = some s') : I s' := by
  induction is generalizing s with
  | nil => exact Option.some.inj h ▸ hs
  | cons i is ih =>
    rw [List.foldlM_cons, Option.bind_eq_bind, Option.bind_eq_some_iff] at h
    obtain ⟨s₁, h₁, hrest⟩ := h
    exact ih (hstep s i s₁ hs h₁) hrest

theorem exists_step_of_foldlM {f : σ → ι → Option σ} {I : σ → Prop}
    (hstep : ∀ r i r', I r → f r i = some r' → I r') {s s' : σ} {is : List ι} (hs : I s)
    (h : is.foldlM f s = some s') : ∀ i ∈ is, ∃ r r', I r ∧ f r i = some r' := by
  induction is generalizing s with
  | nil => exact fun i hi => absurd hi List.not_mem_nil
  | cons j is ih =>
    rw [List.foldlM_cons, Option.bind_eq_bind, Option.bind_eq_some_iff] at h
    obtain ⟨s₁, h₁, hrest⟩ := h
    intro i hi
    rcases List.mem_cons.mp hi with rfl | hi
    · exact ⟨s, s₁, hs, h₁⟩
    · exact ih (hstep s j s₁ hs h₁) hrest i hi

theorem foldlM_congr {f g : σ → ι → Option σ} {is : List ι} (h : ∀ i ∈ is, ∀ s, f s i = g s i)
    (s : σ) : is.foldlM f s = is.foldlM g s := by
  induction is generalizing s with
  | nil => rfl
  | cons i is ih =>
    rw [List.foldlM_cons, List.foldlM_cons, h i List.mem_cons_self]
    exact congrArg _ (funext (ih fun j hj => h j (List.mem_cons_of_mem i hj)))

theorem foldlM_flatMap {α : Type*} {f : σ → ι → Option σ} (g : α → List ι) (as : List α) (s : σ) :
    (as.flatMap g).foldlM f s = as.foldlM (fun s a => (g a).foldlM f s) s := by
  induction as generalizing s with
  | nil => rfl
  | cons a as ih =>
    rw [List.flatMap_cons, List.foldlM_append, List.foldlM_cons]
    exact congrArg _ (funext ih)

end PortableLib.Run
