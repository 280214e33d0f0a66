import Mathlib.Algebra.Order.BigOperators.Group.Finset
import Mathlib.Data.Fintype.Card
import PortableLib.DarwinSem.Linear

/-! No wake-up is lost: a thread falls asleep only while the counter is zero, and whoever raises
the counter is on its way to a broadcast. So when no thread can go on, all that is left are waits
on an empty semaphore; and without new calls that state is reached in a bounded number of steps,
because each broadcast wakes the sleepers at most once. -/

namespace PortableLib.DarwinSem
open List Interleave

variable {Tid : Type} {s s' : Sem Tid} {pl : Tid → Place} {t : Tid} {p p' : Place} {e : Event}

def Place.posting : Place → Bool
  | .postUnlock => true
  | .postBroadcast => true
  | _ => false

structure Awake (s : Sem Tid) (pl : Tid → Place) : Prop where
  past : ∀ t g, pl t = .asleep g → g ≤ s.sCond
  poster : 0 < s.sVal → ∀ t, pl t = .asleep s.sCond → ∃ u, (pl u).posting = true

theorem awake_init (val : Nat) : Awake (semInit val : Sem Tid) fun _ => .out where
  past := fun _ _ ht => absurd ht nofun
  poster := fun _ _ ht => absurd ht nofun

theorem step_isSome_of_locked (hp : p.locked = true) : ∃ q, step t s p = some q := by
  cases p with
  | waitTest =>
    rw [step]
    split
    · exact ⟨_, rfl⟩
    · exact ⟨_, rfl⟩
  | tryTest =>
    rw [step]
    split
    · exact ⟨_, rfl⟩
    · exact ⟨_, rfl⟩
  | waitSleep | waitTake | waitUnlock | postAdd | postUnlock | tryTake | tryUnlock _ =>
    exact ⟨_, rfl⟩
  | _ => cases hp

theorem step_isSome_of_posting (hp : p.posting = true) : ∃ q, step t s p = some q := by
  cases p with
  | postUnlock | postBroadcast => exact ⟨_, rfl⟩
  | _ => cases hp

theorem lock_isSome (hfree : s.sLock = none) : ∃ q, lock t s p = some q := by
  rw [lock, hfree]
  exact ⟨_, rfl⟩

theorem at_rest (hinv : Inv s pl) (hawake : Awake s pl) (hrest : ∀ t, step t s (pl t) = none)
    (t : Tid) : pl t = .out ∨ (s.sVal = 0 ∧ ∃ g, pl t = .asleep g) := by
  have hstuck : ∀ u q, step u s (pl u) ≠ some q := by
    intro u q hq
    exact absurd ((hrest u).symm.trans hq) nofun
  have hfree : s.sLock = none := by
    cases hlock : s.sLock with
    | none => rfl
    | some u =>
      obtain ⟨q, hq⟩ := step_isSome_of_locked (t := u) (s := s) ((hinv.owner u).mp hlock)
      exact absurd hq (hstuck u q)
  have hlocked : (pl t).locked = false := by
    rw [← Bool.not_eq_true, ← hinv.owner t, hfree]
    exact nofun
  have hlock : ∀ p', step t s (pl t) ≠ lock t s p' := by
    intro p' heq
    obtain ⟨q, hq⟩ := lock_isSome (t := t) (p := p') hfree
    exact hstuck t q (heq.trans hq)
  cases hp : pl t with
  | out => exact .inl rfl
  | asleep g =>
    have hnot : ¬ g < s.sCond := by
      intro hlt
      refine hstuck t (s, .waitRelock, .tau) ?_
      rw [hp, step, if_pos hlt]
    have hg : g = s.sCond := Nat.le_antisymm (hawake.past t g hp) (Nat.le_of_not_lt hnot)
    refine .inr ⟨?_, g, rfl⟩
    by_contra hval
    obtain ⟨u, hu⟩ := hawake.poster (Nat.pos_of_ne_zero hval) t (hg ▸ hp)
    obtain ⟨q, hq⟩ := step_isSome_of_posting (t := u) (s := s) hu
    exact hstuck u q hq
  | waitLock | waitRelock | postLock | tryLock =>
    rw [hp] at hlock
    exact absurd rfl (hlock _)
  | postBroadcast => exact absurd (by rw [hp]; rfl) (hstuck t _)
  | _ =>
    rw [hp] at hlocked
    cases hlocked

section Steps

variable [DecidableEq Tid]

theorem past_update {c : Nat} (hp : ∀ g, p = .asleep g → g ≤ c)
    (h : ∀ u g, pl u = .asleep g → g ≤ c) (u : Tid) (g : Nat)
    (hu : Function.update pl t p u = .asleep g) : g ≤ c :=
  forall_update (Q := fun _ p => ∀ g, p = Place.asleep g → g ≤ c) hp (fun u _ => h u) u g hu

theorem Awake.keep (h : Awake s pl) (hcond : s'.sCond = s.sCond)
    (hval : 0 < s'.sVal → 0 < s.sVal) (hp : ∀ g, p ≠ .asleep g)
    (hpost : (pl t).posting = false ∨ p.posting = true) : Awake s' (Function.update pl t p) where
  past := by
    rw [hcond]
    exact past_update (fun g hg => absurd hg (hp g)) h.past
  poster := by
    intro hpos u hu
    have hut : u ≠ t := by
      rintro rfl
      rw [Function.update_self] at hu
      exact hp _ hu
    rw [Function.update_of_ne hut, hcond] at hu
    obtain ⟨v, hv⟩ := h.poster (hval hpos) u hu
    by_cases hvt : v = t
    · refine ⟨t, ?_⟩
      rw [Function.update_self]
      rw [hvt] at hv
      rcases hpost with hnot | hp
      · exact absurd (hnot.symm.trans hv) nofun
      · exact hp
    · refine ⟨v, ?_⟩
      rw [Function.update_of_ne hvt]
      exact hv

theorem Awake.sleep (h : Awake s pl) (hval : s.sVal = 0) :
    Awake (unlock s) (Function.update pl t (.asleep s.sCond)) where
  past := past_update (fun _ hg => (Place.asleep.inj hg).ge) h.past
  poster := fun hpos => absurd hval (Nat.ne_of_gt hpos)

theorem Awake.add (h : Awake s pl) :
    Awake (increment s) (Function.update pl t .postUnlock) where
  past := past_update (fun _ hg => absurd hg nofun) h.past
  poster := fun _ _ _ => ⟨t, by rw [Function.update_self]; rfl⟩

theorem Awake.broadcast (h : Awake s pl) :
    Awake { s with sCond := s.sCond + 1 } (Function.update pl t .out) := by
  have hpast : ∀ u g, Function.update pl t .out u = .asleep g → g ≤ s.sCond :=
    past_update (fun _ hg => absurd hg nofun) h.past
  constructor
  · exact fun u g hu => Nat.le_succ_of_le (hpast u g hu)
  · intro _ u hu
    exact absurd (hpast u _ hu) (Nat.not_succ_le_self _)

theorem awake_next (hinv : Inv s pl) (h : Awake s pl) (htrans : Trans t s (pl t) s' p' e) :
    Awake s' (Function.update pl t p') := by
  have hseen := hinv.seen t
  generalize hp : pl t = p at htrans hseen
  have hpost : (pl t).posting = p.posting := by rw [hp]
  cases htrans with
  | lock _ hplaces =>
    rcases hplaces with ⟨rfl, rfl⟩ | ⟨rfl, rfl⟩ | ⟨rfl, rfl⟩ | ⟨rfl, rfl⟩
    all_goals exact h.keep rfl id nofun (.inl hpost)
  | sleep => exact h.sleep hseen
  | add => exact h.add
  | broadcast => exact h.broadcast
  | take => exact h.keep (decrement_cond s) (fun _ => hseen) nofun (.inl hpost)
  | tryTake => exact h.keep (decrement_cond s) (fun _ => hseen) nofun (.inl hpost)
  | postUnlock => exact h.keep rfl id nofun (.inr rfl)
  | @call op =>
    cases op with
    | wait | post | trywait => exact h.keep rfl id nofun (.inl hpost)
  | _ => exact h.keep rfl id nofun (.inl hpost)

theorem awake_of_exec {val : Nat} {sched : List (Tid × Act)} {w : World Tid (Sem Tid) Place}
    {tr : List (Tid × Event)}
    (hrun : exec next ⟨semInit val, fun _ => .out⟩ sched = some (w, tr)) :
    Inv w.shared w.pc ∧ Awake w.shared w.pc := by
  refine exec_invariant (I := fun w _ => Inv w.shared w.pc ∧ Awake w.shared w.pc) ?_
    ⟨inv_init val, awake_init val⟩ hrun
  rintro w tr t a ⟨s', p', e⟩ ⟨hinv, hawake⟩ hq
  have htrans : Trans t w.shared (w.pc t) s' p' e := next_inv hq
  exact ⟨inv_next hinv htrans, awake_next hinv hawake htrans⟩

end Steps

def Place.work (n c : Nat) : Place → Nat
  | .out => 0
  | .waitLock => 4
  | .waitTest => 3
  | .waitSleep => 1
  | .asleep g => if g < c then 5 else 0
  | .waitRelock => 4
  | .waitTake => 2
  | .waitUnlock => 1
  | .postLock => 5 * n + 4
  | .postAdd => 5 * n + 3
  | .postUnlock => 5 * n + 2
  | .postBroadcast => 5 * n + 1
  | .tryLock => 4
  | .tryTest => 3
  | .tryTake => 2
  | .tryUnlock _ => 1

theorem Place.work_le (n c : Nat) (p : Place) (hn : 0 < n) : p.work n c ≤ 5 * n + 4 := by
  cases p with
  | asleep g =>
    rw [Place.work]
    split
    · omega
    · exact Nat.zero_le _
  | _ =>
    simp only [Place.work]
    omega

theorem Place.work_broadcast (n c : Nat) (p : Place) : p.work n (c + 1) ≤ p.work n c + 5 := by
  cases p with
  | asleep g =>
    rw [Place.work]
    split
    · exact Nat.le_add_left _ _
    · exact Nat.zero_le _
  | _ => exact Nat.le_add_right _ _

variable [Fintype Tid]

def work (s : Sem Tid) (pl : Tid → Place) : Nat :=
  tally (fun _ p => p.work (Fintype.card Tid) s.sCond) pl

theorem work_le (t : Tid) (s : Sem Tid) (pl : Tid → Place) :
    work s pl ≤ Fintype.card Tid * (5 * Fintype.card Tid + 4) := by
  have hcard : 0 < Fintype.card Tid := Fintype.card_pos_iff.mpr ⟨t⟩
  have hsum := Finset.sum_le_card_nsmul Finset.univ _ _
    fun u _ => Place.work_le (Fintype.card Tid) s.sCond (pl u) hcard
  rwa [Nat.nsmul_eq_mul] at hsum

theorem tally_broadcast (c : Nat) (pl : Tid → Place) :
    tally (fun _ p => p.work (Fintype.card Tid) (c + 1)) pl ≤
      tally (fun _ p => p.work (Fintype.card Tid) c) pl + 5 * Fintype.card Tid := by
  have hsum : ∑ u : Tid, ((pl u).work (Fintype.card Tid) c + 5) =
      tally (fun _ p => p.work (Fintype.card Tid) c) pl + 5 * Fintype.card Tid := by
    rw [Finset.sum_add_distrib, Finset.sum_const, Finset.card_univ, Nat.nsmul_eq_mul,
      Nat.mul_comm]
    rfl
  rw [← hsum]
  exact Finset.sum_le_sum fun u _ => Place.work_broadcast _ _ (pl u)

variable [DecidableEq Tid]

theorem work_keep {p₀ : Place} (hp : pl t = p₀) (hcond : s'.sCond = s.sCond)
    (hlt : p.work (Fintype.card Tid) s.sCond < p₀.work (Fintype.card Tid) s.sCond) :
    work s' (Function.update pl t p) < work s pl := by
  have hupdate : tally (fun _ p => p.work (Fintype.card Tid) s.sCond) (Function.update pl t p) +
      (pl t).work (Fintype.card Tid) s.sCond = work s pl + p.work (Fintype.card Tid) s.sCond :=
    tally_update
  rw [hp] at hupdate
  rw [work, hcond]
  omega

theorem work_broadcast (hp : pl t = .postBroadcast) :
    work { s with sCond := s.sCond + 1 } (Function.update pl t .out) < work s pl := by
  have hupdate : tally (fun _ p => p.work (Fintype.card Tid) (s.sCond + 1))
      (Function.update pl t .out) + (pl t).work (Fintype.card Tid) (s.sCond + 1) =
        tally (fun _ p => p.work (Fintype.card Tid) (s.sCond + 1)) pl + 0 := tally_update
  have hwork : (pl t).work (Fintype.card Tid) (s.sCond + 1) = 5 * Fintype.card Tid + 1 := by
    rw [hp, Place.work]
  have hall := tally_broadcast s.sCond pl
  change tally (fun _ p => p.work (Fintype.card Tid) (s.sCond + 1))
    (Function.update pl t .out) < tally (fun _ p => p.work (Fintype.card Tid) s.sCond) pl
  omega

theorem work_step (hq : step t s (pl t) = some (s', p', e)) :
    work s' (Function.update pl t p') < work s pl := by
  have htrans : Trans t s (pl t) s' p' e := step_inv hq
  generalize hp : pl t = p at hq htrans
  cases htrans with
  | lock _ hplaces =>
    rcases hplaces with ⟨rfl, rfl⟩ | ⟨rfl, rfl⟩ | ⟨rfl, rfl⟩ | ⟨rfl, rfl⟩
    all_goals
      refine work_keep hp rfl ?_
      simp only [Place.work]
      omega
  | sleep =>
    refine work_keep hp rfl ?_
    rw [Place.work, Place.work, if_neg (lt_irrefl _)]
    exact Nat.zero_lt_one
  | wake =>
    rw [step] at hq
    split at hq
    · next hlt =>
      refine work_keep hp rfl ?_
      rw [Place.work, Place.work, if_pos hlt]
      exact Nat.lt_succ_self 4
    · cases hq
  | take | tryTake =>
    refine work_keep hp (decrement_cond s) ?_
    simp only [Place.work]
    omega
  | add =>
    refine work_keep hp rfl ?_
    simp only [Place.work]
    omega
  | broadcast => exact work_broadcast hp
  | call => cases hq
  | _ =>
    refine work_keep hp rfl ?_
    simp only [Place.work]
    omega

theorem length_add_work_le {sched : List (Tid × Act)} {w w' : World Tid (Sem Tid) Place}
    {tr : List (Tid × Event)} (hgo : ∀ i ∈ sched, i.2 = .go)
    (hrun : exec next w sched = some (w', tr)) :
    sched.length + work w'.shared w'.pc ≤ work w.shared w.pc := by
  induction sched generalizing w tr with
  | nil =>
    obtain ⟨rfl, rfl⟩ := Prod.mk.inj (Option.some.inj hrun)
    exact (Nat.zero_add _).le
  | cons i sched ih =>
    rw [exec, Run.run] at hrun
    simp only [Option.bind_eq_some_iff, Option.map_eq_some_iff] at hrun
    obtain ⟨p, hp, q, hq, heq⟩ := hrun
    obtain ⟨rfl, rfl⟩ := Prod.mk.inj heq
    obtain ⟨⟨s', p', e⟩, hr, rfl⟩ := Option.map_eq_some_iff.mp hp
    have hrest := ih (fun j hj => hgo j (mem_cons_of_mem i hj)) hq
    rw [hgo i mem_cons_self] at hr
    have hlt : work s' (Function.update w.pc i.1 p') < work w.shared w.pc := work_step hr
    rw [length_cons]
    change sched.length + work q.1.shared q.1.pc ≤ work s' (Function.update w.pc i.1 p') at hrest
    omega

/-- In every state that can be reached, what the calls in progress still have to do on their own is
bounded, and where none of them can go on, each has returned or is a `sem_wait` asleep on a
semaphore whose counter is zero. -/
theorem sem_settles (val : Nat) (sched more : List (Tid × Act)) (w w' : World Tid (Sem Tid) Place)
    (tr tr' : List (Tid × Event))
    (hrun : exec next ⟨semInit val, fun _ => .out⟩ sched = some (w, tr))
    (hgo : ∀ i ∈ more, i.2 = .go) (hmore : exec next w more = some (w', tr')) :
    more.length ≤ Fintype.card Tid * (5 * Fintype.card Tid + 4) ∧
      ((∀ t, step t w'.shared (w'.pc t) = none) →
        ∀ t, w'.pc t = .out ∨ (w'.shared.sVal = 0 ∧ ∃ g, w'.pc t = .asleep g)) := by
  have hall : exec next ⟨semInit val, fun _ => .out⟩ (sched ++ more) = some (w', tr ++ tr') :=
    Run.run_append hrun hmore
  obtain ⟨hinv, hawake⟩ := awake_of_exec hall
  refine ⟨?_, fun hrest => at_rest hinv hawake hrest⟩
  cases more with
  | nil => exact Nat.zero_le _
  | cons i more =>
    have hle := length_add_work_le hgo hmore
    have hbound := work_le i.1 w.shared w.pc
    omega

theorem sem_settles_one_unit :
    ∃ w w' tr tr', exec next ⟨semInit 1, fun _ => .out⟩
        [(false, .call .wait), (true, .call .wait)] = some (w, tr) ∧
      exec next w [(true, .go), (true, .go), (true, .go), (true, .go), (false, .go), (false, .go),
        (false, .go)] = some (w', tr') ∧
      w'.pc true = .out ∧ w'.pc false = .asleep 0 ∧ 7 ≤ 2 * (5 * 2 + 4) ∧
      ∀ t, w'.pc t = .out ∨ (w'.shared.sVal = 0 ∧ ∃ g, w'.pc t = .asleep g) := by
  refine ⟨_, _, _, _, rfl, rfl, rfl, rfl, ?_⟩
  have hall := sem_settles 1 [(false, .call .wait), (true, .call .wait)]
    [(true, .go), (true, .go), (true, .go), (true, .go), (false, .go), (false, .go), (false, .go)]
    _ _ _ _ rfl (by decide) rfl
  refine ⟨hall.1, hall.2 ?_⟩
  intro t
  cases t with
  | false => rfl
  | true => rfl

end PortableLib.DarwinSem
