import PortableLib.DarwinSem.Semaphore

/-! Whatever the interleaving, the calls behave as those of a semaphore that waits, posts and tries
in one step: under the lock, what a thread has seen of the counter still holds when it acts. -/

namespace PortableLib.DarwinSem
open List Interleave

variable {Tid : Type} {s s' : Sem Tid} {pl : Tid → Place} {t : Tid} {p p' : Place} {e : Event}

def Place.locked : Place → Bool
  | .waitTest => true
  | .waitSleep => true
  | .waitTake => true
  | .waitUnlock => true
  | .postAdd => true
  | .postUnlock => true
  | .tryTest => true
  | .tryTake => true
  | .tryUnlock _ => true
  | _ => false

def Seen (v : Nat) : Place → Prop
  | .waitSleep => v = 0
  | .waitTake => 0 < v
  | .tryTake => 0 < v
  | _ => True

theorem seen_of_not_locked {v : Nat} (hp : p.locked = false) : Seen v p := by
  cases p with
  | waitSleep | waitTake | tryTake => cases hp
  | _ => trivial

/-- The lock belongs to the thread in the critical section, if there is one, and what that thread
has seen still holds. -/
structure Inv (s : Sem Tid) (pl : Tid → Place) : Prop where
  bound : s.sVal < 2 ^ 32
  owner : ∀ t, s.sLock = some t ↔ (pl t).locked = true
  seen : ∀ t, Seen s.sVal (pl t)

theorem inv_init (val : Nat) : Inv (semInit val : Sem Tid) fun _ => .out where
  bound := Nat.mod_lt _ (Nat.two_pow_pos 32)
  owner := fun _ => ⟨nofun, nofun⟩
  seen := fun _ => trivial

theorem Inv.eq_of_locked (h : Inv s pl) {u : Tid} (ht : (pl t).locked = true)
    (hu : (pl u).locked = true) : u = t :=
  Option.some.inj (((h.owner u).mpr hu).symm.trans ((h.owner t).mpr ht))

theorem decrement_val (hpos : 0 < s.sVal) (hbound : s.sVal < 2 ^ 32) :
    (decrement s).sVal = s.sVal - 1 := by
  change (s.sVal + (2 ^ 32 - 1)) % 2 ^ 32 = s.sVal - 1
  omega

theorem decrement_lock (s : Sem Tid) : (decrement s).sLock = s.sLock := by
  rw [decrement]

theorem decrement_cond (s : Sem Tid) : (decrement s).sCond = s.sCond := by
  rw [decrement]

theorem decrement_lt : (decrement s).sVal < 2 ^ 32 := by
  change (s.sVal + (2 ^ 32 - 1)) % 2 ^ 32 < 2 ^ 32
  exact Nat.mod_lt _ (Nat.two_pow_pos 32)

theorem increment_lt : (increment s).sVal < 2 ^ 32 := by
  change (s.sVal + 1) % 2 ^ 32 < 2 ^ 32
  exact Nat.mod_lt _ (Nat.two_pow_pos 32)

/-- What the calls do, each in one step. A wait on an empty semaphore has to be taken later, and
the counter is an unsigned int. -/
def atomicSem : Op → Nat → Option (Nat × Result)
  | .wait, v => if v = 0 then none else some (v - 1, (0, none))
  | .post, v => some ((v + 1) % 2 ^ 32, (0, none))
  | .trywait, v =>
    if v = 0 then some (0, (-1, some .EAGAIN)) else some (v - 1, (0, none))

def Place.phase : Place → Phase Op Result
  | .out => .idle
  | .waitLock => .pending .wait
  | .waitTest => .pending .wait
  | .waitSleep => .pending .wait
  | .asleep _ => .pending .wait
  | .waitRelock => .pending .wait
  | .waitTake => .pending .wait
  | .waitUnlock => .effected .wait ok
  | .postLock => .pending .post
  | .postAdd => .pending .post
  | .postUnlock => .effected .post ok
  | .postBroadcast => .effected .post ok
  | .tryLock => .pending .trywait
  | .tryTest => .pending .trywait
  | .tryTake => .pending .trywait
  | .tryUnlock r => .effected .trywait (tryResult r)

theorem trans_phase (htrans : Trans t s p s' p' e) : p.phase.advance e = some p'.phase := by
  cases htrans with
  | lock _ hp =>
    rcases hp with ⟨rfl, rfl⟩ | ⟨rfl, rfl⟩ | ⟨rfl, rfl⟩ | ⟨rfl, rfl⟩
    all_goals rfl
  | @call op =>
    cases op with
    | wait | post | trywait => rfl
  | tryUnlock => exact if_pos ⟨rfl, rfl⟩
  | _ => rfl

theorem trans_effect (h : Inv s pl) (htrans : Trans t s (pl t) s' p' e) :
    replay atomicSem s.sVal e = some s'.sVal := by
  have hseen := h.seen t
  generalize pl t = p at htrans hseen
  cases htrans with
  | take =>
    have hpos : 0 < s.sVal := hseen
    rw [decrement_val hpos h.bound, replay, atomicSem, if_neg (Nat.ne_of_gt hpos)]
    rfl
  | tryTake =>
    have hpos : 0 < s.sVal := hseen
    rw [decrement_val hpos h.bound, replay, atomicSem, if_neg (Nat.ne_of_gt hpos)]
    rfl
  | refuse hval =>
    rw [replay, atomicSem, if_pos hval, hval]
    rfl
  | _ => rfl

variable [DecidableEq Tid]

theorem Inv.update (h : Inv s pl) (hbound : s'.sVal < 2 ^ 32)
    (hself : s'.sLock = some t ↔ p.locked = true)
    (hothers : ∀ u, u ≠ t → (s'.sLock = some u ↔ s.sLock = some u)) (hseen : Seen s'.sVal p)
    (hval : s'.sVal = s.sVal ∨ (pl t).locked = true) : Inv s' (Function.update pl t p) where
  bound := hbound
  owner := by
    refine forall_update (Q := fun u p => s'.sLock = some u ↔ Place.locked p = true) hself ?_
    intro u hu
    rw [hothers u hu]
    exact h.owner u
  seen := by
    refine forall_update (Q := fun _ p => Seen s'.sVal p) hseen ?_
    intro u hu
    rcases hval with heq | ht
    · rw [heq]
      exact h.seen u
    · apply seen_of_not_locked
      rw [← Bool.not_eq_true]
      exact fun hlocked => hu (h.eq_of_locked ht hlocked)

theorem Inv.inside (h : Inv s pl) (ht : (pl t).locked = true) (hbound : s'.sVal < 2 ^ 32)
    (hlock : s'.sLock = s.sLock) (hp : p.locked = true) (hseen : Seen s'.sVal p) :
    Inv s' (Function.update pl t p) := by
  refine h.update hbound ?_ (fun u _ => by rw [hlock]) hseen (.inr ht)
  rw [hlock]
  exact iff_of_true ((h.owner t).mpr ht) hp

theorem Inv.outside (h : Inv s pl) (ht : (pl t).locked = false) (hval : s'.sVal = s.sVal)
    (hlock : s'.sLock = s.sLock) (hp : p.locked = false) : Inv s' (Function.update pl t p) := by
  refine h.update (hval ▸ h.bound) ?_ (fun u _ => by rw [hlock]) (seen_of_not_locked hp) (.inl hval)
  rw [hlock, h.owner t, ht, hp]

theorem Inv.release (h : Inv s pl) (ht : (pl t).locked = true) (hp : p.locked = false) :
    Inv (unlock s) (Function.update pl t p) := by
  refine h.update h.bound (iff_of_false nofun (hp ▸ nofun)) ?_ (seen_of_not_locked hp) (.inr ht)
  intro u hu
  refine iff_of_false nofun ?_
  intro hlock
  exact hu (h.eq_of_locked ht ((h.owner u).mp hlock))

theorem Inv.acquire (h : Inv s pl) (hfree : s.sLock = none) (hp : p.locked = true)
    (hseen : Seen s.sVal p) :
    Inv { s with sLock := some t } (Function.update pl t p) := by
  refine h.update h.bound (iff_of_true rfl hp) ?_ hseen (.inl rfl)
  intro u hu
  rw [hfree]
  exact iff_of_false (fun heq => hu (Option.some.inj heq).symm) nofun

theorem inv_next (h : Inv s pl) (htrans : Trans t s (pl t) s' p' e) :
    Inv s' (Function.update pl t p') := by
  generalize ht : pl t = p at htrans
  have hlocked : (pl t).locked = p.locked := by rw [ht]
  cases htrans with
  | lock hfree hp =>
    rcases hp with ⟨-, rfl⟩ | ⟨-, rfl⟩ | ⟨-, rfl⟩ | ⟨-, rfl⟩
    all_goals exact h.acquire hfree rfl trivial
  | empty hval => exact h.inside hlocked h.bound rfl rfl hval
  | some hval => exact h.inside hlocked h.bound rfl rfl hval
  | sleep => exact h.release hlocked rfl
  | wake => exact h.outside hlocked rfl rfl rfl
  | take => exact h.inside hlocked decrement_lt (decrement_lock _) rfl trivial
  | waitUnlock => exact h.release hlocked rfl
  | add => exact h.inside hlocked increment_lt rfl rfl trivial
  | postUnlock => exact h.release hlocked rfl
  | broadcast => exact h.outside hlocked rfl rfl rfl
  | trySome hval => exact h.inside hlocked h.bound rfl rfl hval
  | refuse => exact h.inside hlocked h.bound rfl rfl trivial
  | tryTake => exact h.inside hlocked decrement_lt (decrement_lock _) rfl trivial
  | tryUnlock => exact h.release hlocked rfl
  | @call op =>
    cases op with
    | wait | post | trywait => exact h.outside hlocked rfl rfl rfl

theorem atomic_of_exec {val : Nat} {sched : List (Tid × Act)} {w : World Tid (Sem Tid) Place}
    {tr : List (Tid × Event)}
    (hrun : exec next ⟨semInit val, fun _ => .out⟩ sched = some (w, tr)) :
    Inv w.shared w.pc ∧
      Atomic atomicSem (val % 2 ^ 32) tr w.shared.sVal fun t => (w.pc t).phase := by
  refine exec_invariant (I := fun w tr => Inv w.shared w.pc ∧
    Atomic atomicSem (val % 2 ^ 32) tr w.shared.sVal fun t => (w.pc t).phase) ?_
    ⟨inv_init val, atomic_nil fun _ => rfl⟩ hrun
  rintro w tr t a ⟨s', p', e⟩ ⟨hinv, hatomic⟩ hq
  have htrans : Trans t w.shared (w.pc t) s' p' e := next_inv hq
  refine ⟨inv_next hinv htrans, hatomic.snoc (trans_effect hinv htrans) ?_ ?_⟩
  · rw [trans_phase htrans]
    simp only [Function.update_self]
  · intro u hu
    simp only [Function.update_of_ne hu]

/-- Every run of `sem_wait`, `sem_post` and `sem_trywait` is one of the atomic semaphore: each call
takes effect in one step between its beginning and its return, and returns what that step gives. -/
theorem sem_linearizable (val : Nat) (sched : List (Tid × Act)) (w : World Tid (Sem Tid) Place)
    (tr : List (Tid × Event))
    (hrun : exec next ⟨semInit val, fun _ => .out⟩ sched = some (w, tr)) :
    Atomic atomicSem (val % 2 ^ 32) tr w.shared.sVal fun t => (w.pc t).phase :=
  (atomic_of_exec hrun).2

def handOver : List (Bool × Act) :=
  [(false, .call .wait), (false, .go), (false, .go), (true, .call .post), (false, .go),
    (true, .go), (true, .go), (true, .go), (true, .go), (false, .go), (false, .go), (false, .go),
    (false, .go)]

theorem sem_linearizable_handOver :
    ∃ w tr, exec next ⟨semInit 0, fun _ => .out⟩ handOver = some (w, tr) ∧
      tr.filter (fun i => i.2 ≠ .tau) = [(false, .called .wait), (true, .called .post),
        (true, .effect .post ok), (true, .returned .post ok), (false, .effect .wait ok)] ∧
      Atomic atomicSem 0 tr w.shared.sVal fun t => (w.pc t).phase := by
  obtain ⟨⟨w, tr⟩, hrun⟩ : ∃ r, exec next ⟨semInit 0, fun _ => .out⟩ handOver = some r := ⟨_, rfl⟩
  have htr : (exec next ⟨semInit 0, fun _ => .out⟩ handOver).map
      (fun r => r.2.filter fun i => i.2 ≠ .tau) = some [(false, .called .wait),
        (true, .called .post), (true, .effect .post ok), (true, .returned .post ok),
        (false, .effect .wait ok)] := by decide
  rw [hrun] at htr
  exact ⟨w, tr, hrun, Option.some.inj htr, sem_linearizable 0 handOver w tr hrun⟩

end PortableLib.DarwinSem
