import Mathlib.Algebra.BigOperators.Ring.Finset
import Mathlib.Algebra.Order.BigOperators.Group.Finset
import PortableLib.JobManager.Invariant

/-! When the call that waits returns, every worker has ended, so every null pointer has been taken,
and since these come last in every queue, so has every job. -/

namespace PortableLib.JobManager
open List SyncQ Interleave Circular

variable {S Q J : Type} {n : Nat}

def submitted (tr : List (Thread S n × Event Q J)) : List J := tr.flatMap fun e => e.2.called

def ran (tr : List (Thread S n × Event Q J)) : List J := tr.flatMap fun e => e.2.runs

/-- The number of jobs whose function returned a negative value. -/
def failures (tr : List (Thread S n × Event Q J)) : Nat := (tr.map fun e => e.2.fails).sum

theorem queued_jobs (tr : List (Thread S n × Event Q J)) :
    ((queued tr).flatMap fun x => x.2.toList) = tr.flatMap fun e => e.2.puts := by
  unfold queued
  rw [flatMap_assoc]
  apply flatMap_congr
  intro e _
  cases e.2 with
  | queue q ev =>
    rw [Event.queued, Event.puts, flatMap_map, reduceOption, filterMap_eq_flatMap_toList]
    rfl
  | _ => rfl

theorem taken_jobs (tr : List (Thread S n × Event Q J)) :
    ((taken tr).flatMap fun x => x.2.toList) = tr.flatMap fun e => e.2.takes.reduceOption := by
  unfold taken
  rw [flatMap_assoc]
  apply flatMap_congr
  intro e _
  cases e.2 with
  | queue q ev =>
    rw [Event.taken, Event.takes, flatMap_map, reduceOption, filterMap_eq_flatMap_toList]
    rfl
  | _ => rfl

theorem reduceOption_map_some (xs : List J) : (xs.map some).reduceOption = xs := by
  unfold reduceOption
  rw [filterMap_map]
  exact filterMap_some

theorem sum_thread [Fintype S] {M : Type} [AddCommMonoid M] (f : Thread S n → M)
    (hsubmitter : ∀ k, f (.submitter k) = 0) (hwaiter : f .waiter = 0) :
    ∑ t, f t = ∑ i, f (.worker i) := by
  refine (Fintype.sum_of_injective Thread.worker (fun _ _ h => Thread.worker.inj h) _ f ?_
    fun _ => rfl).symm
  intro t ht
  cases t with
  | submitter k => exact hsubmitter k
  | waiter => exact hwaiter
  | worker i => exact absurd ⟨i, rfl⟩ ht

variable [DecidableEq Q] {L : Layout Q n}

/-- No item that is still to be read is overwritten, and the items come out in the order in which
they went in. -/
def QueuesSafe (L : Layout Q n) (w : World (Thread S n) (Manager S Q J n) (Pc Q J n))
    (tr : List (Thread S n × Event Q J)) : Prop :=
  ∀ q, on q (taken tr) <+: on q (queued tr) ∧
    Holds (w.shared.q q).sz (w.shared.q q).e (on q (queued tr)) (on q (taken tr)).length ∧
    ∀ t x i, place L q t (w.pc t) = .enqWrite x i → i < (w.shared.q q).sz ∧
      ∀ k, (on q (taken tr)).length ≤ k → k < (on q (queued tr)).length →
        k % (w.shared.q q).sz ≠ i

section Completion

variable [Fintype S] [DecidableEq S] {w : World (Thread S n) (Manager S Q J n) (Pc Q J n)}
  {tr : List (Thread S n × Event Q J)} {r : Int}

theorem Sound.queuesSafe (h : Sound L w tr) : QueuesSafe L w tr := by
  intro q
  have hinv := h.queues q
  refine ⟨?_, hinv.holds, fun t x i ht => hinv.write_fresh ht⟩
  rw [hinv.taken]
  exact take_prefix _ _

omit [DecidableEq Q] in
theorem holding_of_isGone {pc : Pc Q J n} (h : pc.isGone = true) : pc.holding = [none] := by
  cases pc with
  | gone e => rfl
  | _ => exact Bool.noConfusion h

omit [DecidableEq Q] in
theorem pending_of_isGone {pc : Pc Q J n} (h : pc.isGone = true) : pc.pending = [] := by
  cases pc with
  | gone e => rfl
  | _ => exact Bool.noConfusion h

theorem Sound.count_none_of_gone (h : Sound L w tr) (hgone : ∀ i, (w.pc (.worker i)).isGone = true)
    (q : Q) : (on q (taken tr)).countP Option.isNone = L.wait.count (.flag q) := by
  rw [h.count_none_taken, L.flags, sum_thread _ (fun _ => rfl) rfl]
  apply Finset.sum_congr rfl
  intro i _
  change (if L.src i = q then _ else 0) = _
  rw [holding_of_isGone (hgone i)]
  rfl

theorem Orderly.taken_eq (h : Orderly L w tr) (hr : w.pc .waiter = .returned r) (q : Q) :
    on q (taken tr) = on q (queued tr) := by
  have hreaped := h.reaped
  have hqueued := h.count_none_queued q
  rw [hr] at hreaped hqueued
  have htaken := h.count_none_of_gone hreaped.1 q
  have hpos : 0 < L.wait.count (.flag q) := by
    obtain ⟨i, hi⟩ := L.served q
    rw [L.flags]
    refine Finset.sum_pos' (fun _ _ => Nat.zero_le _) ⟨i, Finset.mem_univ i, ?_⟩
    rw [if_pos hi]
    exact Nat.one_pos
  refine (h.flushed q).eq_of_initial (h.queuesSafe q).1 (htaken.trans hqueued.symm) ?_
  rw [← hqueued] at hpos
  exact hpos

theorem Orderly.ran_perm (h : Orderly L w tr) [Fintype Q] (hr : w.pc .waiter = .returned r) :
    (ran tr).Perm (submitted tr) := by
  have hreaped := h.reaped
  have hquiet := h.quiet
  rw [hr] at hreaped hquiet
  have hidle := hquiet.resolve_left nofun
  -- No submitter holds a job back.
  have hputs : ∀ t, (on t tr).flatMap Event.puts = (on t tr).flatMap Event.called := by
    intro t
    have hpending : (w.pc t).pending = [] := by
      cases t with
      | submitter k => rw [hidle k]; rfl
      | waiter => rw [hr]; rfl
      | worker i => exact pending_of_isGone (hreaped.1 i)
    rw [← (h.threads t).puts, hpending, append_nil]
  -- No worker holds a job back.
  have hruns : ∀ t, ((on t tr).flatMap fun e => e.takes.reduceOption) =
      (on t tr).flatMap Event.runs := by
    intro t
    have hholding : (w.pc t).holding.reduceOption = [] := by
      cases t with
      | submitter k => rw [hidle k]; rfl
      | waiter => rw [hr]; rfl
      | worker i => rw [holding_of_isGone (hreaped.1 i)]; rfl
    have hhist := congrArg reduceOption (h.threads t).runs
    rw [reduceOption_append, hholding, append_nil, reduceOption_map_some, reduceOption,
      filterMap_flatMap] at hhist
    exact hhist
  have hput : (submitted tr).Perm ((queued tr).flatMap fun x => x.2.toList) := by
    rw [queued_jobs]
    refine perm_of_on (f := Event.called) (g := Event.puts) fun t => ?_
    rw [hputs t]
  have hrun : ((taken tr).flatMap fun x => x.2.toList).Perm (ran tr) := by
    rw [taken_jobs]
    refine perm_of_on (f := fun e : Event Q J => e.takes.reduceOption)
      (g := Event.runs) fun t => ?_
    rw [hruns t]
  have hqueue : ((taken tr).flatMap fun x => x.2.toList).Perm
      ((queued tr).flatMap fun x => x.2.toList) := by
    refine perm_of_on (f := Option.toList) (g := Option.toList) fun q => ?_
    rw [h.taken_eq hr q]
  exact hrun.symm.trans (hqueue.trans hput.symm)

theorem Orderly.value_eq (h : Orderly L w tr) (hr : w.pc .waiter = .returned r) :
    r = cint (failures tr) := by
  have hreaped := h.reaped
  have hquiet := h.quiet
  rw [hr] at hreaped hquiet
  have hidle := hquiet.resolve_left nofun
  have herr : ∑ t, (w.pc t).err = ∑ i, (w.pc (.worker i)).err := by
    apply sum_thread
    · intro k
      rw [hidle k]
      rfl
    · rw [hr]
      rfl
  have hfails : (failures tr : Int) = ∑ t, (((on t tr).map Event.fails).sum : Int) := by
    unfold failures
    rw [sum_on Event.fails, Nat.cast_sum]
  have hdvd : (2 : Int) ^ 32 ∣ ∑ t, ((w.pc t).err - ((on t tr).map Event.fails).sum) :=
    Finset.dvd_sum fun t _ => (h.threads t).fails
  rw [Finset.sum_sub_distrib, herr, ← hfails] at hdvd
  rw [hreaped.2]
  unfold cint
  rw [Int.bmod_eq_bmod_iff_bmod_sub_eq_zero]
  exact Int.bmod_eq_zero_of_dvd hdvd

omit [Fintype S] in
theorem on_taken_of_one {i : Fin n} (hone : ∀ j, L.src j = L.src i → j = i)
    (htakers : ∀ e ∈ tr, ∀ x ∈ e.2.taken, ∃ i, e.1 = .worker i ∧ L.src i = x.1) :
    on (L.src i) (taken tr) = (on (.worker i) tr).flatMap Event.takes := by
  induction tr with
  | nil => rfl
  | cons e tr ih =>
    have hhead : on (L.src i) e.2.taken = if e.1 = .worker i then e.2.takes else [] := by
      have htaker := htakers e mem_cons_self
      cases hev : e.2 with
      | queue q ev =>
        rw [Event.taken, on_map_key, Event.takes]
        rcases hnil : ev.takes with _ | ⟨z, zs⟩
        · rw [ite_self, ite_self]
        · obtain ⟨j, hj, hsrc⟩ :=
            htaker (q, z) (by rw [hev, Event.taken, hnil]; exact mem_cons_self)
          have hiff : q = L.src i ↔ e.1 = .worker i := by
            rw [hj, ← show L.src j = q from hsrc]
            constructor
            · intro h
              rw [hone j h]
            · intro h
              rw [Thread.worker.inj h]
          exact if_congr hiff rfl rfl
      | _ => exact (ite_self _).symm
    have htail := ih fun e he => htakers e (mem_cons_of_mem _ he)
    rw [on_cons, flatMap_append, ← htail]
    change on (L.src i) (e.2.taken ++ taken tr) = _
    rw [on_append, hhead]
    split_ifs
    · rw [flatMap_singleton]
    · rfl

/-- A worker with a queue of its own has run its jobs in the order in which they were queued. -/
theorem Orderly.ran_in_order (h : Orderly L w tr) (hr : w.pc .waiter = .returned r) {i : Fin n}
    (hone : ∀ j, L.src j = L.src i → j = i) :
    (on (.worker i) tr).flatMap Event.runs = (on (L.src i) (queued tr)).reduceOption := by
  have hreaped := h.reaped
  rw [hr] at hreaped
  have hruns := (h.threads (.worker i)).runs
  rw [holding_of_isGone (hreaped.1 i), ← on_taken_of_one hone h.takers, h.taken_eq hr] at hruns
  rw [hruns, reduceOption_append, reduceOption_map_some]
  exact (append_nil _).symm

end Completion

theorem cint_eq_iff (k : Nat) : (k : Int) = cint k ↔ k < 2 ^ 31 := by
  unfold cint
  rw [Int.bmod_def]
  split
  · omega
  · omega

/-- All jobs that were submitted have been run once, and the result is the number of failures. -/
def Completed (tr : List (Thread S n × Event Q J)) (r : Int) : Prop :=
  (ran tr).Perm (submitted tr) ∧ r = failures tr

/-- Each worker has run the jobs of its queue in the order in which they were queued. -/
def InOrder [DecidableEq S] (tr : List (Thread S n × Event (Fin n) J)) : Prop :=
  ∀ i, (on (.worker i) tr).flatMap Event.runs = (on i (queued tr)).reduceOption

theorem orderly_run [Fintype S] [DecidableEq S] {sz : Nat} {sched : List (Thread S n × Act J)}
    {w : World (Thread S n) (Manager S Q J n) (Pc Q J n)} {tr : List (Thread S n × Event Q J)}
    (hd : Run.StepsMeet (step (trans L)) Disciplined (new L sz) sched)
    (hrun : exec (trans L) (new L sz) sched = some (w, tr)) : Orderly L w tr :=
  exec_invariant_of (fun _ _ _ _ _ h hC hr => orderly_step h hC hr) (orderly_new L sz) hd hrun

/-- Whatever the threads do: the queues are used as they should be, and if all jobs are submitted
before the call that waits, then all of them have been run once when it returns, by a work manager
in the order of each queue. What it returns is the number of failures exactly if an `int` can hold
it. -/
theorem managers_lose_no_job_iff (S J : Type) [Fintype S] [DecidableEq S] (n : Nat) [NeZero n]
    (sz : Nat) :
    (∀ (sched : List (Thread S n × Act J)) w tr,
      Run.StepsMeet (step (trans (job n))) Disciplined (new (job n) sz) sched →
      exec (trans (job n)) (new (job n) sz) sched = some (w, tr) →
      ((QueuesSafe (job n) w tr ∧ ∀ r, w.pc .waiter = .returned r → Completed tr r) ↔
        ∀ r, w.pc .waiter = .returned r → failures tr < 2 ^ 31)) ∧
    ∀ (sched : List (Thread S n × Act J)) w tr,
      Run.StepsMeet (step (trans (work n))) Disciplined (new (work n) sz) sched →
      exec (trans (work n)) (new (work n) sz) sched = some (w, tr) →
      ((QueuesSafe (work n) w tr ∧
          ∀ r, w.pc .waiter = .returned r → Completed tr r ∧ InOrder tr) ↔
        ∀ r, w.pc .waiter = .returned r → failures tr < 2 ^ 31) := by
  refine ⟨fun sched w tr hd hrun => ?_, fun sched w tr hd hrun => ?_⟩
  · have h := orderly_run hd hrun
    constructor
    · rintro ⟨-, hcompleted⟩ r hr
      rw [← cint_eq_iff, ← h.value_eq hr]
      exact (hcompleted r hr).2.symm
    · intro hfew
      refine ⟨h.queuesSafe, fun r hr => ⟨h.ran_perm hr, ?_⟩⟩
      rw [h.value_eq hr, ← (cint_eq_iff _).mpr (hfew r hr)]
  · have h := orderly_run hd hrun
    constructor
    · rintro ⟨-, hcompleted⟩ r hr
      rw [← cint_eq_iff, ← h.value_eq hr]
      exact (hcompleted r hr).1.2.symm
    · intro hfew
      refine ⟨h.queuesSafe, fun r hr => ⟨⟨h.ran_perm hr, ?_⟩, fun i => ?_⟩⟩
      · rw [h.value_eq hr, ← (cint_eq_iff _).mpr (hfew r hr)]
      · exact h.ran_in_order (L := work n) hr fun j hj => hj

def twoJobs : List (Thread Unit 2 × Act Nat) :=
  (Thread.submitter (), Act.submit 0 7) :: replicate 6 (Thread.submitter (), Act.step) ++
    (Thread.submitter (), Act.submit 1 8) :: replicate 6 (Thread.submitter (), Act.step) ++
    replicate 6 (Thread.worker 1, Act.step) ++ replicate 6 (Thread.worker 0, Act.step) ++
    [(Thread.worker 0, Act.run (-1)), (Thread.waiter, Act.wait), (Thread.worker 1, Act.run 0)]

def jobEnd : List (Thread Unit 2 × Act Nat) :=
  replicate 7 (Thread.waiter, Act.step) ++ replicate 8 (Thread.worker 1, Act.step) ++
    replicate 8 (Thread.waiter, Act.step) ++ replicate 8 (Thread.worker 0, Act.step) ++
    replicate 4 (Thread.waiter, Act.step)

def workEnd : List (Thread Unit 2 × Act Nat) :=
  replicate 14 (Thread.waiter, Act.step) ++ replicate 8 (Thread.worker 1, Act.step) ++
    replicate 8 (Thread.worker 0, Act.step) ++ replicate 5 (Thread.waiter, Act.step)

theorem managers_lose_no_job_twoJobs :
    (∃ w tr, exec (trans (job 2)) (new (job 2) 4) (twoJobs ++ jobEnd) = some (w, tr) ∧
      w.pc .waiter = .returned 1 ∧ Completed tr 1) ∧
    ∃ w tr, exec (trans (work 2)) (new (work 2) 4) (twoJobs ++ workEnd) = some (w, tr) ∧
      w.pc .waiter = .returned 1 ∧ Completed tr 1 ∧ InOrder tr := by
  have hjob : (exec (trans (job 2)) (new (job 2) 4) (twoJobs ++ jobEnd)).map
      (fun r => (r.1.pc .waiter, failures r.2)) = some (.returned 1, 1) := by decide +kernel
  have hwork : (exec (trans (work 2)) (new (work 2) 4) (twoJobs ++ workEnd)).map
      (fun r => (r.1.pc .waiter, failures r.2)) = some (.returned 1, 1) := by decide +kernel
  obtain ⟨⟨w, tr⟩, hrun, hend⟩ := Option.map_eq_some_iff.mp hjob
  obtain ⟨⟨w', tr'⟩, hrun', hend'⟩ := Option.map_eq_some_iff.mp hwork
  obtain ⟨hr, hfails⟩ := Prod.mk.inj hend
  obtain ⟨hr', hfails'⟩ := Prod.mk.inj hend'
  simp only at hr hfails hr' hfails'
  refine ⟨⟨w, tr, hrun, hr, ?_⟩, w', tr', hrun', hr', ?_⟩
  · refine (((managers_lose_no_job_iff Unit Nat 2 4).1 (twoJobs ++ jobEnd) w tr
      (by decide +kernel) hrun).mpr fun r _ => ?_).2 1 hr
    rw [hfails]
    decide
  · refine (((managers_lose_no_job_iff Unit Nat 2 4).2 (twoJobs ++ workEnd) w' tr'
      (by decide +kernel) hrun').mpr fun r _ => ?_).2 1 hr'
    rw [hfails']
    decide

section Overflow

def waiting (e₀ e₁ : Int) (slots : Nat → Option Unit) :
    World (Thread Unit 2) (Manager Unit Unit Unit 2) (Pc Unit Unit 2) where
  shared := ⟨fun _ => ⟨0, 0, 1, none, 0, 1, slots⟩, none, (), 0, fun _ => none⟩
  pc
    | .worker i => .get (if i = 0 then e₀ else e₁) .deqWait
    | _ => .idle

def failingJob (i : Fin 2) : List (Thread Unit 2 × Act Unit) :=
  (Thread.submitter (), Act.submit 0 ()) :: replicate 6 (Thread.submitter (), Act.step) ++
    replicate 6 (Thread.worker i, Act.step) ++ [(Thread.worker i, Act.run (-1))]

def Fails (w : World (Thread Unit 2) (Manager Unit Unit Unit 2) (Pc Unit Unit 2))
    (sched : List (Thread Unit 2 × Act Unit))
    (w' : World (Thread Unit 2) (Manager Unit Unit Unit 2) (Pc Unit Unit 2)) (k : Nat) : Prop :=
  Run.StepsMeet (step (trans (job 2))) Disciplined w sched ∧
    ∃ tr, exec (trans (job 2)) w sched = some (w', tr) ∧ failures tr = k

theorem Fails.append {w w' w'' : World (Thread Unit 2) (Manager Unit Unit Unit 2) (Pc Unit Unit 2)}
    {sched sched' : List (Thread Unit 2 × Act Unit)} {k k' : Nat} (h : Fails w sched w' k)
    (h' : Fails w' sched' w'' k') : Fails w (sched ++ sched') w'' (k + k') := by
  obtain ⟨hd, tr, hrun, hk⟩ := h
  obtain ⟨hd', tr', hrun', hk'⟩ := h'
  refine ⟨hd.append hrun hd', tr ++ tr', Run.run_append hrun hrun', ?_⟩
  unfold failures at hk hk' ⊢
  rw [map_append, sum_append, hk, hk']

theorem world_ext {w w' : World (Thread Unit 2) (Manager Unit Unit Unit 2) (Pc Unit Unit 2)}
    (hshared : w.shared = w'.shared)
    (hsubmitter : w.pc (.submitter ()) = w'.pc (.submitter ()))
    (hzero : w.pc (.worker 0) = w'.pc (.worker 0)) (hone : w.pc (.worker 1) = w'.pc (.worker 1))
    (hwaiter : w.pc .waiter = w'.pc .waiter) : w = w' := by
  obtain ⟨m, pc⟩ := w
  obtain ⟨m', pc'⟩ := w'
  obtain rfl : m = m' := hshared
  have hpc : pc = pc' := by
    funext t
    cases t with
    | submitter u => exact hsubmitter
    | worker i => match i with
      | 0 => exact hzero
      | 1 => exact hone
    | waiter => exact hwaiter
  rw [hpc]

theorem disciplined_of_idle {w : World (Thread S n) (Manager S Q J n) (Pc Q J n)} [DecidableEq S]
    {sched : List (Thread S n × Act J)} (hw : w.pc .waiter = .idle)
    (hsched : ∀ i ∈ sched, i.1 ≠ .waiter ∧ i.2 ≠ .wait) :
    Run.StepsMeet (step (trans L)) Disciplined w sched := by
  induction sched generalizing w with
  | nil => trivial
  | cons i sched ih =>
    obtain ⟨ht, ha⟩ := hsched i mem_cons_self
    refine ⟨?_, fun p hp => ?_⟩
    · unfold Disciplined
      split
      · exact hw
      · next hwait => exact absurd hwait ha
      · trivial
    · obtain ⟨r, -, rfl⟩ := Option.map_eq_some_iff.mp hp
      refine ih ?_ fun j hj => hsched j (mem_cons_of_mem _ hj)
      exact (Function.update_of_ne ht.symm _ _).trans hw

theorem Fails.of_exec {w w' : World (Thread Unit 2) (Manager Unit Unit Unit 2) (Pc Unit Unit 2)}
    {sched : List (Thread Unit 2 × Act Unit)} {k : Nat} (hw : w.pc .waiter = .idle)
    (hsched : ∀ x ∈ sched, x.1 ≠ .waiter ∧ x.2 ≠ .wait)
    (h : ∃ w'' tr, exec (trans (job 2)) w sched = some (w'', tr) ∧ failures tr = k ∧ w'' = w') :
    Fails w sched w' k := by
  obtain ⟨w'', tr, hrun, htr, rfl⟩ := h
  exact ⟨disciplined_of_idle hw hsched, tr, hrun, htr⟩

def oneQueued (e₀ e₁ : Int) (slots : Nat → Option Unit) :
    World (Thread Unit 2) (Manager Unit Unit Unit 2) (Pc Unit Unit 2) where
  shared := ⟨fun _ => ⟨0, 0, 1, none, 1, 0, slots⟩, none, (), 0, fun _ => none⟩
  pc := (waiting e₀ e₁ slots).pc

theorem submission_oneQueued (e₀ e₁ : Int) (slots : Nat → Option Unit) :
    Fails (waiting e₀ e₁ slots)
      ((Thread.submitter (), Act.submit 0 ()) :: replicate 6 (Thread.submitter (), Act.step))
      (oneQueued e₀ e₁ (Function.update slots 0 (some ()))) 0 :=
  .of_exec rfl (by decide) ⟨_, _, rfl, rfl, world_ext rfl rfl rfl rfl rfl⟩

theorem Fails.of_oneQueued {e₀ e₁ : Int} {slots : Nat → Option Unit} {i : Fin 2} {k : Nat}
    {w : World (Thread Unit 2) (Manager Unit Unit Unit 2) (Pc Unit Unit 2)}
    (h : Fails (oneQueued e₀ e₁ (Function.update slots 0 (some ())))
      (replicate 6 (Thread.worker i, Act.step) ++ [(Thread.worker i, Act.run (-1))]) w k) :
    Fails (waiting e₀ e₁ slots) (failingJob i) w k := by
  unfold failingJob
  rw [append_assoc, ← Nat.zero_add k]
  exact (submission_oneQueued e₀ e₁ slots).append h

theorem failingJob_zero (e₀ e₁ : Int) (slots : Nat → Option Unit) :
    Fails (waiting e₀ e₁ slots) (failingJob 0)
      (waiting (cint (e₀ + 1)) e₁ (Function.update slots 0 (some ()))) 1 :=
  .of_oneQueued (.of_exec rfl (by decide) ⟨_, _, rfl, rfl, world_ext rfl rfl rfl rfl rfl⟩)

theorem failingJob_one (e₀ e₁ : Int) (slots : Nat → Option Unit) :
    Fails (waiting e₀ e₁ slots) (failingJob 1)
      (waiting e₀ (cint (e₁ + 1)) (Function.update slots 0 (some ()))) 1 :=
  .of_oneQueued (.of_exec rfl (by decide) ⟨_, _, rfl, rfl, world_ext rfl rfl rfl rfl rfl⟩)

theorem Fails.iterate {W : Nat → World (Thread Unit 2) (Manager Unit Unit Unit 2) (Pc Unit Unit 2)}
    {sched : List (Thread Unit 2 × Act Unit)} {bound : Nat}
    (h : ∀ k, k < bound → Fails (W k) sched (W (k + 1)) 1) {k : Nat} (hk : k ≤ bound) :
    ∃ sched', Fails (W 0) sched' (W k) k := by
  induction k with
  | zero => exact ⟨[], trivial, [], rfl, rfl⟩
  | succ k ih =>
    obtain ⟨sched', hrest⟩ := ih (Nat.le_of_succ_le hk)
    exact ⟨sched' ++ sched, hrest.append (h k hk)⟩

def slotsAfter : Nat → Nat → Option Unit
  | 0 => fun _ => none
  | _ + 1 => Function.update (fun _ => none) 0 (some ())

theorem slotsAfter_succ (k : Nat) :
    Function.update (slotsAfter k) 0 (some ()) = slotsAfter (k + 1) := by
  cases k with
  | zero => rfl
  | succ k => exact Function.update_idem _ _ _

theorem cint_succ {k : Nat} (hk : k < 2 ^ 30) : cint ((k : Int) + 1) = (k + 1 : Nat) := by
  have hlt : k + 1 < 2 ^ 31 := by omega
  exact ((cint_eq_iff (k + 1)).mpr hlt).symm

def lastSteps : List (Thread Unit 2 × Act Unit) :=
  replicate 7 (Thread.waiter, Act.step) ++ replicate 8 (Thread.worker 0, Act.step) ++
    replicate 8 (Thread.waiter, Act.step) ++ replicate 8 (Thread.worker 1, Act.step) ++
    replicate 4 (Thread.waiter, Act.step)

theorem many_failures : ∃ sched, Fails (new (job 2) 1) sched
    (waiting (2 ^ 30 : Nat) (2 ^ 30 : Nat) (slotsAfter 1)) (2 ^ 31) := by
  have hnew : new (job 2) 1 = waiting (0 : Nat) (0 : Nat) (slotsAfter 0) :=
    world_ext rfl rfl rfl rfl rfl
  have hzero : ∀ k : Nat, k < 2 ^ 30 → Fails (waiting k (0 : Nat) (slotsAfter k)) (failingJob 0)
      (waiting (k + 1 : Nat) (0 : Nat) (slotsAfter (k + 1))) 1 := by
    intro k hk
    have hone := failingJob_zero k (0 : Nat) (slotsAfter k)
    rwa [cint_succ hk, slotsAfter_succ] at hone
  have hone : ∀ k : Nat, k < 2 ^ 30 → Fails (waiting (2 ^ 30 : Nat) k (slotsAfter 1)) (failingJob 1)
      (waiting (2 ^ 30 : Nat) (k + 1 : Nat) (slotsAfter 1)) 1 := by
    intro k hk
    have hone := failingJob_one (2 ^ 30 : Nat) k (slotsAfter 1)
    rwa [cint_succ hk, slotsAfter_succ] at hone
  obtain ⟨sched₀, h₀⟩ := Fails.iterate (W := fun k => waiting k (0 : Nat) (slotsAfter k)) hzero
    (Nat.le_refl _)
  obtain ⟨sched₁, h₁⟩ := Fails.iterate (W := fun k => waiting (2 ^ 30 : Nat) k (slotsAfter 1)) hone
    (Nat.le_refl _)
  have hslots : slotsAfter (2 ^ 30) = slotsAfter 1 := rfl
  simp only [hslots] at h₀
  rw [hnew]
  exact ⟨sched₀ ++ sched₁, h₀.append h₁⟩

theorem job_manager_miscounts :
    ∃ sched w tr, Run.StepsMeet (step (trans (job 2))) Disciplined (new (job 2) 1) sched ∧
      exec (trans (job 2)) (new (job 2) 1 : World (Thread Unit 2) (Manager Unit Unit Unit 2) _)
        sched = some (w, tr) ∧
      w.pc .waiter = .returned (-2 ^ 31) ∧ failures tr = 2 ^ 31 ∧
      ¬ (QueuesSafe (job 2) w tr ∧ ∀ r, w.pc .waiter = .returned r → Completed tr r) := by
  obtain ⟨sched, h⟩ := many_failures
  have hlast : (exec (trans (job 2))
      (waiting (2 ^ 30 : Nat) (2 ^ 30 : Nat) (slotsAfter 1))
      ((.waiter, .wait) :: lastSteps)).map (fun r => (r.1.pc .waiter, failures r.2)) =
        some (.returned (-2 ^ 31), 0) := by decide
  obtain ⟨⟨w, tr⟩, hrun, hend⟩ := Option.map_eq_some_iff.mp hlast
  obtain ⟨hr, hnone⟩ := Prod.mk.inj hend
  have hsteps : ∀ i ∈ lastSteps, i.2 = .step := by decide
  have hwait : Fails (waiting (2 ^ 30 : Nat) (2 ^ 30 : Nat) (slotsAfter 1))
      ((.waiter, .wait) :: lastSteps) w 0 := by
    refine ⟨⟨fun _ => rfl, fun p _ => Run.stepsMeet_of_forall fun s i hi => ?_⟩, tr, hrun, hnone⟩
    unfold Disciplined
    rw [hsteps i hi]
    trivial
  obtain ⟨hd, tr', hrun', hfails⟩ := h.append hwait
  refine ⟨_, w, tr', hd, hrun', hr, hfails, fun hclaim => ?_⟩
  have hvalue := (hclaim.2 _ hr).2
  rw [hfails] at hvalue
  exact absurd hvalue (by decide)

end Overflow
end PortableLib.JobManager
