import Mathlib.Algebra.BigOperators.Fin
import Mathlib.Data.Fintype.Basic
import Mathlib.Data.List.FinRange
import Mathlib.Tactic.DeriveFintype
import PortableLib.SyncQ.Queue

/-! The job manager of `job.c` and the work manager of `work.c`. They are one program but for the
queues: the workers of a job manager share one queue, each worker of a work manager has its own.
A `Layout` says which. Threads that submit, the workers and the thread that waits take turns, one
semaphore, mutex or queue action at a time. -/

namespace PortableLib.JobManager
open List SyncQ Interleave

variable {S Q J : Type} {n : Nat}

inductive Thread (S : Type) (n : Nat)
  | submitter (k : S)
  | worker (i : Fin n)
  | waiter
  deriving DecidableEq, Repr, Fintype

/-- What `job_manager_wait` and `work_manager_wait` do, with their loops unrolled. -/
inductive Instr (Q : Type) (n : Nat)
  /-- Submit a null pointer. -/
  | flag (q : Q)
  /-- Wait for the semaphore `done`. -/
  | acknowledge
  /-- Join a thread and add what it returned. -/
  | reap (i : Fin n)
  deriving DecidableEq, Repr

def Instr.reaped : Instr Q n → Option (Fin n)
  | .reap i => some i
  | _ => none

/-- There is a worker for each queue, the waiting thread flags each worker once and reaps each
worker once. -/
structure Layout (Q : Type) [DecidableEq Q] (n : Nat) where
  /-- The queue that a worker gets its jobs from. -/
  src : Fin n → Q
  /-- The queue for the argument `next`, unless it is to be balanced. -/
  target : Int → Option Q
  first : Q
  succ : Q → Q
  wait : List (Instr Q n)
  served : ∀ q, ∃ i, src i = q
  flags : ∀ q, wait.count (.flag q) = ∑ i, if src i = q then 1 else 0
  reaps : wait.filterMap Instr.reaped = finRange n

theorem filterMap_reaped_reap (xs : List (Fin n)) :
    (xs.map fun i => (Instr.reap i : Instr Q n)).filterMap Instr.reaped = xs := by
  rw [filterMap_map]
  exact filterMap_some

theorem count_flag_reap [DecidableEq Q] (q : Q) (xs : List (Fin n)) :
    (xs.map Instr.reap).count (Instr.flag q) = 0 := by
  rw [count_eq_zero]
  intro hmem
  obtain ⟨i, -, hi⟩ := mem_map.mp hmem
  exact absurd hi nofun

/-- `job_manager_wait`: flag and wait once for each thread, then reap. -/
def jobWait (n : Nat) : List (Instr Unit n) :=
  (replicate n [.flag (), .acknowledge]).flatten ++ (finRange n).map .reap

/-- `work_manager_wait`: flag all threads, wait for all of them, then reap. -/
def workWait (n : Nat) : List (Instr (Fin n) n) :=
  (finRange n).map .flag ++ replicate n .acknowledge ++ (finRange n).map .reap

theorem jobWait_flags (n : Nat) : (jobWait n).count (.flag ()) = n := by
  have hloop : ∀ k, ((replicate k [.flag (), .acknowledge]).flatten : List (Instr Unit n)).count
      (.flag ()) = k := by
    intro k
    induction k with
    | zero => rfl
    | succ k ih => simp [replicate_succ, ih]
  unfold jobWait
  rw [count_append, hloop, count_flag_reap]
  rfl

theorem jobWait_reaps (n : Nat) : (jobWait n).filterMap Instr.reaped = finRange n := by
  have hloop : ∀ k, ((replicate k [.flag (), .acknowledge]).flatten : List (Instr Unit n)).filterMap
      Instr.reaped = [] := by
    intro k
    induction k with
    | zero => rfl
    | succ k ih =>
      rw [replicate_succ, flatten_cons, filterMap_append, ih]
      rfl
  unfold jobWait
  rw [filterMap_append, hloop, filterMap_reaped_reap]
  rfl

theorem workWait_flags (n : Nat) (q : Fin n) : (workWait n).count (.flag q) = 1 := by
  have hack : (replicate n (Instr.acknowledge : Instr (Fin n) n)).count (.flag q) = 0 := by
    rw [count_replicate]
    rfl
  have hflag : ((finRange n).map (Instr.flag : Fin n → Instr (Fin n) n)).count (.flag q) = 1 := by
    rw [count_map_of_injective _ _ fun _ _ h => Instr.flag.inj h]
    exact count_eq_one_of_mem (nodup_finRange n) (mem_finRange q)
  unfold workWait
  rw [count_append, count_append, hflag, hack, count_flag_reap]

theorem workWait_reaps (n : Nat) : (workWait n).filterMap Instr.reaped = finRange n := by
  have hflag : ((finRange n).map (Instr.flag : Fin n → Instr (Fin n) n)).filterMap
      Instr.reaped = [] := by
    rw [filterMap_map, filterMap_eq_nil_iff]
    intro i _
    rfl
  have hack : (replicate n (Instr.acknowledge : Instr (Fin n) n)).filterMap Instr.reaped = [] := by
    rw [filterMap_eq_nil_iff]
    intro x hx
    rw [eq_of_mem_replicate hx]
    rfl
  unfold workWait
  rw [filterMap_append, filterMap_append, hflag, hack, filterMap_reaped_reap]
  rfl

def job (n : Nat) [NeZero n] : Layout Unit n where
  src _ := ()
  target _ := some ()
  first := ()
  succ _ := ()
  wait := jobWait n
  served _ := ⟨0, rfl⟩
  flags _ := by
    rw [jobWait_flags]
    simp
  reaps := jobWait_reaps n

def work (n : Nat) [NeZero n] : Layout (Fin n) n where
  src i := i
  target next := if h : next < 0 ∨ (n : Int) ≤ next then none
    else some ⟨next.toNat, by omega⟩
  first := 0
  succ i := i + 1
  wait := workWait n
  served q := ⟨q, rfl⟩
  flags q := by
    rw [workWait_flags]
    simp
  reaps := workWait_reaps n

/-- A value that is stored in an `int`. -/
def cint (x : Int) : Int := x.bmod (2 ^ 32)

structure Manager (S Q J : Type) (n : Nat) where
  q : Q → Queue (Thread S n) (Option J)
  lock : Option (Thread S n)
  next : Q
  done : Nat
  /-- What `pthread_join` returns, once the thread has ended. -/
  status : Fin n → Option Int

inductive Pc (Q J : Type) (n : Nat)
  | idle
  /-- `work_manager_submit_work` is about to take the lock. -/
  | balanceLock (j : J)
  | balance (j : J)
  | balanceUnlock (j : J) (q : Q)
  | submit (q : Q) (p : Place (Option J))
  /-- A worker waits for its next job, after `err` failures. -/
  | get (err : Int) (p : Place (Option J))
  | run (err : Int) (j : J)
  | post (err : Int)
  | exit (err : Int)
  | gone (err : Int)
  /-- The waiting thread, with what is left to do. -/
  | wait (todo : List (Instr Q n)) (err : Int)
  | flag (q : Q) (p : Place (Option J)) (todo : List (Instr Q n)) (err : Int)
  | returned (r : Int)
  deriving DecidableEq

inductive Act (J : Type)
  | submit (next : Int) (j : J)
  | wait
  /-- The job function returns. -/
  | run (res : Int)
  | step
  deriving DecidableEq

inductive Event (Q J : Type)
  | tau
  | submitted (j : J)
  | queue (q : Q) (e : SyncQ.Event (Option J))
  | ran (j : J) (res : Int)
  deriving DecidableEq, Repr

variable [DecidableEq Q]

def Manager.setQueue (m : Manager S Q J n) (q : Q) (s : Queue (Thread S n) (Option J)) :
    Manager S Q J n := { m with q := Function.update m.q q s }

/-- One step of `SYNCQ_ENQ` or `SYNCQ_DEQ` on a queue of the manager. -/
def Manager.call (m : Manager S Q J n) (t : Thread S n) (q : Q) (p : Place (Option J))
    (k : Place (Option J) → SyncQ.Event (Option J) → Pc Q J n) :
    Option (Manager S Q J n × Pc Q J n × Event Q J) :=
  (SyncQ.next t (m.q q) p).map fun r => (m.setQueue q r.1, k r.2.1 r.2.2, .queue q r.2.2)

/-- Where a worker goes from `SYNCQ_DEQ`: a null pointer ends its loop. -/
def afterGet (err : Int) (p : Place (Option J)) : SyncQ.Event (Option J) → Pc Q J n
  | .deqDone (some j) => .run err j
  | .deqDone none => .post err
  | _ => .get err p

/-- A call of `SYNCQ_ENQ` goes on at `p` until it is done. -/
def afterPut (done rest : Pc Q J n) : SyncQ.Event (Option J) → Pc Q J n
  | .enqDone => done
  | _ => rest

def threadFunc (L : Layout Q n) (i : Fin n) (m : Manager S Q J n) :
    Pc Q J n → Option (Manager S Q J n × Pc Q J n × Event Q J)
  | .get err p => m.call (.worker i) (L.src i) p (afterGet err)
  | .post err => some ({ m with done := m.done + 1 }, .exit err, .tau)
  | .exit err =>
    some ({ m with status := Function.update m.status i (some err) }, .gone err, .tau)
  | _ => none

/-- `job_manager_submit_job` and `work_manager_submit_work`. -/
def submitStep (L : Layout Q n) (k : S) (m : Manager S Q J n) :
    Pc Q J n → Option (Manager S Q J n × Pc Q J n × Event Q J)
  | .balanceLock j => if m.lock.isNone then
      some ({ m with lock := some (.submitter k) }, .balance j, .tau) else none
  | .balance j => some ({ m with next := L.succ m.next }, .balanceUnlock j m.next, .tau)
  | .balanceUnlock j q => some ({ m with lock := none }, .submit q (.enqWait (some j)), .tau)
  | .submit q p => m.call (.submitter k) q p fun p' => afterPut .idle (.submit q p')
  | _ => none

/-- `job_manager_wait` and `work_manager_wait`. -/
def waitStep (m : Manager S Q J n) :
    Pc Q J n → Option (Manager S Q J n × Pc Q J n × Event Q J)
  | .wait (.flag q :: todo) err => some (m, .flag q (.enqWait none) todo err, .tau)
  | .wait (.acknowledge :: todo) err =>
    if m.done = 0 then none else some ({ m with done := m.done - 1 }, .wait todo err, .tau)
  | .wait (.reap i :: todo) err => (m.status i).map fun e => (m, .wait todo (err + e), .tau)
  | .wait [] err => some (m, .returned (cint err), .tau)
  | .flag q p todo err =>
    m.call .waiter q p fun p' => afterPut (.wait todo err) (.flag q p' todo err)
  | _ => none

def trans (L : Layout Q n) (t : Thread S n) (m : Manager S Q J n) (pc : Pc Q J n) :
    Act J → Option (Manager S Q J n × Pc Q J n × Event Q J)
  | .submit nxt j => match t, pc with
    | .submitter _, .idle => some (m, match L.target nxt with
        | some q => .submit q (.enqWait (some j))
        | none => .balanceLock j, .submitted j)
    | _, _ => none
  | .wait => match t, pc with
    | .waiter, .idle => some (m, .wait L.wait 0, .tau)
    | _, _ => none
  | .run res => match t, pc with
    | .worker _, .run err j =>
      some (m, .get (if res < 0 then cint (err + 1) else err) .deqWait, .ran j res)
    | _, _ => none
  | .step => match t with
    | .submitter k => submitStep L k m pc
    | .worker i => threadFunc L i m pc
    | .waiter => waitStep m pc

inductive Trans (L : Layout Q n) (m : Manager S Q J n) :
    Thread S n → Pc Q J n → Act J → Manager S Q J n → Pc Q J n → Event Q J → Prop
  | submit {k : S} {nxt : Int} {j : J} {q : Q} (htarget : L.target nxt = some q) :
    Trans L m (.submitter k) .idle (.submit nxt j) m (.submit q (.enqWait (some j))) (.submitted j)
  | submitAny {k : S} {nxt : Int} {j : J} (htarget : L.target nxt = none) :
    Trans L m (.submitter k) .idle (.submit nxt j) m (.balanceLock j) (.submitted j)
  | balanceLock {k : S} {j : J} (hfree : m.lock = none) :
    Trans L m (.submitter k) (.balanceLock j) .step { m with lock := some (.submitter k) }
      (.balance j) .tau
  | balance {k : S} {j : J} : Trans L m (.submitter k) (.balance j) .step
      { m with next := L.succ m.next } (.balanceUnlock j m.next) .tau
  | balanceUnlock {k : S} {j : J} {q : Q} : Trans L m (.submitter k) (.balanceUnlock j q) .step
      { m with lock := none } (.submit q (.enqWait (some j))) .tau
  | put {k : S} {q : Q} {p : Place (Option J)}
      {s : Queue (Thread S n) (Option J) × Place (Option J) × SyncQ.Event (Option J)}
      (hs : SyncQ.next (.submitter k) (m.q q) p = some s) :
    Trans L m (.submitter k) (.submit q p) .step (m.setQueue q s.1)
      (afterPut .idle (.submit q s.2.1) s.2.2) (.queue q s.2.2)
  | get {i : Fin n} {err : Int} {p : Place (Option J)}
      {s : Queue (Thread S n) (Option J) × Place (Option J) × SyncQ.Event (Option J)}
      (hs : SyncQ.next (.worker i) (m.q (L.src i)) p = some s) :
    Trans L m (.worker i) (.get err p) .step (m.setQueue (L.src i) s.1)
      (afterGet err s.2.1 s.2.2) (.queue (L.src i) s.2.2)
  | run {i : Fin n} {err res : Int} {j : J} : Trans L m (.worker i) (.run err j) (.run res) m
      (.get (if res < 0 then cint (err + 1) else err) .deqWait) (.ran j res)
  | post {i : Fin n} {err : Int} :
    Trans L m (.worker i) (.post err) .step { m with done := m.done + 1 } (.exit err) .tau
  | exit {i : Fin n} {err : Int} : Trans L m (.worker i) (.exit err) .step
      { m with status := Function.update m.status i (some err) } (.gone err) .tau
  | wait : Trans L m .waiter .idle .wait m (.wait L.wait 0) .tau
  | beginFlag {q : Q} {todo : List (Instr Q n)} {err : Int} :
    Trans L m .waiter (.wait (.flag q :: todo) err) .step m (.flag q (.enqWait none) todo err) .tau
  | flag {q : Q} {p : Place (Option J)} {todo : List (Instr Q n)} {err : Int}
      {s : Queue (Thread S n) (Option J) × Place (Option J) × SyncQ.Event (Option J)}
      (hs : SyncQ.next .waiter (m.q q) p = some s) :
    Trans L m .waiter (.flag q p todo err) .step (m.setQueue q s.1)
      (afterPut (.wait todo err) (.flag q s.2.1 todo err) s.2.2) (.queue q s.2.2)
  | acknowledge {todo : List (Instr Q n)} {err : Int} (hdone : m.done ≠ 0) :
    Trans L m .waiter (.wait (.acknowledge :: todo) err) .step { m with done := m.done - 1 }
      (.wait todo err) .tau
  | reap {i : Fin n} {todo : List (Instr Q n)} {err e : Int} (he : m.status i = some e) :
    Trans L m .waiter (.wait (.reap i :: todo) err) .step m (.wait todo (err + e)) .tau
  | finish {err : Int} : Trans L m .waiter (.wait [] err) .step m (.returned (cint err)) .tau

section Inversion

variable {L : Layout Q n} {m : Manager S Q J n} {pc : Pc Q J n}
  {r : Manager S Q J n × Pc Q J n × Event Q J}

theorem submitStep_inv {k : S} (hr : submitStep L k m pc = some r) :
    Trans L m (.submitter k) pc .step r.1 r.2.1 r.2.2 := by
  cases pc with
  | balanceLock j =>
    rw [submitStep] at hr
    split at hr
    · next hfree =>
      obtain rfl := Option.some.inj hr
      exact .balanceLock (Option.isNone_iff_eq_none.mp hfree)
    · cases hr
  | balance j =>
    obtain rfl := Option.some.inj hr
    exact .balance
  | balanceUnlock j q =>
    obtain rfl := Option.some.inj hr
    exact .balanceUnlock
  | submit q p =>
    obtain ⟨s, hs, rfl⟩ := Option.map_eq_some_iff.mp hr
    exact .put hs
  | _ => cases hr

theorem threadFunc_inv {i : Fin n} (hr : threadFunc L i m pc = some r) :
    Trans L m (.worker i) pc .step r.1 r.2.1 r.2.2 := by
  cases pc with
  | get err p =>
    obtain ⟨s, hs, rfl⟩ := Option.map_eq_some_iff.mp hr
    exact .get hs
  | post err =>
    obtain rfl := Option.some.inj hr
    exact .post
  | exit err =>
    obtain rfl := Option.some.inj hr
    exact .exit
  | _ => cases hr

theorem waitStep_inv (hr : waitStep m pc = some r) :
    Trans L m .waiter pc .step r.1 r.2.1 r.2.2 := by
  cases pc with
  | wait todo err =>
    cases todo with
    | nil =>
      obtain rfl := Option.some.inj hr
      exact .finish
    | cons instr todo =>
      cases instr with
      | flag q =>
        obtain rfl := Option.some.inj hr
        exact .beginFlag
      | acknowledge =>
        rw [waitStep] at hr
        split at hr
        · cases hr
        · next hdone =>
          obtain rfl := Option.some.inj hr
          exact .acknowledge hdone
      | reap i =>
        obtain ⟨e, he, rfl⟩ := Option.map_eq_some_iff.mp hr
        exact .reap he
  | flag q p todo err =>
    obtain ⟨s, hs, rfl⟩ := Option.map_eq_some_iff.mp hr
    exact .flag hs
  | _ => cases hr

theorem trans_inv {t : Thread S n} {a : Act J} (hr : trans L t m pc a = some r) :
    Trans L m t pc a r.1 r.2.1 r.2.2 := by
  cases a with
  | submit nxt j =>
    simp only [trans] at hr
    split at hr
    · obtain rfl := Option.some.inj hr
      cases htarget : L.target nxt with
      | none => exact .submitAny htarget
      | some q => exact .submit htarget
    · cases hr
  | wait =>
    simp only [trans] at hr
    split at hr
    · obtain rfl := Option.some.inj hr
      exact .wait
    · cases hr
  | run res =>
    simp only [trans] at hr
    split at hr
    · obtain rfl := Option.some.inj hr
      exact .run
    · cases hr
  | step =>
    cases t with
    | submitter k => exact submitStep_inv hr
    | worker i => exact threadFunc_inv hr
    | waiter => exact waitStep_inv hr

end Inversion

/-- The managers as their `init` functions leave them, with queues of `sz` null pointers and all
threads at the beginning of `thread_func`. -/
def new (L : Layout Q n) (sz : Nat) : World (Thread S n) (Manager S Q J n) (Pc Q J n) where
  shared := ⟨fun _ => SyncQ.init sz fun _ => none, none, L.first, 0, fun _ => none⟩
  pc
    | .worker _ => .get 0 .deqWait
    | _ => .idle

end PortableLib.JobManager
