import PortableLib.Lib.Interleave
import PortableLib.Lib.Atomic

/-! The semaphore of `darwin_sem.c`, a counter under a mutex with a condition variable. Every lock,
test, decrement, increment, unlock and broadcast is a step of its own. -/

namespace PortableLib.DarwinSem
open Interleave

variable {Tid : Type}

/-- The lock remembers its owner, and the condition variable how often it has been broadcast. -/
structure Sem (Tid : Type) where
  sVal : Nat
  sLock : Option Tid
  sCond : Nat

def semInit (val : Nat) : Sem Tid := ⟨val % 2 ^ 32, none, 0⟩

inductive Op
  | wait
  | post
  | trywait
  deriving DecidableEq, Repr

inductive Error
  | EAGAIN
  deriving DecidableEq, Repr

/-- What a call returns, and what it sets `errno` to. -/
abbrev Result := Int × Option Error

def ok : Result := (0, none)

/-- The end of `sem_trywait`. -/
def tryResult (r : Int) : Result := (r, if r ≠ 0 then some .EAGAIN else none)

abbrev Event := Mark Op Result

/-- How far a thread has come in `sem_wait`, `sem_post` or `sem_trywait`. -/
inductive Place
  | out
  | waitLock
  | waitTest
  /-- In `pthread_cond_wait`, which gives the mutex up and falls asleep in one step. -/
  | waitSleep
  /-- Asleep since the given number of broadcasts. -/
  | asleep (g : Nat)
  | waitRelock
  | waitTake
  | waitUnlock
  | postLock
  | postAdd
  | postUnlock
  | postBroadcast
  | tryLock
  | tryTest
  | tryTake
  | tryUnlock (r : Int)
  deriving DecidableEq, Repr

/-- A thread that is not in a call may begin one, and `pthread_cond_wait` may wake up without a
broadcast. -/
inductive Act
  | go
  | call (op : Op)
  | wakeup
  deriving DecidableEq, Repr

def Op.start : Op → Place
  | .wait => .waitLock
  | .post => .postLock
  | .trywait => .tryLock

/-- `pthread_mutex_lock`, which waits for the owner. -/
def lock (t : Tid) (s : Sem Tid) (p : Place) : Option (Sem Tid × Place × Event) :=
  if s.sLock.isNone then some ({ s with sLock := some t }, p, .tau) else none

def unlock (s : Sem Tid) : Sem Tid := { s with sLock := none }

/-- `s->s_val--` on an unsigned int. -/
def decrement (s : Sem Tid) : Sem Tid := { s with sVal := (s.sVal + (2 ^ 32 - 1)) % 2 ^ 32 }

/-- `s->s_val++` on an unsigned int. -/
def increment (s : Sem Tid) : Sem Tid := { s with sVal := (s.sVal + 1) % 2 ^ 32 }

/-- The next step of thread `t`, unless it has to wait. -/
def step (t : Tid) (s : Sem Tid) : Place → Option (Sem Tid × Place × Event)
  | .out => none
  | .waitLock => lock t s .waitTest
  | .waitTest => if s.sVal = 0 then some (s, .waitSleep, .tau) else some (s, .waitTake, .tau)
  | .waitSleep => some (unlock s, .asleep s.sCond, .tau)
  | .asleep g => if g < s.sCond then some (s, .waitRelock, .tau) else none
  | .waitRelock => lock t s .waitTest
  | .waitTake => some (decrement s, .waitUnlock, .effect .wait ok)
  | .waitUnlock => some (unlock s, .out, .returned .wait ok)
  | .postLock => lock t s .postAdd
  | .postAdd => some (increment s, .postUnlock, .effect .post ok)
  | .postUnlock => some (unlock s, .postBroadcast, .tau)
  | .postBroadcast => some ({ s with sCond := s.sCond + 1 }, .out, .returned .post ok)
  | .tryLock => lock t s .tryTest
  | .tryTest =>
    if 0 < s.sVal then some (s, .tryTake, .tau)
    else some (s, .tryUnlock (-1), .effect .trywait (tryResult (-1)))
  | .tryTake => some (decrement s, .tryUnlock 0, .effect .trywait (tryResult 0))
  | .tryUnlock r => some (unlock s, .out, .returned .trywait (tryResult r))

def next (t : Tid) (s : Sem Tid) (p : Place) : Act → Option (Sem Tid × Place × Event)
  | .go => step t s p
  | .call op => if p = .out then some (s, op.start, .called op) else none
  | .wakeup =>
    match p with
    | .asleep _ => some (s, .waitRelock, .tau)
    | _ => none

inductive Trans (t : Tid) (s : Sem Tid) : Place → Sem Tid → Place → Event → Prop
  | lock {p p' : Place} (hfree : s.sLock = none)
    (hp : (p = .waitLock ∧ p' = .waitTest) ∨ (p = .waitRelock ∧ p' = .waitTest) ∨
      (p = .postLock ∧ p' = .postAdd) ∨ (p = .tryLock ∧ p' = .tryTest)) :
    Trans t s p { s with sLock := some t } p' .tau
  | empty (hval : s.sVal = 0) : Trans t s .waitTest s .waitSleep .tau
  | some (hval : 0 < s.sVal) : Trans t s .waitTest s .waitTake .tau
  | sleep : Trans t s .waitSleep (unlock s) (.asleep s.sCond) .tau
  | wake {g : Nat} : Trans t s (.asleep g) s .waitRelock .tau
  | take : Trans t s .waitTake (decrement s) .waitUnlock (.effect .wait ok)
  | waitUnlock : Trans t s .waitUnlock (unlock s) .out (.returned .wait ok)
  | add : Trans t s .postAdd (increment s) .postUnlock (.effect .post ok)
  | postUnlock : Trans t s .postUnlock (unlock s) .postBroadcast .tau
  | broadcast :
    Trans t s .postBroadcast { s with sCond := s.sCond + 1 } .out (.returned .post ok)
  | trySome (hval : 0 < s.sVal) : Trans t s .tryTest s .tryTake .tau
  | refuse (hval : s.sVal = 0) :
    Trans t s .tryTest s (.tryUnlock (-1)) (.effect .trywait (tryResult (-1)))
  | tryTake : Trans t s .tryTake (decrement s) (.tryUnlock 0) (.effect .trywait (tryResult 0))
  | tryUnlock {r : Int} :
    Trans t s (.tryUnlock r) (unlock s) .out (.returned .trywait (tryResult r))
  | call {op : Op} : Trans t s .out s op.start (.called op)

section Inversion

variable {t : Tid} {s : Sem Tid} {p p' : Place} {q : Sem Tid × Place × Event}

theorem lock_inv (hq : lock t s p' = some q)
    (hp : (p = .waitLock ∧ p' = .waitTest) ∨ (p = .waitRelock ∧ p' = .waitTest) ∨
      (p = .postLock ∧ p' = .postAdd) ∨ (p = .tryLock ∧ p' = .tryTest)) :
    Trans t s p q.1 q.2.1 q.2.2 := by
  rw [lock] at hq
  split at hq
  · next hfree =>
    obtain rfl := Option.some.inj hq
    exact .lock (Option.isNone_iff_eq_none.mp hfree) hp
  · cases hq

theorem step_inv (hq : step t s p = some q) : Trans t s p q.1 q.2.1 q.2.2 := by
  cases p with
  | out => cases hq
  | waitLock => exact lock_inv hq (.inl ⟨rfl, rfl⟩)
  | waitRelock => exact lock_inv hq (.inr (.inl ⟨rfl, rfl⟩))
  | postLock => exact lock_inv hq (.inr (.inr (.inl ⟨rfl, rfl⟩)))
  | tryLock => exact lock_inv hq (.inr (.inr (.inr ⟨rfl, rfl⟩)))
  | waitTest =>
    rw [step] at hq
    split at hq
    · next hval =>
      obtain rfl := Option.some.inj hq
      exact .empty hval
    · next hval =>
      obtain rfl := Option.some.inj hq
      exact .some (Nat.pos_of_ne_zero hval)
  | asleep g =>
    rw [step] at hq
    split at hq
    · obtain rfl := Option.some.inj hq
      exact .wake
    · cases hq
  | tryTest =>
    rw [step] at hq
    split at hq
    · next hval =>
      obtain rfl := Option.some.inj hq
      exact .trySome hval
    · next hval =>
      obtain rfl := Option.some.inj hq
      exact .refuse (Nat.eq_zero_of_not_pos hval)
  | waitTake =>
    obtain rfl := Option.some.inj hq
    exact .take
  | postAdd =>
    obtain rfl := Option.some.inj hq
    exact .add
  | tryTake =>
    obtain rfl := Option.some.inj hq
    exact .tryTake
  | _ =>
    obtain rfl := Option.some.inj hq
    constructor

theorem next_inv {a : Act} (hq : next t s p a = some q) : Trans t s p q.1 q.2.1 q.2.2 := by
  cases a with
  | go => exact step_inv hq
  | call op =>
    rw [next] at hq
    split at hq
    · next hp =>
      obtain rfl := Option.some.inj hq
      rw [hp]
      exact .call
    · cases hq
  | wakeup =>
    cases p with
    | asleep g =>
      obtain rfl := Option.some.inj hq
      exact .wake
    | _ => cases hq

end Inversion

end PortableLib.DarwinSem
