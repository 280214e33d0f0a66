import Mathlib.Algebra.Ring.Nat
import PortableLib.Lib.Circular
import PortableLib.Lib.Interleave

/-! The producer and consumer queue of `syncq.h`, one step for each semaphore, mutex and slot
action and one for each index that moves. A waiting call has no step. -/

namespace PortableLib.SyncQ
open Circular

variable {Tid α : Type}

/-- The queue and its `__syncobj`. The lock remembers its owner. -/
structure Queue (Tid α : Type) where
  rd : Nat
  wr : Nat
  sz : Nat
  lock : Option Tid
  notempty : Nat
  notfull : Nat
  e : Nat → α

/-- `__syncobj_init`, where it succeeds: both the value of the semaphore and the capacity are
32-bit numbers. -/
def init (n : Nat) (e : Nat → α) : Queue Tid α := ⟨0, 0, n % 2 ^ 32, none, 0, n % 2 ^ 32, e⟩

/-- How far a thread has come in `SYNCQ_ENQ` or `SYNCQ_DEQ`. -/
inductive Place (α : Type)
  | out
  /-- About to wait for `notfull`. -/
  | enqWait (x : α)
  | enqLock (x : α)
  | enqMove (x : α)
  | enqWrite (x : α) (w : Nat)
  | enqUnlock
  | enqPost
  /-- About to wait for `notempty`. -/
  | deqWait
  | deqLock
  | deqMove
  | deqRead (r : Nat)
  | deqUnlock (z : α)
  | deqPost (z : α)
  deriving DecidableEq, Repr

inductive Event (α : Type)
  | tau
  | queued (x : α)
  | took (z : α)
  | enqDone
  | deqDone (z : α)
  deriving DecidableEq, Repr

/-- The next step of thread `t`, unless it has to wait. -/
def next (t : Tid) (s : Queue Tid α) : Place α → Option (Queue Tid α × Place α × Event α)
  | .out => none
  | .enqWait x =>
    if s.notfull = 0 then none
    else some ({ s with notfull := s.notfull - 1 }, .enqLock x, .tau)
  | .enqLock x =>
    if s.lock.isNone then some ({ s with lock := some t }, .enqMove x, .tau) else none
  | .enqMove x => some ({ s with wr := bump s.sz s.wr }, .enqWrite x s.wr, .tau)
  | .enqWrite x w => some ({ s with e := Function.update s.e w x }, .enqUnlock, .queued x)
  | .enqUnlock => some ({ s with lock := none }, .enqPost, .tau)
  | .enqPost => some ({ s with notempty := s.notempty + 1 }, .out, .enqDone)
  | .deqWait =>
    if s.notempty = 0 then none
    else some ({ s with notempty := s.notempty - 1 }, .deqLock, .tau)
  | .deqLock =>
    if s.lock.isNone then some ({ s with lock := some t }, .deqMove, .tau) else none
  | .deqMove => some ({ s with rd := bump s.sz s.rd }, .deqRead s.rd, .tau)
  | .deqRead r => some (s, .deqUnlock (s.e r), .took (s.e r))
  | .deqUnlock z => some ({ s with lock := none }, .deqPost z, .tau)
  | .deqPost z => some ({ s with notfull := s.notfull + 1 }, .out, .deqDone z)

inductive Trans (t : Tid) (s : Queue Tid α) : Place α → Queue Tid α → Place α → Event α → Prop
  | enqWait {x : α} (hroom : s.notfull ≠ 0) :
    Trans t s (.enqWait x) { s with notfull := s.notfull - 1 } (.enqLock x) .tau
  | enqLock {x : α} (hfree : s.lock = none) :
    Trans t s (.enqLock x) { s with lock := some t } (.enqMove x) .tau
  | enqMove {x : α} :
    Trans t s (.enqMove x) { s with wr := bump s.sz s.wr } (.enqWrite x s.wr) .tau
  | enqWrite {x : α} {w : Nat} :
    Trans t s (.enqWrite x w) { s with e := Function.update s.e w x } .enqUnlock (.queued x)
  | enqUnlock : Trans t s .enqUnlock { s with lock := none } .enqPost .tau
  | enqPost : Trans t s .enqPost { s with notempty := s.notempty + 1 } .out .enqDone
  | deqWait (hitem : s.notempty ≠ 0) :
    Trans t s .deqWait { s with notempty := s.notempty - 1 } .deqLock .tau
  | deqLock (hfree : s.lock = none) : Trans t s .deqLock { s with lock := some t } .deqMove .tau
  | deqMove : Trans t s .deqMove { s with rd := bump s.sz s.rd } (.deqRead s.rd) .tau
  | deqRead {r : Nat} : Trans t s (.deqRead r) s (.deqUnlock (s.e r)) (.took (s.e r))
  | deqUnlock {z : α} : Trans t s (.deqUnlock z) { s with lock := none } (.deqPost z) .tau
  | deqPost {z : α} : Trans t s (.deqPost z) { s with notfull := s.notfull + 1 } .out (.deqDone z)

theorem next_inv {t : Tid} {s : Queue Tid α} {p : Place α} {q : Queue Tid α × Place α × Event α}
    (hq : next t s p = some q) : Trans t s p q.1 q.2.1 q.2.2 := by
  cases p with
  | out => cases hq
  | enqWait x =>
    rw [next] at hq
    split at hq
    · cases hq
    · next hroom =>
      obtain rfl := Option.some.inj hq
      exact .enqWait hroom
  | enqLock x =>
    rw [next] at hq
    split at hq
    · next hfree =>
      obtain rfl := Option.some.inj hq
      exact .enqLock (Option.isNone_iff_eq_none.mp hfree)
    · cases hq
  | deqWait =>
    rw [next] at hq
    split at hq
    · cases hq
    · next hitem =>
      obtain rfl := Option.some.inj hq
      exact .deqWait hitem
  | deqLock =>
    rw [next] at hq
    split at hq
    · next hfree =>
      obtain rfl := Option.some.inj hq
      exact .deqLock (Option.isNone_iff_eq_none.mp hfree)
    · cases hq
  | _ =>
    obtain rfl := Option.some.inj hq
    constructor

end PortableLib.SyncQ
