import Mathlib.Algebra.Ring.Nat
import PortableLib.Lib.Circular
import PortableLib.Lib.Interleave

/-! The bounded queue of `spsc_bounded_queue.h` with one producer and one consumer, one step for
each load, store and element access. The indices stay below `sz`, a 32-bit number, so the sums
`wr_ + 1` and `rd_ + 1` are never reduced. -/

namespace PortableLib.SpscQueue
open Interleave Circular

variable {α : Type}

structure Queue (α : Type) where
  rd : Nat
  wr : Nat
  sz : Nat
  elem : Nat → α

/-- `__spscq_init`: the capacity is stored in a `uint32_t`. -/
def init (n : Nat) (elem : Nat → α) : Queue α := ⟨0, 0, n % 2 ^ 32, elem⟩

/-- `__spscq_full_p`, given what its two loads return. -/
def fullP (sz wr rd : Nat) : Bool := bump sz wr == rd

def emptyP (rd wr : Nat) : Bool := rd == wr

def size (sz rd wr : Nat) : Nat :=
  if rd < wr then wr - rd
  else if rd > wr then sz - rd + wr
  else 0

inductive Role
  | producer
  | consumer
  deriving DecidableEq, Repr

inductive Pc (α : Type)
  | idle
  /-- `SPSCQ_ENQ` is about to load `wr`. -/
  | enqLoad (x : α)
  /-- About to load `rd`, with the next place to write already known. -/
  | enqCheck (x : α) (wr nwr : Nat)
  | enqWrite (x : α) (wr nwr : Nat)
  | enqStore (x : α) (wr nwr : Nat)
  /-- `SPSCQ_DEQ` is about to load `rd`. -/
  | deqLoad
  | deqCheck (rd : Nat)
  | deqRead (rd : Nat)
  | deqStore (rd : Nat) (x : α)
  deriving DecidableEq, Repr

inductive Act (α : Type)
  | enq (x : α)
  | deq
  | step
  deriving DecidableEq, Repr

inductive Event (α : Type)
  | called
  | tau
  | enqDone (x : α)
  | enqFull
  | deqDone (x : α)
  | deqEmpty
  deriving DecidableEq, Repr

def next (q : Queue α) : Pc α → Option (Queue α × Pc α × Event α)
  | .idle => none
  | .enqLoad x => some (q, .enqCheck x q.wr (bump q.sz q.wr), .tau)
  | .enqCheck x wr nwr =>
    if nwr ≠ q.rd then some (q, .enqWrite x wr nwr, .tau) else some (q, .idle, .enqFull)
  | .enqWrite x wr nwr =>
    some ({ q with elem := Function.update q.elem wr x }, .enqStore x wr nwr, .tau)
  | .enqStore x _ nwr => some ({ q with wr := nwr }, .idle, .enqDone x)
  | .deqLoad => some (q, .deqCheck q.rd, .tau)
  | .deqCheck rd =>
    if rd ≠ q.wr then some (q, .deqRead rd, .tau) else some (q, .idle, .deqEmpty)
  | .deqRead rd => some (q, .deqStore rd (q.elem rd), .tau)
  | .deqStore rd x => some ({ q with rd := bump q.sz rd }, .idle, .deqDone x)

/-- Only the producer enqueues and only the consumer dequeues. -/
def trans (role : Role) (q : Queue α) (pc : Pc α) : Act α → Option (Queue α × Pc α × Event α)
  | .enq x => match role, pc with
    | .producer, .idle => some (q, .enqLoad x, .called)
    | _, _ => none
  | .deq => match role, pc with
    | .consumer, .idle => some (q, .deqLoad, .called)
    | _, _ => none
  | .step => next q pc

/-- A queue as `SPSCQ_INIT` and `SPSCQ_DYN_INIT` make it, with what the memory holds. -/
def new (n : Nat) (elem : Nat → α) : World Role (Queue α) (Pc α) :=
  ⟨init n elem, fun _ => .idle⟩

end PortableLib.SpscQueue
