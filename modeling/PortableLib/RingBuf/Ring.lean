import PortableLib.Errno
import PortableLib.Lib.Interleave

/-! The multi-producer enqueue and the multi-consumer dequeue of `ringbuf.h`, one step for each
load, store, compare-and-exchange and slot access. The two functions move their own index in the
same way: reserve by moving the head, copy the objects, wait for the tail to come up, publish by
moving the tail. The indices are unbounded. -/

namespace PortableLib.RingBuf
open List Interleave

variable {α : Type}

structure Index where
  head : Nat
  tail : Nat
  deriving DecidableEq, Repr

structure Ring (α : Type) where
  prod : Index
  cons : Index
  slot : Nat → α

/-- `RTE_RING_QUEUE_FIXED` and `RTE_RING_QUEUE_VARIABLE`. -/
inductive Behavior
  | bulk
  | burst
  deriving DecidableEq, Repr

inductive Op (α : Type)
  | enqueue (b : Behavior) (objs : List α)
  | dequeue (b : Behavior) (n : Nat)
  deriving DecidableEq, Repr

inductive Side
  | prod
  | cons
  deriving DecidableEq, Repr

def Op.side : Op α → Side
  | .enqueue _ _ => .prod
  | .dequeue _ _ => .cons

def Op.behavior : Op α → Behavior
  | .enqueue b _ => b
  | .dequeue b _ => b

def Op.max : Op α → Nat
  | .enqueue _ objs => objs.length
  | .dequeue _ n => n

def Ring.index (r : Ring α) : Side → Index
  | .prod => r.prod
  | .cons => r.cons

def Ring.setIndex (r : Ring α) (i : Index) : Side → Ring α
  | .prod => { r with prod := i }
  | .cons => { r with cons := i }

/-- The slots and the places in the object table that `__store_ring` and `__load_ring` go
through: unrolled four times if the slots do not wrap around. -/
def accesses (mask head n : Nat) : List (Nat × Nat) :=
  let idx := head &&& mask
  if idx + n ≤ mask then
    let loops := (n >>> 2) <<< 2
    ((range (n >>> 2)).flatMap fun b => [(idx + 4 * b + 0, 4 * b + 0),
      (idx + 4 * b + 1, 4 * b + 1), (idx + 4 * b + 2, 4 * b + 2), (idx + 4 * b + 3, 4 * b + 3)]) ++
    match n &&& 3 with
    | 3 => [(idx + loops + 0, loops + 0), (idx + loops + 1, loops + 1),
        (idx + loops + 2, loops + 2)]
    | 2 => [(idx + loops + 0, loops + 0), (idx + loops + 1, loops + 1)]
    | 1 => [(idx + loops + 0, loops + 0)]
    | _ => []
  else (range n).map fun i => ((idx + i) &&& mask, i)

inductive Pc (α : Type)
  | idle
  /-- About to load the own head. -/
  | load (op : Op α)
  /-- About to load the tail of the other side. -/
  | check (op : Op α) (start : Nat)
  | cas (op : Op α) (start n : Nat)
  | copy (op : Op α) (start n : Nat) (todo : List (Nat × Nat)) (got : List α)
  | wait (op : Op α) (start n : Nat) (got : List α)
  | publish (op : Op α) (start n : Nat) (got : List α)
  deriving DecidableEq, Repr

inductive Act (α : Type)
  | call (op : Op α)
  | step
  /-- The compare-and-exchange fails for no reason. -/
  | spurious
  deriving DecidableEq, Repr

inductive Event (α : Type)
  | call (op : Op α)
  | tau
  | reserved (op : Op α) (start n : Nat)
  | refused (op : Op α) (e : Option Errno)
  | done (op : Op α) (start n : Nat) (got : List α)
  deriving DecidableEq, Repr

/-- The own head is subtracted from this to get `free_entries` or `entries`. -/
def limit (mask : Nat) (r : Ring α) : Op α → Nat
  | .enqueue _ _ => mask + r.cons.tail
  | .dequeue _ _ => r.prod.tail

def exceeds (n lim start : Nat) : Bool := start ≤ lim && lim - start < n

def refusal : Op α → Option Errno
  | .enqueue .bulk _ => some .enobufs
  | .dequeue .bulk _ => some .enoent
  | _ => none

def decideN (lim start : Nat) (op : Op α) : Option Nat :=
  if exceeds op.max lim start then
    if op.behavior = .bulk then none
    else if lim - start = 0 then none
    else some (lim - start)
  else some op.max

def copyStep (r : Ring α) (op : Op α) (p : Nat × Nat) (got : List α) :
    Option (Ring α × List α) :=
  match op with
  | .enqueue _ objs => objs[p.2]?.map fun x =>
      ({ r with slot := Function.update r.slot p.1 x }, got)
  | .dequeue _ _ => some (r, got ++ [r.slot p.1])

def next (mask : Nat) (r : Ring α) : Pc α → Option (Ring α × Pc α × Event α)
  | .idle => none
  | .load op => some (r, .check op (r.index op.side).head, .tau)
  | .check op start =>
    match decideN (limit mask r op) start op with
    | none => some (r, .idle, .refused op (refusal op))
    | some n => some (r, .cas op start n, .tau)
  | .cas op start n =>
    if (r.index op.side).head = start then
      some (r.setIndex { r.index op.side with head := start + n } op.side,
        .copy op start n (accesses mask start n) [], .reserved op start n)
    else some (r, .load op, .tau)
  | .copy op start n [] got => some (r, .wait op start n got, .tau)
  | .copy op start n (p :: todo) got => (copyStep r op p got).map fun q =>
      (q.1, .copy op start n todo q.2, .tau)
  | .wait op start n got =>
    some (r, if (r.index op.side).tail ≠ start then .wait op start n got
      else .publish op start n got, .tau)
  | .publish op start n got =>
    some (r.setIndex { r.index op.side with tail := start + n } op.side, .idle,
      .done op start n got)

def trans {Tid : Type} (mask : Nat) (_ : Tid) (r : Ring α) (pc : Pc α) :
    Act α → Option (Ring α × Pc α × Event α)
  | .call op => match pc with
    | .idle => some (r, .load op, .call op)
    | _ => none
  | .step => next mask r pc
  | .spurious => match pc with
    | .cas op _ _ => some (r, .load op, .tau)
    | _ => none

/-- A ring as `rte_ring_create` makes it. -/
def new {Tid : Type} (x₀ : α) : World Tid (Ring α) (Pc α) :=
  ⟨⟨⟨0, 0⟩, ⟨0, 0⟩, fun _ => x₀⟩, fun _ => .idle⟩

end PortableLib.RingBuf
