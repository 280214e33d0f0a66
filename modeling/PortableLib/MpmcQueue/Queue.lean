import PortableLib.Lib.Interleave

/-! The bounded queue of `mpmc_bounded_queue.h`, one step for each load, store, compare-and-exchange
and data access. A place in one of the four operations holds the values of its local variables.
The counters are natural numbers; `counters_fit` says when these are the 64-bit ones. -/

namespace PortableLib.MpmcQueue
open Interleave

variable {α : Type}

structure Queue (α : Type) where
  head : Nat
  tail : Nat
  turn : Nat → Nat
  data : Nat → α

/-- `__mpmc_q_turn`. -/
def lap (sz v : Nat) : Nat := v / sz

/-- `__mpmc_q_idx`, with the mask `sz - 1`. -/
def idx (sz v : Nat) : Nat := v &&& (sz - 1)

inductive Op (α : Type)
  | enq (x : α)
  | deq
  | enqWait (x : α)
  | deqWait
  deriving DecidableEq, Repr

inductive Pc (α : Type)
  | idle
  /-- `MPMC_QUEUE_ENQ` is about to load `head`. -/
  | enqLoad (x : α)
  | enqTurn (x : α) (hd : Nat)
  | enqCas (x : α) (hd : Nat)
  | enqReload (x : α) (hd : Nat)
  /-- `MPMC_QUEUE_ENQ_WAIT` is about to take its ticket. -/
  | enqAdd (x : α)
  | enqSpin (x : α) (hd : Nat)
  /-- Both ways to enqueue end with the same two stores. -/
  | enqWrite (x : α) (hd : Nat)
  | enqStore (x : α) (hd : Nat)
  | deqLoad
  | deqTurn (tl : Nat)
  | deqCas (tl : Nat)
  | deqReload (tl : Nat)
  | deqAdd
  | deqSpin (tl : Nat)
  | deqRead (tl : Nat)
  | deqStore (tl : Nat) (x : α)
  deriving DecidableEq, Repr

inductive Act (α : Type)
  | call (op : Op α)
  | step
  deriving DecidableEq, Repr

inductive Event (α : Type)
  | call (op : Op α)
  | tau
  | enqTicket (k : Nat) (x : α)
  | wrote (k : Nat) (x : α)
  | enqDone (k : Nat)
  | enqFull
  | deqTicket (k : Nat)
  | read (k : Nat) (x : α)
  | deqDone (k : Nat) (x : α)
  | deqEmpty
  deriving DecidableEq, Repr

def Op.start : Op α → Pc α
  | .enq x => .enqLoad x
  | .deq => .deqLoad
  | .enqWait x => .enqAdd x
  | .deqWait => .deqAdd

def next (sz : Nat) (q : Queue α) : Pc α → Option (Queue α × Pc α × Event α)
  | .idle => none
  | .enqLoad x => some (q, .enqTurn x q.head, .tau)
  | .enqTurn x hd =>
    some (q, if q.turn (idx sz hd) = lap sz hd * 2 then .enqCas x hd else .enqReload x hd, .tau)
  | .enqCas x hd =>
    if q.head = hd then some ({ q with head := hd + 1 }, .enqWrite x hd, .enqTicket hd x)
    else some (q, .enqTurn x q.head, .tau)
  | .enqReload x hd =>
    if hd = q.head then some (q, .idle, .enqFull) else some (q, .enqTurn x q.head, .tau)
  | .enqAdd x => some ({ q with head := q.head + 1 }, .enqSpin x q.head, .enqTicket q.head x)
  | .enqSpin x hd =>
    some (q, if lap sz hd * 2 = q.turn (idx sz hd) then .enqWrite x hd else .enqSpin x hd, .tau)
  | .enqWrite x hd =>
    some ({ q with data := Function.update q.data (idx sz hd) x }, .enqStore x hd, .wrote hd x)
  | .enqStore _ hd =>
    some ({ q with turn := Function.update q.turn (idx sz hd) (lap sz hd * 2 + 1) }, .idle,
      .enqDone hd)
  | .deqLoad => some (q, .deqTurn q.tail, .tau)
  | .deqTurn tl =>
    some (q, if q.turn (idx sz tl) = 1 + lap sz tl * 2 then .deqCas tl else .deqReload tl, .tau)
  | .deqCas tl =>
    if q.tail = tl then some ({ q with tail := tl + 1 }, .deqRead tl, .deqTicket tl)
    else some (q, .deqTurn q.tail, .tau)
  | .deqReload tl =>
    if tl = q.tail then some (q, .idle, .deqEmpty) else some (q, .deqTurn q.tail, .tau)
  | .deqAdd => some ({ q with tail := q.tail + 1 }, .deqSpin q.tail, .deqTicket q.tail)
  | .deqSpin tl =>
    some (q, if 1 + lap sz tl * 2 = q.turn (idx sz tl) then .deqRead tl else .deqSpin tl, .tau)
  | .deqRead tl => some (q, .deqStore tl (q.data (idx sz tl)), .read tl (q.data (idx sz tl)))
  | .deqStore tl x =>
    some ({ q with turn := Function.update q.turn (idx sz tl) (1 + lap sz tl * 2 + 1) }, .idle,
      .deqDone tl x)

def trans {Tid : Type} (sz : Nat) (_ : Tid) (q : Queue α) (pc : Pc α) :
    Act α → Option (Queue α × Pc α × Event α)
  | .call op => match pc with
    | .idle => some (q, op.start, .call op)
    | _ => none
  | .step => next sz q pc

inductive Trans (sz : Nat) (q : Queue α) : Pc α → Act α → Queue α → Pc α → Event α → Prop
  | call (op : Op α) : Trans sz q .idle (.call op) q op.start (.call op)
  | enqLoad {x : α} : Trans sz q (.enqLoad x) .step q (.enqTurn x q.head) .tau
  | enqFree {x : α} {hd : Nat} (hturn : q.turn (idx sz hd) = lap sz hd * 2) :
    Trans sz q (.enqTurn x hd) .step q (.enqCas x hd) .tau
  | enqBusy {x : α} {hd : Nat} (hturn : q.turn (idx sz hd) ≠ lap sz hd * 2) :
    Trans sz q (.enqTurn x hd) .step q (.enqReload x hd) .tau
  | enqTake {x : α} {hd : Nat} (heq : q.head = hd) :
    Trans sz q (.enqCas x hd) .step { q with head := hd + 1 } (.enqWrite x hd) (.enqTicket hd x)
  | enqLose {x : α} {hd : Nat} : Trans sz q (.enqCas x hd) .step q (.enqTurn x q.head) .tau
  | enqFail {x : α} {hd : Nat} (heq : hd = q.head) :
    Trans sz q (.enqReload x hd) .step q .idle .enqFull
  | enqRetry {x : α} {hd : Nat} : Trans sz q (.enqReload x hd) .step q (.enqTurn x q.head) .tau
  | enqAdd {x : α} : Trans sz q (.enqAdd x) .step { q with head := q.head + 1 }
    (.enqSpin x q.head) (.enqTicket q.head x)
  | enqWait {x : α} {hd : Nat} : Trans sz q (.enqSpin x hd) .step q (.enqSpin x hd) .tau
  | enqTurned {x : α} {hd : Nat} (hturn : lap sz hd * 2 = q.turn (idx sz hd)) :
    Trans sz q (.enqSpin x hd) .step q (.enqWrite x hd) .tau
  | enqWrite {x : α} {hd : Nat} : Trans sz q (.enqWrite x hd) .step
    { q with data := Function.update q.data (idx sz hd) x } (.enqStore x hd) (.wrote hd x)
  | enqStore {x : α} {hd : Nat} : Trans sz q (.enqStore x hd) .step
    { q with turn := Function.update q.turn (idx sz hd) (lap sz hd * 2 + 1) } .idle (.enqDone hd)
  | deqLoad : Trans sz q .deqLoad .step q (.deqTurn q.tail) .tau
  | deqFilled {tl : Nat} (hturn : q.turn (idx sz tl) = 1 + lap sz tl * 2) :
    Trans sz q (.deqTurn tl) .step q (.deqCas tl) .tau
  | deqVacant {tl : Nat} (hturn : q.turn (idx sz tl) ≠ 1 + lap sz tl * 2) :
    Trans sz q (.deqTurn tl) .step q (.deqReload tl) .tau
  | deqTake {tl : Nat} (heq : q.tail = tl) :
    Trans sz q (.deqCas tl) .step { q with tail := tl + 1 } (.deqRead tl) (.deqTicket tl)
  | deqLose {tl : Nat} : Trans sz q (.deqCas tl) .step q (.deqTurn q.tail) .tau
  | deqFail {tl : Nat} (heq : tl = q.tail) : Trans sz q (.deqReload tl) .step q .idle .deqEmpty
  | deqRetry {tl : Nat} : Trans sz q (.deqReload tl) .step q (.deqTurn q.tail) .tau
  | deqAdd : Trans sz q .deqAdd .step { q with tail := q.tail + 1 } (.deqSpin q.tail)
    (.deqTicket q.tail)
  | deqWait {tl : Nat} : Trans sz q (.deqSpin tl) .step q (.deqSpin tl) .tau
  | deqTurned {tl : Nat} (hturn : 1 + lap sz tl * 2 = q.turn (idx sz tl)) :
    Trans sz q (.deqSpin tl) .step q (.deqRead tl) .tau
  | deqRead {tl : Nat} : Trans sz q (.deqRead tl) .step q
    (.deqStore tl (q.data (idx sz tl))) (.read tl (q.data (idx sz tl)))
  | deqStore {tl : Nat} {x : α} : Trans sz q (.deqStore tl x) .step
    { q with turn := Function.update q.turn (idx sz tl) (1 + lap sz tl * 2 + 1) } .idle
    (.deqDone tl x)

theorem trans_inv {Tid : Type} {sz : Nat} {t : Tid} {q : Queue α} {pc : Pc α} {a : Act α}
    {r : Queue α × Pc α × Event α} (hr : trans sz t q pc a = some r) :
    Trans sz q pc a r.1 r.2.1 r.2.2 := by
  cases a with
  | call op =>
    cases pc with
    | idle =>
      obtain rfl := Option.some.inj hr
      exact .call op
    | _ => cases hr
  | step =>
    simp only [trans] at hr
    cases pc with
    | idle => cases hr
    | enqLoad x =>
      obtain rfl := Option.some.inj hr
      exact .enqLoad
    | enqTurn x hd =>
      obtain rfl := Option.some.inj hr
      simp only
      split_ifs with hturn
      · exact .enqFree hturn
      · exact .enqBusy hturn
    | enqCas x hd =>
      rw [next] at hr
      split_ifs at hr with heq <;> obtain rfl := Option.some.inj hr
      · exact .enqTake heq
      · exact .enqLose
    | enqReload x hd =>
      rw [next] at hr
      split_ifs at hr with heq <;> obtain rfl := Option.some.inj hr
      · exact .enqFail heq
      · exact .enqRetry
    | enqAdd x =>
      obtain rfl := Option.some.inj hr
      exact .enqAdd
    | enqSpin x hd =>
      obtain rfl := Option.some.inj hr
      simp only
      split_ifs with hturn
      · exact .enqTurned hturn
      · exact .enqWait
    | enqWrite x hd =>
      obtain rfl := Option.some.inj hr
      exact .enqWrite
    | enqStore x hd =>
      obtain rfl := Option.some.inj hr
      exact .enqStore
    | deqLoad =>
      obtain rfl := Option.some.inj hr
      exact .deqLoad
    | deqTurn tl =>
      obtain rfl := Option.some.inj hr
      simp only
      split_ifs with hturn
      · exact .deqFilled hturn
      · exact .deqVacant hturn
    | deqCas tl =>
      rw [next] at hr
      split_ifs at hr with heq <;> obtain rfl := Option.some.inj hr
      · exact .deqTake heq
      · exact .deqLose
    | deqReload tl =>
      rw [next] at hr
      split_ifs at hr with heq <;> obtain rfl := Option.some.inj hr
      · exact .deqFail heq
      · exact .deqRetry
    | deqAdd =>
      obtain rfl := Option.some.inj hr
      exact .deqAdd
    | deqSpin tl =>
      obtain rfl := Option.some.inj hr
      simp only
      split_ifs with hturn
      · exact .deqTurned hturn
      · exact .deqWait
    | deqRead tl =>
      obtain rfl := Option.some.inj hr
      exact .deqRead
    | deqStore tl x =>
      obtain rfl := Option.some.inj hr
      exact .deqStore

def new {Tid : Type} (x₀ : α) : World Tid (Queue α) (Pc α) :=
  ⟨⟨0, 0, fun _ => 0, fun _ => x₀⟩, fun _ => .idle⟩

end PortableLib.MpmcQueue
