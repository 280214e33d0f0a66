import PortableLib.Lib.Links
import PortableLib.Lib.Run

/-! The list based queue of `fast/mpmc_list.h`, used by one thread. -/

namespace PortableLib.MpmcList
open List Links

/-- A `mpmc_list_node` is the stub of the queue or one that a caller has allocated. -/
inductive Node (ν : Type)
  | stub
  | user (n : ν)
  deriving DecidableEq, Repr

variable {ν : Type}

structure Queue (ν : Type) where
  next : Node ν → Option (Node ν)
  head : Node ν
  tail : Node ν

section Operations
variable [DecidableEq ν]

def init (next : Node ν → Option (Node ν)) : Queue ν :=
  ⟨Function.update next .stub none, .stub, .stub⟩

def enq (q : Queue ν) (n : ν) : Queue ν :=
  let next := Function.update q.next (.user n) none
  let prev := q.head
  { q with head := .user n, next := Function.update next prev (some (.user n)) }

/-- The end of `deq`; without a next node the function ends with no `return`. -/
def deqNext (q : Queue ν) (tail : Node ν) (next : Option (Node ν)) :
    Option (Queue ν × Option (Node ν)) :=
  match next with
  | some next => some ({ q with tail := next }, some tail)
  | none => none

def deq (q : Queue ν) : Option (Queue ν × Option (Node ν)) :=
  let tail := q.tail
  let next := q.next tail
  if tail = .stub then
    match next with
    | none => some (q, none)
    | some next => deqNext { q with tail := next } next (q.next next)
  else deqNext q tail next

inductive Op (ν : Type)
  | enq (n : ν)
  | deq

inductive Result (ν : Type)
  | enq
  | deq (n : Option (Node ν))
  deriving DecidableEq, Repr

def step (q : Queue ν) : Op ν → Option (Queue ν × Result ν)
  | .enq n => some (enq q n, .enq)
  | .deq => (deq q).map fun r => (r.1, .deq r.2)

end Operations

def spec (l : List ν) : Op ν → List ν × Result ν
  | .enq n => (l ++ [n], .enq)
  | .deq => (l.tail, .deq (l.head?.map .user))

def Fresh (l : List ν) : Op ν → Prop
  | .enq n => n ∉ l
  | .deq => True

/-- The queue is not asked for the only node in it. -/
def KeepsOne (l : List ν) : Op ν → Prop
  | .enq _ => True
  | .deq => l.length ≠ 1

instance [DecidableEq ν] : ∀ (l : List ν) (op : Op ν), Decidable (Fresh l op)
  | l, .enq n => inferInstanceAs (Decidable (n ∉ l))
  | _, .deq => isTrue trivial

structure Linked (q : Queue ν) (nodes : List (Node ν)) : Prop where
  nodup : nodes.Nodup
  threads : Threads (fun p => p.bind q.next) (some q.tail) (nodes.map some) none
  head_last : ∃ t, nodes = t ++ [q.head]

/-- The stub is in front until the first node is taken, and never again. -/
def Represents (q : Queue ν) (l : List ν) : Prop :=
  Linked q (.stub :: l.map .user) ∨ Linked q (l.map .user)

variable {q : Queue ν} {nodes : List (Node ν)} {a b : Node ν} {n : ν} {l : List ν}

theorem Linked.next_singleton (h : Linked q [a]) : q.tail = a ∧ q.next a = none :=
  ⟨Option.some.inj h.threads.1, h.threads.2⟩

theorem Linked.next_cons (h : Linked q (a :: b :: nodes)) :
    q.tail = a ∧ q.next a = some b ∧ Linked { q with tail := b } (b :: nodes) := by
  have htail := Option.some.inj h.threads.1
  have hnext : q.next a = some b := h.threads.2.1
  have hrest : Threads (fun p => p.bind q.next) (q.next a) ((b :: nodes).map some) none :=
    h.threads.2
  rw [hnext] at hrest
  refine ⟨htail, hnext, (nodup_cons.mp h.nodup).2, hrest, ?_⟩
  obtain ⟨t, ht⟩ := h.head_last
  cases t with
  | nil => cases ht
  | cons c t => exact ⟨t, (List.cons.inj ht).2⟩

theorem Linked.deqNext_eq (h : Linked q (.user n :: l.map .user)) :
    deqNext q (.user n) (q.next (.user n)) =
        l.head?.map (fun m => ({ q with tail := .user m }, some (.user n))) ∧
      ∀ m ∈ l.head?, Linked { q with tail := .user m } (l.map .user) := by
  cases l with
  | nil =>
    obtain ⟨-, hnext⟩ := h.next_singleton
    rw [hnext]
    exact ⟨rfl, fun m hm => absurd hm (Option.not_mem_none m)⟩
  | cons m l =>
    obtain ⟨-, hnext, hrest⟩ := h.next_cons
    rw [hnext]
    refine ⟨rfl, fun m' hm' => ?_⟩
    obtain rfl := Option.some.inj hm'
    exact hrest

variable [DecidableEq ν]

theorem linked_init (next : Node ν → Option (Node ν)) : Linked (init next) [.stub] where
  nodup := nodup_singleton _
  threads := by
    refine ⟨rfl, ?_⟩
    exact Function.update_self (.stub : Node ν) _ next
  head_last := ⟨[], rfl⟩

theorem Linked.enq (h : Linked q nodes) (hn : .user n ∉ nodes) :
    Linked (enq q n) (nodes ++ [.user n]) := by
  obtain ⟨t, rfl⟩ := h.head_last
  have hhead : q.head ≠ .user n := by
    intro heq
    exact hn (mem_append_right t (heq ▸ mem_cons_self))
  refine ⟨nodup_append.mpr ⟨h.nodup, nodup_singleton _, ?_⟩, ?_, ⟨_, rfl⟩⟩
  · intro x hx y hy heq
    exact hn (mem_singleton.mp hy ▸ heq ▸ hx)
  · have hthreads := h.threads
    rw [map_append, map_singleton] at hthreads
    rw [map_append, map_append, map_singleton, map_singleton]
    refine threads_snoc.mpr ⟨hthreads.redirect ?_ ?_, ?_⟩
    · -- the nodes before the head keep their links
      intro p hp
      obtain ⟨x, hx, rfl⟩ := mem_map.mp hp
      have hxn : x ≠ .user n := fun heq => hn (mem_append_left _ (heq ▸ hx))
      have hxhead : x ≠ q.head := (nodup_append.mp h.nodup).2.2 x hx _ mem_cons_self
      exact (Function.update_of_ne hxhead _ _).trans (Function.update_of_ne hxn _ _)
    · exact Function.update_self _ _ _
    · exact (Function.update_of_ne hhead.symm _ _).trans (Function.update_self _ _ _)

theorem Represents.enq (h : Represents q l) (hn : n ∉ l) : Represents (enq q n) (l ++ [n]) := by
  have hmem : Node.user n ∉ l.map Node.user := by
    intro h
    obtain ⟨x, hx, heq⟩ := mem_map.mp h
    exact hn (Node.user.inj heq ▸ hx)
  rw [Represents, map_append, map_singleton, ← cons_append]
  rcases h with h | h
  · refine Or.inl (h.enq ?_)
    intro h
    rcases mem_cons.mp h with heq | h
    · cases heq
    · exact hmem h
  · exact Or.inr (h.enq hmem)

theorem Represents.deq_nil (h : Represents q []) : deq q = some (q, none) := by
  rcases h with h | h
  · obtain ⟨htail, hnext⟩ := h.next_singleton
    rw [deq, htail, hnext]
    rfl
  · obtain ⟨t, ht⟩ := h.head_last
    cases t with
    | nil => cases ht
    | cons _ _ => cases ht

theorem Represents.deq_cons (h : Represents q (n :: l)) :
    deq q = l.head?.map (fun m => ({ q with tail := .user m }, some (.user n))) ∧
      ∀ m ∈ l.head?, Linked { q with tail := .user m } (l.map .user) := by
  rcases h with h | h
  · -- the first step goes over the stub
    obtain ⟨htail, hnext, hrest⟩ := h.next_cons
    rw [deq, htail, hnext]
    exact hrest.deqNext_eq
  · have htail : q.tail = .user n := Option.some.inj h.threads.1
    rw [deq, htail]
    exact h.deqNext_eq

theorem step_spec (h : Represents q l) (op : Op ν) (hfresh : Fresh l op) (hkeep : KeepsOne l op) :
    ∃ p, step q op = some p ∧ Represents p.1 (spec l op).1 ∧ p.2 = (spec l op).2 := by
  cases op with
  | enq n => exact ⟨_, rfl, h.enq hfresh, rfl⟩
  | deq =>
    rcases l with - | ⟨n, - | ⟨m, l⟩⟩
    · refine ⟨(q, .deq none), ?_, h, rfl⟩
      rw [step, h.deq_nil, Option.map_some]
    · exact absurd rfl hkeep
    · obtain ⟨hdeq, hrest⟩ := h.deq_cons
      refine ⟨({ q with tail := .user m }, .deq (some (.user n))), ?_, Or.inr (hrest m rfl), rfl⟩
      rw [step, hdeq]
      rfl

theorem step_last (h : Represents q [n]) : step q .deq = none := by
  rw [step, h.deq_cons.1]
  rfl

/-- For every sequence of operations on distinct nodes, the calls return what the list says, each
by a `return`, exactly if none of them asks for the only node in the queue. -/
theorem mpmc_list_fifo_iff (next : Node ν → Option (Node ν)) {ops : List (Op ν)}
    (hfresh : Run.StepsMeet (fun l op => some (spec l op)) Fresh [] ops) :
    (∃ q, Run.run step (init next) ops = some q ∧ q.2 = (Run.runTotal spec [] ops).2) ↔
      Run.StepsMeet (fun l op => some (spec l op)) KeepsOne [] ops := by
  refine Run.run_simulates_iff (R := Represents)
    (fun q l op hR hop hkeep => step_spec hR op hop hkeep) ?_ (Or.inl (linked_init next)) hfresh
  intro q l op p hR _ hstep _
  cases op with
  | enq n => trivial
  | deq =>
    intro hone
    obtain ⟨n, rfl⟩ := length_eq_one_iff.mp hone
    rw [step_last hR] at hstep
    cases hstep

theorem mpmc_list_fifo_iff_three :
    (∃ q, Run.run step (init fun _ : Node Nat => none)
        [.deq, .enq 0, .enq 1, .deq, .enq 0, .deq] = some q ∧
        q.2 = [.deq none, .enq, .enq, .deq (some (.user 0)), .enq, .deq (some (.user 1))]) ↔
      Run.StepsMeet (fun l op => some (spec l op)) KeepsOne ([] : List Nat)
        [.deq, .enq 0, .enq 1, .deq, .enq 0, .deq] :=
  mpmc_list_fifo_iff (fun _ => none) (by decide)

/-- One node goes in and does not come out. -/
theorem deq_last_has_no_return :
    ¬ ∀ ops : List (Op Nat),
      Run.StepsMeet (fun l op => some (spec l op)) Fresh [] ops →
      ∃ q, Run.run step (init fun _ => none) ops = some q ∧
        q.2 = (Run.runTotal spec [] ops).2 := by
  intro hall
  obtain ⟨q, hq, -⟩ := hall [.enq 0, .deq] (by decide)
  have hstuck : Run.run step (init fun _ : Node Nat => none) [.enq 0, .deq] = none := rfl
  rw [hstuck] at hq
  cases hq

end PortableLib.MpmcList
