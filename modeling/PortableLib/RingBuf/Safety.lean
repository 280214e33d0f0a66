import PortableLib.RingBuf.Invariant

/-! Runs on a ring. With requests of at least one object the ring is a queue, whatever the
interleaving. A request of no objects can own the same place as another one; it does no harm
exactly if the tail has not moved when it comes to store it. -/

namespace PortableLib.RingBuf
open List Interleave

variable {α Tid : Type} {e : Nat}

/-- A request of no objects that is about to store the tail finds it where it has seen it. -/
def Pc.Kept (r : Ring α) : Pc α → Prop
  | .publish op start n _ => n = 0 → (r.index op.side).tail = start
  | _ => True

def TailKept (w : World Tid (Ring α) (Pc α)) (i : Tid × Act α) : Prop :=
  i.2 = .step → (w.pc i.1).Kept w.shared

section Steps
variable {r : Ring α} {op : Op α} {lim start n : Nat}

theorem setIndex_index (r : Ring α) (side : Side) : r.setIndex (r.index side) side = r := by
  cases side <;> rfl

theorem decideN_spec (hle : start ≤ lim) (h : decideN lim start op = some n) :
    start + n ≤ lim ∧ Sized op n ∧ (op.max ≠ 0 → n ≠ 0) := by
  unfold decideN exceeds at h
  split_ifs at h with hex hbulk hzero
  · obtain rfl := Option.some.inj h
    simp only [Bool.and_eq_true, decide_eq_true_eq] at hex
    refine ⟨by omega, ⟨by omega, fun hb => absurd hb hbulk⟩, fun _ => hzero⟩
  · obtain rfl := Option.some.inj h
    simp only [Bool.and_eq_true, decide_eq_true_eq] at hex
    exact ⟨by omega, ⟨Nat.le_refl _, fun _ => rfl⟩, id⟩

inductive Trans (mask : Nat) (r : Ring α) : Pc α → Act α → Ring α → Pc α → Event α → Prop
  | call (op : Op α) : Trans mask r .idle (.call op) r (.load op) (.call op)
  | spurious {op : Op α} {start n : Nat} :
    Trans mask r (.cas op start n) .spurious r (.load op) .tau
  | load {op : Op α} : Trans mask r (.load op) .step r (.check op (r.index op.side).head) .tau
  | refuse {op : Op α} {start : Nat} (hn : decideN (limit mask r op) start op = none) :
    Trans mask r (.check op start) .step r .idle (.refused op (refusal op))
  | settle {op : Op α} {start n : Nat} (hn : decideN (limit mask r op) start op = some n) :
    Trans mask r (.check op start) .step r (.cas op start n) .tau
  | reserve {op : Op α} {start n : Nat} (hhead : (r.index op.side).head = start) :
    Trans mask r (.cas op start n) .step
      (r.setIndex { r.index op.side with head := start + n } op.side)
      (.copy op start n (accesses mask start n) []) (.reserved op start n)
  | lose {op : Op α} {start n : Nat} : Trans mask r (.cas op start n) .step r (.load op) .tau
  | copied {op : Op α} {start n : Nat} {got : List α} :
    Trans mask r (.copy op start n [] got) .step r (.wait op start n got) .tau
  | copy {op : Op α} {start n : Nat} {p : Nat × Nat} {todo : List (Nat × Nat)} {got : List α}
      {s : Ring α × List α} (hs : copyStep r op p got = some s) :
    Trans mask r (.copy op start n (p :: todo) got) .step s.1 (.copy op start n todo s.2) .tau
  | spin {op : Op α} {start n : Nat} {got : List α} :
    Trans mask r (.wait op start n got) .step r (.wait op start n got) .tau
  | arrive {op : Op α} {start n : Nat} {got : List α} (htail : (r.index op.side).tail = start) :
    Trans mask r (.wait op start n got) .step r (.publish op start n got) .tau
  | publish {op : Op α} {start n : Nat} {got : List α} :
    Trans mask r (.publish op start n got) .step
      (r.setIndex { r.index op.side with tail := start + n } op.side) .idle (.done op start n got)

theorem trans_inv {mask : Nat} {t : Tid} {pc : Pc α} {a : Act α} {q : Ring α × Pc α × Event α}
    (hq : trans mask t r pc a = some q) : Trans mask r pc a q.1 q.2.1 q.2.2 := by
  cases a with
  | call op =>
    cases pc with
    | idle =>
      obtain rfl := Option.some.inj hq
      exact .call op
    | _ => cases hq
  | spurious =>
    cases pc with
    | cas op start n =>
      obtain rfl := Option.some.inj hq
      exact .spurious
    | _ => cases hq
  | step =>
    cases pc with
    | idle => cases hq
    | load op =>
      obtain rfl := Option.some.inj hq
      exact .load
    | check op start =>
      simp only [trans, next] at hq
      cases hn : decideN (limit mask r op) start op with
      | none =>
        rw [hn] at hq
        obtain rfl := Option.some.inj hq
        exact .refuse hn
      | some n =>
        rw [hn] at hq
        obtain rfl := Option.some.inj hq
        exact .settle hn
    | cas op start n =>
      simp only [trans, next] at hq
      split_ifs at hq with hhead
      · obtain rfl := Option.some.inj hq
        exact .reserve hhead
      · obtain rfl := Option.some.inj hq
        exact .lose
    | copy op start n todo got =>
      cases todo with
      | nil =>
        obtain rfl := Option.some.inj hq
        exact .copied
      | cons p todo =>
        obtain ⟨s, hs, rfl⟩ := Option.map_eq_some_iff.mp hq
        exact .copy hs
    | wait op start n got =>
      obtain rfl := Option.some.inj hq
      simp only
      split_ifs with htail
      · exact .spin
      · exact .arrive (not_not.mp htail)
    | publish op start n got =>
      obtain rfl := Option.some.inj hq
      exact .publish

variable {w : World Tid (Ring α) (Pc α)} {tr : List (Tid × Event α)} {t : Tid}
  {a : Act α} {q : Ring α × Pc α × Event α} {size : Nat}

theorem Inv.head_le_limit (h : Inv size w tr) (op : Op α) :
    (w.shared.index op.side).head ≤ limit (size - 1) w.shared op := by
  cases op with
  | enqueue b objs => exact Nat.le_trans h.room (Nat.le_of_eq (Nat.add_comm _ _))
  | dequeue b n => exact h.midLe

theorem inv_new (e : Nat) (x₀ : α) : Inv (2 ^ e) (new x₀ : World Tid (Ring α) (Pc α)) [] where
  consLe := Nat.le_refl 0
  midLe := Nat.le_refl 0
  prodLe := Nat.le_refl 0
  room := Nat.zero_le _
  total := rfl
  content := nofun
  delivered := rfl
  thread := fun _ => trivial
  apart := nofun
  legal := justified_nil _

theorem drop_accesses {m : Nat} {p : Nat × Nat} {todo : List (Nat × Nat)}
    (h : p :: todo = ((range n).map fun i => ((start + i) % size, i)).drop m) :
    m < n ∧ p = ((start + m) % size, m) ∧
      todo = ((range n).map fun i => ((start + i) % size, i)).drop (m + 1) := by
  have hlen := congrArg length h
  rw [length_cons, length_drop, length_map, length_range] at hlen
  have hm : m < n := by omega
  have hlt : m < ((range n).map fun i => ((start + i) % size, i)).length := by
    rw [length_map, length_range]
    exact hm
  rw [drop_eq_getElem_cons hlt] at h
  obtain ⟨hp, htodo⟩ := cons.inj h
  rw [getElem_map, getElem_range] at hp
  exact ⟨hm, hp, htodo⟩

variable [DecidableEq Tid]

theorem Inv.copy (hsize : 0 < size) (h : Inv size w tr) {p : Nat × Nat} {todo : List (Nat × Nat)}
    {got : List α} {s : Ring α × List α} (hpc : w.pc t = .copy op start n (p :: todo) got)
    (hs : copyStep w.shared op p got = some s) :
    Inv size ⟨s.1, Function.update w.pc t (.copy op start n todo s.2)⟩ (tr ++ [(t, .tau)]) := by
  have hthread := h.thread t
  rw [hpc] at hthread
  obtain ⟨hsized, hheld, m, hmn, htodo, hcopied⟩ := hthread
  obtain ⟨hm, hp, htodo'⟩ := drop_accesses htodo
  cases op with
  | enqueue b objs =>
    obtain ⟨x, hx, rfl⟩ := Option.map_eq_some_iff.mp hs
    rw [hp] at hx ⊢
    exact h.store hsize hpc hm htodo hcopied hx
  | dequeue b k =>
    obtain rfl := Option.some.inj hs
    refine h.local rfl rfl ?_ ?_ trivial
    · refine ⟨hsized, hheld, m + 1, hm, htodo', ?_⟩
      have hbounds := hheld (by omega)
      have hct : w.shared.cons.tail ≤ start + m := Nat.le_trans hbounds.1 (Nat.le_add_right _ _)
      have hpt : start + m < w.shared.prod.tail := by
        have hhi : start + n ≤ w.shared.cons.head := hbounds.2
        have hmid := h.midLe
        omega
      have hobj := h.content (start + m) hct hpt
      have hgot : got = ((enqueued tr).drop start).take m := hcopied
      show got ++ [w.shared.slot p.1] = ((enqueued tr).drop start).take (m + 1)
      rw [take_add_one, getElem?_drop, hobj, ← hgot, hp]
      rfl
    · intro a ha
      rw [hpc]
      exact ha

theorem inv_step (h : Inv (2 ^ e) w tr) (hkept : TailKept w (t, a))
    (hq : trans (2 ^ e - 1) t w.shared (w.pc t) a = some q) :
    Inv (2 ^ e) ⟨q.1, Function.update w.pc t q.2.1⟩ (tr ++ [(t, q.2.2)]) := by
  obtain ⟨r', p', ev⟩ := q
  have hstep := trans_inv hq
  have hthread := h.thread t
  simp only at hstep ⊢
  generalize hpc : w.pc t = pc at hstep hthread
  cases hstep with
  | call op => exact h.local rfl rfl trivial nofun trivial
  | spurious => exact h.local rfl rfl trivial nofun trivial
  | load => exact h.local rfl rfl (Nat.le_refl _) nofun trivial
  | refuse hn => exact h.local rfl rfl trivial nofun trivial
  | settle hn =>
    obtain ⟨hlim, hsized, -⟩ := decideN_spec (Nat.le_trans hthread (h.head_le_limit _)) hn
    exact h.local rfl rfl ⟨hlim, hsized⟩ nofun trivial
  | reserve hhead =>
    rw [accesses_eq]
    exact h.reserve hpc hhead
  | lose => exact h.local rfl rfl trivial nofun trivial
  | @copied op start n got =>
    obtain ⟨hsized, hheld, m, hmn, htodo, hcopied⟩ := hthread
    have hlen := congrArg length htodo
    rw [length_nil, length_drop, length_map, length_range] at hlen
    obtain rfl : m = n := by omega
    refine h.local rfl rfl ⟨hsized, hheld, hcopied⟩ ?_ trivial
    intro b hb
    rw [hpc]
    exact hb
  | copy hs => exact h.copy (Nat.two_pow_pos e) hpc hs
  | spin =>
    refine h.local rfl rfl hthread ?_ trivial
    intro b hb
    rw [hpc]
    exact hb
  | arrive htail =>
    obtain ⟨hsized, hheld, hcopied⟩ := hthread
    refine h.local rfl rfl ⟨hsized, hheld, hcopied, Nat.le_of_eq htail.symm⟩ ?_ trivial
    intro b hb
    rw [hpc]
    exact hb
  | @publish op start n got =>
    by_cases hn : n = 0
    · -- nothing to publish: the store leaves the tail where it is
      subst hn
      obtain ⟨hsized, -, hcopied, -⟩ := hthread
      have hkept := hkept rfl
      rw [hpc] at hkept
      have hsame : w.shared.setIndex { w.shared.index op.side with tail := start + 0 } op.side =
          w.shared := by
        have htail := hkept rfl
        rw [Nat.add_zero, ← htail]
        exact setIndex_index w.shared op.side
      rw [hsame]
      refine h.local rfl ?_ trivial nofun ⟨hsized, fun hside => ?_⟩
      · cases op with
        | enqueue b objs => rfl
        | dequeue b k => exact hcopied
      · cases op with
        | enqueue b objs => cases hside
        | dequeue b k =>
          have hgot : got = ((enqueued tr).drop start).take 0 := hcopied
          exact ⟨hgot, congrArg length hgot⟩
    · exact h.publish hpc hn

end Steps

def Pc.Asks : Pc α → Prop
  | .idle => True
  | .load op => op.max ≠ 0
  | .check op _ => op.max ≠ 0
  | .cas op _ n => op.max ≠ 0 ∧ n ≠ 0
  | .copy _ _ n _ _ => n ≠ 0
  | .wait _ _ n _ => n ≠ 0
  | .publish _ _ n _ => n ≠ 0

section Queue
variable {w : World Tid (Ring α) (Pc α)} {tr : List (Tid × Event α)} {t : Tid}
  {a : Act α} {q : Ring α × Pc α × Event α} {x₀ : α} {sched : List (Tid × Act α)}

theorem asks_step (h : Inv (2 ^ e) w tr) (hasks : (w.pc t).Asks)
    (hcall : ∀ op, a = .call op → op.max ≠ 0)
    (hq : trans (2 ^ e - 1) t w.shared (w.pc t) a = some q) : q.2.1.Asks := by
  obtain ⟨r', p', ev⟩ := q
  have hstep := trans_inv hq
  have hthread := h.thread t
  simp only at hstep ⊢
  generalize w.pc t = pc at hstep hthread hasks
  cases hstep with
  | call op => exact hcall op rfl
  | spurious => exact hasks.1
  | load => exact hasks
  | refuse hn => trivial
  | settle hn =>
    exact ⟨hasks, (decideN_spec (Nat.le_trans hthread (h.head_le_limit _)) hn).2.2 hasks⟩
  | reserve hhead => exact hasks.2
  | lose => exact hasks.1
  | copied => exact hasks
  | copy hs => exact hasks
  | spin => exact hasks
  | arrive htail => exact hasks
  | publish => trivial

theorem kept_of_asks (hasks : (w.pc t).Asks) : TailKept w (t, a) := by
  intro _
  show (w.pc t).Kept w.shared
  cases hpc : w.pc t with
  | publish op start n got =>
    rw [hpc] at hasks
    exact fun h0 => absurd h0 hasks
  | _ => trivial

theorem next_isSome (h : Inv (2 ^ e) w tr) (hpc : w.pc t ≠ .idle) :
    (next (2 ^ e - 1) w.shared (w.pc t)).isSome := by
  have hthread := h.thread t
  cases hp : w.pc t with
  | idle => exact absurd hp hpc
  | check op start =>
    rw [next]
    cases decideN (limit (2 ^ e - 1) w.shared op) start op <;> rfl
  | cas op start n =>
    rw [next]
    split_ifs <;> rfl
  | copy op start n todo got =>
    rw [hp] at hthread
    cases todo with
    | nil => rfl
    | cons p todo =>
      obtain ⟨hsized, -, m, -, htodo, -⟩ := hthread
      obtain ⟨hm, rfl, -⟩ := drop_accesses htodo
      cases op with
      | enqueue b objs =>
        have hlt : m < objs.length := Nat.lt_of_lt_of_le hm hsized.1
        rw [next, copyStep, getElem?_eq_getElem hlt]
        rfl
      | dequeue b k => rfl
  | _ => rfl

variable [DecidableEq Tid]

theorem inv_of_calls (hcalls : ∀ t op, (t, .call op) ∈ sched → 1 ≤ op.max)
    (hrun : exec (trans (2 ^ e - 1)) (new x₀) sched = some (w, tr)) : Inv (2 ^ e) w tr := by
  have hmeet : Run.StepsMeet (step (trans (2 ^ e - 1)))
      (fun _ i => ∀ op, i.2 = .call op → op.max ≠ 0) (new x₀ : World Tid (Ring α) (Pc α))
      sched := by
    apply Run.stepsMeet_of_forall
    rintro _ ⟨t, a⟩ hi op rfl
    exact Nat.one_le_iff_ne_zero.mp (hcalls t op hi)
  have hboth : Inv (2 ^ e) w tr ∧ ∀ t, (w.pc t).Asks := by
    refine exec_invariant_of (I := fun w tr => Inv (2 ^ e) w tr ∧ ∀ t, (w.pc t).Asks) ?_
      ⟨inv_new e x₀, fun _ => trivial⟩ hmeet hrun
    intro w tr t a q hI hcall hq
    refine ⟨inv_step hI.1 (kept_of_asks (hI.2 t)) hq, ?_⟩
    exact forall_update (Q := fun _ (p : Pc α) => p.Asks)
      (asks_step hI.1 (hI.2 t) hcall hq) fun u _ => hI.2 u
  exact hboth.1

/-- The ring is a queue: the dequeued objects are the first of the enqueued ones in the order of
their reservations, the indices stay in order, two operations in flight share no slot, and a bulk
request moves all its objects or none. -/
theorem ring_is_queue (hcalls : ∀ t op, (t, .call op) ∈ sched → 1 ≤ op.max)
    (hrun : exec (trans (2 ^ e - 1)) (new x₀) sched = some (w, tr)) :
    dequeued tr = (enqueued tr).take w.shared.cons.tail ∧ dequeued tr <+: enqueued tr ∧
    (enqueued tr).length = w.shared.prod.head ∧
    (w.shared.cons.tail ≤ w.shared.cons.head ∧ w.shared.cons.head ≤ w.shared.prod.tail ∧
      w.shared.prod.tail ≤ w.shared.prod.head ∧
      w.shared.prod.head ≤ w.shared.cons.tail + (2 ^ e - 1)) ∧
    (∀ t u a b, t ≠ u → (w.pc t).res = some a → (w.pc u).res = some b →
      ∀ i < a.n, ∀ j < b.n, (a.start + i) % 2 ^ e ≠ (b.start + j) % 2 ^ e) ∧
    Justified Legal tr ∧
    ∀ t, w.pc t ≠ .idle → (next (2 ^ e - 1) w.shared (w.pc t)).isSome := by
  have h := inv_of_calls hcalls hrun
  refine ⟨h.delivered, ?_, h.total, ⟨h.consLe, h.midLe, h.prodLe, h.room⟩, ?_, h.legal,
    fun t => next_isSome h⟩
  · rw [h.delivered]
    exact take_prefix _ _
  · intro t u a b htu ha hb i hi j hj
    exact h.slots_ne (Nat.two_pow_pos e) htu ha hb hi hj

def twoObjects : List (Nat × Act Nat) :=
  [(0, .call (.enqueue .bulk [7, 8])), (1, .call (.dequeue .burst 3)), (0, .step), (0, .step),
    (0, .spurious), (0, .step), (0, .step), (0, .step), (0, .step), (0, .step), (0, .step),
    (0, .step), (0, .step), (1, .step), (1, .step), (1, .step), (1, .step), (1, .step), (1, .step),
    (1, .step), (1, .step)]

theorem ring_is_queue_twoObjects :
    ∃ w tr, exec (trans 3) (new 0 : World Nat (Ring Nat) (Pc Nat)) twoObjects = some (w, tr) ∧
      enqueued tr = [7, 8] ∧ dequeued tr = [7, 8] ∧ w.shared.cons.tail = 2 ∧
      (enqueued tr).length = w.shared.prod.head := by
  obtain ⟨⟨w, tr⟩, hrun⟩ : ∃ r, exec (trans (2 ^ 2 - 1)) (new 0 : World Nat (Ring Nat) (Pc Nat))
      twoObjects = some r := ⟨_, rfl⟩
  have hend : (exec (trans (2 ^ 2 - 1)) (new 0 : World Nat (Ring Nat) (Pc Nat)) twoObjects).map
      (fun r => (enqueued r.2, dequeued r.2, r.1.shared.cons.tail)) = some ([7, 8], [7, 8], 2) := by
    decide
  rw [hrun, Option.map_some, Option.some.injEq] at hend
  obtain ⟨henq, hdeq, htail⟩ :
      enqueued tr = [7, 8] ∧ dequeued tr = [7, 8] ∧ w.shared.cons.tail = 2 := by
    simpa only [Prod.mk.injEq] using hend
  have hcalls : ∀ t op, (t, .call op) ∈ twoObjects → 1 ≤ op.max := by
    intro t op hop
    simp only [twoObjects, mem_cons, Prod.mk.injEq, Act.call.injEq, reduceCtorEq, and_false,
      not_mem_nil, or_false] at hop
    rcases hop with ⟨-, rfl⟩ | ⟨-, rfl⟩
    · decide
    · decide
  obtain ⟨-, -, htotal, -⟩ := ring_is_queue hcalls hrun
  exact ⟨w, tr, hrun, henq, hdeq, htail, htotal⟩

end Queue

def Pc.op : Pc α → Option (Op α)
  | .idle => none
  | .load op => some op
  | .check op _ => some op
  | .cas op _ _ => some op
  | .copy op _ _ _ _ => some op
  | .wait op _ _ _ => some op
  | .publish op _ _ _ => some op

/-- The step moves no tail back and loses no published object, and if it belongs to a request of
no objects, then nobody else can tell. -/
def Harmless [DecidableEq Tid] (mask : Nat) (w : World Tid (Ring α) (Pc α)) (i : Tid × Act α) :
    Prop :=
  ∀ p ∈ step (trans mask) w i,
    w.shared.prod.tail ≤ p.1.shared.prod.tail ∧ w.shared.cons.tail ≤ p.1.shared.cons.tail ∧
    (∀ k, p.1.shared.cons.tail ≤ k → k < w.shared.prod.tail →
      p.1.shared.slot (k % (mask + 1)) = w.shared.slot (k % (mask + 1))) ∧
    ∀ op ∈ (w.pc i.1).op, op.max = 0 → p.1.shared = w.shared

section Zero
variable {w : World Tid (Ring α) (Pc α)} {tr : List (Tid × Event α)} {t : Tid} {a : Act α}
  {q : Ring α × Pc α × Event α} {size : Nat}

theorem tails_step (side : Side) (h : Inv (2 ^ e) w tr) (hkept : TailKept w (t, a))
    (hq : trans (2 ^ e - 1) t w.shared (w.pc t) a = some q) :
    (w.shared.index side).tail ≤ (q.1.index side).tail := by
  obtain ⟨r', p', ev⟩ := q
  have hstep := trans_inv hq
  have hthread := h.thread t
  simp only at hstep ⊢
  generalize hpc : w.pc t = pc at hstep hthread
  cases hstep with
  | @reserve op start n hhead =>
    by_cases hside : side = op.side
    · rw [hside, index_setIndex_self]
    · rw [index_setIndex_of_ne hside]
  | @copy op start n p todo got s hs =>
    cases op with
    | enqueue b objs =>
      obtain ⟨x, -, rfl⟩ := Option.map_eq_some_iff.mp hs
      cases side <;> exact Nat.le_refl _
    | dequeue b k =>
      obtain rfl := Option.some.inj hs
      exact Nat.le_refl _
  | @publish op start n got =>
    have hkept := hkept rfl
    rw [hpc] at hkept
    by_cases hside : side = op.side
    · rw [hside, index_setIndex_self]
      by_cases hn : n = 0
      · rw [hkept hn]
        exact Nat.le_add_right _ _
      · exact Nat.le_trans (hthread.2.1 hn).1 (Nat.le_add_right _ _)
    · rw [index_setIndex_of_ne hside]
  | _ => exact Nat.le_refl _

theorem zero_step {op : Op α} (h : Inv (2 ^ e) w tr) (hkept : TailKept w (t, a))
    (hop : (w.pc t).op = some op) (hmax : op.max = 0)
    (hq : trans (2 ^ e - 1) t w.shared (w.pc t) a = some q) : q.1 = w.shared := by
  obtain ⟨r', p', ev⟩ := q
  have hstep := trans_inv hq
  have hthread := h.thread t
  simp only at hstep ⊢
  generalize hpc : w.pc t = pc at hstep hthread hop
  cases hstep with
  | reserve hhead =>
    obtain rfl := Option.some.inj hop
    have hn := Nat.le_zero.mp (hmax ▸ hthread.2.1)
    rw [hn, Nat.add_zero, ← hhead]
    exact setIndex_index w.shared _
  | copy hs =>
    -- there is nothing to copy
    obtain rfl := Option.some.inj hop
    obtain ⟨hsized, -, m, -, htodo, -⟩ := hthread
    have hm := (drop_accesses htodo).1
    have hle := hsized.1
    omega
  | publish =>
    obtain rfl := Option.some.inj hop
    have hkept := hkept rfl
    rw [hpc] at hkept
    have hn := Nat.le_zero.mp (hmax ▸ hthread.1.1)
    rw [hn, Nat.add_zero, ← hkept hn]
    exact setIndex_index w.shared _
  | _ => rfl

variable [DecidableEq Tid]

theorem harmless_of_kept (h : Inv (2 ^ e) w tr) (hkept : TailKept w (t, a)) :
    Harmless (2 ^ e - 1) w (t, a) := by
  intro p hp
  obtain ⟨q, hq, rfl⟩ := Option.map_eq_some_iff.mp hp
  have hprod := tails_step .prod h hkept hq
  have hcons := tails_step .cons h hkept hq
  refine ⟨hprod, hcons, fun k hct hpt => ?_, fun op hop hmax => zero_step h hkept hop hmax hq⟩
  -- both states hold the object that was enqueued at this place
  have hnext := inv_step h hkept hq
  have hold := h.content k (Nat.le_trans hcons hct) hpt
  have hnew := hnext.content k hct (Nat.lt_of_lt_of_le hpt hprod)
  have hlt : k < (enqueued tr).length := by
    have hle := h.prodLe
    rw [h.total]
    omega
  rw [enqueued_snoc, getElem?_append_left hlt, hold] at hnew
  rw [Nat.sub_add_cancel Nat.one_le_two_pow]
  exact (Option.some.inj hnew).symm

theorem kept_of_harmless (h : Inv (2 ^ e) w tr) (hharm : Harmless (2 ^ e - 1) w (t, a)) :
    TailKept w (t, a) := by
  rintro rfl
  show (w.pc t).Kept w.shared
  have hthread := h.thread t
  cases hpc : w.pc t with
  | publish op start n got =>
    rintro rfl
    rw [hpc] at hthread
    have hle : start ≤ (w.shared.index op.side).tail := hthread.2.2.2
    have hstep : step (trans (2 ^ e - 1)) w (t, .step) = some (⟨w.shared.setIndex
        { w.shared.index op.side with tail := start + 0 } op.side, Function.update w.pc t .idle⟩,
        (t, .done op start 0 got)) := by
      simp only [step, trans, hpc, next, Option.map_some]
    obtain ⟨hprod, hcons, -⟩ := hharm _ hstep
    cases op with
    | enqueue b objs => exact Nat.le_antisymm hprod hle
    | dequeue b k => exact Nat.le_antisymm hcons hle
  | _ => trivial

/-- Every step of a run is harmless if and only if every request of no objects that stores a tail
finds it where it has seen it. -/
theorem zero_requests_harmless_iff (e : Nat) (x₀ : α) (sched : List (Tid × Act α)) :
    Run.StepsMeet (step (trans (2 ^ e - 1))) (Harmless (2 ^ e - 1)) (new x₀) sched ↔
      Run.StepsMeet (step (trans (2 ^ e - 1))) TailKept (new x₀) sched := by
  apply Run.stepsMeet_congr (I := fun w => ∃ tr, Inv (2 ^ e) w tr)
  · rintro w ⟨t, a⟩ p ⟨tr, h⟩ hkept hp
    obtain ⟨q, hq, rfl⟩ := Option.map_eq_some_iff.mp hp
    exact ⟨_, inv_step h hkept hq⟩
  · rintro w ⟨t, a⟩ ⟨tr, h⟩
    exact ⟨kept_of_harmless h, harmless_of_kept h⟩
  · exact ⟨[], inv_new e x₀⟩

def overtaken : List (Nat × Act Nat) :=
  [(0, .call (.enqueue .bulk [])), (0, .step), (0, .step), (0, .step), (0, .step), (0, .step),
    (1, .call (.enqueue .bulk [7])), (1, .step), (1, .step), (1, .step), (1, .step), (1, .step),
    (1, .step), (1, .step)]

/-- Its store takes the published object back. -/
theorem zero_request_hides_object :
    ∃ w tr w' tr', exec (trans 3) (new 0 : World Nat (Ring Nat) (Pc Nat)) overtaken = some (w, tr) ∧
      exec (trans 3) w [(0, .step)] = some (w', tr') ∧
      w.shared.prod.tail = 1 ∧ w'.shared.prod.tail = 0 ∧
      ¬ Run.StepsMeet (step (trans 3)) (Harmless 3) (new 0 : World Nat (Ring Nat) (Pc Nat))
        (overtaken ++ [(0, .step)]) := by
  obtain ⟨⟨w, tr⟩, hrun⟩ : ∃ r, exec (trans 3) (new 0 : World Nat (Ring Nat) (Pc Nat)) overtaken =
      some r := ⟨_, rfl⟩
  have hend : (exec (trans 3) (new 0 : World Nat (Ring Nat) (Pc Nat)) overtaken).map
      (fun r => (r.1.shared.prod, r.1.pc 0)) =
        some (⟨1, 1⟩, .publish (.enqueue .bulk []) 0 0 []) := by decide
  rw [hrun, Option.map_some, Option.some.injEq, Prod.mk.injEq] at hend
  obtain ⟨hprod, hpc⟩ := hend
  have hstep : step (trans 3) w (0, .step) = some (⟨{ w.shared with prod := ⟨1, 0⟩ },
      Function.update w.pc 0 .idle⟩, (0, .done (.enqueue .bulk []) 0 0 [])) := by
    simp only at hprod hpc
    simp only [step, trans, hpc, next, Option.map_some, Op.side, Ring.index, Ring.setIndex, hprod]
  refine ⟨w, tr, ⟨{ w.shared with prod := ⟨1, 0⟩ }, Function.update w.pc 0 .idle⟩,
    [(0, .done (.enqueue .bulk []) 0 0 [])], hrun, ?_, ?_, rfl, fun hmeet => ?_⟩
  · simp only [exec, Run.run, hstep, Option.bind_some, Option.map_some]
  · simp only at hprod
    rw [hprod]
  · have hlast := (hmeet.append_right hrun).1 _ hstep
    have htail := hlast.1
    simp only at hprod htail
    rw [hprod] at htail
    exact absurd htail (by decide)

end Zero
end PortableLib.RingBuf
