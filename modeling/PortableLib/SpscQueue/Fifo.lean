import PortableLib.SpscQueue.Queue

/-! Whatever the two threads do, the queue is a window of the sequence of items that the producer
has published. Each thread owns its own index, so the copy that it holds is never stale; the copy
of the other index may be, but then there is more room, or there are more items, than it says. -/

namespace PortableLib.SpscQueue
open List Interleave Circular

variable {α : Type}

def Event.enqueues : Event α → List α
  | .enqDone x => [x]
  | _ => []

def Event.dequeues : Event α → List α
  | .deqDone x => [x]
  | _ => []

def enqueued (tr : List (Role × Event α)) : List α := tr.flatMap fun e => e.2.enqueues

def dequeued (tr : List (Role × Event α)) : List α := tr.flatMap fun e => e.2.dequeues

/-- A call fails only where the number of items in the queue allows it. -/
def Allowed (sz : Nat) (E D : List α) : Event α → Prop
  | .enqFull => E.length = D.length + (sz - 1)
  | .deqEmpty => D = E
  | _ => True

def Legal (sz : Nat) (tr : List (Role × Event α)) (e : Role × Event α) : Prop :=
  Allowed sz (enqueued tr) (dequeued tr) e.2

def Pc.slot : Pc α → Option Nat
  | .enqWrite _ wr _ => some wr
  | .enqStore _ wr _ => some wr
  | .deqRead rd => some rd
  | .deqStore rd _ => some rd
  | _ => none

def ProducerOk (q : Queue α) (E D : List α) : Pc α → Prop
  | .idle => True
  | .enqLoad _ => True
  | .enqCheck _ wr nwr => wr = q.wr ∧ nwr = bump q.sz wr
  | .enqWrite _ wr nwr => (wr = q.wr ∧ nwr = bump q.sz wr) ∧ E.length + 1 < D.length + q.sz
  | .enqStore x wr nwr =>
    (wr = q.wr ∧ nwr = bump q.sz wr) ∧ E.length + 1 < D.length + q.sz ∧ q.elem wr = x
  | _ => False

def ConsumerOk (q : Queue α) (E D : List α) : Pc α → Prop
  | .idle => True
  | .deqLoad => True
  | .deqCheck rd => rd = q.rd
  | .deqRead rd => rd = q.rd ∧ D.length < E.length
  | .deqStore rd x => rd = q.rd ∧ D.length < E.length ∧ q.elem rd = x
  | _ => False

/-- The state of the queue and the places of the two threads, after the items `E` have been
published and the items `D` taken. -/
structure Inv (q : Queue α) (p c : Pc α) (E D : List α) : Prop where
  pos : 0 < q.sz
  rd : q.rd = D.length % q.sz
  wr : q.wr = E.length % q.sz
  taken : D = E.take D.length
  room : E.length < D.length + q.sz
  holds : Holds q.sz q.elem E D.length
  producer : ProducerOk q E D p
  consumer : ConsumerOk q E D c

section Steps

variable {q q' : Queue α} {p p' c c' : Pc α} {E D : List α} {ev : Event α} {x : α} {wr nwr rd : Nat}

theorem Inv.le (h : Inv q p c E D) : D.length ≤ E.length := by
  rw [h.taken]
  exact length_take_le' _ _

theorem Inv.eq_iff_empty (h : Inv q p c E D) : q.rd = q.wr ↔ D = E := by
  rw [h.rd, h.wr, mod_eq_mod_iff h.le h.room]
  constructor
  · intro hlen
    rw [h.taken, hlen, take_length]
  · exact congrArg length

theorem Inv.bump_eq_iff_full (h : Inv q p c E D) :
    bump q.sz q.wr = q.rd ↔ E.length + 1 = D.length + q.sz := by
  rw [h.rd, h.wr]
  exact bump_eq_mod_iff h.le h.room

theorem ProducerOk.slot_eq {i : Nat} (h : ProducerOk q E D p) (hi : p.slot = some i) :
    i = q.wr := by
  cases p with
  | enqWrite _ _ _ => exact (Option.some.inj hi).symm.trans h.1.1
  | enqStore _ _ _ => exact (Option.some.inj hi).symm.trans h.1.1
  | deqRead _ => exact h.elim
  | deqStore _ _ => exact h.elim
  | _ => exact absurd hi nofun

theorem ConsumerOk.slot_eq {j : Nat} (h : ConsumerOk q E D c) (hj : c.slot = some j) :
    j = q.rd ∧ D.length < E.length := by
  cases c with
  | deqRead _ => exact ⟨(Option.some.inj hj).symm.trans h.1, h.2⟩
  | deqStore _ _ => exact ⟨(Option.some.inj hj).symm.trans h.1, h.2.1⟩
  | enqWrite _ _ _ => exact h.elim
  | enqStore _ _ _ => exact h.elim
  | _ => exact absurd hj nofun

theorem Inv.slot_ne (h : Inv q p c E D) {i j : Nat} (hi : p.slot = some i) (hj : c.slot = some j) :
    i ≠ j := by
  have hp := h.producer.slot_eq hi
  obtain ⟨hc, hlt⟩ := h.consumer.slot_eq hj
  rw [hp, hc, h.rd, h.wr]
  exact (mod_ne_of_window (Nat.le_refl _) hlt h.room).symm

theorem Inv.slot_lt (h : Inv q p c E D) {i : Nat} (hi : p.slot = some i ∨ c.slot = some i) :
    i < q.sz := by
  have hwr : q.wr < q.sz := h.wr ▸ Nat.mod_lt _ h.pos
  have hrd : q.rd < q.sz := h.rd ▸ Nat.mod_lt _ h.pos
  rcases hi with hi | hi
  · exact Nat.lt_of_le_of_lt (Nat.le_of_eq (h.producer.slot_eq hi)) hwr
  · exact Nat.lt_of_le_of_lt (Nat.le_of_eq (h.consumer.slot_eq hi).1) hrd

theorem Inv.size_eq (h : Inv q p c E D) : size q.sz q.rd q.wr = E.length - D.length := by
  rw [h.rd, h.wr, size]
  exact count_eq h.le h.room

theorem Inv.emptyP_iff (h : Inv q p c E D) : emptyP q.rd q.wr = true ↔ D = E := by
  unfold emptyP
  rw [beq_iff_eq]
  exact h.eq_iff_empty

theorem Inv.fullP_iff (h : Inv q p c E D) :
    fullP q.sz q.wr q.rd = true ↔ E.length = D.length + (q.sz - 1) := by
  have hpos := h.pos
  unfold fullP
  rw [beq_iff_eq, h.bump_eq_iff_full]
  omega

theorem Inv.write (h : Inv q (.enqWrite x wr nwr) c E D) :
    Inv { q with elem := Function.update q.elem wr x } (.enqStore x wr nwr) c E D := by
  obtain ⟨⟨hwr, hnwr⟩, hroom⟩ := h.producer
  have hholds : Holds q.sz (Function.update q.elem wr x) E D.length := by
    rw [hwr, h.wr]
    exact h.holds.write h.room
  refine ⟨h.pos, h.rd, h.wr, h.taken, h.room, hholds, ?_, ?_⟩
  · exact ⟨⟨hwr, hnwr⟩, hroom, Function.update_self wr x q.elem⟩
  · have hok := h.consumer
    cases c with
    | deqStore rd y =>
      have hne := h.slot_ne (i := wr) (j := rd) rfl rfl
      exact ⟨hok.1, hok.2.1, (Function.update_of_ne hne.symm x q.elem).trans hok.2.2⟩
    | _ => exact hok

theorem ConsumerOk.enq (h : ConsumerOk q E D c) :
    ConsumerOk { q with wr := nwr } (E ++ [x]) D c := by
  have hlen : E.length ≤ (E ++ [x]).length := by
    rw [length_append]
    exact Nat.le_add_right _ _
  cases c with
  | deqRead rd => exact ⟨h.1, Nat.lt_of_lt_of_le h.2 hlen⟩
  | deqStore rd y => exact ⟨h.1, Nat.lt_of_lt_of_le h.2.1 hlen, h.2.2⟩
  | _ => exact h

theorem Inv.publish (h : Inv q (.enqStore x wr nwr) c E D) :
    Inv { q with wr := nwr } .idle c (E ++ [x]) D := by
  obtain ⟨⟨hwr, hnwr⟩, hroom, hx⟩ := h.producer
  have hlen : (E ++ [x]).length = E.length + 1 := length_append
  refine ⟨h.pos, h.rd, ?_, ?_, ?_, h.holds.snoc ?_, trivial, h.consumer.enq⟩
  · change nwr = (E ++ [x]).length % q.sz
    rw [hnwr, hwr, h.wr, bump_mod h.pos, hlen]
  · rw [take_append_of_le_length h.le]
    exact h.taken
  · change (E ++ [x]).length < D.length + q.sz
    rwa [hlen]
  · rw [← h.wr, ← hwr]
    exact hx

theorem inv_producer (h : Inv q p c E D) (hq : next q p = some (q', p', ev)) :
    Inv q' p' c (E ++ ev.enqueues) (D ++ ev.dequeues) ∧ Allowed q.sz E D ev := by
  have hok := h.producer
  cases p with
  | enqLoad x =>
    obtain ⟨rfl, rfl, rfl⟩ := hq
    simp only [Event.enqueues, Event.dequeues, append_nil]
    exact ⟨{ h with producer := ⟨rfl, rfl⟩ }, trivial⟩
  | enqCheck x wr nwr =>
    simp only [next] at hq
    have hfull := h.bump_eq_iff_full
    rw [← hok.1, ← hok.2] at hfull
    split at hq
    · next hne =>
      obtain ⟨rfl, rfl, rfl⟩ := hq
      simp only [Event.enqueues, Event.dequeues, append_nil]
      have hroom : E.length + 1 < D.length + q.sz :=
        Nat.lt_of_le_of_ne h.room fun heq => hne (hfull.mpr heq)
      exact ⟨{ h with producer := ⟨hok, hroom⟩ }, trivial⟩
    · next heq =>
      obtain ⟨rfl, rfl, rfl⟩ := hq
      simp only [Event.enqueues, Event.dequeues, append_nil]
      refine ⟨{ h with producer := trivial }, ?_⟩
      have hlen := hfull.mp (not_not.mp heq)
      have hpos := h.pos
      change E.length = D.length + (q.sz - 1)
      omega
  | enqWrite x wr nwr =>
    obtain ⟨rfl, rfl, rfl⟩ := hq
    simp only [Event.enqueues, Event.dequeues, append_nil]
    exact ⟨h.write, trivial⟩
  | enqStore x wr nwr =>
    obtain ⟨rfl, rfl, rfl⟩ := hq
    simp only [Event.enqueues, Event.dequeues, append_nil]
    exact ⟨h.publish, trivial⟩
  | idle => exact absurd hq nofun
  | _ => exact hok.elim

theorem ProducerOk.deq (h : ProducerOk q E D p) :
    ProducerOk { q with rd := rd } E (D ++ [x]) p := by
  have hlen : D.length ≤ (D ++ [x]).length := by
    rw [length_append]
    exact Nat.le_add_right _ _
  cases p with
  | enqWrite y wr nwr => exact ⟨h.1, Nat.lt_of_lt_of_le h.2 (Nat.add_le_add_right hlen _)⟩
  | enqStore y wr nwr => exact ⟨h.1, Nat.lt_of_lt_of_le h.2.1 (Nat.add_le_add_right hlen _), h.2.2⟩
  | _ => exact h

theorem Inv.release (h : Inv q p (.deqStore rd x) E D) :
    Inv { q with rd := bump q.sz rd } p .idle E (D ++ [x]) := by
  obtain ⟨hrd, hlt, hx⟩ := h.consumer
  have hlen : (D ++ [x]).length = D.length + 1 := length_append
  have hroom := h.room
  refine ⟨h.pos, ?_, h.wr, ?_, ?_, h.holds.mono ?_, h.producer.deq, trivial⟩
  · change bump q.sz rd = (D ++ [x]).length % q.sz
    rw [hrd, h.rd, bump_mod h.pos, hlen]
  · rw [hlen, h.holds.take_succ hlt, ← h.taken, ← h.rd, ← hrd, hx]
  · change E.length < (D ++ [x]).length + q.sz
    omega
  · rw [hlen]
    exact Nat.le_succ _

theorem inv_consumer (h : Inv q p c E D) (hq : next q c = some (q', c', ev)) :
    Inv q' p c' (E ++ ev.enqueues) (D ++ ev.dequeues) ∧ Allowed q.sz E D ev := by
  have hok := h.consumer
  cases c with
  | deqLoad =>
    obtain ⟨rfl, rfl, rfl⟩ := hq
    simp only [Event.enqueues, Event.dequeues, append_nil]
    exact ⟨{ h with consumer := rfl }, trivial⟩
  | deqCheck rd =>
    simp only [next] at hq
    have hempty := h.eq_iff_empty
    rw [← show rd = q.rd from hok] at hempty
    split at hq
    · next hne =>
      obtain ⟨rfl, rfl, rfl⟩ := hq
      simp only [Event.enqueues, Event.dequeues, append_nil]
      have hlt : D.length < E.length := by
        refine Nat.lt_of_le_of_ne h.le fun hlen => hne (hempty.mpr ?_)
        rw [h.taken, hlen, take_length]
      exact ⟨{ h with consumer := ⟨hok, hlt⟩ }, trivial⟩
    · next heq =>
      obtain ⟨rfl, rfl, rfl⟩ := hq
      simp only [Event.enqueues, Event.dequeues, append_nil]
      exact ⟨{ h with consumer := trivial }, hempty.mp (not_not.mp heq)⟩
  | deqRead rd =>
    obtain ⟨rfl, rfl, rfl⟩ := hq
    simp only [Event.enqueues, Event.dequeues, append_nil]
    exact ⟨{ h with consumer := ⟨hok.1, hok.2, rfl⟩ }, trivial⟩
  | deqStore rd x =>
    obtain ⟨rfl, rfl, rfl⟩ := hq
    simp only [Event.enqueues, Event.dequeues, append_nil]
    exact ⟨h.release, trivial⟩
  | idle => exact absurd hq nofun
  | _ => exact hok.elim

theorem next_sz {r : Queue α × Pc α × Event α} (hq : next q p = some r) : r.1.sz = q.sz := by
  cases p with
  | idle => exact absurd hq nofun
  | enqCheck x wr nwr =>
    simp only [next] at hq
    split at hq
    all_goals
      obtain rfl := Option.some.inj hq
      rfl
  | deqCheck rd =>
    simp only [next] at hq
    split at hq
    all_goals
      obtain rfl := Option.some.inj hq
      rfl
  | _ =>
    obtain rfl := Option.some.inj hq
    rfl

end Steps

section Runs

variable {sz : Nat} {w : World Role (Queue α) (Pc α)} {tr : List (Role × Event α)}

theorem enqueued_snoc (tr : List (Role × Event α)) (e : Role × Event α) :
    enqueued (tr ++ [e]) = enqueued tr ++ e.2.enqueues := by
  unfold enqueued
  rw [flatMap_append, flatMap_singleton]

theorem dequeued_snoc (tr : List (Role × Event α)) (e : Role × Event α) :
    dequeued (tr ++ [e]) = dequeued tr ++ e.2.dequeues := by
  unfold dequeued
  rw [flatMap_append, flatMap_singleton]

structure Sound (sz : Nat) (w : World Role (Queue α) (Pc α)) (tr : List (Role × Event α)) :
    Prop where
  size : w.shared.sz = sz
  inv : Inv w.shared (w.pc .producer) (w.pc .consumer) (enqueued tr) (dequeued tr)
  legal : Justified (Legal sz) tr

theorem trans_cases {role : Role} {q : Queue α} {pc : Pc α} {a : Act α}
    {r : Queue α × Pc α × Event α} (hr : trans role q pc a = some r) :
    next q pc = some r ∨ (∃ x, role = .producer ∧ pc = .idle ∧ r = (q, .enqLoad x, .called)) ∨
      (role = .consumer ∧ pc = .idle ∧ r = (q, .deqLoad, .called)) := by
  cases a with
  | step => exact .inl hr
  | enq x =>
    simp only [trans] at hr
    split at hr
    · exact .inr (.inl ⟨x, rfl, rfl, (Option.some.inj hr).symm⟩)
    · exact absurd hr nofun
  | deq =>
    simp only [trans] at hr
    split at hr
    · exact .inr (.inr ⟨rfl, rfl, (Option.some.inj hr).symm⟩)
    · exact absurd hr nofun

theorem inv_step {role : Role} {q : Queue α} {pc : Role → Pc α} {E D : List α} {a : Act α}
    {r : Queue α × Pc α × Event α} (h : Inv q (pc .producer) (pc .consumer) E D)
    (hr : trans role q (pc role) a = some r) :
    Inv r.1 (Function.update pc role r.2.1 .producer) (Function.update pc role r.2.1 .consumer)
      (E ++ r.2.2.enqueues) (D ++ r.2.2.dequeues) ∧ Allowed q.sz E D r.2.2 ∧ r.1.sz = q.sz := by
  have hcp : Role.consumer ≠ .producer := nofun
  rcases trans_cases hr with hnext | ⟨x, rfl, -, rfl⟩ | ⟨rfl, -, rfl⟩
  · cases role with
    | producer =>
      have hstep := inv_producer h hnext
      rw [Function.update_self, Function.update_of_ne hcp]
      exact ⟨hstep.1, hstep.2, next_sz hnext⟩
    | consumer =>
      have hstep := inv_consumer h hnext
      rw [Function.update_self, Function.update_of_ne hcp.symm]
      exact ⟨hstep.1, hstep.2, next_sz hnext⟩
  · rw [Function.update_self, Function.update_of_ne hcp]
    simp only [Event.enqueues, Event.dequeues, append_nil]
    exact ⟨{ h with producer := trivial }, trivial, trivial⟩
  · rw [Function.update_self, Function.update_of_ne hcp.symm]
    simp only [Event.enqueues, Event.dequeues, append_nil]
    exact ⟨{ h with consumer := trivial }, trivial, trivial⟩

theorem sound_step {t : Role} {a : Act α} {r : Queue α × Pc α × Event α} (h : Sound sz w tr)
    (hr : trans t w.shared (w.pc t) a = some r) :
    Sound sz ⟨r.1, Function.update w.pc t r.2.1⟩ (tr ++ [(t, r.2.2)]) := by
  obtain ⟨hinv, hallowed, hsz⟩ := inv_step h.inv hr
  refine ⟨hsz.trans h.size, ?_, h.legal.snoc ?_⟩
  · rw [enqueued_snoc, dequeued_snoc]
    exact hinv
  · change Allowed sz (enqueued tr) (dequeued tr) r.2.2
    rw [← h.size]
    exact hallowed

theorem sound_new {n : Nat} (hn : 1 ≤ n % 2 ^ 32) (elem : Nat → α) :
    Sound (n % 2 ^ 32) (new n elem) [] where
  size := rfl
  inv :=
    { pos := hn
      rd := (Nat.zero_mod _).symm
      wr := (Nat.zero_mod _).symm
      taken := rfl
      room := Nat.lt_add_of_pos_right hn
      holds := fun i _ hi => absurd hi (Nat.not_lt_zero i)
      producer := trivial
      consumer := trivial }
  legal := justified_nil _

variable {n : Nat} {elem : Nat → α} {sched : List (Role × Act α)}

/-- The items come out in the order in which they went in; the queue never holds more than it has
room for, the two threads never work on one slot, and a call fails only in a queue that is full, or
empty, at the time of the load that says so. -/
theorem spsc_fifo (hn : 1 ≤ (init n elem).sz)
    (hrun : exec trans (new n elem) sched = some (w, tr)) :
    dequeued tr <+: enqueued tr ∧
    (enqueued tr).length - (dequeued tr).length ≤ (init n elem).sz - 1 ∧
    size w.shared.sz w.shared.rd w.shared.wr = (enqueued tr).length - (dequeued tr).length ∧
    (fullP w.shared.sz w.shared.wr w.shared.rd = true ↔
      (enqueued tr).length = (dequeued tr).length + ((init n elem).sz - 1)) ∧
    (emptyP w.shared.rd w.shared.wr = true ↔ dequeued tr = enqueued tr) ∧
    w.shared.sz = (init n elem).sz ∧ w.shared.rd < (init n elem).sz ∧
    w.shared.wr < (init n elem).sz ∧
    (∀ t i, (w.pc t).slot = some i → i < (init n elem).sz) ∧
    (∀ i j, (w.pc .producer).slot = some i → (w.pc .consumer).slot = some j → i ≠ j) ∧
    Justified (Legal (init n elem).sz) tr := by
  have h : Sound (n % 2 ^ 32) w tr :=
    exec_invariant (fun _ _ _ _ _ => sound_step) (sound_new hn elem) hrun
  have hinv := h.inv
  have hsize : w.shared.sz = n % 2 ^ 32 := h.size
  have hslot : ∀ t i, (w.pc t).slot = some i → i < w.shared.sz := by
    intro t i hi
    cases t with
    | producer => exact hinv.slot_lt (.inl hi)
    | consumer => exact hinv.slot_lt (.inr hi)
  change _ ∧ _ ≤ n % 2 ^ 32 - 1 ∧ _ ∧ (_ ↔ _ = _ + (n % 2 ^ 32 - 1)) ∧ _ ∧ _ ∧
    _ < n % 2 ^ 32 ∧ _ < n % 2 ^ 32 ∧ (∀ t i, _ → i < n % 2 ^ 32) ∧ _ ∧
    Justified (Legal (n % 2 ^ 32)) tr
  rw [← hsize]
  refine ⟨?_, ?_, hinv.size_eq, hinv.fullP_iff, hinv.emptyP_iff, hsize, ?_, ?_, hslot,
    fun i j => hinv.slot_ne, ?_⟩
  · rw [hinv.taken]
    exact take_prefix _ _
  · have hroom := hinv.room
    omega
  · rw [hinv.rd]
    exact Nat.mod_lt _ hinv.pos
  · rw [hinv.wr]
    exact Nat.mod_lt _ hinv.pos
  · rw [hsize]
    exact h.legal

def wrapAround : List (Role × Act Nat) :=
  let enq (x : Nat) : List (Role × Act Nat) :=
    [(.producer, .enq x), (.producer, .step), (.producer, .step), (.producer, .step),
      (.producer, .step)]
  enq 7 ++ enq 8 ++ [(Role.producer, Act.enq 9), (Role.producer, Act.step),
    (Role.consumer, Act.deq), (Role.consumer, Act.step), (Role.consumer, Act.step),
    (Role.consumer, Act.step), (Role.producer, Act.step), (Role.consumer, Act.step)] ++ enq 9

theorem spsc_fifo_wrapAround :
    ∃ w tr, exec trans (new 3 fun _ => 0) wrapAround = some (w, tr) ∧ enqueued tr = [7, 8, 9] ∧
      dequeued tr = [7] ∧ (.producer, .enqFull) ∈ tr ∧ w.shared.wr = 0 ∧
      size w.shared.sz w.shared.rd w.shared.wr = 2 := by
  obtain ⟨⟨w, tr⟩, hrun⟩ : ∃ r, exec trans (new 3 fun _ => 0) wrapAround = some r := ⟨_, rfl⟩
  have hend : (exec trans (new 3 fun _ => 0) wrapAround).map
      (fun r => (enqueued r.2, dequeued r.2, decide ((.producer, .enqFull) ∈ r.2),
        r.1.shared.wr)) = some ([7, 8, 9], [7], true, 0) := by decide
  rw [hrun, Option.map_some, Option.some.injEq] at hend
  simp only [Prod.mk.injEq, decide_eq_true_eq] at hend
  obtain ⟨henq, hdeq, hfull, hwr⟩ := hend
  obtain ⟨-, -, hsize, -⟩ := spsc_fifo (by decide) hrun
  rw [henq, hdeq] at hsize
  exact ⟨w, tr, hrun, henq, hdeq, hfull, hwr, hsize⟩

end Runs
end PortableLib.SpscQueue
