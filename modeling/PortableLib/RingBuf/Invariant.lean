import Mathlib.Data.List.Basic
import Mathlib.Data.Nat.Bitwise
import PortableLib.Lib.Circular
import PortableLib.RingBuf.Ring

/-! What holds between any two steps on a ring, as long as no request of zero objects moves a
tail back. Reservations of one side are intervals between its tail and its head, one after the
other; all of them lie in a window that is shorter than the ring. -/

namespace PortableLib.RingBuf
open List Interleave Circular

variable {α Tid : Type} {e : Nat}

/-! ## Copying -/

section Copying

theorem flatMap_range_four {β : Type} (f : Nat → β) (q : Nat) :
    ((range q).flatMap fun b => [f (4 * b), f (4 * b + 1), f (4 * b + 2), f (4 * b + 3)]) =
      (range (4 * q)).map f := by
  induction q with
  | zero => rfl
  | succ q ih =>
    rw [range_succ, flatMap_append, ih, show 4 * (q + 1) = 4 * q + 1 + 1 + 1 + 1 by omega]
    simp only [range_succ, map_append, map_cons, map_nil, flatMap_cons, flatMap_nil, append_assoc,
      cons_append, nil_append]

theorem accesses_unrolled {mask head n : Nat} (h : (head &&& mask) + n ≤ mask) :
    accesses mask head n = (range n).map fun i => ((head &&& mask) + i, i) := by
  have hshift : n >>> 2 = n / 4 := Nat.shiftRight_eq_div_pow n 2
  have hloops : (n / 4) <<< 2 = 4 * (n / 4) := by
    rw [Nat.shiftLeft_eq, Nat.mul_comm]
  have hand : n &&& 3 = n % 4 := Nat.and_two_pow_sub_one_eq_mod n 2
  have hfour := flatMap_range_four (fun i => ((head &&& mask) + i, i)) (n / 4)
  unfold accesses
  simp only [if_pos h, hshift, hloops, hand]
  have hmod : n % 4 < 4 := Nat.mod_lt n (by decide)
  have hn : n = 4 * (n / 4) + n % 4 := (Nat.div_add_mod n 4).symm
  generalize n / 4 = q at *
  generalize n % 4 = r at *
  rw [hn]
  simp only [Nat.add_zero, Nat.add_assoc] at hfour ⊢
  rw [hfour]
  obtain rfl | rfl | rfl | rfl : r = 0 ∨ r = 1 ∨ r = 2 ∨ r = 3 := by omega
  · simp only [append_nil, Nat.add_zero]
  · simp only [range_succ, map_append, map_cons, map_nil]
  · rw [show 4 * q + 2 = 4 * q + 1 + 1 by rfl]
    simp only [range_succ, map_append, map_cons, map_nil, append_assoc, cons_append, nil_append]
  · rw [show 4 * q + 3 = 4 * q + 1 + 1 + 1 by rfl]
    simp only [range_succ, map_append, map_cons, map_nil, append_assoc, cons_append, nil_append]

theorem accesses_eq (e head n : Nat) :
    accesses (2 ^ e - 1) head n = (range n).map fun i => ((head + i) % 2 ^ e, i) := by
  have hidx : head &&& (2 ^ e - 1) = head % 2 ^ e := Nat.and_two_pow_sub_one_eq_mod head e
  by_cases h : (head &&& (2 ^ e - 1)) + n ≤ 2 ^ e - 1
  · rw [accesses_unrolled h]
    apply map_congr_left
    intro i hi
    have hlt := mem_range.mp hi
    have hpos : 0 < 2 ^ e := Nat.two_pow_pos e
    rw [hidx] at h ⊢
    have hsum : (head + i) % 2 ^ e = head % 2 ^ e + i := by
      rw [← Nat.mod_add_mod]
      exact Nat.mod_eq_of_lt (by omega)
    rw [hsum]
  · unfold accesses
    rw [if_neg h]
    apply map_congr_left
    intro i _
    rw [Nat.and_two_pow_sub_one_eq_mod, hidx, Nat.mod_add_mod]

end Copying

/-! ## Invariant -/

def Event.enqueues : Event α → List α
  | .reserved (.enqueue _ objs) _ n => objs.take n
  | _ => []

def Event.dequeues : Event α → List α
  | .done (.dequeue _ _) _ _ got => got
  | _ => []

def enqueued (tr : List (Tid × Event α)) : List α := tr.flatMap fun e => e.2.enqueues

def dequeued (tr : List (Tid × Event α)) : List α := tr.flatMap fun e => e.2.dequeues

/-- As many objects as were asked for, or fewer in burst mode. -/
def Sized (op : Op α) (n : Nat) : Prop := n ≤ op.max ∧ (op.behavior = .bulk → n = op.max)

def Legal (tr : List (Tid × Event α)) (e : Tid × Event α) : Prop :=
  match e.2 with
  | .reserved op _ n => Sized op n
  | .done op start n got => Sized op n ∧
      (op.side = .cons → got = ((enqueued tr).drop start).take n ∧ got.length = n)
  | _ => True

structure Res where
  side : Side
  start : Nat
  n : Nat
  deriving DecidableEq, Repr

def Pc.res : Pc α → Option Res
  | .copy op start n _ _ => if n = 0 then none else some ⟨op.side, start, n⟩
  | .wait op start n _ => if n = 0 then none else some ⟨op.side, start, n⟩
  | .publish op start n _ => if n = 0 then none else some ⟨op.side, start, n⟩
  | _ => none

def Res.Disjoint (a b : Res) : Prop :=
  a.side = b.side → a.start + a.n ≤ b.start ∨ b.start + b.n ≤ a.start

theorem Res.Disjoint.symm {a b : Res} (h : a.Disjoint b) : b.Disjoint a :=
  fun hside => (h hside.symm).symm

def Held (r : Ring α) (op : Op α) (start n : Nat) : Prop :=
  n ≠ 0 → (r.index op.side).tail ≤ start ∧ start + n ≤ (r.index op.side).head

def Copied (size : Nat) (r : Ring α) (E : List α) (op : Op α) (start n m : Nat) (got : List α) :
    Prop :=
  match op with
  | .enqueue _ objs => (∀ i < n, E[start + i]? = objs[i]?) ∧
      ∀ i < m, objs[i]? = some (r.slot ((start + i) % size))
  | .dequeue _ _ => got = (E.drop start).take m

def PcInv (size : Nat) (r : Ring α) (E : List α) : Pc α → Prop
  | .check op start => start ≤ (r.index op.side).head
  | .cas op start n => start + n ≤ limit (size - 1) r op ∧ Sized op n
  | .copy op start n todo got => Sized op n ∧ Held r op start n ∧
      ∃ m ≤ n, todo = ((range n).map fun i => ((start + i) % size, i)).drop m ∧
        Copied size r E op start n m got
  | .wait op start n got => Sized op n ∧ Held r op start n ∧ Copied size r E op start n n got
  | .publish op start n got => Sized op n ∧ Held r op start n ∧
      Copied size r E op start n n got ∧ start ≤ (r.index op.side).tail
  | _ => True

structure Inv (size : Nat) (w : World Tid (Ring α) (Pc α)) (tr : List (Tid × Event α)) : Prop where
  consLe : w.shared.cons.tail ≤ w.shared.cons.head
  midLe : w.shared.cons.head ≤ w.shared.prod.tail
  prodLe : w.shared.prod.tail ≤ w.shared.prod.head
  room : w.shared.prod.head ≤ w.shared.cons.tail + (size - 1)
  total : (enqueued tr).length = w.shared.prod.head
  content : ∀ i, w.shared.cons.tail ≤ i → i < w.shared.prod.tail →
    (enqueued tr)[i]? = some (w.shared.slot (i % size))
  delivered : dequeued tr = (enqueued tr).take w.shared.cons.tail
  thread : ∀ t, PcInv size w.shared (enqueued tr) (w.pc t)
  apart : Apart Res.Disjoint Pc.res w.pc
  legal : Justified Legal tr

section Stable
variable {size : Nat} {r r' : Ring α} {E xs : List α} {p : Pc α} {op : Op α} {start n m : Nat}
  {got : List α}

theorem Held.le_length (h : Held r op start n) (hn : n ≠ 0)
    (hlen : ∀ side, (r.index side).head ≤ E.length) : start + n ≤ E.length :=
  Nat.le_trans (h hn).2 (hlen op.side)

theorem Copied.stable (h : Copied size r E op start n m got) (hm : m ≤ n)
    (hlen : n ≠ 0 → start + n ≤ E.length)
    (hslot : op.side = .prod → ∀ i < n,
      r'.slot ((start + i) % size) = r.slot ((start + i) % size)) :
    Copied size r' (E ++ xs) op start n m got := by
  cases op with
  | enqueue b objs =>
    refine ⟨fun i hi => ?_, fun i hi => ?_⟩
    · have hle := hlen (by omega)
      rw [getElem?_append_left (by omega)]
      exact h.1 i hi
    · rw [hslot rfl i (by omega)]
      exact h.2 i hi
  | dequeue b k =>
    unfold Copied at h ⊢
    rcases Nat.eq_zero_or_pos m with rfl | hpos
    · rw [take_zero] at h ⊢
      exact h
    · have hle := hlen (by omega)
      rw [drop_append_of_le_length (by omega), take_append_of_le_length, h]
      rw [length_drop]
      omega

theorem Copied.content {b : Behavior} {objs : List α} {i : Nat}
    (h : Copied size r E (.enqueue b objs) start n n got) (hlo : start ≤ i) (hhi : i < start + n) :
    E[i]? = some (r.slot (i % size)) := by
  have hobj := h.1 (i - start) (by omega)
  have hslot := h.2 (i - start) (by omega)
  rw [Nat.add_sub_cancel' hlo] at hobj hslot
  rw [hobj, hslot]

theorem PcInv.stable (h : PcInv size r E p) (hlen : ∀ side, (r.index side).head ≤ E.length)
    (hhead : ∀ side, (r.index side).head ≤ (r'.index side).head)
    (htail : ∀ side, (r.index side).tail ≤ (r'.index side).tail)
    (hres : ∀ a, p.res = some a → (r'.index a.side).tail ≤ a.start ∧
      (a.side = .prod →
        ∀ i < a.n, r'.slot ((a.start + i) % size) = r.slot ((a.start + i) % size))) :
    PcInv size r' (E ++ xs) p := by
  have hheld : ∀ op start n, Held r op start n →
      (n ≠ 0 → (r'.index op.side).tail ≤ start) → Held r' op start n := by
    intro op start n hh hn h0
    exact ⟨hn h0, Nat.le_trans (hh h0).2 (hhead _)⟩
  have hcopied : ∀ op start n m got, Held r op start n → m ≤ n →
      (n ≠ 0 → p.res = some ⟨op.side, start, n⟩) → Copied size r E op start n m got →
      Copied size r' (E ++ xs) op start n m got := by
    intro op start n m got hh hm hp hc
    apply hc.stable hm fun h0 => hh.le_length h0 hlen
    intro hside i hi
    exact (hres _ (hp (by omega))).2 hside i hi
  cases p with
  | check op start => exact Nat.le_trans h (hhead _)
  | cas op start n =>
    refine ⟨Nat.le_trans h.1 ?_, h.2⟩
    cases op with
    | enqueue b objs => exact Nat.add_le_add_left (htail .cons) _
    | dequeue b k => exact htail .prod
  | copy op start n todo got =>
    obtain ⟨hsized, hh, m, hm, htodo, hc⟩ := h
    have hp : n ≠ 0 → (Pc.copy op start n todo got).res = some ⟨op.side, start, n⟩ :=
      fun h0 => if_neg h0
    exact ⟨hsized, hheld _ _ _ hh fun h0 => (hres _ (hp h0)).1, m, hm, htodo,
      hcopied _ _ _ _ _ hh hm hp hc⟩
  | wait op start n got =>
    obtain ⟨hsized, hh, hc⟩ := h
    have hp : n ≠ 0 → (Pc.wait op start n got).res = some ⟨op.side, start, n⟩ := fun h0 => if_neg h0
    exact ⟨hsized, hheld _ _ _ hh fun h0 => (hres _ (hp h0)).1,
      hcopied _ _ _ _ _ hh (Nat.le_refl n) hp hc⟩
  | publish op start n got =>
    obtain ⟨hsized, hh, hc, hle⟩ := h
    have hp : n ≠ 0 → (Pc.publish op start n got).res = some ⟨op.side, start, n⟩ :=
      fun h0 => if_neg h0
    exact ⟨hsized, hheld _ _ _ hh fun h0 => (hres _ (hp h0)).1,
      hcopied _ _ _ _ _ hh (Nat.le_refl n) hp hc, Nat.le_trans hle (htail _)⟩
  | _ => trivial

end Stable

/-! ## Steps -/

section Steps
variable {size : Nat} {w : World Tid (Ring α) (Pc α)}
  {tr : List (Tid × Event α)} {t : Tid} {p : Pc α} {ev : Event α} {op : Op α} {start n : Nat}
  {got : List α}

theorem enqueued_snoc (tr : List (Tid × Event α)) (t : Tid) (ev : Event α) :
    enqueued (tr ++ [(t, ev)]) = enqueued tr ++ ev.enqueues := by
  unfold enqueued
  rw [flatMap_append, flatMap_cons, flatMap_nil, append_nil]

theorem dequeued_snoc (tr : List (Tid × Event α)) (t : Tid) (ev : Event α) :
    dequeued (tr ++ [(t, ev)]) = dequeued tr ++ ev.dequeues := by
  unfold dequeued
  rw [flatMap_append, flatMap_cons, flatMap_nil, append_nil]

theorem Inv.head_le (h : Inv size w tr) (side : Side) :
    (w.shared.index side).head ≤ (enqueued tr).length := by
  rw [h.total]
  cases side with
  | prod => exact Nat.le_refl _
  | cons => exact Nat.le_trans h.midLe h.prodLe

theorem Inv.tail_le (h : Inv size w tr) (side : Side) :
    (w.shared.index side).tail ≤ (w.shared.index side).head := by
  cases side with
  | prod => exact h.prodLe
  | cons => exact h.consLe

theorem Inv.res_bounds (h : Inv size w tr) {u : Tid} {a : Res} (ha : (w.pc u).res = some a) :
    a.n ≠ 0 ∧ (w.shared.index a.side).tail ≤ a.start ∧
      a.start + a.n ≤ (w.shared.index a.side).head := by
  have hu := h.thread u
  have hall : ∀ (op : Op α) (start n : Nat), Held w.shared op start n →
      (if n = 0 then none else some (⟨op.side, start, n⟩ : Res)) = some a →
      a.n ≠ 0 ∧ (w.shared.index a.side).tail ≤ a.start ∧
        a.start + a.n ≤ (w.shared.index a.side).head := by
    intro op start n hh heq
    split_ifs at heq with h0
    obtain rfl := Option.some.inj heq
    exact ⟨h0, hh h0⟩
  cases hpc : w.pc u with
  | copy op start n todo got =>
    rw [hpc] at hu ha
    exact hall op start n hu.2.1 ha
  | wait op start n got =>
    rw [hpc] at hu ha
    exact hall op start n hu.2.1 ha
  | publish op start n got =>
    rw [hpc] at hu ha
    exact hall op start n hu.2.1 ha
  | _ =>
    rw [hpc] at ha
    cases ha

theorem Inv.prod_window (hsize : 0 < size) (h : Inv size w tr) :
    w.shared.prod.head < w.shared.cons.tail + size := by
  have hroom := h.room
  omega

theorem Inv.slots_ne (hsize : 0 < size) (h : Inv size w tr) {t u : Tid} (htu : t ≠ u) {a b : Res}
    (ha : (w.pc t).res = some a) (hb : (w.pc u).res = some b) {i j : Nat} (hi : i < a.n)
    (hj : j < b.n) : (a.start + i) % size ≠ (b.start + j) % size := by
  obtain ⟨-, hat, hah⟩ := h.res_bounds ha
  obtain ⟨-, hbt, hbh⟩ := h.res_bounds hb
  have hdisj := h.apart t u a b htu ha hb
  have hwin := h.prod_window hsize
  have hcons := h.consLe
  have hmid := h.midLe
  have hprod := h.prodLe
  -- a reservation of the consumers lies before one of the producers
  have horder : a.start + i < b.start + j ∨ b.start + j < a.start + i := by
    by_cases hside : a.side = b.side
    · rcases hdisj hside with hle | hle
      · exact .inl (by omega)
      · exact .inr (by omega)
    · cases ha' : a.side <;> cases hb' : b.side <;> rw [ha'] at hat hah hside <;>
        rw [hb'] at hbt hbh hside
      · exact absurd rfl hside
      · simp only [Ring.index] at hat hbh
        exact .inr (by omega)
      · simp only [Ring.index] at hah hbt
        exact .inl (by omega)
      · exact absurd rfl hside
  have hbounds : ∀ c : Res, (w.shared.index c.side).tail ≤ c.start →
      c.start + c.n ≤ (w.shared.index c.side).head →
      w.shared.cons.tail ≤ c.start ∧ c.start + c.n ≤ w.shared.prod.head := by
    intro c hlo hhi
    cases hc : c.side <;> rw [hc] at hlo hhi <;> simp only [Ring.index] at hlo hhi
    · exact ⟨by omega, hhi⟩
    · exact ⟨hlo, by omega⟩
  obtain ⟨ha1, ha2⟩ := hbounds a hat hah
  obtain ⟨hb1, hb2⟩ := hbounds b hbt hbh
  rcases horder with hlt | hlt
  · exact mod_ne_of_window (show w.shared.cons.tail ≤ a.start + i by omega) hlt (by omega)
  · exact (mod_ne_of_window (show w.shared.cons.tail ≤ b.start + j by omega) hlt (by omega)).symm

variable [DecidableEq Tid]

theorem Inv.local (h : Inv size w tr) (henq : ev.enqueues = []) (hdeq : ev.dequeues = [])
    (hp : PcInv size w.shared (enqueued tr) p)
    (hres : ∀ a, p.res = some a → (w.pc t).res = some a) (hlegal : Legal tr (t, ev)) :
    Inv size ⟨w.shared, Function.update w.pc t p⟩ (tr ++ [(t, ev)]) := by
  have hE : enqueued (tr ++ [(t, ev)]) = enqueued tr := by
    rw [enqueued_snoc, henq, append_nil]
  have hD : dequeued (tr ++ [(t, ev)]) = dequeued tr := by
    rw [dequeued_snoc, hdeq, append_nil]
  refine ⟨h.consLe, h.midLe, h.prodLe, h.room, ?_, ?_, ?_, ?_, ?_, h.legal.snoc hlegal⟩
  · rw [hE, h.total]
  · rw [hE]
    exact h.content
  · rw [hE, hD, h.delivered]
  · rw [hE]
    exact forall_update (Q := fun _ => PcInv size w.shared (enqueued tr)) hp fun u _ => h.thread u
  · exact h.apart.keep (fun _ _ => Res.Disjoint.symm) hres

section Index
variable {r : Ring α} {i : Index} {side side' : Side}

@[simp] theorem index_setIndex_self : (r.setIndex i side).index side = i := by
  cases side <;> rfl

theorem index_setIndex_of_ne (hne : side' ≠ side) :
    (r.setIndex i side).index side' = r.index side' := by
  cases side <;> cases side' <;> first | rfl | exact absurd rfl hne

@[simp] theorem slot_setIndex : (r.setIndex i side).slot = r.slot := by
  cases side <;> rfl

variable (r side) (side' : Side) (k : Nat)

theorem tail_setHead : ((r.setIndex { r.index side with head := k } side).index side').tail =
    (r.index side').tail := by
  by_cases hside : side' = side
  · rw [hside, index_setIndex_self]
  · rw [index_setIndex_of_ne hside]

theorem head_setTail : ((r.setIndex { r.index side with tail := k } side).index side').head =
    (r.index side').head := by
  by_cases hside : side' = side
  · rw [hside, index_setIndex_self]
  · rw [index_setIndex_of_ne hside]

variable {r side k}

theorem head_le_setHead (hk : (r.index side).head ≤ k) :
    (r.index side').head ≤
      ((r.setIndex { r.index side with head := k } side).index side').head := by
  by_cases hside : side' = side
  · rw [hside, index_setIndex_self]
    exact hk
  · rw [index_setIndex_of_ne hside]

theorem tail_le_setTail (hk : (r.index side).tail ≤ k) :
    (r.index side').tail ≤
      ((r.setIndex { r.index side with tail := k } side).index side').tail := by
  by_cases hside : side' = side
  · rw [hside, index_setIndex_self]
    exact hk
  · rw [index_setIndex_of_ne hside]

end Index

omit [DecidableEq Tid] in
theorem Inv.reserve_own (h : Inv size w tr) (hsized : Sized op n)
    (hhead : (w.shared.index op.side).head = start) :
    PcInv size (w.shared.setIndex { w.shared.index op.side with head := start + n } op.side)
      (enqueued tr ++ (Event.reserved op start n).enqueues)
      (.copy op start n ((range n).map fun i => ((start + i) % size, i)) []) := by
  refine ⟨hsized, fun _ => ?_, 0, Nat.zero_le n, rfl, ?_⟩
  · rw [tail_setHead, index_setIndex_self]
    exact ⟨hhead ▸ h.tail_le _, Nat.le_refl _⟩
  · cases op with
    | enqueue b objs =>
      refine ⟨fun i hi => ?_, fun i hi => absurd hi (Nat.not_lt_zero i)⟩
      have hstart : start = (enqueued tr).length := by
        rw [h.total, ← hhead]
        rfl
      rw [getElem?_append_right (by omega), hstart, Nat.add_sub_cancel_left]
      exact getElem?_take_of_lt hi
    | dequeue b k => exact (take_zero).symm

theorem Inv.reserve_apart (h : Inv size w tr) (hhead : (w.shared.index op.side).head = start)
    (todo : List (Nat × Nat)) (got : List α) :
    Apart Res.Disjoint Pc.res (Function.update w.pc t (.copy op start n todo got)) := by
  apply h.apart.update fun _ _ => Res.Disjoint.symm
  intro u a b _ ha hb hside
  have hb' := (h.res_bounds hb).2.2
  unfold Pc.res at ha
  simp only at ha
  split_ifs at ha
  obtain rfl := Option.some.inj ha
  rw [← hside, hhead] at hb'
  exact .inr hb'

theorem Inv.reserve (h : Inv size w tr) (hpc : w.pc t = .cas op start n)
    (hhead : (w.shared.index op.side).head = start) :
    Inv size ⟨w.shared.setIndex { w.shared.index op.side with head := start + n } op.side,
      Function.update w.pc t (.copy op start n
        ((range n).map fun i => ((start + i) % size, i)) [])⟩
      (tr ++ [(t, .reserved op start n)]) := by
  have hthread := h.thread t
  rw [hpc] at hthread
  obtain ⟨hlim, hsized⟩ := hthread
  have hgrow : (w.shared.index op.side).head ≤ start + n := hhead ▸ Nat.le_add_right _ _
  have hothers : ∀ u, u ≠ t → PcInv size (w.shared.setIndex
      { w.shared.index op.side with head := start + n } op.side)
      (enqueued tr ++ (Event.reserved op start n).enqueues) (w.pc u) := by
    intro u _
    refine (h.thread u).stable h.head_le (fun side => head_le_setHead side hgrow)
      (fun side => Nat.le_of_eq (tail_setHead w.shared op.side side _).symm) fun a ha => ?_
    rw [tail_setHead]
    exact ⟨(h.res_bounds ha).2.1, fun _ _ _ => by rw [slot_setIndex]⟩
  have hapart := h.reserve_apart (t := t) (n := n) hhead
    ((range n).map fun i => ((start + i) % size, i)) []
  have hdel : dequeued (tr ++ [(t, .reserved op start n)]) = dequeued tr := by
    rw [dequeued_snoc]
    exact append_nil _
  have hlegal := h.legal.snoc (show Legal tr (t, .reserved op start n) from hsized)
  have hthreads := forall_update (Q := fun _ => PcInv size (w.shared.setIndex
    { w.shared.index op.side with head := start + n } op.side)
    (enqueued tr ++ (Event.reserved op start n).enqueues)) (h.reserve_own hsized hhead) hothers
  have hcontent : ∀ i, w.shared.cons.tail ≤ i → i < w.shared.prod.tail →
      (enqueued tr ++ (Event.reserved op start n).enqueues)[i]? =
        some (w.shared.slot (i % size)) := by
    intro i hlo hhi
    have hlt := h.prodLe
    rw [getElem?_append_left (by rw [h.total]; omega)]
    exact h.content i hlo hhi
  have htake : (enqueued tr).take w.shared.cons.tail =
      (enqueued tr ++ (Event.reserved op start n).enqueues).take w.shared.cons.tail := by
    rw [take_append_of_le_length]
    exact Nat.le_trans (h.tail_le .cons) (h.head_le .cons)
  rw [← enqueued_snoc tr t] at hthreads hcontent htake
  cases op with
  | enqueue b objs =>
    refine ⟨h.consLe, h.midLe, ?_, ?_, ?_, hcontent, ?_, hthreads, hapart, hlegal⟩
    · exact Nat.le_trans h.prodLe hgrow
    · exact Nat.le_trans hlim (Nat.le_of_eq (Nat.add_comm _ _))
    · rw [enqueued_snoc, length_append, h.total, hhead.symm]
      have hn : n ≤ objs.length := hsized.1
      simp only [Event.enqueues, length_take, Nat.min_eq_left hn]
      rfl
    · rw [hdel, h.delivered]
      exact htake
  | dequeue b k =>
    refine ⟨?_, hlim, h.prodLe, h.room, ?_, hcontent, ?_, hthreads, hapart, hlegal⟩
    · exact Nat.le_trans h.consLe hgrow
    · rw [enqueued_snoc]
      exact (congrArg length (append_nil _)).trans h.total
    · rw [hdel, h.delivered]
      exact htake

theorem Inv.store (hsize : 0 < size) (h : Inv size w tr) {b : Behavior} {objs : List α} {m : Nat}
    {x : α} {todo : List (Nat × Nat)}
    (hpc : w.pc t = .copy (.enqueue b objs) start n todo got) (hm : m < n)
    (htodo : todo = ((range n).map fun i => ((start + i) % size, i)).drop m)
    (hcopied : Copied size w.shared (enqueued tr) (.enqueue b objs) start n m got)
    (hx : objs[m]? = some x) :
    Inv size ⟨{ w.shared with slot := Function.update w.shared.slot ((start + m) % size) x },
      Function.update w.pc t (.copy (.enqueue b objs) start n todo.tail got)⟩
      (tr ++ [(t, .tau)]) := by
  have hthread := h.thread t
  rw [hpc] at hthread
  obtain ⟨hsized, hheld, -⟩ := hthread
  have hres : (w.pc t).res = some ⟨.prod, start, n⟩ := by
    rw [hpc]
    exact if_neg (by omega)
  have hlo : w.shared.prod.tail ≤ start := (hheld (by omega)).1
  have hhi : start + n ≤ w.shared.prod.head := (hheld (by omega)).2
  have hwin := h.prod_window hsize
  have hE : enqueued (tr ++ [(t, .tau)]) = enqueued tr := by
    rw [enqueued_snoc]
    exact append_nil _
  have hD : dequeued (tr ++ [(t, .tau)]) = dequeued tr := by
    rw [dequeued_snoc]
    exact append_nil _
  refine ⟨h.consLe, h.midLe, h.prodLe, h.room, ?_, ?_, ?_, ?_, ?_, h.legal.snoc trivial⟩
  · rw [hE, h.total]
  · intro i (hct : w.shared.cons.tail ≤ i) (hpt : i < w.shared.prod.tail)
    have hne : i % size ≠ (start + m) % size :=
      mod_ne_of_window hct (by omega) (by omega)
    rw [hE, h.content i hct hpt]
    simp only [Function.update_of_ne hne]
  · rw [hE, hD, h.delivered]
  · rw [hE]
    apply forall_update (Q := fun _ => PcInv size { w.shared with
      slot := Function.update w.shared.slot ((start + m) % size) x } (enqueued tr))
    · refine ⟨hsized, hheld, m + 1, hm, ?_, hcopied.1, fun i hi => ?_⟩
      · rw [htodo, tail_drop]
      · by_cases him : i = m
        · rw [him, hx]
          simp only [Function.update_self]
        · have hne : (start + i) % size ≠ (start + m) % size :=
            mod_ne_of_window (show w.shared.cons.tail ≤ start + i by
              have := h.midLe
              have := h.consLe
              omega) (by omega) (by omega)
          rw [hcopied.2 i (by omega)]
          simp only [Function.update_of_ne hne]
    · intro u hu
      rw [← append_nil (enqueued tr)]
      refine (h.thread u).stable h.head_le (fun side => ?_) (fun side => ?_) fun a ha => ?_
      · cases side <;> exact Nat.le_refl _
      · cases side <;> exact Nat.le_refl _
      · refine ⟨?_, fun _ i hi => Function.update_of_ne (h.slots_ne hsize hu ha hres hi hm) _ _⟩
        have htail := (h.res_bounds ha).2.1
        cases hside : a.side <;> rwa [hside] at htail
  · apply h.apart.keep fun _ _ => Res.Disjoint.symm
    intro a ha
    rw [hpc]
    exact ha

omit [DecidableEq Tid] in
theorem Inv.publish_others (h : Inv size w tr) (hres : (w.pc t).res = some ⟨op.side, start, n⟩)
    (htail : (w.shared.index op.side).tail = start) {u : Tid} (hu : u ≠ t) :
    PcInv size (w.shared.setIndex { w.shared.index op.side with tail := start + n } op.side)
      (enqueued tr) (w.pc u) := by
  rw [← append_nil (enqueued tr)]
  refine (h.thread u).stable h.head_le
    (fun side => Nat.le_of_eq (head_setTail w.shared op.side side _).symm)
    (fun side => tail_le_setTail side (htail ▸ Nat.le_add_right _ _)) fun a ha => ?_
  refine ⟨?_, fun _ _ _ => by rw [slot_setIndex]⟩
  obtain ⟨h0, hlo, -⟩ := h.res_bounds ha
  by_cases hside : a.side = op.side
  · -- the other reservation starts at the tail or later, so it comes after this one
    rw [hside, htail] at hlo
    rw [hside, index_setIndex_self]
    rcases h.apart u t a _ hu ha hres hside with hle | hle
    · simp only at hle
      omega
    · exact hle
  · rwa [index_setIndex_of_ne hside]

theorem Inv.publish (h : Inv size w tr) (hpc : w.pc t = .publish op start n got) (hn : n ≠ 0) :
    Inv size ⟨w.shared.setIndex { w.shared.index op.side with tail := start + n } op.side,
      Function.update w.pc t .idle⟩ (tr ++ [(t, .done op start n got)]) := by
  have hthread := h.thread t
  rw [hpc] at hthread
  obtain ⟨hsized, hheld, hcopied, hle⟩ := hthread
  have htail : (w.shared.index op.side).tail = start := Nat.le_antisymm (hheld hn).1 hle
  have hhead := (hheld hn).2
  have hres : (w.pc t).res = some ⟨op.side, start, n⟩ := by
    rw [hpc]
    exact if_neg hn
  have hE : enqueued (tr ++ [(t, .done op start n got)]) = enqueued tr := by
    rw [enqueued_snoc]
    exact append_nil _
  have hthreads : ∀ u, PcInv size (w.shared.setIndex
      { w.shared.index op.side with tail := start + n } op.side)
      (enqueued (tr ++ [(t, .done op start n got)])) (Function.update w.pc t .idle u) := by
    rw [hE]
    exact forall_update (Q := fun _ => PcInv size (w.shared.setIndex
      { w.shared.index op.side with tail := start + n } op.side) (enqueued tr)) trivial
      fun u hu => h.publish_others hres htail hu
  have hapart : Apart Res.Disjoint Pc.res (Function.update w.pc t .idle) :=
    h.apart.keep (fun _ _ => Res.Disjoint.symm) nofun
  have hD : dequeued (tr ++ [(t, .done op start n got)]) =
      dequeued tr ++ (Event.done op start n got).dequeues := dequeued_snoc tr t _
  cases op with
  | enqueue b objs =>
    refine ⟨h.consLe, ?_, hhead, h.room, ?_, ?_, ?_, hthreads, hapart, h.legal.snoc ?_⟩
    · exact Nat.le_trans h.midLe (htail ▸ Nat.le_add_right _ _)
    · rw [hE, h.total]
      rfl
    · intro i hct (hpt : i < start + n)
      rw [hE]
      by_cases hi : i < start
      · exact h.content i hct (by rw [← htail] at hi; exact hi)
      · exact hcopied.content (Nat.le_of_not_lt hi) hpt
    · rw [hE, hD]
      exact (append_nil _).trans h.delivered
    · exact ⟨hsized, nofun⟩
  | dequeue b k =>
    have hgot : got = ((enqueued tr).drop start).take n := hcopied
    have hlen : got.length = n := by
      have hle := Held.le_length hheld hn h.head_le
      rw [hgot, length_take, length_drop]
      omega
    refine ⟨hhead, h.midLe, h.prodLe, ?_, ?_, ?_, ?_, hthreads, hapart, h.legal.snoc ?_⟩
    · have hroom := h.room
      have hstart : w.shared.cons.tail = start := htail
      exact Nat.le_trans hroom (Nat.add_le_add_right (by rw [hstart]; exact Nat.le_add_right _ _) _)
    · rw [hE, h.total]
      rfl
    · intro i (hct : start + n ≤ i) hpt
      rw [hE]
      have hstart : w.shared.cons.tail = start := htail
      exact h.content i (by omega) hpt
    · have hstart : w.shared.cons.tail = start := htail
      rw [hE, hD, h.delivered, hstart]
      show _ ++ got = (enqueued tr).take (start + n)
      rw [hgot, take_add]
    · exact ⟨hsized, fun _ => ⟨hgot, hlen⟩⟩

end Steps
end PortableLib.RingBuf
