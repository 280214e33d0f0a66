import Mathlib.Data.Fintype.Basic
import PortableLib.RingBuf.Safety

/-! Rings that were created for a single producer or a single consumer. The functions for one thread
move the head without a compare-and-exchange and assert that the tail is where the others wait for
it. As long as nobody else is on that side, they do what the others do. -/

namespace PortableLib.RingBuf
open List Interleave

variable {α Tid : Type} {e : Nat}

/-- `RING_F_SP_ENQ` and `RING_F_SC_DEQ`. -/
structure Flags where
  spEnq : Bool
  scDeq : Bool
  deriving DecidableEq, Repr

def Flags.single (f : Flags) : Side → Bool
  | .prod => f.spEnq
  | .cons => f.scDeq

/-- A step of `__rte_ring_sp_do_enqueue` or `__rte_ring_sc_do_dequeue`. -/
def nextSingle (mask : Nat) (r : Ring α) : Pc α → Option (Ring α × Pc α × Event α)
  | .cas op start n =>
    some (r.setIndex { r.index op.side with head := start + n } op.side,
      .copy op start n (accesses mask start n) [], .reserved op start n)
  | .wait op start n got =>
    -- the assertion
    if (r.index op.side).tail = start then some (r, .publish op start n got, .tau) else none
  | pc => next mask r pc

def transFlags (f : Flags) (mask : Nat) (t : Tid) (r : Ring α) (pc : Pc α) (a : Act α) :
    Option (Ring α × Pc α × Event α) :=
  match pc.op with
  | none => trans mask t r pc a
  | some op =>
    if f.single op.side then
      match a with
      | .step => nextSingle mask r pc
      | _ => none
    else trans mask t r pc a

def soleSide (f : Flags) (pc : Pc α) : Option Side :=
  (pc.op.map Op.side).filter f.single

/-- Calls on a side for a single thread come when nobody is there, the others ask for at least one
object. -/
def Alone (f : Flags) (w : World Tid (Ring α) (Pc α)) (i : Tid × Act α) : Prop :=
  match i.2 with
  | .call op => if f.single op.side then ∀ u, soleSide f (w.pc u) ≠ some op.side else 1 ≤ op.max
  | _ => True

instance decidableAlone [Fintype Tid] (f : Flags) (w : World Tid (Ring α) (Pc α)) :
    ∀ i, Decidable (Alone f w i)
  | (_, .call op) => inferInstanceAs (Decidable
      (if f.single op.side then ∀ u, soleSide f (w.pc u) ≠ some op.side else 1 ≤ op.max))
  | (_, .step) => isTrue trivial
  | (_, .spurious) => isTrue trivial

def Settled (r : Ring α) : Pc α → Prop
  | .idle => True
  | .load op => (r.index op.side).tail = (r.index op.side).head
  | .check op start => r.index op.side = ⟨start, start⟩
  | .cas op start _ => r.index op.side = ⟨start, start⟩
  | .copy op start n _ _ => r.index op.side = ⟨start + n, start⟩
  | .wait op start n _ => r.index op.side = ⟨start + n, start⟩
  | .publish op start n _ => r.index op.side = ⟨start + n, start⟩

structure Sole (f : Flags) (w : World Tid (Ring α) (Pc α)) : Prop where
  exclusive : Exclusive (soleSide f) w.pc
  settled : ∀ t side, soleSide f (w.pc t) = some side → Settled w.shared (w.pc t)
  rest : ∀ side, f.single side → (∀ t, soleSide f (w.pc t) ≠ some side) →
    (w.shared.index side).tail = (w.shared.index side).head
  asks : ∀ t, soleSide f (w.pc t) = none → (w.pc t).Asks

section
variable {f : Flags} {mask : Nat} {r r' : Ring α} {pc p : Pc α} {op : Op α} {side : Side}

theorem soleSide_eq_some : soleSide f pc = some side ↔
    (∃ op, pc.op = some op ∧ op.side = side) ∧ f.single side = true := by
  rw [soleSide, Option.filter_eq_some_iff, Option.map_eq_some_iff]

theorem soleSide_of_op (h : pc.op = some op) (hf : f.single op.side = true) :
    soleSide f pc = some op.side := soleSide_eq_some.mpr ⟨⟨op, h, rfl⟩, hf⟩

theorem soleSide_of_not (h : pc.op = some op) (hf : ¬ f.single op.side = true) :
    soleSide f pc = none := by
  rw [Option.eq_none_iff_forall_ne_some]
  intro side hside
  obtain ⟨⟨op', hop', rfl⟩, hf'⟩ := soleSide_eq_some.mp hside
  obtain rfl := Option.some.inj (h.symm.trans hop')
  exact hf hf'

theorem Settled.congr (h : Settled r pc) (hindex : ∀ op, pc.op = some op →
    r'.index op.side = r.index op.side) : Settled r' pc := by
  cases pc with
  | idle => trivial
  | load op =>
    change (r'.index op.side).tail = (r'.index op.side).head
    rw [hindex op rfl]
    exact h
  | check op start => exact (hindex op rfl).trans h
  | cas op start n => exact (hindex op rfl).trans h
  | copy op start n todo got => exact (hindex op rfl).trans h
  | wait op start n got => exact (hindex op rfl).trans h
  | publish op start n got => exact (hindex op rfl).trans h

theorem trans_of_single {t : Tid} {a : Act α} {q : Ring α × Pc α × Event α}
    (hsettled : ∀ side, soleSide f pc = some side → Settled r pc)
    (hq : transFlags f mask t r pc a = some q) : trans mask t r pc a = some q := by
  cases hop : pc.op with
  | none =>
    simp only [transFlags, hop] at hq
    exact hq
  | some op =>
    simp only [transFlags, hop] at hq
    split at hq
    · next hf =>
      have hown := hsettled _ (soleSide_of_op hop hf)
      cases a with
      | step =>
        simp only at hq
        cases pc with
        | cas op' start n =>
          have hhead : (r.index op'.side).head = start := congrArg Index.head hown
          simp only [trans, next, if_pos hhead]
          exact hq
        | wait op' start n got =>
          have htail : (r.index op'.side).tail = start := congrArg Index.tail hown
          simp only [nextSingle, if_pos htail] at hq
          simp only [trans, next, if_neg (not_not.mpr htail)]
          exact hq
        | _ => exact hq
      | _ => cases hq
    · exact hq

end

/-! ## Steps -/

section
variable {f : Flags} {w : World Tid (Ring α) (Pc α)} {tr : List (Tid × Event α)} {t : Tid}
  {a : Act α} {r' : Ring α} {p : Pc α} {q : Ring α × Pc α × Event α}

theorem index_copyStep {r : Ring α} {op : Op α} {i : Nat × Nat} {got : List α}
    {s : Ring α × List α} (hs : copyStep r op i got = some s) (side : Side) :
    s.1.index side = r.index side := by
  cases op with
  | enqueue b objs =>
    obtain ⟨x, -, rfl⟩ := Option.map_eq_some_iff.mp hs
    cases side <;> rfl
  | dequeue b n =>
    obtain rfl := Option.some.inj hs
    rfl

variable [DecidableEq Tid]

theorem Sole.update (h : Sole f w)
    (hindex : ∀ side, soleSide f (w.pc t) ≠ some side → f.single side = true →
      r'.index side = w.shared.index side)
    (hnew : ∀ side, soleSide f p = some side → ∀ u, u ≠ t → soleSide f (w.pc u) ≠ some side)
    (hown : ∀ side, soleSide f p = some side → Settled r' p)
    (hrest : ∀ side, soleSide f (w.pc t) = some side → soleSide f p ≠ some side →
      (r'.index side).tail = (r'.index side).head)
    (hasks : soleSide f p = none → p.Asks) : Sole f ⟨r', Function.update w.pc t p⟩ where
  exclusive := by
    apply h.exclusive.update fun _ _ => Ne.symm
    rintro u a b hu ha hb rfl
    exact hnew a ha u hu hb
  settled := by
    apply forall_update (Q := fun _ pc => ∀ side, soleSide f pc = some side → Settled r' pc) hown
    intro u hu side hside
    apply (h.settled u side hside).congr
    intro op hop
    obtain ⟨⟨op', hop', rfl⟩, hf⟩ := soleSide_eq_some.mp hside
    obtain rfl := Option.some.inj (hop.symm.trans hop')
    exact hindex _ (fun ht => hu (h.exclusive.eq hside ht)) hf
  rest := by
    intro side hf hnone
    have hself : soleSide f (Function.update w.pc t p t) ≠ some side := hnone t
    rw [Function.update_self] at hself
    by_cases ht : soleSide f (w.pc t) = some side
    · exact hrest side ht hself
    · change (r'.index side).tail = (r'.index side).head
      rw [hindex side ht hf]
      refine h.rest side hf fun u => ?_
      by_cases hu : u = t
      · rwa [hu]
      · have hother : soleSide f (Function.update w.pc t p u) ≠ some side := hnone u
        rwa [Function.update_of_ne hu] at hother
  asks := forall_update (Q := fun _ pc => soleSide f pc = none → pc.Asks) hasks fun u _ => h.asks u

omit [DecidableEq Tid] in
theorem index_of_not_sole {op : Op α} (hop : (w.pc t).op = some op)
    (hindex : ∀ side, side ≠ op.side → r'.index side = w.shared.index side) (side : Side)
    (ht : soleSide f (w.pc t) ≠ some side) (hf : f.single side = true) :
    r'.index side = w.shared.index side := by
  apply hindex
  rintro rfl
  exact ht (soleSide_of_op hop hf)

theorem Sole.stay {op : Op α} (h : Sole f w) (hop : (w.pc t).op = some op) (hp : p.op = some op)
    (hindex : ∀ side, side ≠ op.side → r'.index side = w.shared.index side)
    (hown : Settled w.shared (w.pc t) → Settled r' p)
    (hasks : soleSide f p = none → p.Asks) : Sole f ⟨r', Function.update w.pc t p⟩ := by
  have hsole : soleSide f p = soleSide f (w.pc t) := by rw [soleSide, hp, soleSide, hop]
  refine h.update (index_of_not_sole hop hindex) (fun side hside u hu hother => ?_)
    (fun side hside => ?_) (fun side ht hside => ?_) hasks
  · exact hu (h.exclusive.eq hother (hsole.symm.trans hside))
  · exact hown (h.settled t side (hsole.symm.trans hside))
  · exact absurd (hsole.trans ht) hside

theorem Sole.leave {op : Op α} (h : Sole f w) (hop : (w.pc t).op = some op)
    (hindex : ∀ side, side ≠ op.side → r'.index side = w.shared.index side)
    (hrest : Settled w.shared (w.pc t) → (r'.index op.side).tail = (r'.index op.side).head) :
    Sole f ⟨r', Function.update w.pc t .idle⟩ := by
  refine h.update (index_of_not_sole hop hindex) nofun (fun _ _ => trivial) (fun side ht _ => ?_)
    fun _ => trivial
  obtain ⟨⟨op', hop', rfl⟩, -⟩ := soleSide_eq_some.mp ht
  obtain rfl := Option.some.inj (hop.symm.trans hop')
  exact hrest (h.settled t _ ht)

theorem Sole.call {op : Op α} (h : Sole f w) (hpc : w.pc t = .idle)
    (halone : Alone f w (t, .call op)) : Sole f ⟨w.shared, Function.update w.pc t (.load op)⟩ := by
  have hcall : if f.single op.side then ∀ u, soleSide f (w.pc u) ≠ some op.side else 1 ≤ op.max :=
    halone
  by_cases hf : f.single op.side = true
  · rw [if_pos hf] at hcall
    have hsole : soleSide f (Pc.load op) = some op.side := soleSide_of_op rfl hf
    refine h.update (fun _ _ _ => rfl) ?_ (fun _ _ => h.rest op.side hf hcall) ?_ ?_
    · intro side hside u _
      rw [hsole] at hside
      obtain rfl := Option.some.inj hside
      exact hcall u
    · intro side hside
      rw [hpc] at hside
      cases hside
    · intro hnone
      rw [hsole] at hnone
      cases hnone
  · rw [if_neg hf] at hcall
    have hsole : soleSide f (Pc.load op) = none := soleSide_of_not rfl hf
    refine h.update (fun _ _ _ => rfl) ?_ ?_ ?_ fun _ => Nat.one_le_iff_ne_zero.mp hcall
    · intro side hside
      rw [hsole] at hside
      cases hside
    · intro side hside
      rw [hsole] at hside
      cases hside
    · intro side hside
      rw [hpc] at hside
      cases hside

omit [DecidableEq Tid] in
theorem idle_of_call {mask : Nat} {r : Ring α} {pc : Pc α} {op : Op α}
    (hq : trans mask t r pc (.call op) = some q) : pc = .idle := by
  cases pc with
  | idle => rfl
  | _ => cases hq

omit [DecidableEq Tid] in
theorem Sole.asks_next (op : Op α) (h : Sole f w) (hI : Inv (2 ^ e) w tr)
    (hq : trans (2 ^ e - 1) t w.shared (w.pc t) a = some q) (hop : (w.pc t).op = some op)
    (hp : q.2.1.op = some op) (hnone : soleSide f q.2.1 = none) : q.2.1.Asks := by
  have hsole : soleSide f (w.pc t) = none := by rw [← hnone, soleSide, hop, soleSide, hp]
  refine asks_step hI (h.asks t hsole) ?_ hq
  rintro op' rfl
  rw [idle_of_call hq] at hop
  cases hop

theorem Sole.step (h : Sole f w) (hI : Inv (2 ^ e) w tr) (halone : Alone f w (t, a))
    (hq : trans (2 ^ e - 1) t w.shared (w.pc t) a = some q) :
    Sole f ⟨q.1, Function.update w.pc t q.2.1⟩ := by
  have hasks := fun op => h.asks_next op hI hq
  obtain ⟨r', p', ev⟩ := q
  have hstep := trans_inv hq
  simp only at hstep hasks ⊢
  have hop : ∀ pc, w.pc t = pc → (w.pc t).op = pc.op := fun pc hpc => by rw [hpc]
  have hset : ∀ pc, w.pc t = pc → Settled w.shared (w.pc t) → Settled w.shared pc :=
    fun pc hpc hs => hpc ▸ hs
  generalize hpc : w.pc t = pc at hstep
  have hop := hop pc hpc
  have hset := hset pc hpc
  cases hstep with
  | call op => exact h.call hpc halone
  | spurious =>
    refine h.stay hop rfl (fun _ _ => rfl) (fun hs => ?_) (hasks _ hop rfl)
    exact congrArg Index.tail (hset hs) |>.trans (congrArg Index.head (hset hs)).symm
  | load =>
    refine h.stay hop rfl (fun _ _ => rfl) (fun hs => ?_) (hasks _ hop rfl)
    exact congrArg (Index.mk _) (hset hs)
  | refuse hn =>
    refine h.leave hop (fun _ _ => rfl) fun hs => ?_
    exact congrArg Index.tail (hset hs) |>.trans (congrArg Index.head (hset hs)).symm
  | settle hn => exact h.stay hop rfl (fun _ _ => rfl) hset (hasks _ hop rfl)
  | @reserve op start n hhead =>
    refine h.stay hop rfl (fun side hne => index_setIndex_of_ne hne) (fun hs => ?_)
      (hasks _ hop rfl)
    have hindex : w.shared.index op.side = ⟨start, start⟩ := hset hs
    exact (index_setIndex_self ..).trans (by rw [hindex])
  | lose =>
    refine h.stay hop rfl (fun _ _ => rfl) (fun hs => ?_) (hasks _ hop rfl)
    exact congrArg Index.tail (hset hs) |>.trans (congrArg Index.head (hset hs)).symm
  | copied => exact h.stay hop rfl (fun _ _ => rfl) hset (hasks _ hop rfl)
  | copy hs =>
    refine h.stay hop rfl (fun side _ => index_copyStep hs side) (fun hown => ?_)
      (hasks _ hop rfl)
    exact (index_copyStep hs _).trans (hset hown)
  | spin => exact h.stay hop rfl (fun _ _ => rfl) hset (hasks _ hop rfl)
  | arrive htail => exact h.stay hop rfl (fun _ _ => rfl) hset (hasks _ hop rfl)
  | @publish op start n got =>
    refine h.leave hop (fun side hne => index_setIndex_of_ne hne) fun hs => ?_
    have hindex : w.shared.index op.side = ⟨start + n, start⟩ := hset hs
    rw [index_setIndex_self, hindex]

omit [DecidableEq Tid] in
theorem Sole.kept (h : Sole f w) : TailKept w (t, a) := by
  intro ha
  change (w.pc t).Kept w.shared
  cases hsole : soleSide f (w.pc t) with
  | none => exact kept_of_asks (h.asks t hsole) (a := .step) rfl
  | some side =>
    have hown := h.settled t side hsole
    cases hpc : w.pc t with
    | publish op start n got =>
      rw [hpc] at hown
      exact fun _ => congrArg Index.tail hown
    | _ => trivial

end

section
variable {f : Flags} {w : World Tid (Ring α) (Pc α)} {tr : List (Tid × Event α)} {x₀ : α}
  {sched : List (Tid × Act α)}

theorem sole_new : Sole f (new x₀ : World Tid (Ring α) (Pc α)) where
  exclusive := nofun
  settled := nofun
  rest := by
    intro side _ _
    cases side <;> rfl
  asks _ _ := trivial

theorem transFlags_isSome (h : Sole f w) (hI : Inv (2 ^ e) w tr) {t : Tid}
    (hpc : w.pc t ≠ .idle) : (transFlags f (2 ^ e - 1) t w.shared (w.pc t) .step).isSome := by
  have hnext := next_isSome hI hpc
  cases hop : (w.pc t).op with
  | none =>
    simp only [transFlags, hop]
    exact hnext
  | some op =>
    simp only [transFlags, hop]
    split
    · next hf =>
      have hown := h.settled t _ (soleSide_of_op hop hf)
      generalize w.pc t = pc at hnext hown
      cases pc with
      | cas op' start n => rfl
      | wait op' start n got =>
        have htail : (w.shared.index op'.side).tail = start := congrArg Index.tail hown
        simp only [nextSingle, if_pos htail]
        rfl
      | _ => exact hnext
    · exact hnext

/-! ## Counting -/

def Covered (w : World Tid (Ring α) (Pc α)) : Prop :=
  ∀ i, w.shared.prod.tail ≤ i → i < w.shared.prod.head →
    ∃ t a, (w.pc t).res = some a ∧ a.side = .prod ∧ a.start ≤ i ∧ i < a.start + a.n

variable [DecidableEq Tid] {t : Tid} {a : Act α} {q : Ring α × Pc α × Event α} {r' : Ring α}
  {p : Pc α}

theorem Covered.keep (h : Covered w) (hprod : r'.prod = w.shared.prod)
    (hres : ∀ a, (w.pc t).res = some a → a.side = .prod → p.res = some a) :
    Covered ⟨r', Function.update w.pc t p⟩ := by
  intro i (hlo : r'.prod.tail ≤ i) (hhi : i < r'.prod.head)
  rw [hprod] at hlo hhi
  obtain ⟨u, a, ha, hside, hin⟩ := h i hlo hhi
  refine ⟨u, a, ?_, hside, hin⟩
  change (Function.update w.pc t p u).res = some a
  by_cases hu : u = t
  · rw [hu] at ha ⊢
    rw [Function.update_self]
    exact hres a ha hside
  · rw [Function.update_of_ne hu]
    exact ha

theorem Covered.reserve {op : Op α} {start n : Nat} (h : Covered w)
    (hhead : (w.shared.index op.side).head = start) (hnone : (w.pc t).res = none)
    (todo : List (Nat × Nat)) (got : List α) :
    Covered ⟨w.shared.setIndex { w.shared.index op.side with head := start + n } op.side,
      Function.update w.pc t (.copy op start n todo got)⟩ := by
  cases op with
  | dequeue b k =>
    refine h.keep rfl fun a ha => ?_
    rw [hnone] at ha
    cases ha
  | enqueue b objs =>
    change w.shared.prod.head = start at hhead
    intro i (hlo : w.shared.prod.tail ≤ i) (hhi : i < start + n)
    by_cases hold : i < start
    · obtain ⟨u, a, ha, hin⟩ := h i hlo (hhead ▸ hold)
      have hu : u ≠ t := by
        rintro rfl
        rw [hnone] at ha
        cases ha
      refine ⟨u, a, ?_, hin⟩
      change (Function.update w.pc t _ u).res = some a
      rw [Function.update_of_ne hu]
      exact ha
    · refine ⟨t, ⟨.prod, start, n⟩, ?_, rfl, Nat.le_of_not_lt hold, hhi⟩
      change (Function.update w.pc t _ t).res = _
      rw [Function.update_self]
      exact if_neg (by omega)

theorem Covered.publish {op : Op α} {start n : Nat} {got : List α} (h : Covered w)
    (hpc : w.pc t = .publish op start n got) (htail : n ≠ 0 → (w.shared.index op.side).tail ≤ start)
    (hkept : n = 0 → (w.shared.index op.side).tail = start) :
    Covered ⟨w.shared.setIndex { w.shared.index op.side with tail := start + n } op.side,
      Function.update w.pc t .idle⟩ := by
  cases op with
  | dequeue b k =>
    refine h.keep rfl fun a ha hside => ?_
    rw [hpc, Pc.res] at ha
    split at ha
    · cases ha
    · obtain rfl := Option.some.inj ha
      cases hside
  | enqueue b objs =>
    change n ≠ 0 → w.shared.prod.tail ≤ start at htail
    change n = 0 → w.shared.prod.tail = start at hkept
    intro i (hlo : start + n ≤ i) (hhi : i < w.shared.prod.head)
    obtain ⟨u, a, ha, hside, hlow, hhigh⟩ := h i (by omega) hhi
    have hu : u ≠ t := by
      rintro rfl
      rw [hpc, Pc.res] at ha
      split at ha
      · cases ha
      · obtain rfl := Option.some.inj ha
        change i < start + n at hhigh
        omega
    refine ⟨u, a, ?_, hside, hlow, hhigh⟩
    change (Function.update w.pc t _ u).res = some a
    rw [Function.update_of_ne hu]
    exact ha

theorem Covered.step (h : Covered w) (hI : Inv (2 ^ e) w tr) (hkept : TailKept w (t, a))
    (hq : trans (2 ^ e - 1) t w.shared (w.pc t) a = some q) :
    Covered ⟨q.1, Function.update w.pc t q.2.1⟩ := by
  obtain ⟨r', p', ev⟩ := q
  have hstep := trans_inv hq
  have hthread := hI.thread t
  simp only at hstep ⊢
  generalize hpc : w.pc t = pc at hstep hthread
  have hsame : ∀ p : Pc α, p.res = pc.res → ∀ a, (w.pc t).res = some a → a.side = .prod →
      p.res = some a := fun p hp a ha _ => by rw [hp, ← hpc, ha]
  have hnone : pc.res = none → ∀ (p : Pc α) a, (w.pc t).res = some a → a.side = .prod →
      p.res = some a := by
    intro hres p a ha
    rw [hpc, hres] at ha
    cases ha
  cases hstep with
  | call op => exact h.keep rfl (hnone rfl _)
  | spurious => exact h.keep rfl (hnone rfl _)
  | load => exact h.keep rfl (hnone rfl _)
  | refuse hn => exact h.keep rfl (hnone rfl _)
  | settle hn => exact h.keep rfl (hnone rfl _)
  | reserve hhead => exact h.reserve hhead (by rw [hpc]; rfl) _ _
  | lose => exact h.keep rfl (hnone rfl _)
  | copied => exact h.keep rfl (hsame _ rfl)
  | copy hs => exact h.keep (index_copyStep hs .prod) (hsame _ rfl)
  | spin => exact h.keep rfl (hsame _ rfl)
  | arrive htail => exact h.keep rfl (hsame _ rfl)
  | publish =>
    have hkept := hkept rfl
    rw [hpc] at hkept
    exact h.publish hpc (fun hn => (hthread.2.1 hn).1) hkept

theorem flags_step (h : Inv (2 ^ e) w tr ∧ Sole f w ∧ Covered w) (halone : Alone f w (t, a))
    (hq : transFlags f (2 ^ e - 1) t w.shared (w.pc t) a = some q) :
    trans (2 ^ e - 1) t w.shared (w.pc t) a = some q ∧
      Inv (2 ^ e) ⟨q.1, Function.update w.pc t q.2.1⟩ (tr ++ [(t, q.2.2)]) ∧
      Sole f ⟨q.1, Function.update w.pc t q.2.1⟩ ∧
      Covered ⟨q.1, Function.update w.pc t q.2.1⟩ := by
  obtain ⟨hI, hsole, hcovered⟩ := h
  have hq' := trans_of_single (hsole.settled t) hq
  exact ⟨hq', inv_step hI hsole.kept hq', hsole.step hI halone hq', hcovered.step hI hsole.kept hq'⟩

omit [DecidableEq Tid] in
theorem flags_new : Inv (2 ^ e) (new x₀ : World Tid (Ring α) (Pc α)) [] ∧
    Sole f (new x₀ : World Tid (Ring α) (Pc α)) ∧ Covered (new x₀ : World Tid (Ring α) (Pc α)) :=
  ⟨inv_new e x₀, sole_new, fun i _ hhi => absurd hhi (Nat.not_lt_zero i)⟩

theorem flags_invariant
    (halone : Run.StepsMeet (step (transFlags f (2 ^ e - 1))) (Alone f) (new x₀) sched)
    (hrun : exec (transFlags f (2 ^ e - 1)) (new x₀) sched = some (w, tr)) :
    Inv (2 ^ e) w tr ∧ Sole f w ∧ Covered w :=
  exec_invariant_of (I := fun w tr => Inv (2 ^ e) w tr ∧ Sole f w ∧ Covered w)
    (fun _ _ _ _ _ h halone hq => (flags_step h halone hq).2) flags_new halone hrun

/-- With at most one thread at a time on each side that is for a single one, a run is one of the
functions for many threads, and so the ring is a queue; no assertion fails. -/
theorem flagged_ring_is_queue
    (halone : Run.StepsMeet (step (transFlags f (2 ^ e - 1))) (Alone f) (new x₀) sched)
    (hrun : exec (transFlags f (2 ^ e - 1)) (new x₀) sched = some (w, tr)) :
    exec (trans (2 ^ e - 1)) (new x₀) sched = some (w, tr) ∧
    dequeued tr = (enqueued tr).take w.shared.cons.tail ∧ Justified Legal tr ∧
    ∀ t, w.pc t ≠ .idle → (transFlags f (2 ^ e - 1) t w.shared (w.pc t) .step).isSome := by
  obtain ⟨hI, hsole, -⟩ := flags_invariant halone hrun
  refine ⟨?_, hI.delivered, hI.legal, fun t => transFlags_isSome hsole hI⟩
  refine Run.run_of_steps (I := fun w => ∃ tr, Inv (2 ^ e) w tr ∧ Sole f w ∧ Covered w) ?_
    ⟨[], flags_new⟩ halone hrun
  rintro w ⟨t, a⟩ p ⟨tr, h⟩ ha hp
  obtain ⟨q, hq, rfl⟩ := Option.map_eq_some_iff.mp hp
  obtain ⟨hq', hnext⟩ := flags_step h ha hq
  exact ⟨Option.map_eq_some_iff.mpr ⟨q, hq', rfl⟩, _, hnext⟩

def pingPong : List (Bool × Act Nat) :=
  [(false, .call (.enqueue .bulk [7, 8])), (true, .call (.dequeue .burst 3)), (false, .step),
    (false, .step), (true, .step), (false, .step), (false, .step), (true, .step), (false, .step),
    (true, .call (.dequeue .burst 3)), (false, .step), (false, .step), (false, .step),
    (true, .step), (true, .step), (true, .step), (true, .step), (true, .step), (true, .step),
    (true, .step), (true, .step)]

theorem flagged_ring_is_queue_pingPong :
    ∃ w tr, exec (transFlags ⟨true, true⟩ 3) (new 0 : World Bool (Ring Nat) (Pc Nat)) pingPong =
        some (w, tr) ∧ dequeued tr = [7, 8] ∧ w.shared.cons.tail = 2 ∧
      exec (trans 3) (new 0 : World Bool (Ring Nat) (Pc Nat)) pingPong = some (w, tr) := by
  obtain ⟨⟨w, tr⟩, hrun⟩ : ∃ r, exec (transFlags ⟨true, true⟩ (2 ^ 2 - 1))
      (new 0 : World Bool (Ring Nat) (Pc Nat)) pingPong = some r := ⟨_, rfl⟩
  have hend : (exec (transFlags ⟨true, true⟩ (2 ^ 2 - 1))
      (new 0 : World Bool (Ring Nat) (Pc Nat)) pingPong).map
        (fun r => (dequeued r.2, r.1.shared.cons.tail)) = some ([7, 8], 2) := by decide
  rw [hrun, Option.map_some, Option.some.injEq, Prod.mk.injEq] at hend
  obtain ⟨hmulti, -⟩ := flagged_ring_is_queue (by decide) hrun
  exact ⟨w, tr, hrun, hend.1, hend.2, hmulti⟩

/-- The objects in the slots from the tail of the consumers to the tail of the producers. -/
def stored (mask : Nat) (r : Ring α) : List α :=
  (range' r.cons.tail (r.prod.tail - r.cons.tail)).map fun i => r.slot (i &&& mask)

def rteRingCount (mask : Nat) (r : Ring α) : Nat :=
  (r.prod.tail + (2 ^ 64 - r.cons.tail % 2 ^ 64)) % 2 ^ 64 &&& mask

def rteRingFreeCount (mask : Nat) (r : Ring α) : Nat := mask - rteRingCount mask r

def rteRingFull (mask : Nat) (r : Ring α) : Bool := rteRingFreeCount mask r == 0

def rteRingEmpty (mask : Nat) (r : Ring α) : Bool := rteRingCount mask r == 0

omit [DecidableEq Tid] in
theorem count_eq (he : e ≤ 32) (hI : Inv (2 ^ e) w tr) :
    rteRingCount (2 ^ e - 1) w.shared = w.shared.prod.tail - w.shared.cons.tail := by
  have hle : 2 ^ e ≤ 2 ^ 32 := Nat.pow_le_pow_right (by decide) he
  have hpos := Nat.two_pow_pos e
  have hcons := hI.consLe
  have hmid := hI.midLe
  have hprod := hI.prodLe
  have hroom := hI.room
  have hmod : (w.shared.prod.tail + (2 ^ 64 - w.shared.cons.tail % 2 ^ 64)) % 2 ^ 64 =
      w.shared.prod.tail - w.shared.cons.tail := by omega
  rw [rteRingCount, hmod, Nat.and_two_pow_sub_one_eq_mod]
  exact Nat.mod_eq_of_lt (by omega)

omit [DecidableEq Tid] in
theorem tail_eq_head_of_idle (hcovered : Covered w) (hI : Inv (2 ^ e) w tr)
    (hidle : ∀ t, w.pc t = .idle) : w.shared.prod.tail = w.shared.prod.head := by
  by_contra hne
  have hle := hI.prodLe
  obtain ⟨t, a, ha, -⟩ := hcovered w.shared.prod.tail (Nat.le_refl _) (by omega)
  rw [hidle t] at ha
  cases ha

omit [DecidableEq Tid] in
theorem length_stored (mask : Nat) (r : Ring α) :
    (stored mask r).length = r.prod.tail - r.cons.tail := by
  rw [stored, length_map, length_range']

omit [DecidableEq Tid] in
theorem stored_eq (hI : Inv (2 ^ e) w tr) : stored (2 ^ e - 1) w.shared =
    ((enqueued tr).drop w.shared.cons.tail).take
      (w.shared.prod.tail - w.shared.cons.tail) := by
  have htotal := hI.total
  have hprod := hI.prodLe
  apply ext_getElem
  · rw [length_stored, length_take, length_drop]
    omega
  · intro i hi _
    rw [length_stored] at hi
    have hcontent := hI.content (w.shared.cons.tail + i) (Nat.le_add_right _ _) (by omega)
    obtain ⟨hlt, hslot⟩ := List.getElem?_eq_some_iff.mp hcontent
    simp only [stored, getElem_map, getElem_range', Nat.one_mul, getElem_take, getElem_drop,
      Nat.and_two_pow_sub_one_eq_mod, hslot]

/-- The ring counts the objects between its tails, which are those that have been published and
whose dequeue is not through; when no operation is in flight, these are all that have not been
delivered. -/
theorem ring_counts (he : e ≤ 32)
    (halone : Run.StepsMeet (step (transFlags f (2 ^ e - 1))) (Alone f) (new x₀) sched)
    (hrun : exec (transFlags f (2 ^ e - 1)) (new x₀) sched = some (w, tr)) :
    enqueued tr = dequeued tr ++
      (stored (2 ^ e - 1) w.shared ++ (enqueued tr).drop w.shared.prod.tail) ∧
    rteRingCount (2 ^ e - 1) w.shared = (stored (2 ^ e - 1) w.shared).length ∧
    rteRingCount (2 ^ e - 1) w.shared + rteRingFreeCount (2 ^ e - 1) w.shared = 2 ^ e - 1 ∧
    (rteRingFull (2 ^ e - 1) w.shared = true ↔
      (stored (2 ^ e - 1) w.shared).length = 2 ^ e - 1) ∧
    (rteRingEmpty (2 ^ e - 1) w.shared = true ↔ stored (2 ^ e - 1) w.shared = []) ∧
    ((∀ t, w.pc t = .idle) → enqueued tr = dequeued tr ++ stored (2 ^ e - 1) w.shared) := by
  obtain ⟨hI, -, hcovered⟩ := flags_invariant halone hrun
  have hcount := count_eq he hI
  have hcons := hI.consLe
  have hmid := hI.midLe
  have hprod := hI.prodLe
  have hroom := hI.room
  have hlen := length_stored (2 ^ e - 1) w.shared
  have hrest : ((enqueued tr).drop w.shared.cons.tail).drop
      (w.shared.prod.tail - w.shared.cons.tail) = (enqueued tr).drop w.shared.prod.tail := by
    rw [drop_drop, Nat.add_sub_cancel' (hcons.trans hmid)]
  have hall : enqueued tr = dequeued tr ++
      (stored (2 ^ e - 1) w.shared ++ (enqueued tr).drop w.shared.prod.tail) := by
    rw [stored_eq hI, ← hrest, take_append_drop, hI.delivered, take_append_drop]
  refine ⟨hall, ?_, ?_, ?_, ?_, ?_⟩
  · rw [hcount, hlen]
  · rw [rteRingFreeCount, hcount]
    omega
  · rw [rteRingFull, rteRingFreeCount, hcount, hlen, beq_iff_eq]
    omega
  · rw [rteRingEmpty, hcount, beq_iff_eq, ← length_eq_zero_iff, hlen]
  · intro hidle
    have hnone : (enqueued tr).drop w.shared.prod.tail = [] := by
      rw [tail_eq_head_of_idle hcovered hI hidle]
      exact drop_eq_nil_of_le hI.total.le
    rwa [hnone, append_nil] at hall

theorem ring_counts_pingPong :
    ∃ w tr, exec (transFlags ⟨true, true⟩ 3)
        (new 0 : World Bool (Ring Nat) (Pc Nat)) (pingPong.take 13) = some (w, tr) ∧
      enqueued tr = dequeued tr ++ ([7, 8] ++ (enqueued tr).drop w.shared.prod.tail) ∧
      rteRingCount 3 w.shared = 2 ∧ stored 3 w.shared = [7, 8] := by
  obtain ⟨⟨w, tr⟩, hrun⟩ : ∃ r, exec (transFlags ⟨true, true⟩ (2 ^ 2 - 1))
      (new 0 : World Bool (Ring Nat) (Pc Nat)) (pingPong.take 13) = some r := ⟨_, rfl⟩
  have hend : (exec (transFlags ⟨true, true⟩ (2 ^ 2 - 1))
      (new 0 : World Bool (Ring Nat) (Pc Nat)) (pingPong.take 13)).map
        (fun r => stored 3 r.1.shared) = some [7, 8] := by decide
  rw [hrun, Option.map_some, Option.some.injEq] at hend
  obtain ⟨hall, hcount, -⟩ := ring_counts (by decide) (by decide) hrun
  rw [show 2 ^ 2 - 1 = 3 from rfl, hend] at hall hcount
  exact ⟨w, tr, hrun, hall, hcount, hend⟩

end

end PortableLib.RingBuf
