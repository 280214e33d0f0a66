import Mathlib.Data.Finset.Card
import Mathlib.Data.List.Nodup
import Mathlib.Data.Nat.Bitwise
import PortableLib.MpmcQueue.Queue

/-! Tickets are delivered in order and exactly once. The ticket `k` lives in slot `k % sz`, whose
turn goes from `2 * (k / sz)` to `2 * (k / sz) + 1` when it is filled and one further when it is
emptied; nobody but the owner of the ticket touches the slot in between. -/

namespace PortableLib.MpmcQueue
open List Interleave

variable {α Tid : Type} {sz : Nat}

/-! ## What the trace shows -/

def enqNo (e : Tid × Event α) : Option Nat :=
  match e.2 with
  | .enqTicket k _ => some k
  | _ => none

def deqNo (e : Tid × Event α) : Option Nat :=
  match e.2 with
  | .deqTicket k => some k
  | _ => none

def doneNo (e : Tid × Event α) : Option Nat :=
  match e.2 with
  | .deqDone k _ => some k
  | _ => none

/-- What must have happened before each access to a slot, and before a dequeue returns. -/
def Legal (sz : Nat) (tr : List (Tid × Event α)) (e : Tid × Event α) : Prop :=
  match e.2 with
  | .wrote k x => (e.1, .enqTicket k x) ∈ tr ∧ (∀ u y, (u, .wrote k y) ∉ tr) ∧
      (sz ≤ k → ∃ u y, (u, .read (k - sz) y) ∈ tr)
  | .read k x => (e.1, .deqTicket k) ∈ tr ∧ (∃ u, (u, .wrote k x) ∈ tr) ∧
      (∀ u y, (u, .read k y) ∉ tr) ∧ ∀ u y, (u, .wrote (k + sz) y) ∉ tr
  | .deqDone k x => (e.1, .read k x) ∈ tr ∧ ∀ u y, (u, .deqDone k y) ∉ tr
  | _ => True

/-! ## Invariant -/

def Pc.enqHolds : Pc α → Option Nat
  | .enqSpin _ hd => some hd
  | .enqWrite _ hd => some hd
  | .enqStore _ hd => some hd
  | _ => none

def Pc.deqHolds : Pc α → Option Nat
  | .deqSpin tl => some tl
  | .deqRead tl => some tl
  | .deqStore tl _ => some tl
  | _ => none

def PcInv (sz : Nat) (q : Queue α) (tr : List (Tid × Event α)) (t : Tid) : Pc α → Prop
  | .enqCas _ hd => 2 * (hd / sz) ≤ q.turn (hd % sz)
  | .enqSpin x hd => (t, .enqTicket hd x) ∈ tr ∧ hd < q.head
  | .enqWrite x hd => ((t, .enqTicket hd x) ∈ tr ∧ hd < q.head) ∧
      q.turn (hd % sz) = 2 * (hd / sz)
  | .enqStore x hd => ((t, .enqTicket hd x) ∈ tr ∧ hd < q.head) ∧
      q.turn (hd % sz) = 2 * (hd / sz) ∧ q.data (hd % sz) = x ∧ (t, .wrote hd x) ∈ tr
  | .deqCas tl => 2 * (tl / sz) + 1 ≤ q.turn (tl % sz)
  | .deqSpin tl => (t, .deqTicket tl) ∈ tr ∧ tl < q.tail
  | .deqRead tl => ((t, .deqTicket tl) ∈ tr ∧ tl < q.tail) ∧
      q.turn (tl % sz) = 2 * (tl / sz) + 1
  | .deqStore tl x => ((t, .deqTicket tl) ∈ tr ∧ tl < q.tail) ∧
      q.turn (tl % sz) = 2 * (tl / sz) + 1 ∧ (t, .read tl x) ∈ tr
  | _ => True

structure Inv (sz : Nat) (w : World Tid (Queue α) (Pc α)) (tr : List (Tid × Event α)) : Prop where
  enqNos : tr.filterMap enqNo = range w.shared.head
  deqNos : tr.filterMap deqNo = range w.shared.tail
  filled : ∀ k, 2 * (k / sz) + 1 ≤ w.shared.turn (k % sz) → k < w.shared.head
  emptied : ∀ k, 2 * (k / sz) + 2 ≤ w.shared.turn (k % sz) →
    k < w.shared.tail ∧ ∃ u x, (u, .read k x) ∈ tr
  content : ∀ k, w.shared.turn (k % sz) = 2 * (k / sz) + 1 →
    ∃ u, (u, .wrote k (w.shared.data (k % sz))) ∈ tr
  wrote : ∀ u k x, (u, .wrote k x) ∈ tr →
    (∃ y, w.pc u = .enqStore y k) ∨ 2 * (k / sz) + 1 ≤ w.shared.turn (k % sz)
  read : ∀ u k x, (u, .read k x) ∈ tr →
    (∃ y, w.pc u = .deqStore k y) ∨ 2 * (k / sz) + 2 ≤ w.shared.turn (k % sz)
  done : ∀ u k x, (u, .deqDone k x) ∈ tr → 2 * (k / sz) + 2 ≤ w.shared.turn (k % sz)
  doneOnce : (tr.filterMap doneNo).Nodup
  thread : ∀ t, PcInv sz w.shared tr t (w.pc t)
  enqExcl : Exclusive Pc.enqHolds w.pc
  deqExcl : Exclusive Pc.deqHolds w.pc
  legal : Justified (Legal sz) tr

section Arithmetic
variable {k h : Nat}

theorem idx_two_pow (e v : Nat) : idx (2 ^ e) v = v % 2 ^ e := Nat.and_two_pow_sub_one_eq_mod v e

theorem ticket_le (hmod : k % sz = h % sz) (hdiv : k / sz ≤ h / sz) : k ≤ h := by
  have hk := Nat.div_add_mod k sz
  have hh := Nat.div_add_mod h sz
  have hmul := Nat.mul_le_mul_left sz hdiv
  omega

theorem ticket_eq (hmod : k % sz = h % sz) (hdiv : k / sz = h / sz) : k = h :=
  Nat.le_antisymm (ticket_le hmod (Nat.le_of_eq hdiv))
    (ticket_le hmod.symm (Nat.le_of_eq hdiv.symm))

end Arithmetic

section Stable
variable {q q' : Queue α} {tr tr' : List (Tid × Event α)} {t : Tid} {p : Pc α}

def Pc.works (sz : Nat) : Pc α → Option Nat
  | .enqWrite _ hd => some (hd % sz)
  | .enqStore _ hd => some (hd % sz)
  | .deqRead tl => some (tl % sz)
  | .deqStore tl _ => some (tl % sz)
  | _ => none

theorem PcInv.stable (h : PcInv sz q tr t p) (htr : ∀ e ∈ tr, e ∈ tr') (hhead : q.head ≤ q'.head)
    (htail : q.tail ≤ q'.tail) (hturn : ∀ j, q.turn j ≤ q'.turn j)
    (hslot : ∀ j, p.works sz = some j → q'.turn j = q.turn j ∧ q'.data j = q.data j) :
    PcInv sz q' tr' t p := by
  cases p with
  | enqCas x hd => exact Nat.le_trans h (hturn _)
  | enqSpin x hd => exact ⟨htr _ h.1, Nat.lt_of_lt_of_le h.2 hhead⟩
  | enqWrite x hd =>
    exact ⟨⟨htr _ h.1.1, Nat.lt_of_lt_of_le h.1.2 hhead⟩, (hslot _ rfl).1.trans h.2⟩
  | enqStore x hd =>
    exact ⟨⟨htr _ h.1.1, Nat.lt_of_lt_of_le h.1.2 hhead⟩, (hslot _ rfl).1.trans h.2.1,
      (hslot _ rfl).2.trans h.2.2.1, htr _ h.2.2.2⟩
  | deqCas tl => exact Nat.le_trans h (hturn _)
  | deqSpin tl => exact ⟨htr _ h.1, Nat.lt_of_lt_of_le h.2 htail⟩
  | deqRead tl =>
    exact ⟨⟨htr _ h.1.1, Nat.lt_of_lt_of_le h.1.2 htail⟩, (hslot _ rfl).1.trans h.2⟩
  | deqStore tl x =>
    exact ⟨⟨htr _ h.1.1, Nat.lt_of_lt_of_le h.1.2 htail⟩, (hslot _ rfl).1.trans h.2.1,
      htr _ h.2.2⟩
  | _ => trivial

theorem enqHolds_lt (h : PcInv sz q tr t p) {k : Nat} (hk : p.enqHolds = some k) : k < q.head := by
  cases p with
  | enqSpin x hd => exact Option.some.inj hk ▸ h.2
  | enqWrite x hd => exact Option.some.inj hk ▸ h.1.2
  | enqStore x hd => exact Option.some.inj hk ▸ h.1.2
  | _ => cases hk

theorem deqHolds_lt (h : PcInv sz q tr t p) {k : Nat} (hk : p.deqHolds = some k) : k < q.tail := by
  cases p with
  | deqSpin tl => exact Option.some.inj hk ▸ h.2
  | deqRead tl => exact Option.some.inj hk ▸ h.1.2
  | deqStore tl x => exact Option.some.inj hk ▸ h.1.2
  | _ => cases hk

theorem works_owns (h : PcInv sz q tr t p) {j : Nat} (hj : p.works sz = some j) :
    ∃ k, k % sz = j ∧ (p.enqHolds = some k ∧ q.turn j = 2 * (k / sz) ∨
      p.deqHolds = some k ∧ q.turn j = 2 * (k / sz) + 1) := by
  cases p with
  | enqWrite x hd =>
    obtain rfl := Option.some.inj hj
    exact ⟨hd, rfl, .inl ⟨rfl, h.2⟩⟩
  | enqStore x hd =>
    obtain rfl := Option.some.inj hj
    exact ⟨hd, rfl, .inl ⟨rfl, h.2.1⟩⟩
  | deqRead tl =>
    obtain rfl := Option.some.inj hj
    exact ⟨tl, rfl, .inr ⟨rfl, h.2⟩⟩
  | deqStore tl x =>
    obtain rfl := Option.some.inj hj
    exact ⟨tl, rfl, .inr ⟨rfl, h.2.1⟩⟩
  | _ => cases hj

end Stable

/-! ## Steps -/

def Event.Quiet : Event α → Prop
  | .enqTicket _ _ | .wrote _ _ | .deqTicket _ | .read _ _ | .deqDone _ _ => False
  | _ => True

section Steps
variable [DecidableEq Tid] {w : World Tid (Queue α) (Pc α)} {tr : List (Tid × Event α)} {t : Tid}
  {p : Pc α} {e : Event α} {x : α} {k : Nat}

theorem filterMap_snoc {β γ : Type} (f : β → Option γ) (l : List β) (b : β) :
    (l ++ [b]).filterMap f = l.filterMap f ++ (f b).toList := by
  rw [filterMap_append]
  cases hf : f b with
  | none => rw [filterMap_cons_none hf, filterMap_nil, Option.toList_none]
  | some c => rw [filterMap_cons_some hf, filterMap_nil, Option.toList_some]

theorem mem_snoc {β : Type} {l : List β} {a b : β} : a ∈ l ++ [b] ↔ a ∈ l ∨ a = b := by
  rw [mem_append, mem_singleton]

theorem Inv.works_ne (h : Inv sz w tr) (hk : (w.pc t).enqHolds = some k ∧
      w.shared.turn (k % sz) = 2 * (k / sz) ∨
      (w.pc t).deqHolds = some k ∧ w.shared.turn (k % sz) = 2 * (k / sz) + 1)
    {u : Tid} (hu : u ≠ t) {j : Nat} (hj : (w.pc u).works sz = some j) : j ≠ k % sz := by
  rintro rfl
  obtain ⟨i, hi, hown⟩ := works_owns (h.thread u) hj
  apply hu
  rcases hk with ⟨hk, hturn⟩ | ⟨hk, hturn⟩
  · rcases hown with ⟨hown, hturn'⟩ | ⟨-, hturn'⟩
    · have hik : i = k := ticket_eq hi (by omega)
      exact h.enqExcl.eq (hik ▸ hown) hk
    · omega
  · rcases hown with ⟨-, hturn'⟩ | ⟨hown, hturn'⟩
    · omega
    · have hik : i = k := ticket_eq hi (by omega)
      exact h.deqExcl.eq (hik ▸ hown) hk

theorem Inv.wrote_moved (h : Inv sz w tr) (hpc : ∀ y i, w.pc t ≠ .enqStore y i) {u : Tid}
    (hmem : (u, .wrote k x) ∈ tr) : (∃ y, Function.update w.pc t p u = .enqStore y k) ∨
      2 * (k / sz) + 1 ≤ w.shared.turn (k % sz) := by
  rcases h.wrote u k x hmem with ⟨y, hy⟩ | hle
  · have hut : u ≠ t := fun hut => hpc y k (hut ▸ hy)
    exact .inl ⟨y, by rw [Function.update_of_ne hut, hy]⟩
  · exact .inr hle

theorem Inv.read_moved (h : Inv sz w tr) (hpc : ∀ i y, w.pc t ≠ .deqStore i y) {u : Tid}
    (hmem : (u, .read k x) ∈ tr) : (∃ y, Function.update w.pc t p u = .deqStore k y) ∨
      2 * (k / sz) + 2 ≤ w.shared.turn (k % sz) := by
  rcases h.read u k x hmem with ⟨y, hy⟩ | hle
  · have hut : u ≠ t := fun hut => hpc k y (hut ▸ hy)
    exact .inl ⟨y, by rw [Function.update_of_ne hut, hy]⟩
  · exact .inr hle

theorem Inv.move {q' : Queue α} (h : Inv sz w tr) (hturn : q'.turn = w.shared.turn)
    (henqNos : tr.filterMap enqNo ++ (enqNo (t, e)).toList = range q'.head)
    (hdeqNos : tr.filterMap deqNo ++ (deqNo (t, e)).toList = range q'.tail)
    (hhead : w.shared.head ≤ q'.head) (htail : w.shared.tail ≤ q'.tail)
    (hdata : ∀ k, w.shared.turn (k % sz) = 2 * (k / sz) + 1 →
      q'.data (k % sz) = w.shared.data (k % sz))
    (hslot : ∀ u, u ≠ t → ∀ j, (w.pc u).works sz = some j → q'.data j = w.shared.data j)
    (hwrote : ∀ k x, e = .wrote k x → ∃ y, p = .enqStore y k)
    (hread : ∀ k x, e = .read k x → ∃ y, p = .deqStore k y)
    (hdone : ∀ k x, e ≠ .deqDone k x)
    (hne : ∀ y i, w.pc t ≠ .enqStore y i) (hnd : ∀ i y, w.pc t ≠ .deqStore i y)
    (hp : PcInv sz q' (tr ++ [(t, e)]) t p)
    (henq : ∀ u i j, u ≠ t → p.enqHolds = some i → (w.pc u).enqHolds = some j → i ≠ j)
    (hdeq : ∀ u i j, u ≠ t → p.deqHolds = some i → (w.pc u).deqHolds = some j → i ≠ j)
    (hlegal : Legal sz tr (t, e)) :
    Inv sz ⟨q', Function.update w.pc t p⟩ (tr ++ [(t, e)]) where
  enqNos := by rw [filterMap_snoc, henqNos]
  deqNos := by rw [filterMap_snoc, hdeqNos]
  filled := fun k hk => Nat.lt_of_lt_of_le (h.filled k (hturn ▸ hk)) hhead
  emptied := fun k hk =>
    have ⟨hlt, u, x, hmem⟩ := h.emptied k (hturn ▸ hk)
    ⟨Nat.lt_of_lt_of_le hlt htail, u, x, mem_append_left _ hmem⟩
  content := fun k hk => by
    obtain ⟨u, hmem⟩ := h.content k (hturn ▸ hk)
    refine ⟨u, mem_append_left _ ?_⟩
    rwa [hdata k (hturn ▸ hk)]
  wrote := fun u k x hmem => by
    rcases mem_snoc.mp hmem with hmem | heq
    · simp only [hturn]
      exact h.wrote_moved hne hmem
    · obtain ⟨rfl, he⟩ := Prod.mk.inj heq
      obtain ⟨y, hy⟩ := hwrote k x he.symm
      exact .inl ⟨y, hy ▸ Function.update_self u p w.pc⟩
  read := fun u k x hmem => by
    rcases mem_snoc.mp hmem with hmem | heq
    · simp only [hturn]
      exact h.read_moved hnd hmem
    · obtain ⟨rfl, he⟩ := Prod.mk.inj heq
      obtain ⟨y, hy⟩ := hread k x he.symm
      exact .inl ⟨y, hy ▸ Function.update_self u p w.pc⟩
  done := fun u k x hmem => by
    rcases mem_snoc.mp hmem with hmem | heq
    · simp only [hturn]
      exact h.done u k x hmem
    · exact absurd (Prod.mk.inj heq).2.symm (hdone k x)
  doneOnce := by
    have hnone : doneNo (t, e) = none := by
      cases e with
      | deqDone k x => exact absurd rfl (hdone k x)
      | _ => rfl
    rw [filterMap_snoc, hnone, Option.toList_none, append_nil]
    exact h.doneOnce
  thread := forall_update hp fun u hu =>
    (h.thread u).stable (fun _ => mem_append_left _) hhead htail
      (fun j => Nat.le_of_eq (congrFun hturn j).symm)
      fun j hj => ⟨congrFun hturn j, hslot u hu j hj⟩
  enqExcl := h.enqExcl.update (fun _ _ => Ne.symm) henq
  deqExcl := h.deqExcl.update (fun _ _ => Ne.symm) hdeq
  legal := h.legal.snoc hlegal

theorem Inv.local (h : Inv sz w tr) (he : e.Quiet) (hp : PcInv sz w.shared tr t p)
    (henq : ∀ i, p.enqHolds = some i → (w.pc t).enqHolds = some i)
    (hdeq : ∀ i, p.deqHolds = some i → (w.pc t).deqHolds = some i)
    (hne : ∀ y i, w.pc t ≠ .enqStore y i) (hnd : ∀ i y, w.pc t ≠ .deqStore i y) :
    Inv sz ⟨w.shared, Function.update w.pc t p⟩ (tr ++ [(t, e)]) := by
  have hnos : enqNo (t, e) = none ∧ deqNo (t, e) = none ∧ Legal sz tr (t, e) := by
    cases e <;> first | exact ⟨rfl, rfl, trivial⟩ | cases he
  refine h.move rfl ?_ ?_ (Nat.le_refl _) (Nat.le_refl _) (fun _ _ => rfl) (fun _ _ _ _ => rfl)
    ?_ ?_ ?_ hne hnd ?_ ?_ ?_ hnos.2.2
  · rw [hnos.1, Option.toList_none, append_nil, h.enqNos]
  · rw [hnos.2.1, Option.toList_none, append_nil, h.deqNos]
  · rintro k x rfl
    cases he
  · rintro k x rfl
    cases he
  · rintro k x rfl
    cases he
  · exact hp.stable (fun _ => mem_append_left _) (Nat.le_refl _) (Nat.le_refl _)
      (fun _ => Nat.le_refl _) fun _ _ => ⟨rfl, rfl⟩
  · exact fun u i j hu hi hj => h.enqExcl t u i j (Ne.symm hu) (henq i hi) hj
  · exact fun u i j hu hi hj => h.deqExcl t u i j (Ne.symm hu) (hdeq i hi) hj

theorem Inv.takeHead (h : Inv sz w tr) (hp : p = .enqSpin x w.shared.head ∨
      p = .enqWrite x w.shared.head ∧
        w.shared.turn (w.shared.head % sz) = 2 * (w.shared.head / sz))
    (hne : ∀ y i, w.pc t ≠ .enqStore y i) (hnd : ∀ i y, w.pc t ≠ .deqStore i y) :
    Inv sz ⟨{ w.shared with head := w.shared.head + 1 }, Function.update w.pc t p⟩
      (tr ++ [(t, .enqTicket w.shared.head x)]) := by
  have hmem : (t, .enqTicket w.shared.head x) ∈ tr ++ [(t, Event.enqTicket w.shared.head x)] :=
    mem_append_right _ mem_cons_self
  have hholds : p.enqHolds = some w.shared.head ∧ p.deqHolds = none := by
    rcases hp with rfl | ⟨rfl, -⟩
    · exact ⟨rfl, rfl⟩
    · exact ⟨rfl, rfl⟩
  refine h.move rfl ?_ ?_ (Nat.le_succ _) (Nat.le_refl _) (fun _ _ => rfl) (fun _ _ _ _ => rfl)
    nofun nofun nofun hne hnd ?_ ?_ ?_ trivial
  · rw [h.enqNos]
    exact range_succ.symm
  · exact (append_nil _).trans h.deqNos
  · rcases hp with rfl | ⟨rfl, hturn⟩
    · exact ⟨hmem, Nat.lt_succ_self _⟩
    · exact ⟨⟨hmem, Nat.lt_succ_self _⟩, hturn⟩
  · intro u i j _ hi hj
    rw [hholds.1] at hi
    have hlt := enqHolds_lt (h.thread u) hj
    rw [← Option.some.inj hi]
    exact Nat.ne_of_gt hlt
  · intro u i j _ hi
    rw [hholds.2] at hi
    cases hi

theorem Inv.takeTail (h : Inv sz w tr) (hp : p = .deqSpin w.shared.tail ∨
      p = .deqRead w.shared.tail ∧
        w.shared.turn (w.shared.tail % sz) = 2 * (w.shared.tail / sz) + 1)
    (hne : ∀ y i, w.pc t ≠ .enqStore y i) (hnd : ∀ i y, w.pc t ≠ .deqStore i y) :
    Inv sz ⟨{ w.shared with tail := w.shared.tail + 1 }, Function.update w.pc t p⟩
      (tr ++ [(t, .deqTicket w.shared.tail)]) := by
  have hmem : (t, .deqTicket w.shared.tail) ∈
      tr ++ [(t, (Event.deqTicket w.shared.tail : Event α))] := mem_append_right _ mem_cons_self
  have hholds : p.deqHolds = some w.shared.tail ∧ p.enqHolds = none := by
    rcases hp with rfl | ⟨rfl, -⟩
    · exact ⟨rfl, rfl⟩
    · exact ⟨rfl, rfl⟩
  refine h.move rfl ?_ ?_ (Nat.le_refl _) (Nat.le_succ _) (fun _ _ => rfl) (fun _ _ _ _ => rfl)
    nofun nofun nofun hne hnd ?_ ?_ ?_ trivial
  · exact (append_nil _).trans h.enqNos
  · rw [h.deqNos]
    exact range_succ.symm
  · rcases hp with rfl | ⟨rfl, hturn⟩
    · exact ⟨hmem, Nat.lt_succ_self _⟩
    · exact ⟨⟨hmem, Nat.lt_succ_self _⟩, hturn⟩
  · intro u i j _ hi
    rw [hholds.2] at hi
    cases hi
  · intro u i j _ hi hj
    rw [hholds.1] at hi
    have hlt := deqHolds_lt (h.thread u) hj
    rw [← Option.some.inj hi]
    exact Nat.ne_of_gt hlt

theorem sub_ticket (hpos : 0 < sz) (hle : sz ≤ k) :
    (k - sz) % sz = k % sz ∧ k / sz = (k - sz) / sz + 1 := by
  refine ⟨(Nat.mod_eq_sub_mod hle).symm, ?_⟩
  rw [Nat.div_eq_sub_div hpos hle]

theorem Inv.write (hpos : 0 < sz) (h : Inv sz w tr) (hpc : w.pc t = .enqWrite x k) :
    Inv sz ⟨{ w.shared with data := Function.update w.shared.data (k % sz) x },
      Function.update w.pc t (.enqStore x k)⟩ (tr ++ [(t, .wrote k x)]) := by
  have hthread := h.thread t
  rw [hpc] at hthread
  obtain ⟨⟨hticket, hlt⟩, hturn⟩ := hthread
  have hholds : (w.pc t).enqHolds = some k := by rw [hpc]; rfl
  refine h.move rfl ((append_nil _).trans h.enqNos) ((append_nil _).trans h.deqNos)
    (Nat.le_refl _) (Nat.le_refl _) ?_ ?_ ?_ nofun nofun ?_ ?_ ?_ ?_ nofun ?_
  · intro i hi
    have hne : i % sz ≠ k % sz := fun heq => by
      rw [heq, hturn] at hi
      omega
    exact Function.update_of_ne hne _ _
  · intro u hu j hj
    exact Function.update_of_ne (h.works_ne (.inl ⟨hholds, hturn⟩) hu hj) _ _
  · rintro i y ⟨⟩
    exact ⟨x, rfl⟩
  · rw [hpc]
    exact nofun
  · rw [hpc]
    exact nofun
  · exact ⟨⟨mem_append_left _ hticket, hlt⟩, hturn, Function.update_self _ _ _,
      mem_append_right _ mem_cons_self⟩
  · intro u i j hu hi hj
    exact h.enqExcl t u i j (Ne.symm hu) (hi ▸ hholds) hj
  · refine ⟨hticket, fun u y hmem => ?_, fun hle => ?_⟩
    · rcases h.wrote u k y hmem with ⟨z, hz⟩ | hwritten
      · have hut : u = t := h.enqExcl.eq (by rw [hz]; rfl) hholds
        rw [hut, hpc] at hz
        cases hz
      · omega
    · -- the slot has been emptied for this turn, so the ticket one lap before has been read
      obtain ⟨hmod, hdiv⟩ := sub_ticket hpos hle
      obtain ⟨-, hread⟩ := h.emptied (k - sz) (by rw [hmod, hturn]; omega)
      exact hread

theorem Inv.readItem (hpos : 0 < sz) (h : Inv sz w tr) (hpc : w.pc t = .deqRead k)
    (hx : x = w.shared.data (k % sz)) :
    Inv sz ⟨w.shared, Function.update w.pc t (.deqStore k x)⟩ (tr ++ [(t, .read k x)]) := by
  have hthread := h.thread t
  rw [hpc] at hthread
  obtain ⟨⟨hticket, hlt⟩, hturn⟩ := hthread
  have hholds : (w.pc t).deqHolds = some k := by rw [hpc]; rfl
  refine h.move rfl ((append_nil _).trans h.enqNos) ((append_nil _).trans h.deqNos)
    (Nat.le_refl _) (Nat.le_refl _) (fun _ _ => rfl) (fun _ _ _ _ => rfl) nofun ?_ nofun ?_ ?_ ?_
    nofun ?_ ?_
  · rintro i y ⟨⟩
    exact ⟨x, rfl⟩
  · rw [hpc]
    exact nofun
  · rw [hpc]
    exact nofun
  · exact ⟨⟨mem_append_left _ hticket, hlt⟩, hturn, mem_append_right _ mem_cons_self⟩
  · intro u i j hu hi hj
    exact h.deqExcl t u i j (Ne.symm hu) (hi ▸ hholds) hj
  · refine ⟨hticket, hx ▸ h.content k hturn, fun u y hmem => ?_, fun u y hmem => ?_⟩
    · rcases h.read u k y hmem with ⟨z, hz⟩ | hread
      · have hut : u = t := h.deqExcl.eq (by rw [hz]; rfl) hholds
        rw [hut, hpc] at hz
        cases hz
      · omega
    · have hmod : (k + sz) % sz = k % sz := Nat.add_mod_right k sz
      have hdiv : (k + sz) / sz = k / sz + 1 := Nat.add_div_right k hpos
      rcases h.wrote u (k + sz) y hmem with ⟨z, hz⟩ | hwritten
      · have hlater := h.thread u
        rw [hz] at hlater
        have hturn' := hlater.2.1
        rw [hmod, hturn, hdiv] at hturn'
        omega
      · rw [hmod, hturn, hdiv] at hwritten
        omega

section Advance
variable {v : Nat}

theorem forall_turn {P : Nat → Nat → Prop} {turn : Nat → Nat} (hself : ∀ i, i % sz = k % sz → P i v)
    (hother : ∀ i, P i (turn (i % sz))) (i : Nat) :
    P i (Function.update turn (k % sz) v (i % sz)) := by
  by_cases hik : i % sz = k % sz
  · rw [hik, Function.update_self]
    exact hself i hik
  · rw [Function.update_of_ne hik]
    exact hother i

theorem le_advanced {turn : Nat → Nat} (hv : v = turn (k % sz) + 1) (j : Nat) :
    turn j ≤ Function.update turn (k % sz) v j := by
  by_cases hj : j = k % sz
  · rw [hj, Function.update_self, hv]
    exact Nat.le_succ _
  · rw [Function.update_of_ne hj]

theorem Inv.wrote_advanced (h : Inv sz w tr) (hv : v = w.shared.turn (k % sz) + 1)
    (hwrote : ∀ y i, w.pc t = .enqStore y i → i = k) {u : Tid} {i : Nat}
    (hmem : (u, .wrote i x) ∈ tr) : (∃ y, Function.update w.pc t .idle u = .enqStore y i) ∨
      2 * (i / sz) + 1 ≤ Function.update w.shared.turn (k % sz) v (i % sz) := by
  rcases h.wrote u i x hmem with ⟨y, hy⟩ | hle
  · by_cases hut : u = t
    · obtain rfl := hwrote y i (hut ▸ hy)
      have hown := h.thread u
      rw [hy] at hown
      rw [Function.update_self]
      exact .inr (by have hturn := hown.2.1; omega)
    · exact .inl ⟨y, by rw [Function.update_of_ne hut, hy]⟩
  · exact .inr (Nat.le_trans hle (le_advanced hv _))

theorem Inv.read_advanced (h : Inv sz w tr) (hv : v = w.shared.turn (k % sz) + 1)
    (hread : ∀ i y, w.pc t = .deqStore i y → i = k) {u : Tid} {i : Nat}
    (hmem : (u, .read i x) ∈ tr) : (∃ y, Function.update w.pc t .idle u = .deqStore i y) ∨
      2 * (i / sz) + 2 ≤ Function.update w.shared.turn (k % sz) v (i % sz) := by
  rcases h.read u i x hmem with ⟨y, hy⟩ | hle
  · by_cases hut : u = t
    · obtain rfl := hread i y (hut ▸ hy)
      have hown := h.thread u
      rw [hy] at hown
      rw [Function.update_self]
      exact .inr (by have hturn := hown.2.1; omega)
    · exact .inl ⟨y, by rw [Function.update_of_ne hut, hy]⟩
  · exact .inr (Nat.le_trans hle (le_advanced hv _))

omit [DecidableEq Tid] in
theorem Inv.doneOnce_snoc (h : Inv sz w tr) (hturn : w.shared.turn (k % sz) = 2 * (k / sz) + 1) :
    (tr.filterMap doneNo ++ [k]).Nodup := by
  refine Nodup.append h.doneOnce (nodup_singleton k) ?_
  intro i hi hik
  obtain rfl := mem_singleton.mp hik
  obtain ⟨⟨u, e⟩, hmem, hdone⟩ := mem_filterMap.mp hi
  cases e with
  | deqDone j z =>
    obtain rfl := Option.some.inj hdone
    have hreleased := h.done u j z hmem
    omega
  | _ => cases hdone

theorem Inv.advance (h : Inv sz w tr) (hv : v = w.shared.turn (k % sz) + 1)
    (hk : (w.pc t).enqHolds = some k ∧ w.shared.turn (k % sz) = 2 * (k / sz) ∨
      (w.pc t).deqHolds = some k ∧ w.shared.turn (k % sz) = 2 * (k / sz) + 1)
    (hfilled : ∀ i, i % sz = k % sz → 2 * (i / sz) + 1 ≤ v → i < w.shared.head)
    (hemptied : ∀ i, i % sz = k % sz → 2 * (i / sz) + 2 ≤ v →
      i < w.shared.tail ∧ ∃ u x, (u, .read i x) ∈ tr)
    (hcontent : ∀ i, i % sz = k % sz → v = 2 * (i / sz) + 1 →
      ∃ u, (u, .wrote i (w.shared.data (i % sz))) ∈ tr)
    (hwrote : ∀ y i, w.pc t = .enqStore y i → i = k)
    (hread : ∀ i y, w.pc t = .deqStore i y → i = k)
    (he : e = .enqDone k ∨ ∃ x, e = .deqDone k x ∧
      w.shared.turn (k % sz) = 2 * (k / sz) + 1)
    (hlegal : Legal sz tr (t, e)) :
    Inv sz ⟨{ w.shared with turn := Function.update w.shared.turn (k % sz) v },
      Function.update w.pc t .idle⟩ (tr ++ [(t, e)]) := by
  have hnos : enqNo (t, e) = none ∧ deqNo (t, e) = none ∧ (∀ i x, e ≠ .wrote i x) ∧
      ∀ i x, e ≠ .read i x := by
    rcases he with rfl | ⟨x, rfl, -⟩
    · exact ⟨rfl, rfl, nofun, nofun⟩
    · exact ⟨rfl, rfl, nofun, nofun⟩
  have hhead := forall_turn (P := fun i v => 2 * (i / sz) + 1 ≤ v → i < w.shared.head) hfilled
    h.filled
  have hgone := forall_turn (P := fun i v => 2 * (i / sz) + 2 ≤ v →
    i < w.shared.tail ∧ ∃ u x, (u, .read i x) ∈ tr) hemptied h.emptied
  have hput := forall_turn (P := fun i v => v = 2 * (i / sz) + 1 →
    ∃ u, (u, .wrote i (w.shared.data (i % sz))) ∈ tr) hcontent h.content
  refine
    { enqNos := by rw [filterMap_snoc, hnos.1, Option.toList_none, append_nil, h.enqNos]
      deqNos := by rw [filterMap_snoc, hnos.2.1, Option.toList_none, append_nil, h.deqNos]
      filled := hhead
      emptied := fun i hle => ?_
      content := fun i heq => ?_
      wrote := fun u i x hmem => ?_
      read := fun u i x hmem => ?_
      done := fun u i x hmem => ?_
      doneOnce := ?_
      thread := forall_update trivial fun u hu =>
        (h.thread u).stable (fun _ => mem_append_left _) (Nat.le_refl _) (Nat.le_refl _)
          (le_advanced hv) fun j hj => ⟨Function.update_of_ne (h.works_ne hk hu hj) _ _, rfl⟩
      enqExcl := h.enqExcl.keep (fun _ _ => Ne.symm) nofun
      deqExcl := h.deqExcl.keep (fun _ _ => Ne.symm) nofun
      legal := h.legal.snoc hlegal }
  · obtain ⟨hlt, u, x, hmem⟩ := hgone i hle
    exact ⟨hlt, u, x, mem_append_left _ hmem⟩
  · obtain ⟨u, hmem⟩ := hput i heq
    exact ⟨u, mem_append_left _ hmem⟩
  · rcases mem_snoc.mp hmem with hmem | heq
    · exact h.wrote_advanced hv hwrote hmem
    · exact absurd (Prod.mk.inj heq).2.symm (hnos.2.2.1 i x)
  · rcases mem_snoc.mp hmem with hmem | heq
    · exact h.read_advanced hv hread hmem
    · exact absurd (Prod.mk.inj heq).2.symm (hnos.2.2.2 i x)
  · rcases mem_snoc.mp hmem with hmem | heq
    · exact Nat.le_trans (h.done u i x hmem) (le_advanced hv _)
    · have heq := (Prod.mk.inj heq).2
      rcases he with rfl | ⟨y, rfl, hturn⟩
      · cases heq
      · cases heq
        simp only [Function.update_self]
        omega
  · rw [filterMap_snoc]
    rcases he with rfl | ⟨y, rfl, hturn⟩
    · exact (append_nil _).symm ▸ h.doneOnce
    · exact h.doneOnce_snoc hturn

end Advance

theorem Inv.publish (h : Inv sz w tr) (hpc : w.pc t = .enqStore x k) {v : Nat}
    (hv : v = 2 * (k / sz) + 1) :
    Inv sz ⟨{ w.shared with turn := Function.update w.shared.turn (k % sz) v },
      Function.update w.pc t .idle⟩ (tr ++ [(t, .enqDone k)]) := by
  have hthread := h.thread t
  rw [hpc] at hthread
  obtain ⟨⟨-, hlt⟩, hturn, hdata, hwrote⟩ := hthread
  refine h.advance (hturn ▸ hv) (.inl ⟨by rw [hpc]; rfl, hturn⟩) ?_ ?_ ?_ ?_ ?_ (.inl rfl) trivial
  · intro i hi hle
    exact Nat.lt_of_le_of_lt (ticket_le hi (by omega)) hlt
  · intro i hi hle
    exact h.emptied i (by rw [hi]; omega)
  · intro i hi heq
    obtain rfl : i = k := ticket_eq hi (by omega)
    exact ⟨t, hdata.symm ▸ hwrote⟩
  · intro y i hy
    rw [hpc] at hy
    cases hy
    rfl
  · intro i y hy
    rw [hpc] at hy
    cases hy

theorem Inv.release (h : Inv sz w tr) (hpc : w.pc t = .deqStore k x) {v : Nat}
    (hv : v = 2 * (k / sz) + 2) :
    Inv sz ⟨{ w.shared with turn := Function.update w.shared.turn (k % sz) v },
      Function.update w.pc t .idle⟩ (tr ++ [(t, .deqDone k x)]) := by
  have hthread := h.thread t
  rw [hpc] at hthread
  obtain ⟨⟨-, hlt⟩, hturn, hread⟩ := hthread
  refine h.advance (by rw [hv, hturn]) (.inr ⟨by rw [hpc]; rfl, hturn⟩) ?_ ?_ ?_ ?_ ?_
    (.inr ⟨x, rfl, hturn⟩) ⟨hread, ?_⟩
  · intro i hi hle
    exact h.filled i (by rw [hi]; omega)
  · intro i hi hle
    by_cases hik : i / sz = k / sz
    · obtain rfl := ticket_eq hi hik
      exact ⟨hlt, t, x, hread⟩
    · exact h.emptied i (by rw [hi]; omega)
  · intro i hi heq
    omega
  · intro y i hy
    rw [hpc] at hy
    cases hy
  · intro i y hy
    rw [hpc] at hy
    cases hy
    rfl
  · intro u y hmem
    have hdone := h.done u k y hmem
    omega

theorem inv_step {n : Nat} {w : World Tid (Queue α) (Pc α)} {tr : List (Tid × Event α)} {t : Tid}
    {a : Act α} {r : Queue α × Pc α × Event α} (h : Inv (2 ^ n) w tr)
    (hr : trans (2 ^ n) t w.shared (w.pc t) a = some r) :
    Inv (2 ^ n) ⟨r.1, Function.update w.pc t r.2.1⟩ (tr ++ [(t, r.2.2)]) := by
  have hpos : 0 < 2 ^ n := Nat.two_pow_pos n
  obtain ⟨q', p', ev⟩ := r
  have hstep := trans_inv hr
  have hthread := h.thread t
  simp only at hstep ⊢
  generalize hpc : w.pc t = pc at hstep hthread
  cases hstep with
  | call op =>
    refine h.local trivial ?_ ?_ ?_ (hpc ▸ nofun) (hpc ▸ nofun)
    · cases op <;> trivial
    · cases op <;> exact nofun
    · cases op <;> exact nofun
  | enqLoad => exact h.local trivial trivial nofun nofun (hpc ▸ nofun) (hpc ▸ nofun)
  | enqFree hturn =>
    rw [idx_two_pow, lap, Nat.mul_comm] at hturn
    exact h.local trivial (Nat.le_of_eq hturn.symm) nofun nofun (hpc ▸ nofun) (hpc ▸ nofun)
  | enqBusy hturn => exact h.local trivial trivial nofun nofun (hpc ▸ nofun) (hpc ▸ nofun)
  | enqTake heq =>
    subst heq
    refine h.takeHead (.inr ⟨rfl, ?_⟩) (hpc ▸ nofun) (hpc ▸ nofun)
    -- a later turn would mean that the ticket at the head has been given out
    by_contra hne
    have hlater : 2 * (w.shared.head / 2 ^ n) + 1 ≤ w.shared.turn (w.shared.head % 2 ^ n) :=
      Nat.lt_of_le_of_ne hthread (Ne.symm hne)
    exact Nat.lt_irrefl _ (h.filled _ hlater)
  | enqLose => exact h.local trivial trivial nofun nofun (hpc ▸ nofun) (hpc ▸ nofun)
  | enqFail heq => exact h.local trivial trivial nofun nofun (hpc ▸ nofun) (hpc ▸ nofun)
  | enqRetry => exact h.local trivial trivial nofun nofun (hpc ▸ nofun) (hpc ▸ nofun)
  | enqAdd => exact h.takeHead (.inl rfl) (hpc ▸ nofun) (hpc ▸ nofun)
  | enqWait =>
    refine h.local trivial hthread ?_ nofun (hpc ▸ nofun) (hpc ▸ nofun)
    rw [hpc]
    exact fun _ hi => hi
  | enqTurned hturn =>
    rw [idx_two_pow, lap, Nat.mul_comm] at hturn
    refine h.local trivial ⟨hthread, hturn.symm⟩ ?_ nofun (hpc ▸ nofun) (hpc ▸ nofun)
    rw [hpc]
    exact fun _ hi => hi
  | enqWrite =>
    rw [idx_two_pow]
    exact h.write hpos hpc
  | enqStore =>
    rw [idx_two_pow]
    exact h.publish hpc (congrArg Nat.succ (Nat.mul_comm _ 2))
  | deqLoad => exact h.local trivial trivial nofun nofun (hpc ▸ nofun) (hpc ▸ nofun)
  | deqFilled hturn =>
    rw [idx_two_pow, lap, Nat.mul_comm, Nat.add_comm] at hturn
    exact h.local trivial (Nat.le_of_eq hturn.symm) nofun nofun (hpc ▸ nofun) (hpc ▸ nofun)
  | deqVacant hturn => exact h.local trivial trivial nofun nofun (hpc ▸ nofun) (hpc ▸ nofun)
  | deqTake heq =>
    subst heq
    refine h.takeTail (.inr ⟨rfl, ?_⟩) (hpc ▸ nofun) (hpc ▸ nofun)
    by_contra hne
    have hlater : 2 * (w.shared.tail / 2 ^ n) + 2 ≤ w.shared.turn (w.shared.tail % 2 ^ n) :=
      Nat.lt_of_le_of_ne hthread (Ne.symm hne)
    exact Nat.lt_irrefl _ (h.emptied _ hlater).1
  | deqLose => exact h.local trivial trivial nofun nofun (hpc ▸ nofun) (hpc ▸ nofun)
  | deqFail heq => exact h.local trivial trivial nofun nofun (hpc ▸ nofun) (hpc ▸ nofun)
  | deqRetry => exact h.local trivial trivial nofun nofun (hpc ▸ nofun) (hpc ▸ nofun)
  | deqAdd => exact h.takeTail (.inl rfl) (hpc ▸ nofun) (hpc ▸ nofun)
  | deqWait =>
    refine h.local trivial hthread nofun ?_ (hpc ▸ nofun) (hpc ▸ nofun)
    rw [hpc]
    exact fun _ hi => hi
  | deqTurned hturn =>
    rw [idx_two_pow, lap, Nat.mul_comm, Nat.add_comm] at hturn
    refine h.local trivial ⟨hthread, hturn.symm⟩ nofun ?_ (hpc ▸ nofun) (hpc ▸ nofun)
    rw [hpc]
    exact fun _ hi => hi
  | deqRead =>
    rw [idx_two_pow]
    exact h.readItem hpos hpc rfl
  | @deqStore tl x =>
    rw [idx_two_pow]
    exact h.release hpc (by rw [lap]; omega)

end Steps

/-! ## Counters -/

def Pc.Waiting : Pc α → Prop
  | .enqLoad _ | .enqTurn _ _ | .enqCas _ _ | .enqReload _ _ | .enqAdd _ => True
  | .deqLoad | .deqTurn _ | .deqCas _ | .deqReload _ | .deqAdd => True
  | _ => False

def isCall (e : Tid × Event α) : Bool :=
  match e.2 with
  | .call _ => true
  | _ => false

def Counted (w : World Tid (Queue α) (Pc α)) (tr : List (Tid × Event α)) : Prop :=
  ∃ F : Finset Tid, (∀ t, (w.pc t).Waiting → t ∈ F) ∧
    w.shared.head + w.shared.tail + F.card ≤ tr.countP isCall

theorem trans_counts {q : Queue α} {pc : Pc α} {t : Tid} {a : Act α}
    {r : Queue α × Pc α × Event α} (hr : trans sz t q pc a = some r) :
    isCall (t, r.2.2) ∧ r.1.head + r.1.tail = q.head + q.tail ∨
    (pc.Waiting ∧ ¬ r.2.1.Waiting ∧ r.1.head + r.1.tail = q.head + q.tail + 1) ∨
    ((r.2.1.Waiting → pc.Waiting) ∧ r.1.head + r.1.tail = q.head + q.tail) := by
  obtain ⟨q', p', ev⟩ := r
  have hstep := trans_inv hr
  simp only at hstep ⊢
  cases hstep with
  | call op => exact .inl ⟨rfl, rfl⟩
  | enqTake heq => exact .inr (.inl ⟨trivial, id, heq ▸ Nat.succ_add _ _⟩)
  | enqAdd => exact .inr (.inl ⟨trivial, id, Nat.succ_add _ _⟩)
  | deqTake heq => exact .inr (.inl ⟨trivial, id, heq ▸ rfl⟩)
  | deqAdd => exact .inr (.inl ⟨trivial, id, rfl⟩)
  | enqWait => exact .inr (.inr ⟨id, rfl⟩)
  | enqTurned hturn => exact .inr (.inr ⟨id, rfl⟩)
  | enqWrite => exact .inr (.inr ⟨id, rfl⟩)
  | enqStore => exact .inr (.inr ⟨id, rfl⟩)
  | deqWait => exact .inr (.inr ⟨id, rfl⟩)
  | deqTurned hturn => exact .inr (.inr ⟨id, rfl⟩)
  | deqRead => exact .inr (.inr ⟨id, rfl⟩)
  | deqStore => exact .inr (.inr ⟨id, rfl⟩)
  | _ => exact .inr (.inr ⟨fun _ => trivial, rfl⟩)

theorem inv_new (n : Nat) (x₀ : α) : Inv (2 ^ n) (new x₀ : World Tid (Queue α) (Pc α)) [] where
  enqNos := rfl
  deqNos := rfl
  filled := nofun
  emptied := nofun
  content := nofun
  wrote := nofun
  read := nofun
  done := nofun
  doneOnce := nodup_nil
  thread := fun _ => trivial
  enqExcl := nofun
  deqExcl := nofun
  legal := justified_nil _

theorem Inv.turn_le {w : World Tid (Queue α) (Pc α)} {tr : List (Tid × Event α)}
    (hpos : 0 < sz) (h : Inv sz w tr) {j : Nat} (hj : j < sz) :
    w.shared.turn j ≤ 2 * w.shared.head := by
  by_contra hlt
  have hmod : (w.shared.head * sz + j) % sz = j := by
    rw [Nat.add_comm, Nat.add_mul_mod_self_right, Nat.mod_eq_of_lt hj]
  have hdiv : (w.shared.head * sz + j) / sz = w.shared.head := by
    rw [Nat.add_comm, Nat.add_mul_div_right _ _ hpos, Nat.div_eq_of_lt hj, Nat.zero_add]
  have hfilled := h.filled (w.shared.head * sz + j) (by rw [hmod, hdiv]; omega)
  have hle := Nat.le_mul_of_pos_right w.shared.head hpos
  omega

section Runs
variable [DecidableEq Tid] {n : Nat} {x₀ : α} {w : World Tid (Queue α) (Pc α)}
  {tr : List (Tid × Event α)} {sched : List (Tid × Act α)}

theorem counted_step {t : Tid} {a : Act α} {r : Queue α × Pc α × Event α} (h : Counted w tr)
    (hr : trans sz t w.shared (w.pc t) a = some r) :
    Counted ⟨r.1, Function.update w.pc t r.2.1⟩ (tr ++ [(t, r.2.2)]) := by
  obtain ⟨F, hF, hcard⟩ := h
  have hcalls : tr.countP isCall ≤ (tr ++ [(t, r.2.2)]).countP isCall := by
    rw [countP_append]
    exact Nat.le_add_right _ _
  have hothers : ∀ u, u ≠ t → (w.pc u).Waiting → u ∈ F := fun u _ hu => hF u hu
  rcases trans_counts hr with ⟨hcall, hsum⟩ | ⟨hwait, hgone, hsum⟩ | ⟨hkeep, hsum⟩
  · refine ⟨insert t F, ?_, ?_⟩
    · exact forall_update (Q := fun u (p : Pc α) => p.Waiting → u ∈ insert t F)
        (fun _ => Finset.mem_insert_self t F)
        fun u _ hwait => Finset.mem_insert_of_mem (hF u hwait)
    · have hins := Finset.card_insert_le t F
      rw [countP_append, countP_singleton, if_pos hcall]
      simp only [hsum]
      omega
  · refine ⟨F.erase t, ?_, ?_⟩
    · exact forall_update (Q := fun u (p : Pc α) => p.Waiting → u ∈ F.erase t)
        (fun hw => absurd hw hgone) fun u hu hwait => Finset.mem_erase.mpr ⟨hu, hF u hwait⟩
    · have hmem := hF t hwait
      have hpos := Finset.card_pos.mpr ⟨t, hmem⟩
      rw [Finset.card_erase_of_mem hmem]
      simp only [hsum]
      omega
  · refine ⟨F, forall_update (Q := fun u (p : Pc α) => p.Waiting → u ∈ F)
      (fun hw => hF t (hkeep hw)) hothers, ?_⟩
    simp only [hsum]
    omega

theorem counters_fit (hrun : exec (trans (2 ^ n)) (new x₀) sched = some (w, tr))
    (hops : tr.countP isCall < 2 ^ 63) :
    w.shared.head < 2 ^ 63 ∧ w.shared.tail < 2 ^ 63 ∧ ∀ j < 2 ^ n, w.shared.turn j < 2 ^ 64 := by
  have hinv : Inv (2 ^ n) w tr := exec_invariant (fun _ _ _ _ _ => inv_step) (inv_new n x₀) hrun
  have hnew : Counted (new x₀ : World Tid (Queue α) (Pc α)) [] :=
    ⟨∅, fun _ => False.elim, Nat.le_refl 0⟩
  obtain ⟨F, -, hcard⟩ : Counted w tr :=
    exec_invariant (fun _ _ _ _ _ => counted_step) hnew hrun
  refine ⟨by omega, by omega, fun j hj => ?_⟩
  have hle := hinv.turn_le (Nat.two_pow_pos n) hj
  omega

/-- Tickets are given out in order on both ends; the dequeue with ticket `k` returns the item of
the enqueue with ticket `k`, and does so once; no slot is written before its last item has been
read, or read before its item has been written. -/
theorem mpmc_delivers (hrun : exec (trans (2 ^ n)) (new x₀) sched = some (w, tr)) :
    tr.filterMap enqNo = range w.shared.head ∧ tr.filterMap deqNo = range w.shared.tail ∧
    (∀ u k x, (u, .deqDone k x) ∈ tr → ∃ v, (v, .enqTicket k x) ∈ tr ∧ (v, .wrote k x) ∈ tr) ∧
    (tr.filterMap doneNo).Nodup ∧ Justified (Legal (2 ^ n)) tr ∧
    (tr.countP isCall < 2 ^ 63 → w.shared.head < 2 ^ 63 ∧ w.shared.tail < 2 ^ 63 ∧
      ∀ j < 2 ^ n, w.shared.turn j < 2 ^ 64) := by
  have hinv : Inv (2 ^ n) w tr := exec_invariant (fun _ _ _ _ _ => inv_step) (inv_new n x₀) hrun
  refine ⟨hinv.enqNos, hinv.deqNos, ?_, hinv.doneOnce, hinv.legal, counters_fit hrun⟩
  intro u k x hdone
  obtain ⟨pre, hpre, hread, -⟩ := hinv.legal.of_mem hdone
  obtain ⟨pre₁, hpre₁, -, ⟨v, hwrote⟩, -⟩ := hinv.legal.of_mem (hpre _ hread)
  obtain ⟨pre₂, hpre₂, hticket, -⟩ := hinv.legal.of_mem (hpre₁ _ hwrote)
  exact ⟨v, hpre₂ _ hticket, hpre₁ _ hwrote⟩

def handOver : List (Nat × Act Nat) :=
  [(1, .call .deqWait), (0, .call (.enq 5)), (1, .step), (0, .step), (0, .step), (1, .step),
    (0, .step), (0, .step), (0, .step), (1, .step), (1, .step), (1, .step)]

theorem mpmc_delivers_handOver :
    ∃ w tr, exec (trans 2) (new 0 : World Nat (Queue Nat) (Pc Nat)) handOver = some (w, tr) ∧
      (1, .deqDone 0 5) ∈ tr ∧ (∃ v, (v, .enqTicket 0 5) ∈ tr ∧ (v, .wrote 0 5) ∈ tr) ∧
      w.shared.head < 2 ^ 63 := by
  obtain ⟨⟨w, tr⟩, hrun⟩ : ∃ r, exec (trans (2 ^ 1)) (new 0 : World Nat (Queue Nat) (Pc Nat))
      handOver = some r := ⟨_, rfl⟩
  have htr : (exec (trans (2 ^ 1)) (new 0 : World Nat (Queue Nat) (Pc Nat)) handOver).map Prod.snd =
      some [(1, .call .deqWait), (0, .call (.enq 5)), (1, .deqTicket 0), (0, .tau), (0, .tau),
        (1, .tau), (0, .enqTicket 0 5), (0, .wrote 0 5), (0, .enqDone 0), (1, .tau),
        (1, .read 0 5), (1, .deqDone 0 5)] := by decide
  rw [hrun, Option.map_some, Option.some.injEq] at htr
  simp only at htr
  obtain ⟨-, -, hitems, -, -, hfit⟩ := mpmc_delivers hrun
  have hdone : (1, .deqDone 0 5) ∈ tr := by
    rw [htr]
    decide
  refine ⟨w, tr, hrun, hdone, hitems 1 0 5 hdone, (hfit ?_).1⟩
  rw [htr]
  decide

end Runs
end PortableLib.MpmcQueue
