import Mathlib.Algebra.Order.Group.Multiset
import PortableLib.Lib.Block
import PortableLib.Lib.HeapOrder
import PortableLib.Lib.Run

/-! The binary heap of `utils/minheap.h`. Positions and counts are natural numbers: `n` is never
negative, and no position the code computes exceeds `n`. -/

namespace PortableLib.MinHeap
open HeapOrder

structure Comp (α : Type) where
  lt : α → α → Bool
  gt : α → α → Bool

structure Minheap (α : Type) where
  heap : Block α
  size : Nat
  n : Nat

variable {α : Type}

def isLeaf (m : Minheap α) (pos : Nat) : Bool := decide (pos ≥ m.n / 2 ∧ pos < m.n)

def leftchild (pos : Nat) : Nat := 2 * pos + 1

def rightchild (pos : Nat) : Nat := 2 * pos + 2

def lesserChild (c : Comp α) (m : Minheap α) (pos : Nat) : Option Nat :=
  if rightchild pos < m.n then do
    let l ← m.heap.read (leftchild pos)
    let r ← m.heap.read (rightchild pos)
    return if c.gt l r then rightchild pos else leftchild pos
  else some (leftchild pos)

/-- The loop of `siftdown`; `none` if it has not come to an end after so many rounds. -/
def siftdown (c : Comp α) : Nat → Minheap α → Nat → Option (Minheap α)
  | 0, _, _ => none
  | fuel + 1, m, pos =>
    if isLeaf m pos then some m
    else do
      let j ← lesserChild c m pos
      let a ← m.heap.read pos
      let b ← m.heap.read j
      if !c.gt a b then return m
      let heap ← m.heap.swap pos j
      siftdown c fuel { m with heap := heap } j

def buildHeap (c : Comp α) : Nat → Minheap α → Option (Minheap α)
  | 0, m => some m
  | i + 1, m => do
    let m ← siftdown c m.n m i
    buildHeap c i m

def minheap (c : Comp α) (h : Block α) (num max : Nat) : Option (Minheap α) :=
  buildHeap c (num / 2) { heap := h, size := max, n := num }

def siftup (c : Comp α) : Nat → Block α → Nat → Option (Block α)
  | 0, _, _ => none
  | fuel + 1, h, curr =>
    if curr = 0 then some h
    else do
      let a ← h.read curr
      let b ← h.read (parent curr)
      if c.lt a b then
        let h ← h.swap curr (parent curr)
        siftup c fuel h (parent curr)
      else return h

def insert (c : Comp α) (m : Minheap α) (val : α) : Option (Minheap α × Bool) :=
  if m.n ≥ m.size then some (m, false)
  else do
    let curr := m.n
    let h ← m.heap.write curr val
    let h ← siftup c (curr + 1) h curr
    return ({ m with heap := h, n := m.n + 1 }, true)

/-- `removemin`; the element is what the reference argument `it` is set to. -/
def removemin (c : Comp α) (m : Minheap α) : Option (Minheap α × Option α) :=
  if m.n = 0 then some (m, none)
  else do
    let heap ← m.heap.swap 0 (m.n - 1)
    let m := { m with heap := heap, n := m.n - 1 }
    let m ← if m.n ≠ 0 then siftdown c m.n m 0 else some m
    let it ← m.heap.read m.n
    return (m, some it)

inductive Op (α : Type)
  | insert (val : α)
  | removemin

inductive Result (α : Type)
  | inserted (done : Bool)
  | removed (it : Option α)

structure Event (α : Type) where
  pre : Minheap α
  op : Op α
  result : Result α
  post : Minheap α

def step (c : Comp α) (m : Minheap α) : Op α → Option (Minheap α × Event α)
  | .insert val => (insert c m val).map fun p => (p.1, ⟨m, .insert val, .inserted p.2, p.1⟩)
  | .removemin => (removemin c m).map fun p => (p.1, ⟨m, .removemin, .removed p.2, p.1⟩)

/-- `Comp` gives a total preorder, `a` being not greater than `b` if not `gt a b`, and its two
comparisons are consistent. -/
structure Comp.Consistent (c : Comp α) : Prop where
  total : ∀ a b, c.gt a b = false ∨ c.gt b a = false
  trans : ∀ a b d, c.gt a b = false → c.gt b d = false → c.gt a d = false
  lt_eq : ∀ a b, c.lt a b = c.gt b a

def Comp.Le (c : Comp α) (a b : α) : Prop := c.gt a b = false

def contents (m : Minheap α) : Multiset α := elems m.heap.cells m.n

/-- No element is greater than its children within the first `n` slots. -/
def IsHeap (c : Comp α) (m : Minheap α) : Prop :=
  ∀ i, (leftchild i < m.n → c.Le (m.heap.cells i) (m.heap.cells (leftchild i))) ∧
    (rightchild i < m.n → c.Le (m.heap.cells i) (m.heap.cells (rightchild i)))

def Event.inserted (e : Event α) : Multiset α :=
  match e.op, e.result with
  | .insert val, .inserted true => {val}
  | _, _ => 0

def Event.removed (e : Event α) : Multiset α :=
  match e.result with
  | .removed (some it) => {it}
  | _ => 0

/-- The call left a heap within its bounds; `insert` failed exactly on a full heap, and `removemin`
answered with nothing exactly on an empty one and otherwise with a least element. -/
def Event.Good (c : Comp α) (e : Event α) : Prop :=
  IsHeap c e.post ∧ e.post.n ≤ e.post.size ∧
    match e.op, e.result with
    | .insert _, .inserted done => done = false ↔ e.pre.n = e.pre.size
    | .removemin, .removed none => e.pre.n = 0
    | .removemin, .removed (some it) => ∀ x ∈ contents e.post, c.Le it x
    | _, _ => False

theorem Comp.Consistent.refl {c : Comp α} (hc : c.Consistent) : Std.Refl c.Le :=
  ⟨fun a => (hc.total a a).elim id id⟩

theorem Comp.Consistent.isTrans {c : Comp α} (hc : c.Consistent) : IsTrans α c.Le := ⟨hc.trans⟩

theorem Comp.Consistent.le_of_gt {c : Comp α} (hc : c.Consistent) {a b : α}
    (h : c.gt a b = true) : c.Le b a := by
  rcases hc.total a b with hab | hba
  · rw [h] at hab
    cases hab
  · exact hba

structure Rearranged (m m' : Minheap α) : Prop where
  n_eq : m'.n = m.n
  size_eq : m'.size = m.size
  len_eq : m'.heap.len = m.heap.len
  contents_eq : contents m' = contents m
  beyond : ∀ i, m.n ≤ i → m'.heap.cells i = m.heap.cells i

theorem Rearranged.refl (m : Minheap α) : Rearranged m m := ⟨rfl, rfl, rfl, rfl, fun _ _ => rfl⟩

theorem Rearranged.trans {m m' m'' : Minheap α} (h : Rearranged m m') (h' : Rearranged m' m'') :
    Rearranged m m'' where
  n_eq := h'.n_eq.trans h.n_eq
  size_eq := h'.size_eq.trans h.size_eq
  len_eq := h'.len_eq.trans h.len_eq
  contents_eq := h'.contents_eq.trans h.contents_eq
  beyond i hi := (h'.beyond i (h.n_eq ▸ hi)).trans (h.beyond i hi)

def swapped (m : Minheap α) (i j : Nat) : Minheap α :=
  { m with heap := { m.heap with cells := m.heap.cells ∘ Equiv.swap i j } }

theorem rearranged_swapped {m : Minheap α} {i j : Nat} (hi : i < m.n) (hj : j < m.n) :
    Rearranged m (swapped m i j) where
  n_eq := rfl
  size_eq := rfl
  len_eq := rfl
  contents_eq := elems_swap hi hj
  beyond _ hk := swap_apply_other (hi.trans_le hk).ne' (hj.trans_le hk).ne'

theorem lesserChild_spec {c : Comp α} (hc : c.Consistent) {m : Minheap α} {pos : Nat}
    (hlen : m.n ≤ m.heap.len) (hpos : pos < m.n / 2) :
    ∃ j, lesserChild c m pos = some j ∧ 0 < j ∧ j < m.n ∧ parent j = pos ∧
      ∀ i, 0 < i → i < m.n → parent i = pos → c.Le (m.heap.cells j) (m.heap.cells i) := by
  have := hc.refl
  have hl : leftchild pos < m.n := by
    unfold leftchild
    omega
  have hpl : parent (leftchild pos) = pos := (parent_eq_iff (Nat.succ_pos _)).mpr (.inl rfl)
  have hpr : parent (rightchild pos) = pos := (parent_eq_iff (Nat.succ_pos _)).mpr (.inr rfl)
  by_cases hr : rightchild pos < m.n
  · have hchild : lesserChild c m pos = some (if c.gt (m.heap.cells (leftchild pos))
        (m.heap.cells (rightchild pos)) then rightchild pos else leftchild pos) := by
      rw [lesserChild, if_pos hr, Block.read_of_lt (hl.trans_le hlen),
        Block.read_of_lt (hr.trans_le hlen)]
      rfl
    by_cases hgt : c.gt (m.heap.cells (leftchild pos)) (m.heap.cells (rightchild pos)) = true
    · rw [if_pos hgt] at hchild
      refine ⟨_, hchild, Nat.succ_pos _, hr, hpr, fun i hi _ hpi => ?_⟩
      rcases (parent_eq_iff hi).mp hpi with rfl | rfl
      · exact hc.le_of_gt hgt
      · exact refl_of c.Le _
    · rw [if_neg hgt] at hchild
      refine ⟨_, hchild, Nat.succ_pos _, hl, hpl, fun i hi _ hpi => ?_⟩
      rcases (parent_eq_iff hi).mp hpi with rfl | rfl
      · exact refl_of c.Le _
      · exact Bool.eq_false_iff.mpr hgt
  · refine ⟨leftchild pos, if_neg hr, Nat.succ_pos _, hl, hpl, fun i hi hin hpi => ?_⟩
    rcases (parent_eq_iff hi).mp hpi with rfl | rfl
    · exact refl_of c.Le _
    · exact absurd hin hr

theorem siftdown_spec {c : Comp α} (hc : c.Consistent) (fuel lo : Nat) {pos : Nat} {m : Minheap α}
    (hlen : m.n ≤ m.heap.len) (hpos : pos < m.n) (hfuel : m.n ≤ pos + fuel) (hlo : lo ≤ pos)
    (ho : DownOrder c.Le m.heap.cells m.n lo pos) :
    ∃ m', siftdown c fuel m pos = some m' ∧ Rearranged m m' ∧
      Ordered c.Le m'.heap.cells m'.n lo := by
  induction fuel generalizing m pos with
  | zero => omega
  | succ fuel ih =>
    by_cases hleaf : pos ≥ m.n / 2
    · have hstop : isLeaf m pos = true := decide_eq_true ⟨hleaf, hpos⟩
      refine ⟨m, by rw [siftdown, if_pos hstop], .refl m, ho.finish fun i hi hin hpi => ?_⟩
      rcases (parent_eq_iff hi).mp hpi with h | h <;> omega
    · have hgo : ¬isLeaf m pos = true := fun h => hleaf (of_decide_eq_true h).1
      obtain ⟨j, hchild, hj, hjn, hpj, hmin⟩ := lesserChild_spec hc hlen (Nat.not_le.mp hleaf)
      have hlt : pos < j := hpj ▸ parent_lt hj
      have hread := Block.read_of_lt (hpos.trans_le hlen)
      have hreadj := Block.read_of_lt (hjn.trans_le hlen)
      have hsw := Block.swap_of_lt (hpos.trans_le hlen) (hjn.trans_le hlen)
      by_cases hgt : c.gt (m.heap.cells pos) (m.heap.cells j) = true
      · have hre := rearranged_swapped (m := m) hpos hjn
        obtain ⟨m', hm', hre', ho'⟩ := @ih j (swapped m pos j) hlen hjn
          (by change m.n ≤ j + fuel; omega) (hlo.trans hlt.le)
          (ho.step hlo hj hjn hpj (hc.le_of_gt hgt) hmin)
        refine ⟨m', ?_, hre.trans hre', ho'⟩
        rw [siftdown, if_neg hgo]
        simp only [hchild, hread, hreadj, hgt, hsw, Option.bind_eq_bind, Option.bind_some,
          Bool.not_true, Bool.false_eq_true, if_false]
        exact hm'
      · have hle : c.Le (m.heap.cells pos) (m.heap.cells j) := Bool.eq_false_iff.mpr hgt
        refine ⟨m, ?_, .refl m,
          ho.finish fun i hi hin hpi => hc.trans _ _ _ hle (hmin i hi hin hpi)⟩
        rw [siftdown, if_neg hgo]
        simp only [hchild, hread, hreadj, Option.bind_eq_bind, Option.bind_some,
          Bool.eq_false_iff.mpr hgt, Bool.not_false, if_true]
        rfl

theorem buildHeap_spec {c : Comp α} (hc : c.Consistent) {i : Nat} {m : Minheap α}
    (hlen : m.n ≤ m.heap.len) (hi : i ≤ m.n / 2) (ho : Ordered c.Le m.heap.cells m.n i) :
    ∃ m', buildHeap c i m = some m' ∧ Rearranged m m' ∧ Ordered c.Le m'.heap.cells m'.n 0 := by
  induction i generalizing m with
  | zero => exact ⟨m, rfl, .refl m, ho⟩
  | succ i ih =>
    obtain ⟨m₁, h₁, hre₁, ho₁⟩ := siftdown_spec hc m.n i hlen (by omega) (by omega)
      (Nat.le_refl i) ho.downOrder
    obtain ⟨m₂, h₂, hre₂, ho₂⟩ := @ih m₁ (by rw [hre₁.n_eq, hre₁.len_eq]; exact hlen)
      (by rw [hre₁.n_eq]; omega) ho₁
    refine ⟨m₂, ?_, hre₁.trans hre₂, ho₂⟩
    simp only [buildHeap, h₁, h₂, Option.bind_eq_bind, Option.bind_some]

theorem siftup_spec {c : Comp α} (hc : c.Consistent) {fuel n curr : Nat} {h : Block α}
    (hlen : n ≤ h.len) (hcurr : curr < n) (hfuel : curr < fuel)
    (ho : UpOrder c.Le h.cells n curr) :
    ∃ h', siftup c fuel h curr = some h' ∧ h'.len = h.len ∧ Ordered c.Le h'.cells n 0 ∧
      elems h'.cells n = elems h.cells n := by
  have := hc.isTrans
  induction fuel generalizing h curr with
  | zero => omega
  | succ fuel ih =>
    rcases Nat.eq_zero_or_pos curr with rfl | hpos
    · exact ⟨h, rfl, rfl, ho.finish fun h0 => absurd h0 (Nat.lt_irrefl 0), rfl⟩
    · have hp := parent_lt hpos
      have hpn := hp.trans hcurr
      have hread := Block.read_of_lt (hcurr.trans_le hlen)
      have hreadp := Block.read_of_lt (hpn.trans_le hlen)
      have hsw := Block.swap_of_lt (hcurr.trans_le hlen) (hpn.trans_le hlen)
      by_cases hlt : c.lt (h.cells curr) (h.cells (parent curr)) = true
      · have hle := hc.le_of_gt (hc.lt_eq _ _ ▸ hlt)
        obtain ⟨h', hh', hl, ho', hel⟩ := @ih (parent curr)
          { h with cells := h.cells ∘ Equiv.swap curr (parent curr) } hlen hpn (by omega)
          (ho.step hpos hcurr hle)
        refine ⟨h', ?_, hl, ho', hel.trans (elems_swap hcurr hpn)⟩
        rw [siftup, if_neg hpos.ne']
        simp only [hread, hreadp, hsw, hlt, Option.bind_eq_bind, Option.bind_some, if_true]
        exact hh'
      · have hle : c.Le (h.cells (parent curr)) (h.cells curr) := by
          rw [Comp.Le, ← hc.lt_eq]
          exact Bool.eq_false_iff.mpr hlt
        refine ⟨h, ?_, rfl, ho.finish fun _ => hle, rfl⟩
        rw [siftup, if_neg hpos.ne']
        simp only [hread, hreadp, hlt, Option.bind_eq_bind, Option.bind_some]
        rfl

structure Inv (c : Comp α) (m : Minheap α) : Prop where
  n_le : m.n ≤ m.size
  size_le : m.size ≤ m.heap.len
  ordered : Ordered c.Le m.heap.cells m.n 0

theorem isHeap_iff_ordered {c : Comp α} {m : Minheap α} :
    IsHeap c m ↔ Ordered c.Le m.heap.cells m.n 0 := by
  have hleft : ∀ i, parent (leftchild i) = i :=
    fun i => (parent_eq_iff (Nat.succ_pos _)).mpr (.inl rfl)
  have hright : ∀ i, parent (rightchild i) = i :=
    fun i => (parent_eq_iff (Nat.succ_pos _)).mpr (.inr rfl)
  constructor
  · intro h i hi hin _
    rcases (parent_eq_iff hi).mp rfl with hl | hr
    · have hle := (h (parent i)).1
      rw [leftchild, ← hl] at hle
      exact hle hin
    · have hle := (h (parent i)).2
      rw [rightchild, ← hr] at hle
      exact hle hin
  · intro ho i
    constructor
    · intro hi
      have hle := ho (leftchild i) (Nat.succ_pos _) hi (Nat.zero_le _)
      rwa [hleft] at hle
    · intro hi
      have hle := ho (rightchild i) (Nat.succ_pos _) hi (Nat.zero_le _)
      rwa [hright] at hle

theorem Inv.isHeap {c : Comp α} {m : Minheap α} (h : Inv c m) : IsHeap c m :=
  isHeap_iff_ordered.mpr h.ordered

theorem Inv.of_rearranged {c : Comp α} {m m' : Minheap α} (hre : Rearranged m m')
    (hn : m.n ≤ m.size) (hlen : m.size ≤ m.heap.len) (ho : Ordered c.Le m'.heap.cells m'.n 0) :
    Inv c m' where
  n_le := by rwa [hre.n_eq, hre.size_eq]
  size_le := by rwa [hre.size_eq, hre.len_eq]
  ordered := ho

theorem minheap_spec {c : Comp α} (hc : c.Consistent) {h : Block α} {num max : Nat}
    (hnum : num ≤ max) (hmax : max ≤ h.len) :
    ∃ m, minheap c h num max = some m ∧ Inv c m ∧ contents m = elems h.cells num := by
  have ho : Ordered c.Le h.cells num (num / 2) := by
    intro i hi hin hp
    unfold parent at hp
    omega
  obtain ⟨m, hm, hre, ho'⟩ := buildHeap_spec hc (m := { heap := h, size := max, n := num })
    (hnum.trans hmax) (Nat.le_refl _) ho
  exact ⟨m, hm, .of_rearranged hre hnum hmax ho', hre.contents_eq⟩

theorem insert_spec {c : Comp α} (hc : c.Consistent) {m : Minheap α} (hm : Inv c m) (val : α) :
    ∃ m' done, insert c m val = some (m', done) ∧ Inv c m' ∧ (done = false ↔ m.n = m.size) ∧
      contents m' = contents m + if done then {val} else 0 := by
  by_cases hfull : m.n ≥ m.size
  · refine ⟨m, false, if_pos hfull, hm, ?_, (add_zero _).symm⟩
    exact ⟨fun _ => Nat.le_antisymm hm.n_le hfull, fun _ => rfl⟩
  · have hn : m.n < m.heap.len := (Nat.not_le.mp hfull).trans_le hm.size_le
    have hwrite := Block.write_of_lt hn val
    obtain ⟨h', hh', hl, ho, hel⟩ := siftup_spec hc (n := m.n + 1)
      (h := ⟨m.heap.len, Function.update m.heap.cells m.n val⟩) hn
      (Nat.lt_succ_self _) (Nat.lt_succ_self _) (hm.ordered.snoc val)
    refine ⟨{ m with heap := h', n := m.n + 1 }, true, ?_, ⟨Nat.not_le.mp hfull, ?_, ho⟩, ?_, ?_⟩
    · rw [insert, if_neg hfull]
      simp only [hwrite, hh', Option.bind_eq_bind, Option.bind_some]
      rfl
    · rw [hl]
      exact hm.size_le
    · exact ⟨fun h => absurd h (by decide), fun h => absurd h.ge hfull⟩
    · have hold : elems (Function.update m.heap.cells m.n val) m.n = contents m :=
        elems_congr fun i hi => Function.update_of_ne hi.ne _ _
      have hnew : elems (Function.update m.heap.cells m.n val) (m.n + 1) = val ::ₘ contents m := by
        rw [elems_succ, Function.update_self, hold]
      rw [if_pos rfl, add_comm (contents m), Multiset.singleton_add, ← hnew]
      exact hel

theorem removemin_spec {c : Comp α} (hc : c.Consistent) {m : Minheap α} (hm : Inv c m) :
    ∃ m' it, removemin c m = some (m', it) ∧ Inv c m' ∧ (it = none → m.n = 0) ∧
      (∀ x ∈ it, ∀ y ∈ contents m', c.Le x y) ∧
      contents m' + (it.elim 0 fun x => {x}) = contents m := by
  have := hc.refl
  have := hc.isTrans
  by_cases hn : m.n = 0
  · exact ⟨m, none, if_pos hn, hm, fun _ => hn, nofun, add_zero _⟩
  · obtain ⟨k, hk⟩ := Nat.exists_eq_succ_of_ne_zero hn
    have hmlen := hm.n_le.trans hm.size_le
    have hsw := Block.swap_of_lt (b := m.heap) (i := 0) (j := m.n - 1) (by omega) (by omega)
    rw [show m.n - 1 = k by omega] at hsw
    have hord := hk ▸ hm.ordered
    -- the least element is swapped behind the end before the new root sinks
    let m₁ : Minheap α := { swapped m 0 k with n := k }
    have hcontents : m.heap.cells 0 ::ₘ contents m₁ = contents m := by
      rw [contents, contents, hk]
      exact cons_elems_swap (Nat.zero_le k)
    have hsize₁ : m₁.n ≤ m₁.size := (Nat.le_of_lt (hk ▸ Nat.lt_succ_self k)).trans hm.n_le
    obtain ⟨m₂, h₂, hre, ho⟩ : ∃ m₂,
        (if m₁.n ≠ 0 then siftdown c m₁.n m₁ 0 else some m₁) = some m₂ ∧
        Rearranged m₁ m₂ ∧ Ordered c.Le m₂.heap.cells m₂.n 0 := by
      by_cases hk0 : k = 0
      · refine ⟨m₁, if_neg (fun h => h hk0), .refl m₁, fun i hi hin => ?_⟩
        exact absurd (show i < k from hin) (by omega)
      · obtain ⟨m₂, h₂, hre, ho⟩ := @siftdown_spec _ _ hc k 0 0 m₁
          (hsize₁.trans hm.size_le) (Nat.pos_of_ne_zero hk0) (Nat.le_add_left _ _) (Nat.le_refl 0)
          (hord.replace (Nat.pos_of_ne_zero hk0) fun h0 => absurd h0 (Nat.lt_irrefl 0))
        exact ⟨m₂, by rw [if_pos hk0]; exact h₂, hre, ho⟩
    -- sinking does not reach it there
    have hread : m₂.heap.read m₂.n = some (m.heap.cells 0) := by
      have hlt : m₂.n < m₂.heap.len := by
        rw [hre.n_eq, hre.len_eq]
        change k < m.heap.len
        omega
      have hlast := hre.beyond m₂.n hre.n_eq.ge
      rw [Block.read_of_lt hlt, hlast, hre.n_eq]
      exact congrArg some (swap_apply_child 0 k)
    refine ⟨m₂, some (m.heap.cells 0), ?_, .of_rearranged hre hsize₁ hm.size_le ho, nofun, ?_, ?_⟩
    · rw [removemin, if_neg hn]
      simp only [hk, Nat.succ_eq_add_one, Nat.add_sub_cancel, hsw, Option.bind_eq_bind,
        Option.bind_some]
      by_cases hk0 : k = 0
      · rw [if_neg (fun h => h hk0)] at h₂ ⊢
        obtain rfl := Option.some.inj h₂
        exact congrArg (Option.bind · _) hread
      · rw [if_pos hk0] at h₂ ⊢
        exact (congrArg (Option.bind · _) h₂).trans (congrArg (Option.bind · _) hread)
    · rintro x hx y hy
      obtain rfl := Option.some.inj hx
      rw [hre.contents_eq] at hy
      have hy' : y ∈ contents m := hcontents ▸ Multiset.mem_cons_of_mem hy
      obtain ⟨i, hi, rfl⟩ := mem_elems.mp hy'
      exact hm.ordered.root_le hi
    · rw [Option.elim_some, hre.contents_eq, add_comm, Multiset.singleton_add, hcontents]

theorem step_spec {c : Comp α} (hc : c.Consistent) {m : Minheap α} (hm : Inv c m) (op : Op α) :
    ∃ m' e, step c m op = some (m', e) ∧ Inv c m' ∧ e.Good c ∧
      contents m' + e.removed = contents m + e.inserted := by
  cases op with
  | insert val =>
    obtain ⟨m', done, h, hm', hdone, hcontents⟩ := insert_spec hc hm val
    refine ⟨m', ⟨m, .insert val, .inserted done, m'⟩, ?_, hm', ⟨hm'.isHeap, hm'.n_le, hdone⟩, ?_⟩
    · rw [step, h, Option.map_some]
    · cases done <;> exact (add_zero _).trans hcontents
  | removemin =>
    obtain ⟨m', it, h, hm', hnone, hmin, hcontents⟩ := removemin_spec hc hm
    refine ⟨m', ⟨m, .removemin, .removed it, m'⟩, ?_, hm', ⟨hm'.isHeap, hm'.n_le, ?_⟩, ?_⟩
    · rw [step, h, Option.map_some]
    · cases it with
      | none => exact hnone rfl
      | some x => exact hmin x rfl
    · cases it <;> exact hcontents.trans (add_zero _).symm

theorem run_spec {c : Comp α} (hc : c.Consistent) {m : Minheap α} (hm : Inv c m)
    (ops : List (Op α)) :
    ∃ m' evs, Run.run (step c) m ops = some (m', evs) ∧ Inv c m' ∧ (∀ e ∈ evs, e.Good c) ∧
      contents m' + (evs.map Event.removed).sum = contents m + (evs.map Event.inserted).sum := by
  induction ops generalizing m with
  | nil => exact ⟨m, [], rfl, hm, nofun, rfl⟩
  | cons op ops ih =>
    obtain ⟨m₁, e, h₁, hm₁, hgood, hc₁⟩ := step_spec hc hm op
    obtain ⟨m₂, evs, h₂, hm₂, hall, hc₂⟩ := ih hm₁
    refine ⟨m₂, e :: evs, ?_, hm₂, List.forall_mem_cons.mpr ⟨hgood, hall⟩, ?_⟩
    · simp only [Run.run, h₁, h₂, Option.bind_some, Option.map_some]
    · -- what the rest conserves, shifted by what the first call took out and put in
      calc contents m₂ + ((e :: evs).map Event.removed).sum
          = (contents m₂ + (evs.map Event.removed).sum) + e.removed := by
            rw [List.map_cons, List.sum_cons, add_comm e.removed, add_assoc]
        _ = (contents m₁ + e.removed) + (evs.map Event.inserted).sum := by
            rw [hc₂, add_right_comm]
        _ = contents m + ((e :: evs).map Event.inserted).sum := by
            rw [hc₁, List.map_cons, List.sum_cons, add_assoc]

/-- A heap built over any array and driven by any calls stays a heap within its bounds, loses and
invents no element, refuses an insertion exactly when it is full and always removes a least
element. -/
theorem minheap_run {c : Comp α} (hc : c.Consistent) {h : Block α} {num max : Nat}
    (hnum : num ≤ max) (hmax : max ≤ h.len) (ops : List (Op α)) :
    ∃ m₀ m evs, minheap c h num max = some m₀ ∧ Run.run (step c) m₀ ops = some (m, evs) ∧
      IsHeap c m ∧ m.n ≤ m.size ∧ (∀ e ∈ evs, e.Good c) ∧
      contents m + (evs.map Event.removed).sum =
        elems h.cells num + (evs.map Event.inserted).sum := by
  obtain ⟨m₀, h₀, hm₀, hc₀⟩ := minheap_spec hc hnum hmax
  obtain ⟨m, evs, hrun, hm, hall, hcontents⟩ := run_spec hc hm₀ ops
  exact ⟨m₀, m, evs, h₀, hrun, hm.isHeap, hm.n_le, hall, hc₀ ▸ hcontents⟩

def natComp : Comp Nat where
  lt a b := decide (a < b)
  gt a b := decide (a > b)

theorem natComp_consistent : natComp.Consistent where
  total a b := by
    simp only [natComp, decide_eq_false_iff_not]
    omega
  trans a b d := by
    simp only [natComp, decide_eq_false_iff_not]
    omega
  lt_eq _ _ := rfl

theorem minheap_run_five : ∃ m₀ m evs,
    minheap natComp ⟨5, fun i => 5 - i⟩ 4 5 = some m₀ ∧
      Run.run (step natComp) m₀ [.removemin, .insert 1, .insert 1] = some (m, evs) ∧
      IsHeap natComp m ∧ m.n ≤ m.size ∧ (∀ e ∈ evs, e.Good natComp) ∧
      contents m + (evs.map Event.removed).sum =
        elems (fun i => 5 - i) 4 + (evs.map Event.inserted).sum :=
  minheap_run natComp_consistent (by decide) (Nat.le_refl 5) _

end PortableLib.MinHeap
