import PortableLib.MinHeap

/-! `remove` of the heap of `utils/minheap.h`. -/

namespace PortableLib.MinHeap
open HeapOrder

variable {α : Type} {c : Comp α} {m : Minheap α} {pos : Nat}

/-- The loop of `remove` that is to push the element up; the position is never changed in it. -/
@[simp] def pushUp (c : Comp α) : Nat → Block α → Nat → Option (Block α)
  | 0, _, _ => none
  | fuel + 1, h, pos =>
    if pos = 0 then some h
    else do
      let a ← h.read pos
      let b ← h.read (parent pos)
      if c.lt a b then
        let h ← h.swap pos (parent pos)
        pushUp c fuel h pos
      else return h

/-- `remove`; the element is what the reference argument `it` is set to. -/
def remove (c : Comp α) (fuel : Nat) (m : Minheap α) (pos : Int) :
    Option (Minheap α × Option α) :=
  if pos < 0 ∨ pos ≥ m.n then some (m, none)
  else do
    let pos := pos.toNat
    let heap ← m.heap.swap pos (m.n - 1)
    let m := { m with heap := heap, n := m.n - 1 }
    let heap ← pushUp c fuel m.heap pos
    let m ← siftdown c fuel { m with heap := heap } pos
    let it ← m.heap.read m.n
    return (m, some it)

def Minheap.clip (m : Minheap α) : Minheap α := { m with heap := { m.heap with len := m.n } }

/-- The element at `pos` is handed out, and the others make up the heap that is left. -/
structure Removes (c : Comp α) (m : Minheap α) (pos : Nat) (r : Minheap α × Option α) : Prop where
  it_eq : r.2 = some (m.heap.cells pos)
  n_eq : r.1.n + 1 = m.n
  contents_eq : m.heap.cells pos ::ₘ contents r.1 = contents m
  isHeap : IsHeap c r.1

section pushUp
variable {fuel : Nat} {h : Block α}

theorem pushUp_done (hlen : pos < h.len)
    (hle : 0 < pos → c.lt (h.cells pos) (h.cells (parent pos)) = false) :
    pushUp c (fuel + 1) h pos = some h := by
  rcases Nat.eq_zero_or_pos pos with rfl | hpos
  · rfl
  · rw [pushUp, if_neg hpos.ne']
    simp only [Block.read_of_lt hlen, Block.read_of_lt ((parent_lt hpos).trans hlen), hle hpos,
      Option.bind_eq_bind, Option.bind_some]
    rfl

theorem pushUp_once (hc : c.Consistent) (hlen : pos < h.len) (hpos : 0 < pos)
    (hlt : c.lt (h.cells pos) (h.cells (parent pos)) = true) :
    pushUp c (fuel + 2) h pos =
      some { h with cells := h.cells ∘ Equiv.swap pos (parent pos) } := by
  have hp := (parent_lt hpos).trans hlen
  rw [pushUp, if_neg hpos.ne']
  simp only [Block.read_of_lt hlen, Block.read_of_lt hp, Block.swap_of_lt hlen hp, hlt,
    Option.bind_eq_bind, Option.bind_some, if_true]
  refine pushUp_done hlen fun _ => ?_
  dsimp only
  rw [swap_apply_pos, swap_apply_child, hc.lt_eq]
  exact hc.le_of_gt (hc.lt_eq _ _ ▸ hlt)

end pushUp

theorem siftdown_done (hc : c.Consistent) {fuel : Nat} (hlen : m.n ≤ m.heap.len) (hpos : pos < m.n)
    (hch : ∀ i, 0 < i → i < m.n → parent i = pos → c.Le (m.heap.cells pos) (m.heap.cells i)) :
    siftdown c (fuel + 1) m pos = some m := by
  by_cases hleaf : pos ≥ m.n / 2
  · have hstop : isLeaf m pos = true := decide_eq_true ⟨hleaf, hpos⟩
    rw [siftdown, if_pos hstop]
  · obtain ⟨j, hchild, hj, hjn, hpj, -⟩ := lesserChild_spec hc hlen (Nat.not_le.mp hleaf)
    have hle : c.gt (m.heap.cells pos) (m.heap.cells j) = false := hch j hj hjn hpj
    have hgo : ¬isLeaf m pos = true := fun h => hleaf (of_decide_eq_true h).1
    rw [siftdown, if_neg hgo]
    simp only [hchild, Block.read_of_lt (hpos.trans_le hlen), Block.read_of_lt (hjn.trans_le hlen),
      hle, Option.bind_eq_bind, Option.bind_some, Bool.not_false, if_true]
    rfl

theorem siftdown_end {fuel : Nat} (hlen : m.heap.len = m.n + 1) : siftdown c fuel m m.n = none := by
  cases fuel with
  | zero => rfl
  | succ fuel =>
    have hchild : lesserChild c m m.n = some (leftchild m.n) := by
      refine if_neg ?_
      unfold rightchild
      omega
    have hread : m.heap.read (leftchild m.n) = none := by
      refine if_neg ?_
      unfold leftchild
      omega
    have hgo : ¬isLeaf m m.n = true := fun h => (of_decide_eq_true h).2.false
    have hlt : m.n < m.heap.len := hlen.symm ▸ Nat.lt_succ_self m.n
    rw [siftdown, if_neg hgo]
    simp only [hchild, Block.read_of_lt hlt, hread, Option.bind_eq_bind,
      Option.bind_some, Option.bind_none]

section remove
variable {k fuel : Nat}

def replaced (m : Minheap α) (pos k : Nat) : Minheap α :=
  ⟨⟨k + 1, m.heap.cells ∘ Equiv.swap pos k⟩, m.size, k⟩

theorem replaced_lt (hc : c.Consistent) (h0 : 0 < pos) (hpos : pos < k) :
    c.lt ((replaced m pos k).heap.cells pos) ((replaced m pos k).heap.cells (parent pos)) =
      c.gt (m.heap.cells (parent pos)) (m.heap.cells k) := by
  have hp := parent_lt h0
  have hmoved : (replaced m pos k).heap.cells pos = m.heap.cells k := swap_apply_pos pos k
  have hold : (replaced m pos k).heap.cells (parent pos) = m.heap.cells (parent pos) :=
    swap_apply_other hp.ne (hp.trans hpos).ne
  rw [hmoved, hold, hc.lt_eq]

theorem remove_eq (hk : m.n = k + 1) (hpos : pos ≤ k) :
    remove c fuel m.clip pos =
      (pushUp c fuel (replaced m pos k).heap pos).bind fun h =>
        (siftdown c fuel { replaced m pos k with heap := h } pos).bind fun m =>
          (m.heap.read m.n).bind fun it => some (m, some it) := by
  have hlt : ¬ ((pos : Int) < 0 ∨ (pos : Int) ≥ m.clip.n) := by
    change ¬ ((pos : Int) < 0 ∨ (pos : Int) ≥ m.n)
    omega
  have hswap : m.clip.heap.swap pos k = some (replaced m pos k).heap := by
    change Block.swap ⟨m.n, m.heap.cells⟩ pos k = _
    rw [hk, Block.swap_of_lt (Nat.lt_succ_of_le hpos) (Nat.lt_succ_self k)]
    rfl
  have hn : m.clip.n - 1 = k := by
    change m.n - 1 = k
    rw [hk, Nat.add_sub_cancel]
  rw [remove, if_neg hlt]
  simp only [Int.toNat_natCast, hn, hswap, Option.bind_eq_bind, Option.bind_some]
  rfl

theorem remove_last (hc : c.Consistent) (hm : IsHeap c m) (hk : m.n = k + 1) :
    remove c fuel m.clip k = none := by
  rw [remove_eq hk (Nat.le_refl k)]
  cases fuel with
  | zero => rfl
  | succ fuel =>
    have hself : (replaced m k k).heap = ⟨k + 1, m.heap.cells⟩ := by
      rw [replaced, Equiv.swap_self]
      rfl
    have hup : pushUp c (fuel + 1) (replaced m k k).heap k = some (replaced m k k).heap := by
      refine pushUp_done (Nat.lt_succ_self k) fun hpos => ?_
      rw [hself, hc.lt_eq]
      exact isHeap_iff_ordered.mp hm k hpos (hk ▸ Nat.lt_succ_self k) (Nat.zero_le _)
    rw [hup, Option.bind_some]
    exact congrArg (Option.bind · _) (@siftdown_end _ c (replaced m k k) (fuel + 1) rfl)

theorem remove_in_order (hc : c.Consistent) (hm : IsHeap c m) (hk : m.n = k + 1) (hpos : pos < k)
    (hpar : 0 < pos → c.Le (m.heap.cells (parent pos)) (m.heap.cells k)) :
    ∃ r, remove c (k + 1) m.clip pos = some r ∧ Removes c m pos r := by
  have := hc.isTrans
  have ho : Ordered c.Le m.heap.cells (k + 1) 0 := hk ▸ isHeap_iff_ordered.mp hm
  have hup : pushUp c (k + 1) (replaced m pos k).heap pos = some (replaced m pos k).heap := by
    refine pushUp_done (Nat.lt_succ_of_lt hpos) fun h0 => ?_
    rw [replaced_lt hc h0 hpos]
    exact hpar h0
  obtain ⟨m', hm', hre, ho'⟩ := @siftdown_spec _ _ hc (k + 1) 0 pos (replaced m pos k)
    (Nat.le_succ k) hpos (Nat.le_trans (Nat.le_succ k) (Nat.le_add_left _ _)) (Nat.zero_le _)
    (ho.replace hpos hpar)
  have hread : m'.heap.read m'.n = some (m.heap.cells pos) := by
    have hlast := hre.beyond k (Nat.le_refl k)
    rw [hre.n_eq, Block.read_of_lt (hre.len_eq ▸ Nat.lt_succ_self k)]
    exact congrArg some (hlast.trans (swap_apply_child pos k))
  refine ⟨(m', some (m.heap.cells pos)), ?_, rfl, ?_, ?_, isHeap_iff_ordered.mpr ho'⟩
  · rw [remove_eq hk hpos.le, hup, Option.bind_some, hm', Option.bind_some, hread]
    rfl
  · rw [hre.n_eq]
    exact hk.symm
  · rw [hre.contents_eq, contents, contents, hk]
    exact cons_elems_swap hpos.le

theorem remove_pushed (hc : c.Consistent) (hm : IsHeap c m) (hk : m.n = k + 1) (h0 : 0 < pos)
    (hpos : pos < k) (hpar : c.gt (m.heap.cells (parent pos)) (m.heap.cells k) = true) :
    remove c (fuel + 2) m.clip pos =
      some (swapped (replaced m pos k) pos (parent pos), some (m.heap.cells pos)) := by
  have := hc.isTrans
  have ho : Ordered c.Le m.heap.cells (k + 1) 0 := hk ▸ isHeap_iff_ordered.mp hm
  have hp := parent_lt h0
  have hup := @pushUp_once _ c _ fuel (replaced m pos k).heap hc (Nat.lt_succ_of_lt hpos) h0
    ((replaced_lt hc h0 hpos).trans hpar)
  have hdown := @siftdown_done _ c (swapped (replaced m pos k) pos (parent pos)) pos hc (fuel + 1)
    (Nat.le_succ k) hpos fun i hi hik hpi => ho.replaceParent_children h0 hpos hi hik hpi
  have hread : (swapped (replaced m pos k) pos (parent pos)).heap.read k =
      some (m.heap.cells pos) := by
    refine (Block.read_of_lt (Nat.lt_succ_self k)).trans (congrArg some ?_)
    exact (swap_apply_other hpos.ne' (hp.trans hpos).ne').trans (swap_apply_child pos k)
  rw [remove_eq hk hpos.le, hup, Option.bind_some]
  exact (congrArg (Option.bind · _) hdown).trans (congrArg (Option.bind · _) hread)

theorem remove_short (hc : c.Consistent) (hk : m.n = k + 1) (h0 : 0 < pos) (hpos : pos < k)
    (hpar : c.gt (m.heap.cells (parent pos)) (m.heap.cells k) = true) (hfuel : fuel < 2) :
    remove c fuel m.clip pos = none := by
  have hlen : pos < (replaced m pos k).heap.len := Nat.lt_succ_of_lt hpos
  have hp := (parent_lt h0).trans hlen
  have hup : pushUp c fuel (replaced m pos k).heap pos = none := by
    rcases fuel with - | - | fuel
    · rfl
    · rw [pushUp, if_neg h0.ne']
      simp only [Block.read_of_lt hlen, Block.read_of_lt hp, Block.swap_of_lt hlen hp,
        (replaced_lt hc h0 hpos).trans hpar, Option.bind_eq_bind, Option.bind_some, if_true]
      rfl
    · omega
  rw [remove_eq hk hpos.le, hup, Option.bind_none]

theorem remove_pushed_iff (hc : c.Consistent) (hm : IsHeap c m) (hk : m.n = k + 1) (h0 : 0 < pos)
    (hpos : pos < k) (hpar : c.gt (m.heap.cells (parent pos)) (m.heap.cells k) = true) :
    (∃ fuel r, remove c fuel m.clip pos = some r ∧ Removes c m pos r) ↔
      (0 < parent pos → c.Le (m.heap.cells (parent (parent pos))) (m.heap.cells k)) := by
  have := hc.isTrans
  have ho : Ordered c.Le m.heap.cells (k + 1) 0 := hk ▸ isHeap_iff_ordered.mp hm
  have hheap : IsHeap c (swapped (replaced m pos k) pos (parent pos)) ↔
      (0 < parent pos → c.Le (m.heap.cells (parent (parent pos))) (m.heap.cells k)) :=
    isHeap_iff_ordered.trans (ho.replaceParent_iff h0 hpos (hc.le_of_gt hpar))
  rw [← hheap]
  constructor
  · rintro ⟨fuel, r, hr, hrem⟩
    rcases Nat.lt_or_ge fuel 2 with hfuel | hfuel
    · rw [remove_short hc hk h0 hpos hpar hfuel] at hr
      cases hr
    · obtain ⟨f, rfl⟩ := Nat.exists_eq_add_of_le' hfuel
      rw [remove_pushed hc hm hk h0 hpos hpar] at hr
      obtain rfl := Option.some.inj hr
      exact hrem.isHeap
  · intro hh
    refine ⟨2, _, remove_pushed hc hm hk h0 hpos hpar, rfl, hk.symm, ?_, hh⟩
    have hre := @rearranged_swapped _ (replaced m pos k) _ _ hpos ((parent_lt h0).trans hpos)
    rw [hre.contents_eq, contents, contents, hk]
    exact cons_elems_swap hpos.le

end remove

/-- `remove` does what it is for exactly if the element is not the last one and the last one is not
less than the grandparent of the one it replaces. -/
theorem remove_correct_iff (hc : c.Consistent) (hm : IsHeap c m) (hpos : pos < m.n) :
    (∃ fuel r, remove c fuel m.clip pos = some r ∧ Removes c m pos r) ↔
      pos + 1 < m.n ∧
        (parent pos = 0 ∨ c.Le (m.heap.cells (parent (parent pos))) (m.heap.cells (m.n - 1))) := by
  obtain ⟨k, hk⟩ : ∃ k, m.n = k + 1 := Nat.exists_eq_succ_of_ne_zero (Nat.ne_zero_of_lt hpos)
  have ho := isHeap_iff_ordered.mp hm
  rw [hk] at hpos ho ⊢
  rw [Nat.add_sub_cancel, Nat.add_lt_add_iff_right, or_iff_not_imp_left, ← ne_eq,
    ← Nat.pos_iff_ne_zero]
  rcases Nat.lt_or_eq_of_le (Nat.le_of_lt_succ hpos) with hlt | rfl
  · rw [and_iff_right hlt]
    by_cases hpar : 0 < pos ∧ c.gt (m.heap.cells (parent pos)) (m.heap.cells k) = true
    · exact remove_pushed_iff hc hm hk hpar.1 hlt hpar.2
    · have hle : 0 < pos → c.Le (m.heap.cells (parent pos)) (m.heap.cells k) :=
        fun h0 => Bool.eq_false_iff.mpr fun hgt => hpar ⟨h0, hgt⟩
      refine iff_of_true ⟨k + 1, remove_in_order hc hm hk hlt hle⟩ fun hp => ?_
      have h0 : 0 < pos := by
        unfold parent at hp
        omega
      have hgrand := ho _ hp ((parent_lt h0).trans hpos) (Nat.zero_le _)
      exact hc.trans _ _ _ hgrand (hle h0)
  · refine iff_of_false ?_ fun h => h.1.false
    rintro ⟨fuel, r, hr, -⟩
    rw [remove_last hc hm hk] at hr
    cases hr

def fitting : Minheap Nat := ⟨⟨8, fun i => [1, 2, 3, 4, 5, 6, 7, 4].getD i 0⟩, 8, 8⟩

def unfitting : Minheap Nat :=
  ⟨⟨12, fun i => [1, 10, 2, 11, 12, 3, 4, 20, 21, 22, 23, 5].getD i 0⟩, 12, 12⟩

theorem fitting_isHeap : IsHeap natComp fitting := by
  refine isHeap_iff_ordered.mpr fun i hi hin _ => ?_
  have hall : ∀ i < 8, 0 < i →
      natComp.gt (fitting.heap.cells (parent i)) (fitting.heap.cells i) = false := by decide
  exact hall i hin hi

theorem unfitting_isHeap : IsHeap natComp unfitting := by
  refine isHeap_iff_ordered.mpr fun i hi hin _ => ?_
  have hall : ∀ i < 12, 0 < i →
      natComp.gt (unfitting.heap.cells (parent i)) (unfitting.heap.cells i) = false := by decide
  exact hall i hin hi

theorem remove_correct_iff_fitting :
    (∃ fuel r, remove natComp fuel fitting.clip 3 = some r ∧ Removes natComp fitting 3 r) ↔
      3 + 1 < fitting.n ∧
        (parent 3 = 0 ∨ natComp.Le (fitting.heap.cells (parent (parent 3)))
          (fitting.heap.cells (fitting.n - 1))) :=
  remove_correct_iff natComp_consistent fitting_isHeap (by decide)

/-- The 5 that takes the place of the 20 is pushed up below the 11 only, not below the 10. -/
theorem remove_leaves_disorder :
    ¬ ∀ (m : Minheap Nat) (pos : Nat), IsHeap natComp m → pos < m.n →
      ∃ fuel r, remove natComp fuel m.clip pos = some r ∧ Removes natComp m pos r := by
  intro hall
  have hrem := hall unfitting 7 unfitting_isHeap (by decide)
  have hle := (@remove_pushed_iff _ natComp unfitting 7 11 natComp_consistent unfitting_isHeap rfl
    (by decide) (by decide) (by decide)).mp hrem (by decide)
  unfold Comp.Le at hle
  exact absurd hle (by decide)

end PortableLib.MinHeap
