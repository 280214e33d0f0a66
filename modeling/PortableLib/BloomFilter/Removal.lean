import PortableLib.BloomFilter.Counting

/-! Removing a value that the counting filter does not have. `counting_bloom_remove` lowers every
non-zero cell of the value without asking first whether all of them are, and takes the value off
the element count in any case. -/

namespace PortableLib.BloomFilter
open List

section Remove
variable {b : Bloom} {bm : List UInt8} {js : List Nat}

theorem lowered_eq_self_iff (x : UInt8) : lowered x = x ↔ x = 0 := by
  constructor
  · intro h
    have hnat := toNat_lowered x
    rw [h] at hnat
    have hzero : x.toNat = 0 := by omega
    exact UInt8.toNat_inj.mp hzero
  · rintro rfl
    rfl

theorem removeCell_of_lt {r : Bool} {j : Nat} (hj : j < bm.length) :
    removeCell (bm, r) j = some (bm.set j (lowered bm[j]), r || bm[j] != 0) := by
  rw [removeCell, getElem?_eq_getElem hj, Option.map_some]
  by_cases hx : bm[j] = 0
  · rw [if_neg (not_not.mpr hx), lowered, if_neg (not_not.mpr hx), set_getElem_self, hx]
    simp
  · rw [if_pos hx, lowered, if_pos hx, bne_iff_ne.mpr hx, Bool.or_true]

theorem foldlM_removeCell_snd {r : Bool} (hnd : js.Nodup) (hlt : ∀ j ∈ js, j < bm.length) :
    ∃ bm', js.foldlM removeCell (bm, r) = some (bm', r || js.any (bm[·]? != some 0)) := by
  induction js generalizing bm r with
  | nil => exact ⟨bm, by rw [any_nil, Bool.or_false]; rfl⟩
  | cons j js ih =>
    rw [nodup_cons] at hnd
    have hj := hlt j mem_cons_self
    have hlt' : ∀ i ∈ js, i < (bm.set j (lowered bm[j])).length := by
      intro i hi
      rw [length_set]
      exact hlt i (mem_cons_of_mem j hi)
    obtain ⟨bm', h⟩ := ih (r := r || bm[j] != 0) hnd.2 hlt'
    refine ⟨bm', ?_⟩
    have hrest : js.any ((bm.set j (lowered bm[j]))[·]? != some 0) = js.any (bm[·]? != some 0) := by
      rw [Bool.eq_iff_iff, any_eq_true, any_eq_true]
      refine exists_congr fun i => and_congr_right fun hi => ?_
      rw [getElem?_set_ne fun hji : j = i => hnd.1 (hji ▸ hi)]
    rw [foldlM_cons, removeCell_of_lt hj, Option.bind_eq_bind, Option.bind_some, h, hrest, any_cons,
      getElem?_eq_getElem hj, Bool.or_assoc]
    rfl

theorem countingBloomRemove_eq (hb : b.Cells) (v : UInt64) :
    ∃ bm, countingBloomRemove b v =
        some (b.withCells bm (b.size - 1), (touched b v).any (b.bitmap[·]? != some 0)) ∧
      bm.length = b.bitmap.length ∧
      ∀ c, bm[c]? = if c ∈ touched b v then b.bitmap[c]?.map lowered else b.bitmap[c]? := by
  have hlt : ∀ j ∈ touched b v, j < b.bitmap.length :=
    fun j hj => (touched_lt hb hj).trans_eq hb.len.symm
  obtain ⟨bm, hloop⟩ := foldlM_removeCell_snd (r := false) (touched_nodup (v := v) hb) hlt
  obtain ⟨bm', hcells, hlen, hcell⟩ := foldlM_updateCell lowered (touched_nodup (v := v) hb) hlt
  have hfst : ((touched b v).foldlM removeCell (b.bitmap, false)).map Prod.fst =
      (touched b v).foldlM (updateCell lowered) b.bitmap := foldlM_removeCell_fst _
  rw [hloop, hcells] at hfst
  obtain rfl := Option.some.inj hfst
  refine ⟨bm, ?_, hlen, hcell⟩
  rw [touched, foldlM_map, Bool.false_or] at hloop
  unfold countingBloomRemove
  rw [hloop]
  rfl

theorem remove_cells_iff (hb : b.Cells) {v : UInt64} (hlen : bm.length = b.bitmap.length)
    (hcell : ∀ c, bm[c]? = if c ∈ touched b v then b.bitmap[c]?.map lowered else b.bitmap[c]?) :
    bm = b.bitmap ↔ ∀ c ∈ touched b v, b.bitmap[c]? = some 0 := by
  constructor
  · rintro rfl c hc
    have hlt := (touched_lt hb hc).trans_eq hb.len.symm
    have h := hcell c
    rw [if_pos hc, getElem?_eq_getElem hlt, Option.map_some, Option.some_inj] at h
    rw [getElem?_eq_getElem hlt, (lowered_eq_self_iff _).mp h.symm]
  · intro hzero
    refine ext_getElem? fun c => ?_
    rw [hcell]
    split_ifs with hc
    · rw [hzero c hc]
      rfl
    · rfl

end Remove

theorem sub_one_ne_self (n : UInt64) : n - 1 ≠ n := by
  intro h
  have hnat := congrArg UInt64.toNat h
  rw [UInt64.toNat_sub, UInt64.toNat_one] at hnat
  have hlt := n.toNat_lt
  omega

theorem countingRun_withCells {l : Level} (hl : l.Fits) (ops : List CountingOp) :
    ∃ bm sz, countingRun (countingBloomInit l) ops =
        some ((countingBloomInit l).withCells bm sz) ∧
      bm.length = (countingBloomInit l).bitmap.length := by
  have hcells := countingBloomInit_cells hl
  induction ops using List.reverseRecOn with
  | nil => exact ⟨_, _, rfl, rfl⟩
  | append_singleton ops op ih =>
    obtain ⟨bm, sz, hrun, hlen⟩ := ih
    rw [countingRun_append, hrun, Option.bind_some]
    cases op with
    | probe v =>
      obtain ⟨bm', hstep, hlen', -⟩ := countingBloomProbe_spec hcells hlen v sz
      exact ⟨bm', _, hstep, hlen'⟩
    | remove v =>
      obtain ⟨bm', hstep, hlen', -⟩ := countingBloomRemove_spec hcells hlen v sz
      exact ⟨bm', _, hstep, hlen'⟩

theorem Bloom.Cells.withCells {b : Bloom} (hb : b.Cells) {bm : List UInt8}
    (hlen : bm.length = b.bitmap.length) (sz : UInt64) : (b.withCells bm sz).Cells :=
  ⟨hb.m_pos, hb.bits, hlen.trans hb.len⟩

/-- Removing an absent value is never without effect: the element count goes down. The answer is
`false` and the cells stay as they are exactly if the value shares no cell with another one. -/
theorem counting_remove_absent (l : Level) (hl : l.Fits) (ops : List CountingOp) :
    ∃ b, countingRun (countingBloomInit l) ops = some b ∧
      ∀ v, countingBloomFind b v = some false →
        countingBloomRemove b v ≠ some (b, false) ∧
        ∃ b' r, countingBloomRemove b v = some (b', r) ∧ b'.size = b.size - 1 ∧
          (r = false ↔ ∀ c ∈ touched b v, b.bitmap[c]? = some 0) ∧
          (b'.bitmap = b.bitmap ↔ ∀ c ∈ touched b v, b.bitmap[c]? = some 0) := by
  obtain ⟨bm, sz, hrun, hlen⟩ := countingRun_withCells hl ops
  refine ⟨_, hrun, fun v _ => ?_⟩
  have hb := (countingBloomInit_cells hl).withCells hlen sz
  obtain ⟨bm', hremove, hlen', hcell⟩ := countingBloomRemove_eq hb v
  rw [hremove]
  refine ⟨?_, _, _, rfl, rfl, ?_, remove_cells_iff hb hlen' hcell⟩
  · intro h
    have hsize := congrArg (fun p : Bloom × Bool => p.1.size) (Option.some.inj h)
    exact sub_one_ne_self _ hsize
  · rw [any_eq_false]
    simp only [bne_iff_ne, ne_eq, not_not]

theorem counting_remove_absent_nine :
    ∃ b, countingRun (countingBloomInit ⟨2, 6, 7, 0⟩) [.probe 5] = some b ∧
      countingBloomRemove b 9 ≠ some (b, false) := by
  obtain ⟨b, hrun, h⟩ := counting_remove_absent ⟨2, 6, 7, 0⟩ (by decide) [.probe 5]
  have hb : countingRun (countingBloomInit ⟨2, 6, 7, 0⟩) [.probe 5] =
      some ((countingBloomInit ⟨2, 6, 7, 0⟩).withCells [0, 1, 0, 0, 1, 0] 1) := by decide
  obtain rfl := Option.some.inj (hrun.symm.trans hb)
  exact ⟨_, hrun, (h 9 (by decide)).1⟩

/-- After removing 9, which was never there, 5 is not found any more. -/
theorem counting_remove_absent_loses :
    ∃ b b', countingRun (countingBloomInit ⟨2, 6, 7, 0⟩) [.probe 5] = some b ∧
      countingBloomFind b 9 = some false ∧ countingBloomFind b 5 = some true ∧
      countingBloomRemove b 9 = some (b', true) ∧ b'.bitmap ≠ b.bitmap ∧ b'.size ≠ b.size ∧
      countingBloomFind b' 5 = some false := by
  refine ⟨(countingBloomInit ⟨2, 6, 7, 0⟩).withCells [0, 1, 0, 0, 1, 0] 1,
    (countingBloomInit ⟨2, 6, 7, 0⟩).withCells [0, 0, 0, 0, 1, 0] 0, ?_, ?_, ?_, ?_, ?_, ?_, ?_⟩ <;>
    decide

end PortableLib.BloomFilter
