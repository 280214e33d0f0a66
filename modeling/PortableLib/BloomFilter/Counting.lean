import Mathlib.Data.List.Induction
import Mathlib.Data.List.Nodup
import PortableLib.BloomFilter.Membership

/-! The counting filter of `bloom.c`: one cell of eight bits for each slot. A cell holds the
number of probes that landed on it and were not undone by a remove, as long as this number fits,
and a value is lost exactly when one more probe makes a full cell start again at zero. -/

namespace PortableLib.BloomFilter
open List

def countingBloomInit (l : Level) : Bloom :=
  let bytes := l.msub * l.k
  { m := l.msub, k := l.k, salt := l.salt, bitmap := replicate bytes.toNat 0, size := l.size,
    bmsize := bytes }

def updateCell (f : UInt8 → UInt8) (bm : List UInt8) (j : Nat) : Option (List UInt8) :=
  bm[j]?.map fun x => bm.set j (f x)

def countingBloomProbe (b : Bloom) (val : UInt64) : Option Bloom :=
  ((partitions b).foldlM (fun bm i => updateCell (· + 1) bm (slot b val i).toNat) b.bitmap).map
    fun bm => { b with bitmap := bm, size := b.size + 1 }

/-- One round of the loop of `counting_bloom_remove`, on the cells and on `r`. -/
def removeCell (s : List UInt8 × Bool) (j : Nat) : Option (List UInt8 × Bool) :=
  s.1[j]?.map fun x => if x ≠ 0 then (s.1.set j (x - 1), true) else s

def countingBloomRemove (b : Bloom) (val : UInt64) : Option (Bloom × Bool) :=
  ((partitions b).foldlM (fun s i => removeCell s (slot b val i).toNat) (b.bitmap, false)).map
    fun s => ({ b with bitmap := s.1, size := b.size - 1 }, s.2)

/-- The loop of `counting_bloom_find`, which stops at the first empty cell. -/
def countingFindIn (b : Bloom) (val : UInt64) : List UInt64 → Option Bool
  | [] => some true
  | i :: is => b.bitmap[(slot b val i).toNat]?.bind fun x =>
      if x = 0 then some false else countingFindIn b val is

def countingBloomFind (b : Bloom) (val : UInt64) : Option Bool :=
  countingFindIn b val (partitions b)

inductive CountingOp where
  | probe (v : UInt64)
  | remove (v : UInt64)
  deriving DecidableEq, Repr

def countingStep (b : Bloom) : CountingOp → Option Bloom
  | .probe v => countingBloomProbe b v
  | .remove v => (countingBloomRemove b v).map Prod.fst

def countingRun (b : Bloom) (ops : List CountingOp) : Option Bloom := ops.foldlM countingStep b

def touched (b : Bloom) (v : UInt64) : List Nat := (partitions b).map fun i => (slot b v i).toNat

section Operation
variable {b : Bloom} {v : UInt64} {bm : List UInt8} {js : List Nat}

structure Bloom.Cells (b : Bloom) : Prop where
  m_pos : 0 < b.m.toNat
  bits : b.m.toNat * b.k.toNat < 2 ^ 64
  len : b.bitmap.length = b.m.toNat * b.k.toNat

theorem touched_lt (hb : b.Cells) {c : Nat} (h : c ∈ touched b v) :
    c < b.m.toNat * b.k.toNat := by
  obtain ⟨i, hi, rfl⟩ := mem_map.mp h
  exact slot_lt hb.m_pos v (lt_of_mem_partitions hi)

theorem partitions_nodup (b : Bloom) : (partitions b).Nodup := by
  refine Nodup.map_on ?_ nodup_range
  intro i hi j hj h
  rw [mem_range] at hi hj
  have h' := congrArg UInt64.toNat h
  rwa [UInt64.toNat_ofNat_of_lt' (hi.trans b.k.toNat_lt),
    UInt64.toNat_ofNat_of_lt' (hj.trans b.k.toNat_lt)] at h'

theorem touched_nodup (hb : b.Cells) : (touched b v).Nodup := by
  refine Nodup.map_on ?_ (partitions_nodup b)
  intro i hi j hj h
  obtain ⟨r, hr, hi'⟩ := toNat_slot hb.m_pos hb.bits v (lt_of_mem_partitions hi)
  obtain ⟨s, hs, hj'⟩ := toNat_slot hb.m_pos hb.bits v (lt_of_mem_partitions hj)
  rw [hi', hj'] at h
  have hdiv := congrArg (· / b.m.toNat) h
  simp only [Nat.add_mul_div_left _ _ hb.m_pos, Nat.div_eq_of_lt hr, Nat.div_eq_of_lt hs,
    Nat.zero_add] at hdiv
  exact UInt64.toNat_inj.mp hdiv

theorem updateCell_of_lt (f : UInt8 → UInt8) {j : Nat} (hj : j < bm.length) :
    updateCell f bm j = some (bm.set j (f bm[j])) := by
  rw [updateCell, getElem?_eq_getElem hj, Option.map_some]

theorem foldlM_updateCell (f : UInt8 → UInt8) (hnd : js.Nodup) (hlt : ∀ j ∈ js, j < bm.length) :
    ∃ bm', js.foldlM (updateCell f) bm = some bm' ∧ bm'.length = bm.length ∧
      ∀ c, bm'[c]? = if c ∈ js then bm[c]?.map f else bm[c]? := by
  induction js generalizing bm with
  | nil => exact ⟨bm, rfl, rfl, fun c => by rw [if_neg not_mem_nil]⟩
  | cons j js ih =>
    rw [nodup_cons] at hnd
    have hj := hlt j mem_cons_self
    have hlt' : ∀ i ∈ js, i < (bm.set j (f bm[j])).length := by
      intro i hi
      rw [length_set]
      exact hlt i (mem_cons_of_mem j hi)
    obtain ⟨bm', h, hlen, hcell⟩ := ih hnd.2 hlt'
    refine ⟨bm', ?_, hlen.trans length_set, fun c => ?_⟩
    · rw [foldlM_cons, updateCell_of_lt f hj]
      exact h
    · rw [hcell, getElem?_set]
      by_cases hc : j = c
      · subst hc
        rw [if_neg hnd.1, if_pos rfl, if_pos hj, if_pos mem_cons_self, getElem?_eq_getElem hj,
          Option.map_some]
      · have hmem : c ∈ j :: js ↔ c ∈ js := by rw [mem_cons, or_iff_right (Ne.symm hc)]
        simp only [if_neg hc, hmem]

def Bloom.withCells (b : Bloom) (bm : List UInt8) (sz : UInt64) : Bloom :=
  { b with bitmap := bm, size := sz }

theorem countingBloomProbe_spec (hb : b.Cells) (hlen : bm.length = b.bitmap.length)
    (v sz : UInt64) :
    ∃ bm', countingBloomProbe (b.withCells bm sz) v = some (b.withCells bm' (sz + 1)) ∧
      bm'.length = b.bitmap.length ∧
      ∀ c, bm'[c]? = if c ∈ touched b v then bm[c]?.map (· + 1) else bm[c]? := by
  obtain ⟨bm', h, hlen', hcell⟩ := foldlM_updateCell (· + 1)
    (touched_nodup (v := v) hb) fun j hj => (touched_lt hb hj).trans_eq (hlen.trans hb.len).symm
  refine ⟨bm', ?_, hlen'.trans hlen, hcell⟩
  rw [touched, foldlM_map] at h
  exact congrArg (Option.map fun bm => b.withCells bm (sz + 1)) h

def lowered (x : UInt8) : UInt8 := if x ≠ 0 then x - 1 else x

theorem toNat_lowered (x : UInt8) : (lowered x).toNat = x.toNat - 1 := by
  unfold lowered
  split_ifs with h
  · have hle : 1 ≤ x := UInt8.le_iff_toNat_le.mpr
      (Nat.one_le_iff_ne_zero.mpr fun h0 => h (UInt8.toNat_inj.mp h0))
    rw [UInt8.toNat_sub_of_le _ _ hle]
    rfl
  · rw [not_not.mp h]
    rfl

theorem removeCell_fst (s : List UInt8 × Bool) (j : Nat) :
    (removeCell s j).map Prod.fst = updateCell lowered s.1 j := by
  unfold removeCell updateCell
  by_cases hj : j < s.1.length
  · rw [getElem?_eq_getElem hj]
    simp only [Option.map_some, Option.some_inj, lowered]
    split_ifs with hx
    · rfl
    · exact (set_getElem_self hj).symm
  · rw [getElem?_eq_none (Nat.not_lt.mp hj)]
    rfl

theorem foldlM_removeCell_fst (s : List UInt8 × Bool) :
    (js.foldlM removeCell s).map Prod.fst = js.foldlM (updateCell lowered) s.1 := by
  induction js generalizing s with
  | nil => rfl
  | cons j js ih =>
    rw [foldlM_cons, foldlM_cons, ← removeCell_fst]
    cases removeCell s j with
    | none => rfl
    | some t => exact ih t

theorem countingBloomRemove_spec (hb : b.Cells) (hlen : bm.length = b.bitmap.length)
    (v sz : UInt64) :
    ∃ bm', (countingBloomRemove (b.withCells bm sz) v).map Prod.fst =
        some (b.withCells bm' (sz - 1)) ∧ bm'.length = b.bitmap.length ∧
      ∀ c, bm'[c]? = if c ∈ touched b v then bm[c]?.map lowered else bm[c]? := by
  obtain ⟨bm', h, hlen', hcell⟩ := foldlM_updateCell lowered
    (touched_nodup (v := v) hb) fun j hj => (touched_lt hb hj).trans_eq (hlen.trans hb.len).symm
  refine ⟨bm', ?_, hlen'.trans hlen, hcell⟩
  rw [← foldlM_removeCell_fst (bm, false), touched, foldlM_map] at h
  obtain ⟨s, hs, rfl⟩ := Option.map_eq_some_iff.mp h
  unfold countingBloomRemove
  rw [Option.map_map]
  exact congrArg (Option.map fun s : List UInt8 × Bool => b.withCells s.1 (sz - 1)) hs

theorem countingBloomFind_iff :
    countingBloomFind b v = some true ↔
      ∀ c ∈ touched b v, ∃ x, b.bitmap[c]? = some x ∧ x ≠ 0 := by
  have hall : ∀ is, countingFindIn b v is = some true ↔
      ∀ i ∈ is, ∃ x, b.bitmap[(slot b v i).toNat]? = some x ∧ x ≠ 0 := by
    intro is
    induction is with
    | nil => exact iff_of_true rfl fun i hi => (not_mem_nil hi).elim
    | cons i is ih =>
      rw [countingFindIn, forall_mem_cons, ← ih]
      cases b.bitmap[(slot b v i).toNat]? with
      | none =>
        refine iff_of_false nofun ?_
        rintro ⟨⟨x, hx, -⟩, -⟩
        cases hx
      | some x =>
        rw [Option.bind_some]
        by_cases hx : x = 0
        · rw [if_pos hx]
          refine iff_of_false nofun ?_
          rintro ⟨⟨y, hy, hne⟩, -⟩
          exact hne ((Option.some.inj hy).symm.trans hx)
        · rw [if_neg hx]
          exact (and_iff_right ⟨x, rfl, hx⟩).symm
  rw [countingBloomFind, hall, touched, forall_mem_map]

end Operation

/-- No value is removed more often than it was probed before. -/
def Disciplined (ops : List CountingOp) : Prop :=
  ∀ pre, pre <+: ops → ∀ v, pre.count (.remove v) ≤ pre.count (.probe v)

def Live (ops : List CountingOp) (v : UInt64) : Prop :=
  ops.count (.remove v) < ops.count (.probe v)

def probesCell (b : Bloom) (c : Nat) : CountingOp → Bool
  | .probe v => c ∈ touched b v
  | .remove _ => false

def removesCell (b : Bloom) (c : Nat) : CountingOp → Bool
  | .probe _ => false
  | .remove v => c ∈ touched b v

def cellLoad (b : Bloom) (ops : List CountingOp) (c : Nat) : Nat :=
  ops.countP (probesCell b c) - ops.countP (removesCell b c)

def Level.Fits (l : Level) : Prop := 1 ≤ l.k ∧ 1 ≤ l.m ∧ l.msub.toNat * l.k.toNat < 2 ^ 64

instance (l : Level) : Decidable l.Fits := inferInstanceAs (Decidable (_ ∧ _ ∧ _))

section Runs
variable {b : Bloom} {bm : List UInt8} {ops : List CountingOp} {op : CountingOp}

theorem countingBloomInit_cells {l : Level} (hl : l.Fits) : (countingBloomInit l).Cells := by
  obtain ⟨hk, hm, hbits⟩ := hl
  refine ⟨msub_pos hk hm, hbits, ?_⟩
  simp only [countingBloomInit, length_replicate]
  rw [UInt64.toNat_mul, Nat.mod_eq_of_lt hbits]

theorem Disciplined.init (h : Disciplined (ops ++ [op])) : Disciplined ops :=
  fun pre hpre => h pre (hpre.trans (prefix_append ops [op]))

structure Ledger (b : Bloom) (ops : List CountingOp) (held : List UInt64) : Prop where
  count : ∀ v, held.count v + ops.count (.remove v) = ops.count (.probe v)
  cell : ∀ c, held.countP (c ∈ touched b ·) + ops.countP (removesCell b c) =
    ops.countP (probesCell b c)

theorem Ledger.probe {held : List UInt64} (h : Ledger b ops held) (v : UInt64) :
    Ledger b (ops ++ [.probe v]) (v :: held) where
  count := fun w => by
    have hw := h.count w
    simp only [count_append, count_nil, count_cons, beq_iff_eq, CountingOp.probe.injEq,
      reduceCtorEq, if_false]
    omega
  cell := fun c => by
    have hc := h.cell c
    simp only [countP_append, countP_nil, countP_cons, probesCell, removesCell,
      decide_eq_true_eq, Bool.false_eq_true, if_false]
    omega

theorem Ledger.remove {held : List UInt64} (h : Ledger b ops held) {v : UInt64} (hv : v ∈ held) :
    Ledger b (ops ++ [.remove v]) (held.erase v) where
  count := fun w => by
    have hw := h.count w
    have hpos := count_pos_iff.mpr hv
    simp only [count_append, count_singleton, count_erase, beq_iff_eq, CountingOp.remove.injEq,
      reduceCtorEq, if_false]
    split_ifs with hvw
    · subst hvw
      omega
    · omega
  cell := fun c => by
    have hc := h.cell c
    simp only [countP_append, countP_singleton, probesCell, removesCell, decide_eq_true_eq,
      Bool.false_eq_true, if_false]
    have herase := (perm_cons_erase hv).countP_eq (c ∈ touched b ·)
    simp only [countP_cons, decide_eq_true_eq] at herase
    omega

theorem exists_ledger (b : Bloom) (h : Disciplined ops) : ∃ held, Ledger b ops held := by
  induction ops using List.reverseRecOn with
  | nil => exact ⟨[], fun v => rfl, fun c => rfl⟩
  | append_singleton ops op ih =>
    obtain ⟨held, hheld⟩ := ih h.init
    cases op with
    | probe v => exact ⟨v :: held, hheld.probe v⟩
    | remove v =>
      have hv : v ∈ held := by
        have hle := h _ (prefix_refl _) v
        have hcount := hheld.count v
        simp only [count_append, count_singleton, beq_iff_eq, reduceCtorEq, if_true,
          if_false] at hle
        exact count_pos_iff.mp (by omega)
      exact ⟨held.erase v, hheld.remove hv⟩

theorem Ledger.cellLoad_eq {held : List UInt64} (h : Ledger b ops held) (c : Nat) :
    cellLoad b ops c = held.countP (c ∈ touched b ·) := by
  have hc := h.cell c
  unfold cellLoad
  omega

theorem cellLoad_pos (h : Disciplined ops) {v : UInt64} (hv : Live ops v) {c : Nat}
    (hc : c ∈ touched b v) : 0 < cellLoad b ops c := by
  obtain ⟨held, hheld⟩ := exists_ledger b h
  have hcount := hheld.count v
  have hmem : v ∈ held := count_pos_iff.mp (by unfold Live at hv; omega)
  rw [hheld.cellLoad_eq]
  exact countP_pos_iff.mpr ⟨v, hmem, decide_eq_true hc⟩

theorem cellLoad_probe (h : Disciplined ops) (v : UInt64) (c : Nat) :
    cellLoad b (ops ++ [.probe v]) c = cellLoad b ops c + if c ∈ touched b v then 1 else 0 := by
  obtain ⟨held, hheld⟩ := exists_ledger b h
  rw [(hheld.probe v).cellLoad_eq, hheld.cellLoad_eq, countP_cons]
  simp only [decide_eq_true_eq]

theorem cellLoad_remove (v : UInt64) (c : Nat) :
    cellLoad b (ops ++ [.remove v]) c = cellLoad b ops c - if c ∈ touched b v then 1 else 0 := by
  unfold cellLoad
  simp only [countP_append, countP_singleton, probesCell, removesCell, decide_eq_true_eq,
    Bool.false_eq_true, if_false]
  omega

/-- Every cell holds the number of probes left on it. -/
def Exact (b : Bloom) (ops : List CountingOp) (bm : List UInt8) : Prop :=
  ∀ c < b.m.toNat * b.k.toNat, ∃ x, bm[c]? = some x ∧ x.toNat = cellLoad b ops c

theorem exact_init (l : Level) (hl : l.Fits) :
    Exact (countingBloomInit l) [] (countingBloomInit l).bitmap := by
  intro c hc
  rw [← (countingBloomInit_cells hl).len] at hc
  refine ⟨_, getElem?_eq_getElem hc, ?_⟩
  simp only [countingBloomInit, getElem_replicate]
  rfl

theorem countingStep_exact (hb : b.Cells) (h : Disciplined (ops ++ [op]))
    (hlen : bm.length = b.bitmap.length) (hex : Exact b ops bm)
    (hload : ∀ c, cellLoad b (ops ++ [op]) c ≤ 255) (sz : UInt64) :
    ∃ bm' sz', countingStep (b.withCells bm sz) op = some (b.withCells bm' sz') ∧
      bm'.length = b.bitmap.length ∧ Exact b (ops ++ [op]) bm' := by
  cases op with
  | probe v =>
    obtain ⟨bm', hstep, hlen', hcell⟩ := countingBloomProbe_spec hb hlen v sz
    refine ⟨bm', _, hstep, hlen', fun c hc => ?_⟩
    obtain ⟨x, hx, hval⟩ := hex c hc
    have hle := hload c
    rw [cellLoad_probe h.init] at hle ⊢
    rw [hcell, hx]
    split_ifs at hle ⊢
    · refine ⟨x + 1, rfl, ?_⟩
      rw [UInt8.toNat_add, show (1 : UInt8).toNat = 1 from rfl, Nat.mod_eq_of_lt (by omega), hval]
    · exact ⟨x, rfl, hval⟩
  | remove v =>
    obtain ⟨bm', hstep, hlen', hcell⟩ := countingBloomRemove_spec hb hlen v sz
    refine ⟨bm', _, hstep, hlen', fun c hc => ?_⟩
    obtain ⟨x, hx, hval⟩ := hex c hc
    rw [hcell, hx, cellLoad_remove]
    split_ifs
    · exact ⟨lowered x, rfl, (toNat_lowered x).trans (by rw [hval])⟩
    · exact ⟨x, rfl, hval⟩

theorem countingRun_append (b : Bloom) (ops : List CountingOp) (op : CountingOp) :
    countingRun b (ops ++ [op]) = (countingRun b ops).bind fun b => countingStep b op := by
  unfold countingRun
  rw [foldlM_append]
  cases ops.foldlM countingStep b with
  | none => rfl
  | some b' => exact bind_pure (countingStep b' op)

theorem countingRun_exact {l : Level} (hl : l.Fits) (h : Disciplined ops)
    (hload : ∀ pre, pre <+: ops → ∀ c, cellLoad (countingBloomInit l) pre c ≤ 255) :
    ∃ bm sz, countingRun (countingBloomInit l) ops =
        some ((countingBloomInit l).withCells bm sz) ∧
      bm.length = (countingBloomInit l).bitmap.length ∧ Exact (countingBloomInit l) ops bm := by
  induction ops using List.reverseRecOn with
  | nil => exact ⟨_, _, rfl, rfl, exact_init l hl⟩
  | append_singleton ops op ih =>
    obtain ⟨bm, sz, hrun, hlen, hex⟩ :=
      ih h.init fun pre hpre => hload pre (hpre.trans (prefix_append _ _))
    obtain ⟨bm', sz', hstep, hlen', hex'⟩ := countingStep_exact (countingBloomInit_cells hl) h
      hlen hex (hload _ (prefix_refl _)) sz
    refine ⟨bm', sz', ?_, hlen', hex'⟩
    rw [countingRun_append, hrun, Option.bind_some, hstep]

theorem countingBloomFind_of_exact (hb : b.Cells) (h : Disciplined ops) (hex : Exact b ops bm)
    {v : UInt64} (hv : Live ops v) (sz : UInt64) :
    countingBloomFind (b.withCells bm sz) v = some true := by
  rw [countingBloomFind_iff]
  intro c hc
  have hpos := cellLoad_pos h hv (show c ∈ touched b v from hc)
  obtain ⟨x, hx, hval⟩ := hex c (touched_lt hb (show c ∈ touched b v from hc))
  refine ⟨x, hx, fun h0 => ?_⟩
  rw [h0] at hval
  exact absurd hval.symm hpos.ne'

theorem find_after_overflow (hb : b.Cells) (hlen : bm.length = b.bitmap.length)
    (hex : Exact b ops bm) {v : UInt64} {c : Nat}
    (hc : c ∈ touched b v) (hfull : cellLoad b ops c = 255) (sz : UInt64) :
    ∃ b', countingBloomProbe (b.withCells bm sz) v = some b' ∧
      countingBloomFind b' v ≠ some true := by
  obtain ⟨bm', hstep, -, hcell⟩ := countingBloomProbe_spec hb hlen v sz
  obtain ⟨x, hx, hval⟩ := hex c (touched_lt hb hc)
  have hx255 : x = 255 := UInt8.toNat_inj.mp (hval.trans hfull)
  have hzero : bm'[c]? = some 0 := by
    rw [hcell, if_pos hc, hx, hx255]
    rfl
  refine ⟨_, hstep, fun hfind => ?_⟩
  obtain ⟨y, hy, hne⟩ := countingBloomFind_iff.mp hfind c hc
  exact hne (Option.some.inj (hy.symm.trans hzero))

/-- In a disciplined run every live value is found after every operation exactly if no cell ever
has more than 255 probes left on it. -/
theorem counting_finds_live_iff (l : Level) (hl : l.Fits) (ops : List CountingOp)
    (h : Disciplined ops) :
    (∀ pre, pre <+: ops → ∃ b, countingRun (countingBloomInit l) pre = some b ∧
      ∀ v, Live pre v → countingBloomFind b v = some true) ↔
    ∀ pre, pre <+: ops → ∀ c, cellLoad (countingBloomInit l) pre c ≤ 255 := by
  have hcells := countingBloomInit_cells hl
  constructor
  · intro hfind
    induction ops using List.reverseRecOn with
    | nil =>
      intro pre hpre c
      rw [prefix_nil.mp hpre]
      exact Nat.zero_le _
    | append_singleton ops op ih =>
      have hload := ih h.init fun pre hpre => hfind pre (hpre.trans (prefix_append _ _))
      intro pre hpre c
      rcases prefix_concat_iff.mp hpre with rfl | hpre
      · by_contra hgt
        obtain ⟨bm, sz, hrun, hlen, hex⟩ := countingRun_exact hl h.init hload
        have hle := hload ops (prefix_refl _) c
        cases op with
        | remove v =>
          rw [cellLoad_remove] at hgt
          omega
        | probe v =>
          rw [cellLoad_probe h.init] at hgt
          -- the cell was full and the probe landed on it
          split_ifs at hgt with hc
          · obtain ⟨b', hprobe, hlost⟩ := find_after_overflow hcells hlen hex hc (by omega) sz
            obtain ⟨b'', hrun', hfound⟩ := hfind _ (prefix_refl _)
            rw [countingRun_append, hrun, Option.bind_some] at hrun'
            obtain rfl := Option.some.inj (hprobe.symm.trans hrun')
            refine hlost (hfound v ?_)
            have hle' := h.init ops (prefix_refl _) v
            simp only [Live, count_append, count_singleton, beq_iff_eq, reduceCtorEq, if_true,
              if_false]
            omega
          · omega
      · exact hload pre hpre c
  · intro hload pre hpre
    have hpre' : Disciplined pre := fun q hq => h q (hq.trans hpre)
    obtain ⟨bm, sz, hrun, -, hex⟩ := countingRun_exact hl hpre'
      fun q hq => hload q (hq.trans hpre)
    exact ⟨_, hrun, fun v hv => countingBloomFind_of_exact hcells hpre' hex hv sz⟩

theorem disciplined_of_probes (vs : List UInt64) : Disciplined (vs.map .probe) := by
  intro pre hpre v
  have hnone : CountingOp.remove v ∉ pre := by
    intro hmem
    obtain ⟨w, -, hw⟩ := mem_map.mp (hpre.subset hmem)
    cases hw
  rw [count_eq_zero_of_not_mem hnone]
  exact Nat.zero_le _

theorem Disciplined.remove (h : Disciplined ops) {v : UInt64} (hv : Live ops v) :
    Disciplined (ops ++ [.remove v]) := by
  intro pre hpre w
  rcases prefix_concat_iff.mp hpre with rfl | hpre
  · have hw := h ops (prefix_refl _) w
    simp only [count_append, count_singleton, beq_iff_eq, CountingOp.remove.injEq, reduceCtorEq,
      if_false]
    split_ifs with hvw
    · rw [← hvw]
      exact hv
    · exact hw
  · exact h pre hpre w

theorem cellLoad_le_length (b : Bloom) (ops : List CountingOp) (c : Nat) :
    cellLoad b ops c ≤ ops.length :=
  (Nat.sub_le _ _).trans countP_le_length

theorem counting_finds_live_after_remove :
    ∃ b, countingRun (countingBloomInit ⟨2, 6, 7, 0⟩) [.probe 5, .probe 9, .remove 9] = some b ∧
      countingBloomFind b 5 = some true := by
  have hdisc : Disciplined [.probe 5, .probe 9, .remove 9] :=
    (disciplined_of_probes [5, 9]).remove (v := 9) (by unfold Live; decide)
  have hload : ∀ pre, pre <+: [.probe 5, .probe 9, .remove 9] →
      ∀ c, cellLoad (countingBloomInit ⟨2, 6, 7, 0⟩) pre c ≤ 255 := by
    intro pre hpre c
    exact ((cellLoad_le_length _ pre c).trans hpre.length_le).trans (by decide)
  obtain ⟨b, hrun, hfind⟩ := (counting_finds_live_iff ⟨2, 6, 7, 0⟩ (by decide) _ hdisc).mpr hload _
    (prefix_refl _)
  exact ⟨b, hrun, hfind 5 (by unfold Live; decide)⟩

set_option maxRecDepth 4000 in
/-- After 256 probes of one value its cell is empty again. -/
theorem counting_loses_value :
    (Disciplined ((replicate 256 5).map .probe) ∧ Live ((replicate 256 5).map .probe) 5) ∧
    ∃ b, countingRun (countingBloomInit ⟨1, 1, 7, 0⟩) ((replicate 256 5).map .probe) = some b ∧
      countingBloomFind b 5 = some false := by
  refine ⟨⟨disciplined_of_probes _, ?_⟩, ?_⟩
  · unfold Live
    decide
  · refine ⟨(countingBloomInit ⟨1, 1, 7, 0⟩).withCells [0] 256, ?_, ?_⟩ <;> decide

end Runs
end PortableLib.BloomFilter
