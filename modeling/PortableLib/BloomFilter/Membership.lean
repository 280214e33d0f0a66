import PortableLib.BloomFilter.Filter
import PortableLib.Lib.Run

/-! No false negatives: bits are only ever set, levels are only ever added, and every bit that a
probe or a search touches lies in its partition. -/

namespace PortableLib.BloomFilter
open List

section Bits
variable {bm bm' : List UInt8} {i j : UInt64}

theorem setbit_length (h : setbit bm i = some bm') : bm'.length = bm.length := by
  obtain ⟨x, -, rfl⟩ := Option.map_eq_some_iff.mp h
  exact length_set

theorem unit_lt (h : i.toNat < 8 * bm.length) : (i / 8).toNat < bm.length := by
  rw [UInt64.toNat_div, show (8 : UInt64).toNat = 8 from rfl]
  omega

theorem setbit_of_lt (h : i.toNat < 8 * bm.length) : ∃ bm', setbit bm i = some bm' :=
  ⟨_, by rw [setbit, getElem?_eq_getElem (unit_lt h), Option.map_some]⟩

theorem testbit_of_lt (h : i.toNat < 8 * bm.length) : ∃ t, testbit bm i = some t :=
  ⟨_, by rw [testbit, getElem?_eq_getElem (unit_lt h), Option.map_some]⟩

theorem or_and_ne_zero {x m : UInt8} (y : UInt8) (h : x &&& m ≠ 0) : (x ||| y) &&& m ≠ 0 := by
  have hdist : (x ||| y) &&& m = (x &&& m) ||| (y &&& m) :=
    UInt8.toBitVec_inj.mp BitVec.and_or_distrib_right
  rw [hdist, ne_eq, UInt8.or_eq_zero_iff]
  exact fun h0 => h h0.1

theorem one_shiftLeft_ne_zero (i : UInt64) : (1 : UInt8) <<< (i % 8).toUInt8 ≠ 0 := by
  have hlt : (i % 8).toNat < 8 := by
    rw [UInt64.toNat_mod]
    exact Nat.mod_lt _ (by decide)
  have hcases : ∀ n < 8, (1 : UInt8) <<< UInt8.ofNat n ≠ 0 := by decide
  have := hcases _ hlt
  rwa [← UInt64.toUInt8_ofNat', UInt64.ofNat_toNat] at this

theorem testbit_setbit (h : setbit bm i = some bm') : testbit bm' i = some true := by
  obtain ⟨x, hx, rfl⟩ := Option.map_eq_some_iff.mp h
  obtain ⟨hlt, -⟩ := List.getElem?_eq_some_iff.mp hx
  rw [testbit, getElem?_set_self hlt, Option.map_some, Option.some_inj, decide_eq_true_iff]
  rw [UInt8.or_comm]
  refine or_and_ne_zero x ?_
  rw [UInt8.and_self]
  exact one_shiftLeft_ne_zero i

theorem testbit_setbit_of_testbit (h : setbit bm i = some bm') (hj : testbit bm j = some true) :
    testbit bm' j = some true := by
  obtain ⟨x, hx, rfl⟩ := Option.map_eq_some_iff.mp h
  obtain ⟨y, hy, hy'⟩ := Option.map_eq_some_iff.mp hj
  by_cases hij : (i / 8).toNat = (j / 8).toNat
  · rw [hij] at hx ⊢
    obtain rfl := Option.some.inj (hx.symm.trans hy)
    obtain ⟨hlt, -⟩ := List.getElem?_eq_some_iff.mp hx
    rw [testbit, getElem?_set_self hlt, Option.map_some, Option.some_inj, decide_eq_true_iff]
    exact or_and_ne_zero _ (decide_eq_true_iff.mp hy')
  · rw [testbit, getElem?_set_ne hij, hy, Option.map_some, hy']

end Bits

structure Bloom.WF (b : Bloom) : Prop where
  m_pos : 0 < b.m.toNat
  bits : b.m.toNat * b.k.toNat < 2 ^ 63
  fits : b.m.toNat * b.k.toNat ≤ 8 * b.bmsize.toNat
  len : b.bitmap.length = b.bmsize.toNat

structure Bloom.Bounded (d : Nat) (b : Bloom) : Prop where
  m_pos : 0 < b.m.toNat
  fits : b.m.toNat * b.k.toNat ≤ d * b.bitmap.length

theorem Bloom.WF.bounded {b : Bloom} (hb : b.WF) : b.Bounded 8 :=
  ⟨hb.m_pos, by rw [hb.len]; exact hb.fits⟩

def Level.Sound (l : Level) : Prop :=
  1 ≤ l.k ∧ 1 ≤ l.m ∧ l.msub.toNat * l.k.toNat < 2 ^ 63

instance (l : Level) : Decidable l.Sound := inferInstanceAs (Decidable (_ ∧ _ ∧ _))

def Has (b : Bloom) (v : UInt64) : Prop :=
  ∀ i ∈ partitions b, testbit b.bitmap (slot b v i) = some true

section Level
variable {b b' : Bloom} {v w : UInt64}

theorem lt_of_mem_partitions {i : UInt64} (h : i ∈ partitions b) : i.toNat < b.k.toNat := by
  obtain ⟨n, hn, rfl⟩ := mem_map.mp h
  rw [mem_range] at hn
  rw [UInt64.toNat_ofNat_of_lt' (Nat.lt_trans hn b.k.toNat_lt)]
  exact hn

theorem toNat_slot (hm : 0 < b.m.toNat) (hbits : b.m.toNat * b.k.toNat < 2 ^ 64) (v : UInt64)
    {i : UInt64} (hi : i.toNat < b.k.toNat) :
    ∃ r < b.m.toNat, (slot b v i).toNat = r + b.m.toNat * i.toNat := by
  have hpart : b.m.toNat * (i.toNat + 1) ≤ b.m.toNat * b.k.toNat := Nat.mul_le_mul_left _ hi
  rw [Nat.mul_succ] at hpart
  have hmul : (i * b.m).toNat = b.m.toNat * i.toNat := by
    rw [UInt64.toNat_mul, Nat.mul_comm, Nat.mod_eq_of_lt (by omega)]
  have hr := Nat.mod_lt
    ((hashVal v b.salt &&& (0xffffffff : UInt64)) + i * (hashVal v b.salt >>> 32)).toNat hm
  refine ⟨_, hr, ?_⟩
  simp only [slot]
  rw [UInt64.toNat_add, UInt64.toNat_mod, hmul, Nat.mod_eq_of_lt (by omega)]

theorem slot_lt (hm : 0 < b.m.toNat) (v : UInt64) {i : UInt64} (hi : i.toNat < b.k.toNat) :
    (slot b v i).toNat < b.m.toNat * b.k.toNat := by
  by_cases hbits : b.m.toNat * b.k.toNat < 2 ^ 64
  · obtain ⟨r, hr, h⟩ := toNat_slot hm hbits v hi
    have hpart : b.m.toNat * (i.toNat + 1) ≤ b.m.toNat * b.k.toNat := Nat.mul_le_mul_left _ hi
    rw [Nat.mul_succ] at hpart
    omega
  · exact Nat.lt_of_lt_of_le (slot b v i).toNat_lt (Nat.not_lt.mp hbits)

theorem slot_in_bitmap {d : Nat} (hb : b.Bounded d) (v : UInt64) {i : UInt64}
    (hi : i ∈ partitions b) : (slot b v i).toNat < d * b.bitmap.length :=
  Nat.lt_of_lt_of_le (slot_lt hb.m_pos v (lt_of_mem_partitions hi)) hb.fits

theorem msub_pos {l : Level} (hk : 1 ≤ l.k) (hm : 1 ≤ l.m) : 0 < l.msub.toNat := by
  rw [UInt64.le_iff_toNat_le] at hk hm
  have hone : (1 : UInt64).toNat = 1 := rfl
  have hlt := l.m.toNat_lt
  unfold Level.msub
  rw [UInt64.toNat_add, UInt64.toNat_div]
  split_ifs with h
  · -- a remainder needs `k ≥ 2`, so that the quotient leaves room for the increment
    rw [gt_iff_lt, UInt64.lt_iff_toNat_lt, UInt64.toNat_mod] at h
    have hk2 : 2 ≤ l.k.toNat := by
      by_contra h2
      have h1 : l.k.toNat = 1 := by omega
      rw [h1, Nat.mod_one] at h
      exact absurd h (by decide)
    have hdiv : l.m.toNat / l.k.toNat ≤ l.m.toNat / 2 := Nat.div_le_div_left hk2 (by decide)
    generalize l.m.toNat / l.k.toNat = q at hdiv ⊢
    omega
  · rw [gt_iff_lt, UInt64.lt_iff_toNat_lt, UInt64.toNat_mod] at h
    have hzero : (0 : UInt64).toNat = 0 := rfl
    have hdiv : 0 < l.m.toNat / l.k.toNat := by
      refine Nat.div_pos (Nat.le_of_dvd (by omega) (Nat.dvd_of_mod_eq_zero (by omega))) (by omega)
    have hle : l.m.toNat / l.k.toNat ≤ l.m.toNat := Nat.div_le_self ..
    generalize l.m.toNat / l.k.toNat = q at hdiv hle ⊢
    omega

theorem standardBloomInit_wf {l : Level} (hl : l.Sound) : (standardBloomInit l).WF := by
  obtain ⟨hk, hm, hbits⟩ := hl
  have hmul : (l.msub * l.k).toNat = l.msub.toNat * l.k.toNat := by
    rw [UInt64.toNat_mul, Nat.mod_eq_of_lt (by omega)]
  have halign := TypeUtils.toNat_alignUp (v := l.msub * l.k) (by omega)
  refine ⟨msub_pos hk hm, hbits, ?_, length_replicate⟩
  · simp only [standardBloomInit, UInt64.toNat_div, halign, hmul]
    rw [show (8 : UInt64).toNat = 8 from rfl]
    omega

structure Marked (b : Bloom) (v : UInt64) (bm : List UInt8) (done : List UInt64) : Prop where
  len : bm.length = b.bitmap.length
  marked : ∀ i ∈ done, testbit bm (slot b v i) = some true
  kept : ∀ j, testbit b.bitmap j = some true → testbit bm j = some true

theorem setbit_marked (hb : b.Bounded 8) {bm : List UInt8} {done : List UInt64} {i : UInt64}
    (h : Marked b v bm done) (hi : i ∈ partitions b) :
    ∃ bm', setbit bm (slot b v i) = some bm' ∧ Marked b v bm' (i :: done) := by
  have hlt := slot_in_bitmap hb v hi
  rw [← h.len] at hlt
  obtain ⟨bm', h'⟩ := setbit_of_lt hlt
  refine ⟨bm', h', (setbit_length h').trans h.len, ?_, ?_⟩
  · intro j hj
    rcases mem_cons.mp hj with rfl | hj
    · exact testbit_setbit h'
    · exact testbit_setbit_of_testbit h' (h.marked j hj)
  · exact fun j hj => testbit_setbit_of_testbit h' (h.kept j hj)

theorem standardBloomProbe_marked (hb : b.Bounded 8) (v : UInt64) :
    ∃ bm, standardBloomProbe b v = some { b with bitmap := bm, size := b.size + 1 } ∧
      Marked b v bm (partitions b).reverse := by
  have hinit : Marked b v b.bitmap [] := ⟨rfl, fun i hi => (by cases hi), fun j hj => hj⟩
  obtain ⟨bm, hbm, hm⟩ := Run.foldlM_invariant (P := fun i => i ∈ partitions b)
    (fun _ _ _ h hi => setbit_marked hb h hi) hinit
    (show ∀ i ∈ partitions b, i ∈ partitions b from fun i hi => hi)
  rw [append_nil] at hm
  exact ⟨bm, by simp only [standardBloomProbe, hbm, Option.map_some], hm⟩

theorem standardBloomProbe_spec (hb : b.WF) (v : UInt64) :
    ∃ b', standardBloomProbe b v = some b' ∧ b'.WF ∧ Has b' v ∧ ∀ w, Has b w → Has b' w := by
  obtain ⟨bm, hbm, hm⟩ := standardBloomProbe_marked hb.bounded v
  refine ⟨_, hbm, ?_, ?_, ?_⟩
  · exact ⟨hb.m_pos, hb.bits, hb.fits, hm.len.trans hb.len⟩
  · exact fun i hi => hm.marked i (mem_reverse.mpr hi)
  · exact fun w hw i hi => hm.kept _ (hw i hi)

theorem standardBloomFind_total (hb : b.Bounded 8) (v : UInt64) :
    ∃ t, standardBloomFind b v = some t := by
  have hall : ∀ is, (∀ i ∈ is, i ∈ partitions b) → ∃ t, findIn b v is = some t := by
    intro is
    induction is with
    | nil => exact fun _ => ⟨true, rfl⟩
    | cons i is ih =>
      intro his
      obtain ⟨t, ht⟩ := testbit_of_lt (slot_in_bitmap hb v (his i mem_cons_self))
      obtain ⟨t', ht'⟩ := ih fun j hj => his j (mem_cons_of_mem i hj)
      cases t with
      | false => exact ⟨false, by simp only [findIn, ht, Option.bind_some]; rfl⟩
      | true => exact ⟨t', by simp only [findIn, ht, Option.bind_some, if_true, ht']⟩
  exact hall _ fun i hi => hi

theorem standardBloomFind_of_has (h : Has b v) : standardBloomFind b v = some true := by
  have hall : ∀ is, (∀ i ∈ is, testbit b.bitmap (slot b v i) = some true) →
      findIn b v is = some true := by
    intro is
    induction is with
    | nil => exact fun _ => rfl
    | cons i is ih =>
      intro his
      rw [findIn, his i mem_cons_self, Option.bind_some, if_pos rfl]
      exact ih fun j hj => his j (mem_cons_of_mem i hj)
  exact hall _ h

end Level

structure ScalableBloom.WF (sb : ScalableBloom) : Prop where
  levels : ∀ b ∈ sb.bfa, b.WF
  len : sb.bfa.length = sb.len.toNat
  pos : 0 < sb.len.toNat
  le_cap : sb.len.toNat ≤ sb.cap.toNat
  cap : ∃ e ≤ 31, sb.cap.toNat = 2 ^ e

structure ScalableBloom.Shape (sb : ScalableBloom) : Prop where
  len : sb.bfa.length = sb.len.toNat
  pos : 0 < sb.len.toNat
  le_cap : sb.len.toNat ≤ sb.cap.toNat
  cap : ∃ e ≤ 31, sb.cap.toNat = 2 ^ e

theorem ScalableBloom.WF.shape {sb : ScalableBloom} (hw : sb.WF) : sb.Shape :=
  ⟨hw.len, hw.pos, hw.le_cap, hw.cap⟩

def Contains (sb : ScalableBloom) (v : UInt64) : Prop := ∃ b ∈ sb.bfa, Has b v

section Scalable
variable {sb sb' : ScalableBloom} {v : UInt64}

theorem scalableNew_wf {l : Level} (hl : l.Sound) : (scalableNew l).WF where
  levels := fun b hb => by
    rw [mem_singleton.mp hb]
    exact standardBloomInit_wf hl
  len := rfl
  pos := Nat.one_pos
  le_cap := (by decide : (1 : UInt32).toNat ≤ (8 : UInt32).toNat)
  cap := ⟨3, by decide, rfl⟩

theorem toNat_shiftLeft_one {c : UInt32} {e : Nat} (he : e < 31) (hc : c.toNat = 2 ^ e) :
    (c <<< 1).toNat = 2 ^ (e + 1) := by
  have hlt : 2 ^ (e + 1) < 2 ^ 32 := Nat.pow_lt_pow_right (by decide) (by omega)
  rw [UInt32.toNat_shiftLeft, hc, show (1 : UInt32).toNat % 32 = 1 from rfl, Nat.shiftLeft_eq,
    ← Nat.pow_add, Nat.mod_eq_of_lt hlt]

theorem grown_shape (hw : sb.Shape) (l : Level) {c : UInt32}
    (hle : sb.len.toNat + 1 ≤ c.toNat) (hc : ∃ e ≤ 31, c.toNat = 2 ^ e) :
    (sb.len + 1).toNat = sb.len.toNat + 1 ∧
      ScalableBloom.Shape ⟨sb.bfa ++ [standardBloomInit l], sb.len + 1, c⟩ := by
  have hsucc : (sb.len + 1).toNat = sb.len.toNat + 1 := by
    have := c.toNat_lt
    rw [UInt32.toNat_add, show (1 : UInt32).toNat = 1 from rfl, Nat.mod_eq_of_lt (by omega)]
  refine ⟨hsucc, ?_, ?_, ?_, hc⟩
  · rw [length_append, length_singleton, hw.len]
    exact hsucc.symm
  · exact Nat.lt_of_lt_of_eq (Nat.succ_pos _) hsucc.symm
  · exact hsucc.trans_le hle

theorem maybeGrowFilter_shape (hw : sb.Shape) (l : Level) :
    (sb.len.toNat < 2 ^ 31 ∧ ∃ sb', maybeGrowFilter sb l = some sb' ∧ sb'.Shape ∧
      sb'.len.toNat = sb.len.toNat + 1 ∧ sb'.bfa = sb.bfa ++ [standardBloomInit l]) ∨
    (sb.len.toNat = 2 ^ 31 ∧ maybeGrowFilter sb l = none) := by
  obtain ⟨e, he, hcap⟩ := hw.cap
  have hle := hw.le_cap
  have hmono : 2 ^ e ≤ 2 ^ 31 := Nat.pow_le_pow_right (by decide) he
  by_cases heq : sb.len = sb.cap
  · have hlen : sb.len.toNat = 2 ^ e := by rw [heq, hcap]
    rcases Nat.lt_or_eq_of_le he with he' | rfl
    · have hx := toNat_shiftLeft_one he' hcap
      have hpow : 2 ^ (e + 1) = 2 ^ e * 2 := Nat.pow_succ ..
      have hpos : 0 < 2 ^ e := Nat.two_pow_pos e
      have hlt : 2 ^ e < 2 ^ 31 := Nat.pow_lt_pow_right (by decide) he'
      have hgt : sb.cap <<< 1 > sb.cap := by
        rw [gt_iff_lt, UInt32.lt_iff_toNat_lt]
        omega
      obtain ⟨hsucc, hw'⟩ := grown_shape hw l (c := sb.cap <<< 1) (by omega) ⟨e + 1, he', hx⟩
      refine .inl ⟨by omega, _, ?_, hw', hsucc, rfl⟩
      simp only [maybeGrowFilter, if_pos heq, if_pos hgt]
    · refine .inr ⟨hlen, ?_⟩
      have hx : sb.cap <<< 1 = 0 := by
        rw [← UInt32.toNat_inj, UInt32.toNat_shiftLeft, hcap]
        decide
      have hgt : ¬ sb.cap <<< 1 > sb.cap := by
        rw [hx, gt_iff_lt, UInt32.lt_iff_toNat_lt]
        exact Nat.not_lt_zero _
      simp only [maybeGrowFilter, if_pos heq, if_neg hgt]
  · have hne : sb.len.toNat ≠ sb.cap.toNat := fun h => heq (UInt32.toNat_inj.mp h)
    obtain ⟨hsucc, hw'⟩ := grown_shape hw l (c := sb.cap) (by omega) hw.cap
    refine .inl ⟨by omega, _, ?_, hw', hsucc, rfl⟩
    simp only [maybeGrowFilter, if_neg heq]

theorem maybeGrowFilter_spec (hw : sb.WF) {l : Level} (hl : l.Sound) :
    (sb.len.toNat < 2 ^ 31 ∧ ∃ sb', maybeGrowFilter sb l = some sb' ∧ sb'.WF ∧
      sb'.len.toNat = sb.len.toNat + 1 ∧ sb'.bfa = sb.bfa ++ [standardBloomInit l]) ∨
    (sb.len.toNat = 2 ^ 31 ∧ maybeGrowFilter sb l = none) := by
  rcases maybeGrowFilter_shape hw.shape l with ⟨hlt, sb', h, hs, hsucc, hbfa⟩ | h
  · have hlevels : ∀ b ∈ sb'.bfa, b.WF := by
      intro b hb
      rw [hbfa] at hb
      rcases mem_append.mp hb with hb | hb
      · exact hw.levels b hb
      · rw [mem_singleton.mp hb]
        exact standardBloomInit_wf hl
    exact .inl ⟨hlt, sb', h, ⟨hlevels, hs.len, hs.pos, hs.le_cap, hs.cap⟩, hsucc, hbfa⟩
  · exact .inr h

theorem ScalableBloom.Shape.last_lt (hw : sb.Shape) :
    (sb.len - 1).toNat < sb.bfa.length ∧ sb.len - 1 < sb.len := by
  have hpos := hw.pos
  have hi : (sb.len - 1).toNat = sb.len.toNat - 1 :=
    UInt32.toNat_sub_of_le _ _ (UInt32.le_iff_toNat_le.mpr hpos)
  rw [hw.len, UInt32.lt_iff_toNat_lt]
  omega

theorem probeLast_eq (hw : sb.Shape) (v : UInt64) :
    ∃ f ∈ sb.bfa, probeLast sb v = (standardBloomProbe f v).map fun f' =>
      { sb with bfa := sb.bfa.set (sb.len - 1).toNat f' } := by
  obtain ⟨hlt, hassert⟩ := hw.last_lt
  refine ⟨_, getElem_mem hlt, ?_⟩
  simp only [probeLast, if_pos hassert, getElem?_eq_getElem hlt, Option.bind_some]

theorem probeLast_spec (hw : sb.WF) (v : UInt64) :
    ∃ sb', probeLast sb v = some sb' ∧ sb'.WF ∧ sb'.len = sb.len ∧ Contains sb' v ∧
      ∀ w, Contains sb w → Contains sb' w := by
  obtain ⟨hlt, hassert⟩ := hw.shape.last_lt
  obtain ⟨f, hf, hwf, hhas, hkeep⟩ := standardBloomProbe_spec (hw.levels _ (getElem_mem hlt)) v
  refine ⟨{ sb with bfa := sb.bfa.set (sb.len - 1).toNat f }, ?_, ?_, rfl, ?_, ?_⟩
  · simp only [probeLast, if_pos hassert, getElem?_eq_getElem hlt, Option.bind_some, hf,
      Option.map_some]
  · refine ⟨?_, by rw [length_set, hw.len], hw.pos, hw.le_cap, hw.cap⟩
    intro b hb
    rcases mem_or_eq_of_mem_set hb with hb | rfl
    · exact hw.levels b hb
    · exact hwf
  · exact ⟨f, mem_set hlt f, hhas⟩
  · rintro w ⟨b, hb, hw'⟩
    obtain ⟨j, hj, rfl⟩ := getElem_of_mem hb
    by_cases hij : (sb.len - 1).toNat = j
    · subst hij
      exact ⟨f, mem_set hlt f, hkeep w hw'⟩
    · refine ⟨sb.bfa[j], mem_of_getElem? (i := j) ?_, hw'⟩
      rw [getElem?_set_ne hij, getElem?_eq_getElem hj]

theorem ScalableBloom.WF.len_le (hw : sb.WF) : sb.len.toNat ≤ 2 ^ 31 := by
  obtain ⟨e, he, hcap⟩ := hw.cap
  exact (hw.le_cap.trans_eq hcap).trans (Nat.pow_le_pow_right (by decide) he)

def grows (p : UInt64 × Option Level) : Bool := p.2.isSome

theorem scalableProbe_spec (hw : sb.WF) (p : UInt64 × Option Level) (hp : ∀ l ∈ p.2, l.Sound) :
    (∃ sb', scalableProbe sb p.1 p.2 = some sb' ∧ sb'.WF ∧
      sb'.len.toNat = sb.len.toNat + (if grows p then 1 else 0) ∧ Contains sb' p.1 ∧
      ∀ w, Contains sb w → Contains sb' w) ∨
    (sb.len.toNat = 2 ^ 31 ∧ grows p = true ∧ scalableProbe sb p.1 p.2 = none) := by
  obtain ⟨v, full⟩ := p
  cases full with
  | none =>
    obtain ⟨sb', h, hw', hlen, hv, hkeep⟩ := probeLast_spec hw v
    exact .inl ⟨sb', h, hw', by rw [hlen]; rfl, hv, hkeep⟩
  | some l =>
    rcases maybeGrowFilter_spec hw (hp l rfl) with ⟨-, sb₁, h₁, hw₁, hlen₁, hbfa⟩ | ⟨hlen, h₁⟩
    · obtain ⟨sb', h, hw', hlen, hv, hkeep⟩ := probeLast_spec hw₁ v
      refine .inl ⟨sb', ?_, hw', ?_, hv, ?_⟩
      · simp only [scalableProbe, h₁, Option.bind_some, h]
      · rw [hlen, hlen₁]
        rfl
      · rintro w ⟨b, hb, hw''⟩
        exact hkeep w ⟨b, by rw [hbfa]; exact mem_append_left _ hb, hw''⟩
    · exact .inr ⟨hlen, rfl, by simp only [scalableProbe, h₁, Option.bind_none]⟩

def scalableRun (sb : ScalableBloom) (probes : List (UInt64 × Option Level)) :
    Option ScalableBloom :=
  probes.foldlM (fun sb p => scalableProbe sb p.1 p.2) sb

theorem scalableRun_spec (hw : sb.WF) {probes : List (UInt64 × Option Level)}
    (hp : ∀ p ∈ probes, ∀ l ∈ p.2, l.Sound) :
    (sb.len.toNat + probes.countP grows ≤ 2 ^ 31 ∧ ∃ sb', scalableRun sb probes = some sb' ∧
      sb'.WF ∧ (∀ p ∈ probes, Contains sb' p.1) ∧ ∀ w, Contains sb w → Contains sb' w) ∨
    (2 ^ 31 < sb.len.toNat + probes.countP grows ∧ scalableRun sb probes = none) := by
  induction probes generalizing sb with
  | nil => exact .inl ⟨hw.len_le, sb, rfl, hw, fun p h => (by cases h), fun w h => h⟩
  | cons p probes ih =>
    rw [countP_cons]
    have hcons : scalableRun sb (p :: probes) =
        (scalableProbe sb p.1 p.2).bind fun sb => scalableRun sb probes := foldlM_cons ..
    rcases scalableProbe_spec hw p (hp p mem_cons_self) with
      ⟨sb₁, h₁, hw₁, hlen₁, hv, hkeep₁⟩ | ⟨hlen, hg, h₁⟩
    · rw [hcons, h₁, Option.bind_some]
      rcases ih hw₁ fun q hq => hp q (mem_cons_of_mem p hq) with
        ⟨hle, sb', h, hw', hall, hkeep⟩ | ⟨hgt, h⟩
      · refine .inl ⟨by omega, sb', h, hw', ?_, fun w hw => hkeep w (hkeep₁ w hw)⟩
        intro q hq
        rcases mem_cons.mp hq with rfl | hq
        · exact hkeep _ hv
        · exact hall q hq
      · exact .inr ⟨by omega, h⟩
    · refine .inr ⟨?_, by rw [hcons, h₁, Option.bind_none]⟩
      rw [if_pos hg]
      omega

theorem findDown_of_mem {fs : List Bloom} (hwf : ∀ b ∈ fs, b.WF) (h : ∃ b ∈ fs, Has b v) :
    findDown v fs = some true := by
  induction fs with
  | nil =>
    obtain ⟨b, hb, -⟩ := h
    cases hb
  | cons f fs ih =>
    obtain ⟨t, ht⟩ := standardBloomFind_total (hwf f mem_cons_self).bounded v
    rw [findDown, ht, Option.bind_some]
    cases t with
    | true => rfl
    | false =>
      rw [if_neg (by decide)]
      refine ih (fun b hb => hwf b (mem_cons_of_mem f hb)) ?_
      obtain ⟨b, hb, hhas⟩ := h
      rcases mem_cons.mp hb with rfl | hb
      · rw [standardBloomFind_of_has hhas] at ht
        cases ht
      · exact ⟨b, hb, hhas⟩

theorem scalableFind_of_contains (hw : sb.WF) (h : Contains sb v) :
    scalableFind sb v = some true := by
  have hpos : sb.len > 0 := UInt32.lt_iff_toNat_lt.mpr hw.pos
  rw [scalableFind, if_pos hpos, ← hw.len, take_length]
  refine findDown_of_mem (fun b hb => hw.levels b (mem_reverse.mp hb)) ?_
  obtain ⟨b, hb, hhas⟩ := h
  exact ⟨b, mem_reverse.mpr hb, hhas⟩

end Scalable

/-- Every bit that a probe or a search of the level touches. -/
def InBounds (b : Bloom) : Prop :=
  (∀ v, ∀ i ∈ partitions b, (slot b v i).toNat < b.m.toNat * b.k.toNat) ∧
    b.m.toNat * b.k.toNat ≤ 8 * b.bmsize.toNat ∧ b.bitmap.length = b.bmsize.toNat

theorem Bloom.WF.inBounds {b : Bloom} (hb : b.WF) : InBounds b :=
  ⟨fun v _ hi => slot_lt hb.m_pos v (lt_of_mem_partitions hi), hb.fits, hb.len⟩

theorem standardRun_spec {b : Bloom} (hb : b.WF) (vs : List UInt64) :
    ∃ b', vs.foldlM standardBloomProbe b = some b' ∧ b'.WF ∧ ∀ v ∈ vs, Has b' v := by
  obtain ⟨b', h, hw, hall⟩ := Run.foldlM_invariant (f := standardBloomProbe) (P := fun _ => True)
    (I := fun b vs => b.WF ∧ ∀ v ∈ vs, Has b v)
    (fun b vs v h _ => by
      obtain ⟨b', h', hw', hv, hkeep⟩ := standardBloomProbe_spec h.1 v
      refine ⟨b', h', hw', fun w hw => ?_⟩
      rcases mem_cons.mp hw with rfl | hw
      · exact hv
      · exact hkeep w (h.2 w hw))
    (show b.WF ∧ ∀ v ∈ [], Has b v from ⟨hb, fun v hv => by cases hv⟩)
    (show ∀ v ∈ vs, True from fun _ _ => trivial)
  exact ⟨b', h, hw, fun v hv => hall v (mem_append_left _ (mem_reverse.mpr hv))⟩

/-- Neither filter forgets a value. A scalable filter goes on until it would need more than
`2 ^ 31` levels, where its growth assertion ends it. -/
theorem no_false_negatives (l : Level) (hl : l.Sound) :
    (∀ vs : List UInt64, ∃ b, vs.foldlM standardBloomProbe (standardBloomInit l) = some b ∧
      (∀ v ∈ vs, standardBloomFind b v = some true) ∧ InBounds b) ∧
    ∀ probes : List (UInt64 × Option Level), (∀ p ∈ probes, ∀ l ∈ p.2, l.Sound) →
      ((scalableRun (scalableNew l) probes).isSome ↔ probes.countP grows < 2 ^ 31) ∧
      ∀ sb, scalableRun (scalableNew l) probes = some sb →
        (∀ p ∈ probes, scalableFind sb p.1 = some true) ∧ ∀ b ∈ sb.bfa, InBounds b := by
  constructor
  · intro vs
    obtain ⟨b, h, hw, hall⟩ := standardRun_spec (standardBloomInit_wf hl) vs
    exact ⟨b, h, fun v hv => standardBloomFind_of_has (hall v hv), hw.inBounds⟩
  · intro probes hp
    have hlen : (scalableNew l).len.toNat = 1 := rfl
    rcases scalableRun_spec (scalableNew_wf hl) hp with ⟨hle, sb', h, hw, hall, -⟩ | ⟨hgt, h⟩
    · rw [h]
      refine ⟨iff_of_true rfl (by omega), fun sb hsb => ?_⟩
      obtain rfl := Option.some.inj hsb
      exact ⟨fun p hp => scalableFind_of_contains hw (hall p hp),
        fun b hb => (hw.levels b hb).inBounds⟩
    · rw [h]
      refine ⟨iff_of_false (by decide) (by omega), fun sb hsb => ?_⟩
      cases hsb

theorem no_false_negatives_grown :
    ∃ sb, scalableRun (scalableNew ⟨2, 10, 7, 0⟩) [(5, none), (6, some ⟨3, 40, 9, 0⟩), (8, none)] =
        some sb ∧ scalableFind sb 5 = some true := by
  have hsound : Level.Sound ⟨2, 10, 7, 0⟩ ∧ Level.Sound ⟨3, 40, 9, 0⟩ := by decide
  obtain ⟨hsome, hfind⟩ := (no_false_negatives ⟨2, 10, 7, 0⟩ hsound.1).2
    [(5, none), (6, some ⟨3, 40, 9, 0⟩), (8, none)] (by simpa using hsound.2)
  obtain ⟨sb, hsb⟩ := Option.isSome_iff_exists.mp (hsome.mpr (by decide))
  exact ⟨sb, hsb, (hfind sb hsb).1 (5, none) (by decide)⟩

end PortableLib.BloomFilter
