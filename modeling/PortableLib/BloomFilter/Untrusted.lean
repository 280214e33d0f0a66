import PortableLib.BloomFilter.Counting
import PortableLib.BloomFilter.RoundTrip

/-! What `Bloom_unmarshal` lets through. Its checks keep the directory and the level headers of
an accepted file inside the data; the numbers in the level headers are taken as they are, so the
searches and probes that follow are safe exactly if these numbers happen to agree. -/

namespace PortableLib.BloomFilter
open List Encdec Image

/-! ## Calls on an unmarshalled filter -/

def handleFind (h : Handle) (v : UInt64) : Option Bool :=
  match h.filter with
  | .counting f => countingBloomFind f v
  | .quick f => standardBloomFind f v
  | .scale sb => scalableFind sb.toScalableBloom v

def handleProbe (h : Handle) (v : UInt64) (full : Option Level) : Option Handle :=
  match h.filter with
  | .counting f => (countingBloomProbe f v).map fun f => { h with filter := .counting f }
  | .quick f => (standardBloomProbe f v).map fun f => { h with filter := .quick f }
  | .scale sb => (scalableProbe sb.toScalableBloom v full).map fun s =>
      { h with filter := .scale { sb with toScalableBloom := s } }

inductive Call
  | find (v : UInt64)
  | probe (v : UInt64) (full : Option Level)

def handleCall (h : Handle) : Call → Option Handle
  | .find v => (handleFind h v).map fun _ => h
  | .probe v full => handleProbe h v full

def handleCalls (h : Handle) (cs : List Call) : Option Handle := cs.foldlM handleCall h

def Call.Sound : Call → Prop
  | .find _ => True
  | .probe _ full => ∀ l ∈ full, l.Sound

def Call.grows : Call → Bool
  | .find _ => false
  | .probe _ full => full.isSome

def perByte (t : FilterType) : Nat := if t = .counting then 1 else 8

structure Variant.Bounded (v : Variant) : Prop where
  levels : ∀ f ∈ v.levels, f.Bounded (perByte v.typ)
  shape : ∀ sb, v = .scale sb → sb.toScalableBloom.Shape

section Calls
variable {f : Bloom} {h : Handle} {sb : ScalableBloom}

theorem countingFind_total (hf : f.Bounded 1) (v : UInt64) :
    ∃ t, countingBloomFind f v = some t := by
  have hall : ∀ is, (∀ i ∈ is, i ∈ partitions f) → ∃ t, countingFindIn f v is = some t := by
    intro is
    induction is with
    | nil => exact fun _ => ⟨true, rfl⟩
    | cons i is ih =>
      intro his
      have hlt := slot_in_bitmap hf v (his i mem_cons_self)
      rw [Nat.one_mul] at hlt
      obtain ⟨t, ht⟩ := ih fun j hj => his j (mem_cons_of_mem i hj)
      rw [countingFindIn, getElem?_eq_getElem hlt, Option.bind_some]
      split_ifs
      · exact ⟨false, rfl⟩
      · exact ⟨t, ht⟩
  exact hall _ fun i hi => hi

theorem countingProbe_total (hf : f.Bounded 1) (v : UInt64) :
    ∃ f', countingBloomProbe f v = some f' ∧ f'.Bounded 1 := by
  have hstep : ∀ (bm : List UInt8) (_ : List UInt64) i, bm.length = f.bitmap.length →
      i ∈ partitions f → ∃ bm', updateCell (· + 1) bm (slot f v i).toNat = some bm' ∧
        bm'.length = f.bitmap.length := by
    intro bm _ i hlen hi
    have hlt := slot_in_bitmap hf v hi
    rw [Nat.one_mul, ← hlen] at hlt
    exact ⟨_, updateCell_of_lt _ hlt, length_set.trans hlen⟩
  obtain ⟨bm, hbm, hlen⟩ := @Run.foldlM_invariant _ _ _ _
    (fun bm _ => bm.length = f.bitmap.length) hstep f.bitmap [] (partitions f) rfl fun i hi => hi
  refine ⟨{ f with bitmap := bm, size := f.size + 1 }, ?_, hf.m_pos, ?_⟩
  · rw [countingBloomProbe, hbm, Option.map_some]
  · simp only [hlen]
    exact hf.fits

theorem standardProbe_total (hf : f.Bounded 8) (v : UInt64) :
    ∃ f', standardBloomProbe f v = some f' ∧ f'.Bounded 8 := by
  obtain ⟨bm, hbm, hm⟩ := standardBloomProbe_marked hf v
  refine ⟨_, hbm, hf.m_pos, ?_⟩
  simp only [hm.len]
  exact hf.fits

theorem probeLast_total (hs : sb.Shape) (hb : ∀ f ∈ sb.bfa, f.Bounded 8) (v : UInt64) :
    ∃ sb', probeLast sb v = some sb' ∧ sb'.Shape ∧ sb'.len = sb.len ∧
      ∀ f ∈ sb'.bfa, f.Bounded 8 := by
  obtain ⟨f, hf, heq⟩ := probeLast_eq hs v
  obtain ⟨f', hprobe, hf'⟩ := standardProbe_total (hb f hf) v
  rw [hprobe, Option.map_some] at heq
  refine ⟨_, heq, ⟨?_, hs.pos, hs.le_cap, hs.cap⟩, rfl, fun g hg => ?_⟩
  · rw [length_set, hs.len]
  · rcases mem_or_eq_of_mem_set hg with hg | rfl
    · exact hb g hg
    · exact hf'

theorem findDown_total {fs : List Bloom} (hb : ∀ f ∈ fs, f.Bounded 8) (v : UInt64) :
    ∃ t, findDown v fs = some t := by
  induction fs with
  | nil => exact ⟨false, rfl⟩
  | cons f fs ih =>
    obtain ⟨t, ht⟩ := standardBloomFind_total (hb f mem_cons_self) v
    obtain ⟨t', ht'⟩ := ih fun g hg => hb g (mem_cons_of_mem f hg)
    rw [findDown, ht, Option.bind_some]
    split_ifs
    · exact ⟨true, rfl⟩
    · exact ⟨t', ht'⟩

theorem handleFind_total (hv : h.filter.Bounded) (v : UInt64) : ∃ t, handleFind h v = some t := by
  obtain ⟨n, e, fl⟩ := h
  cases fl with
  | counting f => exact countingFind_total (hv.levels f mem_cons_self) v
  | quick f => exact standardBloomFind_total (hv.levels f mem_cons_self) v
  | scale sb =>
    have hpos : sb.len > 0 := UInt32.lt_iff_toNat_lt.mpr (hv.shape sb rfl).pos
    obtain ⟨t, ht⟩ := findDown_total (fun f hf => hv.levels f (mem_reverse.mp hf)) v
    exact ⟨t, (if_pos hpos).trans ht⟩

theorem scale_levels (sb : ScaleFilter) (hs : sb.Shape) : (Variant.scale sb).levels = sb.bfa := by
  rw [Variant.levels, ← hs.len, take_length]

theorem scale_bounded {sb : ScaleFilter} (hs : sb.Shape) (hb : ∀ f ∈ sb.bfa, f.Bounded 8) :
    (Variant.scale sb).Bounded where
  levels := fun f hf => hb f (mem_of_mem_take hf)
  shape := fun sb' h => by
    cases h
    exact hs

theorem scalableProbe_total (hs : sb.Shape) (hb : ∀ f ∈ sb.bfa, f.Bounded 8) (v : UInt64)
    (full : Option Level) (hfull : ∀ l ∈ full, l.Sound)
    (hroom : sb.len.toNat + (if full.isSome then 1 else 0) ≤ 2 ^ 31) :
    ∃ sb', scalableProbe sb v full = some sb' ∧ sb'.Shape ∧ (∀ f ∈ sb'.bfa, f.Bounded 8) ∧
      sb'.len.toNat = sb.len.toNat + if full.isSome then 1 else 0 := by
  cases full with
  | none =>
    obtain ⟨sb', h, hs', hlen, hb'⟩ := probeLast_total hs hb v
    exact ⟨sb', h, hs', hb', by rw [hlen]; rfl⟩
  | some l =>
    simp only [Option.isSome_some, if_true] at hroom ⊢
    rcases maybeGrowFilter_shape hs l with ⟨-, sb₁, h₁, hs₁, hlen₁, hbfa⟩ | ⟨hmax, -⟩
    · have hb₁ : ∀ f ∈ sb₁.bfa, f.Bounded 8 := by
        intro f hf
        rw [hbfa] at hf
        rcases mem_append.mp hf with hf | hf
        · exact hb f hf
        · rw [mem_singleton.mp hf]
          exact (standardBloomInit_wf (hfull l rfl)).bounded
      obtain ⟨sb', h, hs', hlen, hb'⟩ := probeLast_total hs₁ hb₁ v
      refine ⟨sb', ?_, hs', hb', by rw [hlen, hlen₁]⟩
      rw [scalableProbe, h₁, Option.bind_some, h]
    · omega

theorem handleProbe_total (hv : h.filter.Bounded) (v : UInt64) (full : Option Level)
    (hfull : ∀ l ∈ full, l.Sound)
    (hroom : h.filter.levels.length + (if full.isSome then 1 else 0) ≤ 2 ^ 31) :
    ∃ h', handleProbe h v full = some h' ∧ h'.filter.Bounded ∧
      h'.filter.levels.length ≤ h.filter.levels.length + if full.isSome then 1 else 0 := by
  obtain ⟨n, e, fl⟩ := h
  cases fl with
  | counting f =>
    obtain ⟨f', h, hf'⟩ := countingProbe_total (hv.levels f mem_cons_self) v
    refine ⟨⟨n, e, .counting f'⟩, by simp only [handleProbe, h, Option.map_some], ⟨?_, nofun⟩, ?_⟩
    · exact fun g hg => by rwa [mem_singleton.mp hg]
    · exact Nat.le_add_right _ _
  | quick f =>
    obtain ⟨f', h, hf'⟩ := standardProbe_total (hv.levels f mem_cons_self) v
    refine ⟨⟨n, e, .quick f'⟩, by simp only [handleProbe, h, Option.map_some], ⟨?_, nofun⟩, ?_⟩
    · exact fun g hg => by rwa [mem_singleton.mp hg]
    · exact Nat.le_add_right _ _
  | scale sb =>
    have hs := hv.shape sb rfl
    have hlevels := scale_levels sb hs
    have hb : ∀ f ∈ sb.bfa, f.Bounded 8 := fun f hf => hv.levels f (by rwa [hlevels])
    simp only [hlevels, hs.len] at hroom ⊢
    obtain ⟨sb', h, hs', hb', hlen⟩ := scalableProbe_total hs hb v full hfull hroom
    refine ⟨⟨n, e, .scale { sb with toScalableBloom := sb' }⟩, ?_, scale_bounded hs' hb', ?_⟩
    · simp only [handleProbe, h, Option.map_some]
    · rw [scale_levels { sb with toScalableBloom := sb' } hs', hs'.len, hlen]

theorem handleCalls_total (hv : h.filter.Bounded) {cs : List Call} (hcs : ∀ c ∈ cs, c.Sound)
    (hroom : h.filter.levels.length + cs.countP Call.grows ≤ 2 ^ 31) :
    (handleCalls h cs).isSome := by
  induction cs generalizing h with
  | nil => rfl
  | cons c cs ih =>
    rw [countP_cons] at hroom
    have hstep : ∃ h', handleCall h c = some h' ∧ h'.filter.Bounded ∧
        h'.filter.levels.length ≤ h.filter.levels.length + if c.grows then 1 else 0 := by
      cases c with
      | find v =>
        obtain ⟨t, ht⟩ := handleFind_total hv v
        exact ⟨h, by rw [handleCall, ht, Option.map_some], hv, Nat.le_add_right _ _⟩
      | probe v full =>
        exact handleProbe_total hv v full (hcs _ mem_cons_self)
          (Nat.le_trans (Nat.add_le_add_left (Nat.le_add_left _ _) _) hroom)
    obtain ⟨h', hcall, hv', hlen⟩ := hstep
    rw [handleCalls, foldlM_cons, hcall]
    exact ih hv' (fun d hd => hcs d (mem_cons_of_mem c hd)) (by omega)

end Calls

/-! ## Accepted files -/

def u64At (img : List UInt8) (p : Nat) : UInt64 := decLEu64 (img.drop p)

def u32At (img : List UInt8) (p : Nat) : UInt32 := (decLEu32 (img.drop p)).toUInt32

def entryAt (img : List UInt8) (p : Nat) : OffPair :=
  ⟨u64At img p, TypeUtils.alignUp (u64At img p + 40) 64⟩

section Accepted
variable {img : List UInt8} {sz : UInt64} {p n : Nat} {hd : Header} {P : Platform} {dommap : Bool}

theorem u64At_of_rdU64 {v : UInt64} (h : rdU64 img p = .ok v) :
    p + 8 ≤ img.length ∧ v = u64At img p := by
  obtain ⟨bs, hread, rfl⟩ := rdU64_eq_ok.mp h
  unfold readAt at hread
  split_ifs at hread with hle
  rw [← Option.some.inj hread]
  exact ⟨hle, by rw [u64At, decLEu64, decLEu64, take_take, Nat.min_self]⟩

theorem u32At_of_rdU32 {v : UInt32} (h : rdU32 img p = .ok v) : v = u32At img p := by
  obtain ⟨bs, hread, rfl⟩ := rdU32_eq_ok.mp h
  unfold readAt at hread
  split_ifs at hread
  rw [← Option.some.inj hread, u32At, decLEu32, decLEu32, take_take, Nat.min_self]

theorem entryAt_of_rdOff {o : OffPair} (h : rdOff img sz p = .ok o) :
    p + 8 ≤ img.length ∧ o = entryAt img p ∧ o.hdroff < sz ∧ o.dataoff < sz := by
  unfold rdOff at h
  simp only [bind_eq_ok, require_eq_ok, decide_eq_true_eq] at h
  obtain ⟨hdroff, hread, -, hhdr, -, hdata, hpure⟩ := h
  obtain ⟨hle, rfl⟩ := u64At_of_rdU64 hread
  obtain rfl := Except.ok.inj hpure
  exact ⟨hle, rfl, hhdr, hdata⟩

theorem entries_of_rdOffs {os : List OffPair} (h : rdOffs img sz p n = .ok os) :
    os = (range n).map (fun i => entryAt img (p + 8 * i)) ∧
      ∀ o ∈ os, o.hdroff < sz ∧ o.dataoff < sz := by
  induction n generalizing p os with
  | zero =>
    obtain rfl := Except.ok.inj h
    exact ⟨rfl, fun o ho => (not_mem_nil ho).elim⟩
  | succ n ih =>
    simp only [rdOffs, bind_eq_ok] at h
    obtain ⟨o, ho, os', hos', hpure⟩ := h
    obtain rfl := Except.ok.inj hpure
    obtain ⟨-, rfl, hhdr, hdata⟩ := entryAt_of_rdOff ho
    obtain ⟨rfl, hrest⟩ := ih hos'
    constructor
    · rw [range_succ_eq_map, map_cons, map_map]
      congr 1
      apply map_congr_left
      intro i _
      simp only [Function.comp, show p + 8 * (i + 1) = p + 8 + 8 * i by omega]
    · intro o' ho'
      rcases mem_cons.mp ho' with rfl | ho'
      · exact ⟨hhdr, hdata⟩
      · exact hrest o' ho'

def levelCount (img : List UInt8) : Nat :=
  if img[5]? = some 2 then (u32At img 64).toNat else 1

def dirEntries (img : List UInt8) : List OffPair :=
  (range (levelCount img)).map fun i => entryAt img (80 + 8 * i)

theorem filterType_eq_some {b : UInt8} {t : FilterType} (h : filterType b = some t) :
    b = t.byte := by
  unfold filterType at h
  split_ifs at h with h0 h1 h2
  · rw [← Option.some.inj h, h0]
    rfl
  · rw [← Option.some.inj h, h1]
    rfl
  · rw [← Option.some.inj h, h2]
    rfl

structure HeaderRead (img : List UInt8) (sz : UInt64) (hd : Header) : Prop where
  typ : img[5]? = some hd.typ.byte
  offs : hd.offs = dirEntries img
  len : hd.len.toNat = levelCount img
  max : hd.len.toNat ≤ 1048576
  table : hd.typ = .scale → 80 + 8 * hd.len.toNat ≤ sz.toNat
  range : ∀ o ∈ hd.offs, o.hdroff < sz ∧ o.dataoff < sz

theorem rdDirScale_read {d : UInt32 × UInt32 × UInt64 × List OffPair} (hsz : 80 ≤ sz.toNat)
    (h : rdDirScale img sz = .ok d) :
    d.1 = u32At img 64 ∧ d.1.toNat ≤ 1048576 ∧ 80 + 8 * d.1.toNat ≤ sz.toNat ∧
      d.2.2.2 = (range d.1.toNat).map (fun i => entryAt img (80 + 8 * i)) ∧
      ∀ o ∈ d.2.2.2, o.hdroff < sz ∧ o.dataoff < sz := by
  unfold rdDirScale at h
  simp only [bind_eq_ok, require_eq_ok, decide_eq_true_eq] at h
  obtain ⟨n, hn, scale, -, r, -, -, hmax, -, havail, offs, hoffs, hpure⟩ := h
  obtain rfl := Except.ok.inj hpure
  obtain ⟨hos, hrange⟩ := entries_of_rdOffs hoffs
  rw [UInt32.le_iff_toNat_le] at hmax
  have hmax' : n.toNat ≤ 1048576 := hmax
  have h64 : (sz - 64).toNat = sz.toNat - 64 :=
    UInt64.toNat_sub_of_le _ _ (UInt64.le_iff_toNat_le.mpr (show 64 ≤ sz.toNat by omega))
  have hle16 : 16 ≤ sz - 64 := UInt64.le_iff_toNat_le.mpr (show 16 ≤ (sz - 64).toNat by omega)
  have h16 : (sz - 64 - 16).toNat = sz.toNat - 64 - 16 := by
    rw [UInt64.toNat_sub_of_le _ _ hle16, h64]
    rfl
  rw [UInt64.le_iff_toNat_le, h16, UInt32.toNat_toUInt64, UInt32.toNat_mul,
    show (8 : UInt32).toNat = 8 from rfl] at havail
  exact ⟨u32At_of_rdU32 hn, hmax', by simp only; omega, hos, hrange⟩

theorem rdDirSingle_read {d : UInt32 × UInt32 × UInt64 × List OffPair}
    (h : rdDirSingle img sz = .ok d) :
    d.1 = 1 ∧ d.2.2.2 = [entryAt img 80] ∧ ∀ o ∈ d.2.2.2, o.hdroff < sz ∧ o.dataoff < sz := by
  unfold rdDirSingle at h
  simp only [bind_eq_ok, require_eq_ok, decide_eq_true_eq] at h
  obtain ⟨n, -, -, hone, o, ho, hpure⟩ := h
  obtain rfl := Except.ok.inj hpure
  obtain ⟨-, rfl, hrange⟩ := entryAt_of_rdOff ho
  exact ⟨hone, rfl, fun o ho => by rwa [mem_singleton.mp ho]⟩

theorem headerRead (h : rdhdr img sz = .ok hd) : HeaderRead img sz hd := by
  unfold rdhdr at h
  simp only [bind_eq_ok, require_eq_ok, decide_eq_true_eq, orElse_eq_ok] at h
  obtain ⟨-, hsz, m, -, -, -, ver, -, -, -, t, ht, typ, htyp, hash, -, -, -, n, -, e, -, dsz, -,
    -, -, d, hd', hpure⟩ := h
  obtain rfl := Except.ok.inj hpure
  have hbyte := filterType_eq_some htyp
  have h5 : img[5]? = some typ.byte := by
    rw [← hbyte]
    exact orElse_eq_ok.mp ht
  have hsz' : 80 ≤ sz.toNat := UInt64.le_iff_toNat_le.mp hsz
  unfold rdDir at hd'
  split_ifs at hd' with hscale
  · obtain ⟨hlen, hmax, htable, hoffs, hrange⟩ := rdDirScale_read hsz' hd'
    have hcount : d.1.toNat = levelCount img := by
      rw [levelCount, h5, hscale, if_pos (show some FilterType.scale.byte = some 2 from rfl), hlen]
    exact ⟨h5, by simp only [hoffs, hcount, dirEntries], hcount, hmax, fun _ => htable, hrange⟩
  · obtain ⟨hlen, hoffs, hrange⟩ := rdDirSingle_read hd'
    have hne : ¬ some typ.byte = some 2 := by
      cases typ with
      | scale => exact absurd rfl hscale
      | counting => decide
      | quick => decide
    have hcount : levelCount img = 1 := by rw [levelCount, h5, if_neg hne]
    refine ⟨h5, ?_, ?_, ?_, fun h => absurd h hscale, hrange⟩
    · simp only [hoffs, dirEntries, hcount]
      rfl
    · simp only [hlen, hcount]
      rfl
    · simp only [hlen]
      decide

/-- What `rdfilter` makes of the level header at `o`. -/
structure LevelRead (P : Platform) (dommap : Bool) (img : List UInt8) (o : OffPair) (f : Bloom) :
    Prop where
  m : f.m = u64At img o.hdroff.toNat
  k : f.k = u64At img (o.hdroff.toNat + 8)
  bmsize : f.bmsize = u64At img (o.hdroff.toNat + 32)
  full : (dommap ∨ P.alloc f.bmsize) → o.dataoff.toNat + f.bmsize.toNat ≤ img.length →
    f.bitmap.length = f.bmsize.toNat
  lost : ¬ (dommap ∨ P.alloc f.bmsize) → f.bitmap = []

theorem rdfilter_read {o : OffPair} {r : Bloom × Option Errno}
    (h : rdfilter P dommap img o = .ok r) :
    LevelRead P dommap img o r.1 ∧ (r.2.isNone → dommap ∨ P.alloc r.1.bmsize) := by
  unfold rdfilter at h
  simp only [bind_eq_ok] at h
  obtain ⟨m, hm, k, hk, salt, -, size, -, bmsize, hbm, h⟩ := h
  have hm := (u64At_of_rdU64 hm).2
  have hk := (u64At_of_rdU64 hk).2
  have hbm := (u64At_of_rdU64 hbm).2
  split_ifs at h with hmap halloc
  · obtain rfl := Except.ok.inj h
    refine ⟨⟨hm, hk, hbm, fun _ hle => ?_, fun hlost => absurd (.inl hmap) hlost⟩,
      fun _ => .inl hmap⟩
    simp only [length_take, length_drop]
    exact Nat.min_eq_left (Nat.le_sub_of_add_le' hle)
  · obtain ⟨bs, hread, hpure⟩ := bind_eq_ok.mp h
    obtain rfl := Except.ok.inj hpure
    refine ⟨⟨hm, hk, hbm, fun _ _ => ?_, fun hlost => absurd (.inr halloc) hlost⟩,
      fun _ => .inr halloc⟩
    exact readAt_length (rd_eq_ok.mp hread)
  · obtain rfl := Except.ok.inj h
    have hno : ¬ (dommap ∨ P.alloc bmsize) := fun h => h.elim hmap halloc
    exact ⟨⟨hm, hk, hbm, fun hyes _ => absurd hyes hno, fun _ => rfl⟩, nofun⟩

theorem rdfilters_read {os : List OffPair} {fs : List Bloom}
    (h : rdfilters P dommap img os = .ok fs) :
    Forall₂ (LevelRead P dommap img) os fs ∧ ∀ f ∈ fs, dommap ∨ P.alloc f.bmsize := by
  induction os generalizing fs with
  | nil =>
    obtain rfl := Except.ok.inj h
    exact ⟨.nil, fun f hf => absurd hf not_mem_nil⟩
  | cons o os ih =>
    simp only [rdfilters, bind_eq_ok, require_eq_ok] at h
    obtain ⟨r, hr, -, hnone, fs', hfs', hpure⟩ := h
    obtain rfl := Except.ok.inj hpure
    obtain ⟨hread, hkept⟩ := rdfilter_read hr
    obtain ⟨hrest, hkept'⟩ := ih hfs'
    refine ⟨.cons hread hrest, fun f hf => ?_⟩
    rcases mem_cons.mp hf with rfl | hf
    · exact hkept hnone
    · exact hkept' f hf

structure Accepted (P : Platform) (dommap : Bool) (img : List UInt8) (hd : Header) (v : Variant) :
    Prop where
  typ : v.typ = hd.typ
  levels : Forall₂ (LevelRead P dommap img) hd.offs v.levels
  kept : v.typ = .scale → ∀ f ∈ v.levels, dommap ∨ P.alloc f.bmsize
  shape : ∀ sb, v = .scale sb → 0 < hd.len.toNat → sb.Shape

theorem nextPow2_level {n : UInt32} (h0 : 0 < n.toNat) (hmax : n.toNat ≤ 1048576) :
    n.toNat ≤ (TypeUtils.nextPow2 n.toUInt64).toUInt32.toNat ∧
      ∃ e ≤ 31, (TypeUtils.nextPow2 n.toUInt64).toUInt32.toNat = 2 ^ e := by
  have hn : n.toUInt64.toNat = n.toNat := UInt32.toNat_toUInt64 n
  obtain ⟨e, he, heq, hle⟩ := TypeUtils.nextPow2_eq_two_pow (show 20 < 64 by decide)
    (v := n.toUInt64) (by rwa [hn]) (by rw [hn]; exact hmax)
  have hpow : 2 ^ e ≤ 2 ^ 20 := Nat.pow_le_pow_right (by decide) he
  have hcap : (TypeUtils.nextPow2 n.toUInt64).toUInt32.toNat = 2 ^ e := by
    rw [UInt64.toNat_toUInt32, heq]
    exact Nat.mod_eq_of_lt (Nat.lt_of_le_of_lt hpow (by decide))
  rw [hcap]
  exact ⟨hn ▸ hle, e, Nat.le_trans he (by decide), rfl⟩

theorem rdVariant_single {g : Bloom → Variant} {v : Variant} (hg : ∀ f, (g f).levels = [f])
    (hone : hd.offs.length = 1)
    (h : (orElse hd.offs[0]? Err.fault >>= fun o =>
      rdfilter P dommap img o >>= fun f => pure (g f.1)) = Except.ok v) :
    ∃ f, v = g f ∧ Forall₂ (LevelRead P dommap img) hd.offs v.levels := by
  simp only [bind_eq_ok, orElse_eq_ok] at h
  obtain ⟨o, ho, f, hf, hpure⟩ := h
  obtain rfl := Except.ok.inj hpure
  obtain ⟨o', hoffs⟩ := length_eq_one_iff.mp hone
  rw [hoffs, getElem?_cons_zero, Option.some.injEq] at ho
  refine ⟨f.1, rfl, ?_⟩
  rw [hoffs, hg, ho]
  exact .cons (rdfilter_read hf).1 .nil

theorem HeaderRead.offs_length (hhd : HeaderRead img sz hd) : hd.offs.length = levelCount img := by
  rw [hhd.offs, dirEntries, length_map, length_range]

theorem rdVariant_read {v : Variant} (hhd : HeaderRead img sz hd)
    (h : rdVariant P dommap img hd = .ok v) : Accepted P dommap img hd v := by
  have hlen := hhd.offs_length
  unfold rdVariant at h
  cases htyp : hd.typ with
  | scale =>
    simp only [htyp, bind_eq_ok] at h
    obtain ⟨bfa, hbfa, hpure⟩ := h
    obtain rfl := Except.ok.inj hpure
    obtain ⟨hread, hkept⟩ := rdfilters_read hbfa
    have hbfalen : bfa.length = hd.len.toNat := by
      rw [← hread.length_eq, hlen, hhd.len]
    have htake : bfa.take hd.len.toNat = bfa := by rw [← hbfalen, take_length]
    refine ⟨htyp.symm, ?_, ?_, ?_⟩
    · simpa only [Variant.levels, htake] using hread
    · simpa only [Variant.levels, htake] using fun _ => hkept
    · intro sb hsb hpos
      obtain rfl := Variant.scale.inj hsb
      obtain ⟨hle, hcap⟩ := nextPow2_level hpos hhd.max
      exact ⟨hbfalen, hpos, hle, hcap⟩
  | counting =>
    have hone : levelCount img = 1 := by
      rw [levelCount, hhd.typ, htyp, if_neg (by decide)]
    simp only [htyp] at h
    obtain ⟨f, rfl, hread⟩ := rdVariant_single (g := .counting) (fun _ => rfl) (hlen.trans hone) h
    refine ⟨htyp.symm, hread, fun hscale => ?_, fun sb hsb => ?_⟩
    · cases hscale
    · cases hsb
  | quick =>
    have hone : levelCount img = 1 := by
      rw [levelCount, hhd.typ, htyp, if_neg (by decide)]
    simp only [htyp] at h
    obtain ⟨f, rfl, hread⟩ := rdVariant_single (g := .quick) (fun _ => rfl) (hlen.trans hone) h
    refine ⟨htyp.symm, hread, fun hscale => ?_, fun sb hsb => ?_⟩
    · cases hscale
    · cases hsb

theorem bloomUnmarshal_read {h : Handle} (hok : bloomUnmarshal P dommap img = .ok h) :
    ∃ hd, rdhdr img (UInt64.ofNat (img.length - 32)) = .ok hd ∧
      112 ≤ img.length ∧ Accepted P dommap img hd h.filter := by
  unfold bloomUnmarshal at hok
  simp only [bind_eq_ok, require_eq_ok, decide_eq_true_eq] at hok
  obtain ⟨-, hlen, t, -, ck, -, -, -, hd, hhd, v, hv, hpure⟩ := hok
  obtain rfl := Except.ok.inj hpure
  exact ⟨hd, hhd, hlen, rdVariant_read (headerRead hhd) hv⟩

end Accepted

/-! ## Safety -/

/-- What the users of an unmarshalled filter rely on. A call that needs no more than `2 ^ 31`
levels finds room for them. -/
structure Safe (img : List UInt8) (hd : Header) (h : Handle) : Prop where
  directory : 80 + 8 * hd.offs.length ≤ img.length - 32
  headers : ∀ o ∈ hd.offs, o.hdroff.toNat + 40 ≤ img.length - 32
  bitmaps : Forall₂ (fun o f => o.dataoff.toNat + f.bmsize.toNat ≤ img.length - 32)
    hd.offs h.filter.levels
  slots : ∀ f ∈ h.filter.levels, 1 ≤ f.m.toNat ∧
    f.m.toNat * f.k.toNat ≤ perByte h.filter.typ * f.bmsize.toNat
  nonempty : h.filter.typ = .scale → h.filter.levels ≠ []
  calls : ∀ cs : List Call, (∀ c ∈ cs, c.Sound) →
    h.filter.levels.length + cs.countP Call.grows ≤ 2 ^ 31 → (handleCalls h cs).isSome

/-- The numbers in the level header of directory entry `o` agree with each other and with the size
of the file. A bitmap for which there was no memory is never looked at if `k` is zero. -/
structure LevelAgrees (P : Platform) (dommap : Bool) (img : List UInt8) (o : OffPair) : Prop where
  m_pos : u64At img o.hdroff.toNat ≠ 0
  slots : (u64At img o.hdroff.toNat).toNat * (u64At img (o.hdroff.toNat + 8)).toNat ≤
    (if img[5]? = some 0 then 1 else 8) * (u64At img (o.hdroff.toNat + 32)).toNat
  bitmap : o.dataoff.toNat + (u64At img (o.hdroff.toNat + 32)).toNat ≤ img.length - 32
  memory : img[5]? = some 2 ∨ dommap ∨ P.alloc (u64At img (o.hdroff.toNat + 32)) ∨
    u64At img (o.hdroff.toNat + 8) = 0

/-- The conditions on the bytes of a file that `Bloom_unmarshal` does not look into. -/
structure Agrees (P : Platform) (dommap : Bool) (img : List UInt8) : Prop where
  table : img[5]? ≠ some 2 → 88 ≤ img.length - 32
  nonempty : levelCount img ≠ 0
  levels : ∀ o ∈ dirEntries img, LevelAgrees P dommap img o

section Safety
variable {img : List UInt8} {hd : Header} {P : Platform} {dommap : Bool} {h : Handle}
  {v : Variant}

theorem header_inside {sz : UInt64} (hhd : HeaderRead img sz hd) (hsz : sz.toNat < 2 ^ 63)
    {o : OffPair} (ho : o ∈ hd.offs) : o.hdroff.toNat + 40 ≤ sz.toNat := by
  obtain ⟨hhdr, hdata⟩ := hhd.range o ho
  rw [UInt64.lt_iff_toNat_lt] at hhdr hdata
  rw [hhd.offs, dirEntries, mem_map] at ho
  obtain ⟨i, -, rfl⟩ := ho
  unfold entryAt at hhdr hdata ⊢
  simp only at hhdr hdata ⊢
  have hadd : (u64At img (80 + 8 * i) + 40).toNat = (u64At img (80 + 8 * i)).toNat + 40 := by
    rw [UInt64.toNat_add]
    exact Nat.mod_eq_of_lt (show (u64At img (80 + 8 * i)).toNat + 40 < 2 ^ 64 by omega)
  have halign := TypeUtils.toNat_alignUp
    (show (u64At img (80 + 8 * i) + 40).toNat + 63 < 2 ^ 64 by omega)
  omega

theorem byte_eq_two (t : FilterType) : some t.byte = some 2 ↔ t = .scale := by
  cases t <;> decide

theorem byte_eq_zero (t : FilterType) : some t.byte = some 0 ↔ t = .counting := by
  cases t <;> decide

theorem Accepted.perByte_eq {sz : UInt64} (hacc : Accepted P dommap img hd v)
    (hhd : HeaderRead img sz hd) : perByte v.typ = if img[5]? = some 0 then 1 else 8 := by
  simp only [perByte, hacc.typ, hhd.typ, byte_eq_zero]

theorem Accepted.scale_iff {sz : UInt64} (hacc : Accepted P dommap img hd v)
    (hhd : HeaderRead img sz hd) : img[5]? = some 2 ↔ v.typ = .scale := by
  rw [hhd.typ, hacc.typ, byte_eq_two]

theorem handleFind_lost {f : Bloom} (hsingle : v = .counting f ∨ v = .quick f)
    (hlost : f.bitmap = []) (hk : f.k ≠ 0) (n e : UInt64) : handleFind ⟨n, e, v⟩ 0 = none := by
  have hpos : 0 < f.k.toNat := Nat.pos_of_ne_zero fun h0 => hk (UInt64.toNat_inj.mp h0)
  obtain ⟨j, hj⟩ := Nat.exists_eq_add_of_lt hpos
  have hparts : partitions f = 0 :: (range j).map (fun i => UInt64.ofNat (i + 1)) := by
    unfold partitions
    rw [hj, Nat.zero_add, range_succ_eq_map, map_cons, map_map]
    rfl
  rcases hsingle with rfl | rfl
  · simp only [handleFind, countingBloomFind, hparts, countingFindIn, hlost, getElem?_nil,
      Option.bind_none]
  · simp only [handleFind, standardBloomFind, hparts, findIn, testbit, hlost, getElem?_nil,
      Option.bind_none, Option.map_none]

theorem exists_right {α β : Type} {R : α → β → Prop} {as : List α} {bs : List β}
    (hr : Forall₂ R as bs) {a : α} (ha : a ∈ as) : ∃ b ∈ bs, R a b := by
  induction hr with
  | nil => exact absurd ha not_mem_nil
  | cons hab _ ih =>
    rcases mem_cons.mp ha with rfl | ha
    · exact ⟨_, mem_cons_self, hab⟩
    · obtain ⟨b, hb, hab'⟩ := ih ha
      exact ⟨b, mem_cons_of_mem _ hb, hab'⟩

theorem level_bounded {o : OffPair} {f : Bloom} {d : Nat} (hf : LevelRead P dommap img o f)
    (ho : LevelAgrees P dommap img o) (hd : d = if img[5]? = some 0 then 1 else 8)
    (hkept : img[5]? = some 2 → dommap ∨ P.alloc f.bmsize) : f.Bounded d := by
  have hslots := ho.slots
  have hbitmap := ho.bitmap
  have hmemory := ho.memory
  rw [← hd, ← hf.m, ← hf.k, ← hf.bmsize] at hslots
  rw [← hf.bmsize] at hbitmap hmemory
  rw [← hf.k] at hmemory
  have hmpos : 0 < f.m.toNat := Nat.pos_of_ne_zero fun h0 =>
    ho.m_pos (hf.m.symm.trans (UInt64.toNat_inj.mp h0))
  refine ⟨hmpos, ?_⟩
  have hin : o.dataoff.toNat + f.bmsize.toNat ≤ img.length := Nat.le_trans hbitmap (Nat.sub_le _ _)
  have hfull : (dommap ∨ P.alloc f.bmsize) → f.m.toNat * f.k.toNat ≤ d * f.bitmap.length :=
    fun hkeep => by rwa [hf.full hkeep hin]
  rcases hmemory with hscale | hmap | halloc | hzero
  · exact hfull (hkept hscale)
  · exact hfull (.inl hmap)
  · exact hfull (.inr halloc)
  · rw [hzero]
    exact Nat.zero_le _

theorem safe_of_agrees {sz : UInt64} (hhd : HeaderRead img sz hd)
    (hsz : sz.toNat = img.length - 32) (hlt : sz.toNat < 2 ^ 63)
    (hacc : Accepted P dommap img hd h.filter) (hag : Agrees P dommap img) : Safe img hd h := by
  have hlevels : ∀ o ∈ hd.offs, LevelAgrees P dommap img o := by
    rw [hhd.offs]
    exact hag.levels
  have hoffs := hhd.offs_length
  have hpos : 0 < hd.len.toNat := by
    rw [hhd.len]
    exact Nat.pos_of_ne_zero hag.nonempty
  have hper := hacc.perByte_eq hhd
  have hscale := hacc.scale_iff hhd
  -- each level of the filter comes from one offset of the image
  have hlevel : ∀ f ∈ h.filter.levels, ∃ o ∈ hd.offs, LevelRead P dommap img o f :=
    fun f hf => exists_right hacc.levels.flip hf
  have hbounded : h.filter.Bounded := by
    refine ⟨fun f hf => ?_, fun sb hsb => hacc.shape sb hsb hpos⟩
    obtain ⟨o, ho, hread⟩ := hlevel f hf
    exact level_bounded hread (hlevels o ho) hper fun h2 => hacc.kept (hscale.mp h2) f hf
  refine ⟨?_, ?_, ?_, ?_, ?_, ?_⟩
  · rw [← hsz]
    by_cases h2 : hd.typ = .scale
    · rw [hoffs, ← hhd.len]
      exact hhd.table h2
    · have hne : img[5]? ≠ some 2 := fun h => h2 (by rwa [hhd.typ, byte_eq_two] at h)
      have hone : levelCount img = 1 := if_neg hne
      rw [hoffs, hone, hsz]
      exact hag.table hne
  · intro o ho
    rw [← hsz]
    exact header_inside hhd hlt ho
  · refine Forall₂.imp (fun o f hof => ?_) ((forall₂_and_left _ _).mpr ⟨hlevels, hacc.levels⟩)
    rw [hof.2.bmsize]
    exact hof.1.bitmap
  · intro f hf
    obtain ⟨o, ho, hread⟩ := hlevel f hf
    refine ⟨(hbounded.levels f hf).m_pos, ?_⟩
    rw [hper, hread.m, hread.k, hread.bmsize]
    exact (hlevels o ho).slots
  · intro _ hnil
    have hzero := hacc.levels.length_eq
    rw [hnil, hoffs, length_nil] at hzero
    exact hag.nonempty hzero
  · exact fun cs hcs hroom => handleCalls_total hbounded hcs hroom

theorem memory_of_safe {o : OffPair} {f : Bloom} (hread : LevelRead P dommap img o f)
    (hf : f ∈ h.filter.levels) (hne : h.filter.typ ≠ .scale) (hs : Safe img hd h) :
    dommap ∨ P.alloc f.bmsize ∨ f.k = 0 := by
  by_contra hno
  simp only [not_or] at hno
  have hlost : f.bitmap = [] := hread.lost fun h => h.elim hno.1 hno.2.1
  have hsingle : h.filter = .counting f ∨ h.filter = .quick f := by
    revert hf hne
    cases h.filter with
    | counting g => exact fun hf _ => .inl (by rw [mem_singleton.mp hf])
    | quick g => exact fun hf _ => .inr (by rw [mem_singleton.mp hf])
    | scale sb => exact fun _ hne => absurd rfl hne
  have hone : h.filter.levels.length = 1 := by
    rcases hsingle with h1 | h1
    · rw [h1]
      rfl
    · rw [h1]
      rfl
  have hcall := hs.calls [.find 0] (fun c hc => by rw [mem_singleton.mp hc]; trivial)
    (by rw [hone]; exact (by decide : 1 + 0 ≤ 2 ^ 31))
  have hfind := handleFind_lost hsingle hlost hno.2.2 h.n h.e
  rw [handleCalls, foldlM_cons, handleCall, hfind] at hcall
  cases hcall

theorem agrees_of_safe {sz : UInt64} (hhd : HeaderRead img sz hd)
    (hacc : Accepted P dommap img hd h.filter) (hs : Safe img hd h) : Agrees P dommap img := by
  have hoffs := hhd.offs_length
  have hper := hacc.perByte_eq hhd
  have hscale := hacc.scale_iff hhd
  refine ⟨fun hne => ?_, fun hzero => ?_, fun o ho => ?_⟩
  · have hdir := hs.directory
    have hone : levelCount img = 1 := if_neg hne
    rwa [hoffs, hone] at hdir
  · have h2 : img[5]? = some 2 := by
      by_contra hne
      rw [levelCount, if_neg hne] at hzero
      cases hzero
    apply hs.nonempty (hscale.mp h2)
    apply eq_nil_of_length_eq_zero
    rw [← hacc.levels.length_eq, hoffs, hzero]
  · rw [← hhd.offs] at ho
    have hboth := Forall₂.mp (fun _ _ ha hb => And.intro ha hb) hacc.levels hs.bitmaps
    obtain ⟨f, hf, hread, hbitmap⟩ := exists_right hboth ho
    obtain ⟨hm, hslots⟩ := hs.slots f hf
    refine ⟨fun h0 => ?_, ?_, ?_, ?_⟩
    · rw [hread.m, h0] at hm
      exact absurd hm (by decide)
    · rwa [hper, hread.m, hread.k, hread.bmsize] at hslots
    · rwa [hread.bmsize] at hbitmap
    · rw [← hread.bmsize, ← hread.k]
      by_cases h2 : h.filter.typ = .scale
      · exact .inl (hscale.mpr h2)
      · exact .inr (memory_of_safe hread hf h2 hs)

def sampleFile : List UInt8 :=
  magic ++ [0, 1, 0, 0] ++ encLEu64 10 ++ encLEu64 0 ++ encLEu64 129 ++ replicate 32 0 ++
    [1, 0, 0, 0] ++ replicate 12 0 ++ encLEu64 88 ++
    encLEu64 8 ++ encLEu64 1 ++ encLEu64 7 ++ encLEu64 1 ++ encLEu64 1 ++ [4]

def sampleDigest : List UInt8 :=
  [111, 2, 124, 177, 187, 107, 193, 21, 19, 49, 196, 123, 47, 200, 68, 131, 147, 88, 132, 53, 21,
    14, 146, 246, 178, 171, 207, 151, 155, 137, 34, 247]

def emptyFile : List UInt8 :=
  magic ++ [0, 2, 0, 0] ++ encLEu64 0 ++ encLEu64 0 ++ encLEu64 80 ++ replicate 32 0 ++
    replicate 16 0

def emptyDigest : List UInt8 :=
  [184, 136, 165, 126, 196, 191, 162, 218, 43, 47, 32, 192, 168, 5, 26, 209, 31, 123, 26, 68, 229,
    25, 194, 171, 98, 198, 202, 159, 176, 127, 173, 106]

end Safety
end PortableLib.BloomFilter
