import PortableLib.BloomFilter.Marshal
import Mathlib.Order.Basic

/-! A marshalled filter reads back as it was: the pieces are laid out one after the other, the
offset that is not stored is the aligned one, and no check of the reader rejects the image. -/

namespace PortableLib.BloomFilter
open List Encdec Image

/-! ## Layout -/

def align64 (n : Nat) : Nat := (n + 63) / 64 * 64

theorem le_align64 (n : Nat) : n ≤ align64 n := by
  unfold align64
  omega

def layoutEnd : Nat → List Bloom → Nat
  | sz, [] => sz
  | sz, f :: fs => layoutEnd (align64 (align64 (sz + 40) + f.bmsize.toNat)) fs

/-- The size of the marshalled data, without the checksum and computed without wrapping. -/
def dataSize (v : Variant) : Nat := layoutEnd (align64 (80 + 8 * v.levels.length)) v.levels

def Placed : Nat → List (OffPair × Bloom) → Nat → Prop
  | lo, [], hi => lo ≤ hi
  | lo, p :: ps, hi => lo ≤ p.1.hdroff.toNat ∧ p.1.hdroff.toNat + 40 ≤ p.1.dataoff.toNat ∧
      Placed (p.1.dataoff.toNat + p.2.bmsize.toNat) ps hi

section Layout
variable {lo lo' hi : Nat} {ps : List (OffPair × Bloom)} {p : OffPair × Bloom} {fs : List Bloom}

theorem Placed.mono (h : Placed lo ps hi) (hle : lo' ≤ lo) : Placed lo' ps hi := by
  cases ps with
  | nil => exact Nat.le_trans hle h
  | cons p ps => exact ⟨hle.trans h.1, h.2⟩

theorem layoutEnd_ge (sz : Nat) (fs : List Bloom) : sz ≤ layoutEnd sz fs := by
  induction fs generalizing sz with
  | nil => exact le_rfl
  | cons f fs ih =>
    have h₁ := le_align64 (sz + 40)
    have h₂ := le_align64 (align64 (sz + 40) + f.bmsize.toNat)
    have h₃ := ih (align64 (align64 (sz + 40) + f.bmsize.toNat))
    rw [layoutEnd]
    omega

theorem toNat_add_of_lt {a b : UInt64} (h : a.toNat + b.toNat < 2 ^ 64) :
    (a + b).toNat = a.toNat + b.toNat := by
  rw [UInt64.toNat_add, Nat.mod_eq_of_lt h]

theorem toNat_alignUp_add {a b : UInt64} (h : a.toNat + b.toNat + 63 < 2 ^ 64) :
    (TypeUtils.alignUp (a + b) 64).toNat = align64 (a.toNat + b.toNat) := by
  have hadd : (a + b).toNat = a.toNat + b.toNat := toNat_add_of_lt (by omega)
  rw [TypeUtils.toNat_alignUp (by omega), hadd, align64]

theorem layout_spec (sz : UInt64) (fs : List Bloom) (h : layoutEnd sz.toNat fs < 2 ^ 63) :
    (layout sz fs).2.toNat = layoutEnd sz.toNat fs ∧ (layout sz fs).1.length = fs.length ∧
      Placed sz.toNat ((layout sz fs).1.zip fs) (layout sz fs).2.toNat ∧
      ∀ o ∈ (layout sz fs).1, o.dataoff = TypeUtils.alignUp (o.hdroff + 40) 64 := by
  induction fs generalizing sz with
  | nil => exact ⟨rfl, rfl, le_rfl, fun o ho => (not_mem_nil ho).elim⟩
  | cons f fs ih =>
    rw [layoutEnd] at h
    have hge := layoutEnd_ge (align64 (align64 (sz.toNat + 40) + f.bmsize.toNat)) fs
    have h₁ := le_align64 (sz.toNat + 40)
    have h₂ := le_align64 (align64 (sz.toNat + 40) + f.bmsize.toNat)
    have hdata : (TypeUtils.alignUp (sz + 40) 64).toNat = align64 (sz.toNat + 40) :=
      toNat_alignUp_add (b := 40) (by rw [show (40 : UInt64).toNat = 40 from rfl]; omega)
    have hnext : (TypeUtils.alignUp (TypeUtils.alignUp (sz + 40) 64 + f.bmsize) 64).toNat =
        align64 (align64 (sz.toNat + 40) + f.bmsize.toNat) := by
      rw [toNat_alignUp_add, hdata]
      rw [hdata]
      omega
    obtain ⟨hend, hlen, hplaced, halign⟩ := ih _ (hnext.symm ▸ h)
    refine ⟨?_, congrArg (· + 1) hlen, ⟨le_rfl, ?_, ?_⟩, ?_⟩
    · rw [layoutEnd, ← hnext]
      exact hend
    · exact h₁.trans_eq hdata.symm
    · apply hplaced.mono
      rw [hnext, hdata]
      exact h₂
    · intro o ho
      rcases mem_cons.mp ho with rfl | ho
      · rfl
      · exact halign o ho

theorem Placed.le (h : Placed lo ps hi) : lo ≤ hi := by
  induction ps generalizing lo with
  | nil => exact h
  | cons p ps ih =>
    have := ih h.2.2
    have := h.1
    have := h.2.1
    omega

theorem Placed.bounds (h : Placed lo ps hi) (hp : p ∈ ps) :
    p.1.hdroff.toNat + 40 ≤ p.1.dataoff.toNat ∧
      p.1.dataoff.toNat + p.2.bmsize.toNat ≤ hi := by
  induction ps generalizing lo with
  | nil => exact (not_mem_nil hp).elim
  | cons q ps ih =>
    rcases mem_cons.mp hp with rfl | hp
    · exact ⟨h.2.1, h.2.2.le⟩
    · exact ih h.2.2 hp

def levelRanges (p : OffPair × Bloom) : List (Nat × Nat) :=
  [(p.1.hdroff.toNat, 40), (p.1.dataoff.toNat, p.2.bmsize.toNat)]

theorem Placed.laid (h : Placed lo ps hi) : Laid lo (ps.flatMap levelRanges) hi := by
  induction ps generalizing lo with
  | nil => exact h
  | cons p ps ih => exact ⟨h.1, h.2.1, ih h.2.2⟩

end Layout

/-! ## Words -/

section Words
variable {img : List UInt8} {p : Nat}

theorem rdU64_of_read {v : UInt64} (h : readAt img p 8 = some (encLEu64 v)) :
    rdU64 img p = .ok v := by
  refine rdU64_eq_ok.mpr ⟨_, h, ?_⟩
  have hlen : (encLEu64 v).length = 8 := length_encLE 8 v
  rw [decLEu64, take_of_length_le (by omega), encLEu64, decLE_encLE (by decide), trunc,
    show 256 ^ 8 = 2 ^ 64 from rfl, Nat.mod_eq_of_lt v.toNat_lt, UInt64.ofNat_toNat]

theorem rdU32_of_read {v : UInt32} (h : readAt img p 4 = some (encLEu32 v.toUInt64)) :
    rdU32 img p = .ok v := by
  refine rdU32_eq_ok.mpr ⟨_, h, ?_⟩
  have hlen : (encLEu32 v.toUInt64).length = 4 := length_encLE 4 _
  have hlt : v.toUInt64.toNat < 256 ^ 4 := by
    rw [UInt32.toNat_toUInt64]
    exact v.toNat_lt
  rw [decLEu32, take_of_length_le (by omega), encLEu32, decLE_encLE (by decide), trunc,
    Nat.mod_eq_of_lt hlt, UInt64.ofNat_toNat]
  exact UInt32.toUInt32_toUInt64 v

theorem rdU8_of_read {b : UInt8} (h : readAt img p 1 = some [b]) : rdU8 img p = .ok b := by
  have hget := (readAt_eq_some_iff.mp h).2.2 0 (by decide)
  exact orElse_eq_ok.mpr hget

end Words

/-! ## Stores -/

def storeRange (w : Nat × List UInt8) : Nat × Nat := (w.1, w.2.length)

/-- A level as it comes out of the filter code, with a bitmap of the size it states. -/
structure Bloom.Stored (f : Bloom) : Prop where
  m_pos : 1 ≤ f.m.toNat
  k_pos : 1 ≤ f.k.toNat
  bmsize_pos : 1 ≤ f.bmsize.toNat
  len : f.bitmap.length = f.bmsize.toNat

def Variant.Valid : Variant → Prop
  | .counting f => f.Stored
  | .quick f => f.Stored
  | .scale sb => sb.bfa.length = sb.len.toNat ∧ 1 ≤ sb.len.toNat ∧ sb.len.toNat ≤ 1048576 ∧
      ∀ f ∈ sb.bfa, f.Stored

section Stores
variable {lo hi : Nat} {ps : List (OffPair × Bloom)} {v : Variant} {offs : List OffPair}

theorem laid_wrOffs (p : Nat) (offs : List OffPair) :
    Laid p ((wrOffs p offs).map storeRange) (p + 8 * offs.length) := by
  induction offs generalizing p with
  | nil => exact le_rfl
  | cons o os ih =>
    have hlen : (encLEu64 o.hdroff).length = 8 := length_encLE 8 _
    refine ⟨le_rfl, ?_⟩
    have hos := ih (p + 8)
    simp only [storeRange, hlen, length_cons]
    rwa [show p + 8 * (os.length + 1) = p + 8 + 8 * os.length by omega]

theorem length_encLEu64 (v : UInt64) : (encLEu64 v).length = 8 := length_encLE 8 v

theorem length_encLEu32 (v : UInt64) : (encLEu32 v).length = 4 := length_encLE 4 v

theorem Placed.stores_laid (h : Placed lo ps hi) (hps : ∀ p ∈ ps, p.2.Stored) :
    Laid lo ((ps.flatMap fun p => wrfilter p.1 p.2).map storeRange) hi := by
  induction ps generalizing lo with
  | nil => exact h
  | cons p ps ih =>
    obtain ⟨hlo, hhdr, hrest⟩ := h
    have hlen : (p.2.bitmap.take p.2.bmsize.toNat).length = p.2.bmsize.toNat := by
      rw [length_take, (hps p mem_cons_self).len, Nat.min_self]
    have hih := ih hrest fun q hq => hps q (mem_cons_of_mem p hq)
    have hfirst : Laid lo ((wrfilter p.1 p.2).map storeRange)
        (p.1.dataoff.toNat + p.2.bmsize.toNat) := by
      simp only [wrfilter, map_cons, map_nil, storeRange, length_encLEu64, hlen, Laid]
      omega
    rw [flatMap_cons, map_append]
    exact hfirst.append hih

theorem Variant.Valid.stored (h : v.Valid) : ∀ f ∈ v.levels, f.Stored := by
  cases v with
  | counting f => exact fun g hg => by rwa [mem_singleton.mp hg]
  | quick f => exact fun g hg => by rwa [mem_singleton.mp hg]
  | scale sb => exact fun g hg => h.2.2.2 g (mem_of_mem_take hg)

theorem Variant.Valid.levels_length (h : v.Valid) :
    1 ≤ v.levels.length ∧ v.levels.length ≤ 1048576 := by
  cases v with
  | counting f => exact ⟨le_rfl, (by decide : 1 ≤ 1048576)⟩
  | quick f => exact ⟨le_rfl, (by decide : 1 ≤ 1048576)⟩
  | scale sb =>
    obtain ⟨hlen, hpos, hle, -⟩ := h
    rw [Variant.levels, ← hlen, take_length, hlen]
    exact ⟨hpos, hle⟩

theorem toNat_tableEnd (h : v.Valid) :
    (tableEnd v).toNat = align64 (80 + 8 * v.levels.length) := by
  obtain ⟨-, hmax⟩ := h.levels_length
  cases v with
  | counting f =>
    rw [Variant.levels, length_singleton]
    exact (by decide : (TypeUtils.alignUp (64 + 16 + 8) 64).toNat = 128)
  | quick f =>
    rw [Variant.levels, length_singleton]
    exact (by decide : (TypeUtils.alignUp (64 + 16 + 8) 64).toNat = 128)
  | scale sb =>
    obtain ⟨hlen, hpos, hle, -⟩ := h
    have hlevels : (Variant.scale sb).levels.length = sb.len.toNat := by
      rw [Variant.levels, ← hlen, take_length]
    have hmul : (sb.len * 8).toUInt64.toNat = 8 * sb.len.toNat := by
      rw [UInt32.toNat_toUInt64, UInt32.toNat_mul, show (8 : UInt32).toNat = 8 from rfl]
      omega
    have h80 : (64 + 16 : UInt64).toNat = 80 := rfl
    rw [tableEnd, toNat_alignUp_add, hmul, h80, hlevels]
    rw [hmul, h80]
    omega

theorem wrhdr_laid {h : Handle} {ck : CkType} {datasize : UInt64}
    (hoffs : offs.length = h.filter.levels.length) :
    Laid 0 ((wrhdr h ck datasize offs).tail.map storeRange) (80 + 8 * h.filter.levels.length) := by
  have hmagic : magic.length = 4 := rfl
  have htake : ∀ f, h.filter.levels = [f] → offs.take 1 = offs := by
    intro f hf
    rw [hf] at hoffs
    exact take_of_length_le hoffs.le
  have hdir := laid_wrOffs 80 offs
  rw [← hoffs]
  unfold wrhdr
  rw [tail_append_of_ne_nil (cons_ne_nil _ _), map_append]
  apply Laid.append
  · show Laid 0 _ 64
    simp only [tail_cons, map_cons, map_nil, storeRange, length_encLEu64, hmagic, length_singleton,
      Laid]
    omega
  · cases hfil : h.filter with
    | scale sb =>
      have hparams : Laid 64 ([(64, encLEu32 sb.len.toUInt64), (68, encLEu32 sb.scale.toUInt64),
          (72, encLEu64 sb.r)].map storeRange) 80 := by
        simp only [map_cons, map_nil, storeRange, length_encLEu64, length_encLEu32, Laid]
        omega
      simp only [map_append]
      exact hparams.append hdir
    | counting f =>
      simp only [htake f (by rw [hfil]; rfl), map_cons, storeRange, length_encLEu32]
      exact ⟨le_rfl, hdir.mono (by decide)⟩
    | quick f =>
      simp only [htake f (by rw [hfil]; rfl), map_cons, storeRange, length_encLEu32]
      exact ⟨le_rfl, hdir.mono (by decide)⟩

end Stores

/-! ## Reading back -/

def Reads (img : List UInt8) (ws : List (Nat × List UInt8)) : Prop :=
  ∀ w ∈ ws, readAt img w.1 w.2.length = some w.2

section Reading
variable {img : List UInt8} {offs : List OffPair} {sz : UInt64} {P : Platform} {dommap : Bool}
  {ps : List (OffPair × Bloom)}

theorem rdOff_of_read {o : OffPair} {p : Nat} (hread : readAt img p 8 = some (encLEu64 o.hdroff))
    (hhdr : o.hdroff < sz) (hdata : o.dataoff < sz)
    (halign : o.dataoff = TypeUtils.alignUp (o.hdroff + 40) 64) : rdOff img sz p = .ok o := by
  unfold rdOff
  rw [rdU64_of_read hread, ok_bind, ← halign]
  simp only [require_of hhdr, require_of hdata, ok_bind]
  rfl

theorem rdOffs_of_reads {p : Nat} (hreads : Reads img (wrOffs p offs))
    (hoffs : ∀ o ∈ offs, o.hdroff < sz ∧ o.dataoff < sz ∧
      o.dataoff = TypeUtils.alignUp (o.hdroff + 40) 64) :
    rdOffs img sz p offs.length = .ok offs := by
  induction offs generalizing p with
  | nil => rfl
  | cons o os ih =>
    obtain ⟨hhdr, hdata, halign⟩ := hoffs o mem_cons_self
    have hread := hreads _ mem_cons_self
    simp only [length_encLEu64] at hread
    have hos := ih (p := p + 8) (fun w hw => hreads w (mem_cons_of_mem _ hw))
      fun o' ho' => hoffs o' (mem_cons_of_mem o ho')
    rw [length_cons, rdOffs, rdOff_of_read hread hhdr hdata halign, ok_bind, hos]
    rfl

theorem rdfilter_of_reads {o : OffPair} {f : Bloom} (hreads : Reads img (wrfilter o f))
    (hf : f.Stored) (halloc : dommap = false → P.alloc f.bmsize = true) :
    rdfilter P dommap img o = .ok (f, none) := by
  have hbitmap : f.bitmap.take f.bmsize.toNat = f.bitmap := take_of_length_le hf.len.le
  unfold Reads wrfilter at hreads
  simp only [forall_mem_cons, length_encLEu64, hbitmap, hf.len] at hreads
  obtain ⟨hm, hk, hsalt, hsize, hbmsize, hdata, -⟩ := hreads
  unfold rdfilter
  simp only [rdU64_of_read hm, rdU64_of_read hk, rdU64_of_read hsalt, rdU64_of_read hsize,
    rdU64_of_read hbmsize, ok_bind]
  cases dommap with
  | true =>
    have hslice : (img.drop o.dataoff.toNat).take f.bmsize.toNat = f.bitmap := by
      unfold readAt at hdata
      split_ifs at hdata
      exact Option.some.inj hdata
    rw [if_pos rfl, hslice]
    rfl
  | false =>
    rw [if_neg nofun, if_pos (halloc rfl), rd_eq_ok.mpr hdata]
    rfl

theorem rdfilters_of_reads (hreads : Reads img (ps.flatMap fun p => wrfilter p.1 p.2))
    (hps : ∀ p ∈ ps, p.2.Stored)
    (halloc : dommap = false → ∀ p ∈ ps, P.alloc p.2.bmsize = true) :
    rdfilters P dommap img (ps.map Prod.fst) = .ok (ps.map Prod.snd) := by
  induction ps with
  | nil => rfl
  | cons p ps ih =>
    have hp := rdfilter_of_reads (P := P) (fun w hw => hreads w (mem_append_left _ hw))
      (hps p mem_cons_self) fun h => halloc h p mem_cons_self
    have hrest := ih (fun w hw => hreads w (mem_append_right _ hw))
      (fun q hq => hps q (mem_cons_of_mem p hq)) fun h q hq => halloc h q (mem_cons_of_mem p hq)
    rw [map_cons, rdfilters, hp, ok_bind, hrest]
    rfl

end Reading

/-! ## The whole image -/

section Whole
variable {P : Platform} {h : Handle} {img : List UInt8}

def regions (v : Variant) : List (Nat × Nat) :=
  (0, 64) :: (64, 16 + 8 * v.levels.length) ::
    ((calcMarshalSize v).1.zip v.levels).flatMap levelRanges

structure LaidOut (v : Variant) : Prop where
  size : (calcMarshalSize v).2.toNat = dataSize v
  offs : (calcMarshalSize v).1.length = v.levels.length
  placed : Placed (align64 (80 + 8 * v.levels.length)) ((calcMarshalSize v).1.zip v.levels)
    (dataSize v)
  aligned : ∀ o ∈ (calcMarshalSize v).1, o.dataoff = TypeUtils.alignUp (o.hdroff + 40) 64

theorem laidOut {v : Variant} (hv : v.Valid) (hsize : dataSize v < 2 ^ 63) : LaidOut v := by
  have hend := toNat_tableEnd hv
  obtain ⟨hds, hlen, hplaced, halign⟩ :=
    layout_spec (tableEnd v) v.levels (by rw [hend]; exact hsize)
  rw [hds, hend] at hplaced
  exact ⟨by rw [calcMarshalSize, hds, hend]; rfl, hlen, hplaced, halign⟩

theorem regions_laid {v : Variant} (hl : LaidOut v) : Laid 0 (regions v) (dataSize v) := by
  have hle := le_align64 (80 + 8 * v.levels.length)
  refine ⟨le_rfl, le_rfl, hl.placed.laid.mono ?_⟩
  simp only
  omega

/-- The stores of `Bloom_marshal` before the checksum. -/
def stores (h : Handle) : List (Nat × List UInt8) :=
  wrhdr h .sha256 (calcMarshalSize h.filter).2 (calcMarshalSize h.filter).1 ++
    ((calcMarshalSize h.filter).1.zip h.filter.levels).flatMap fun p => wrfilter p.1 p.2

theorem stores_eq_cons (h : Handle) : stores h = (0, replicate 64 0) :: (stores h).tail := rfl

theorem stores_laid (hv : h.filter.Valid) (hl : LaidOut h.filter) :
    Laid 0 ((stores h).tail.map storeRange) (dataSize h.filter) := by
  have hle := le_align64 (80 + 8 * h.filter.levels.length)
  have hlevels := hl.placed.stores_laid fun p hp => hv.stored p.2 (of_mem_zip hp).2
  have hne : wrhdr h .sha256 (calcMarshalSize h.filter).2 (calcMarshalSize h.filter).1 ≠ [] := nofun
  rw [stores, tail_append_of_ne_nil hne, map_append]
  exact (wrhdr_laid hl.offs).append (hlevels.mono hle)

theorem writeAt_zeros {n : Nat} (hn : 64 ≤ n) :
    writeAt (replicate n (0 : UInt8)) 0 (replicate 64 0) = some (replicate n 0) := by
  have hfits : 0 + (replicate 64 (0 : UInt8)).length ≤ (replicate n (0 : UInt8)).length := by
    rw [length_replicate, length_replicate, Nat.zero_add]
    exact hn
  have hsum : 64 + (n - 64) = n := Nat.add_sub_cancel' hn
  rw [writeAt, if_pos hfits, take_zero, nil_append, length_replicate, Nat.zero_add,
    drop_replicate, replicate_append_replicate, hsum]

theorem bloomMarshal_spec (hv : h.filter.Valid) (hsize : dataSize h.filter + 32 < 2 ^ 63) :
    ∃ img, bloomMarshal P h = some img ∧ img.length = dataSize h.filter + 32 ∧
      Reads img (stores h).tail ∧
      img.drop (dataSize h.filter) = P.digest .sha256 (img.take (dataSize h.filter)) := by
  have hl := laidOut hv (by omega)
  have hge : 64 ≤ dataSize h.filter := by
    have h₁ := (regions_laid hl).bounds (r := (0, 64)) mem_cons_self
    omega
  have htotal : (32 + (calcMarshalSize h.filter).2).toNat = dataSize h.filter + 32 := by
    rw [toNat_add_of_lt, hl.size, show (32 : UInt64).toNat = 32 from rfl, Nat.add_comm]
    rw [hl.size, show (32 : UInt64).toNat = 32 from rfl]
    omega
  have hzeros : dataSize h.filter ≤ (replicate (dataSize h.filter + 32) (0 : UInt8)).length := by
    rw [length_replicate]
    omega
  obtain ⟨img₁, hwrite, hlen, hreads, -⟩ := writeAll_laid (stores_laid hv hl) hzeros
  rw [length_replicate] at hlen
  have hdig := P.length_digest .sha256 (img₁.take (dataSize h.filter))
  obtain ⟨img, himg⟩ : ∃ img, writeAt img₁ (dataSize h.filter)
      (P.digest .sha256 (img₁.take (dataSize h.filter))) = some img := ⟨_, if_pos (by omega)⟩
  have hsplit : img = img₁.take (dataSize h.filter) ++
      P.digest .sha256 (img₁.take (dataSize h.filter)) := by
    rw [writeAt, if_pos (by omega)] at himg
    rw [← Option.some.inj himg, drop_of_length_le (by omega), append_nil]
  have htake : (img₁.take (dataSize h.filter)).length = dataSize h.filter := by
    rw [length_take]
    omega
  refine ⟨img, ?_, (writeAt_length himg).trans hlen, fun w hw => ?_, ?_⟩
  · have hstores : writeAll (replicate (dataSize h.filter + 32) 0) (stores h) = some img₁ := by
      rw [stores_eq_cons, writeAll, foldlM_cons, writeAt_zeros (by omega), Option.bind_eq_bind,
        Option.bind_some, ← writeAll]
      exact hwrite
    rw [bloomMarshal, htotal]
    simp only [← stores.eq_1, hstores, Option.bind_some, hl.size, himg]
  · rw [readAt_writeAt_of_apart himg, hreads w hw]
    have hb := (stores_laid hv hl).bounds (mem_map_of_mem hw)
    exact .inl hb.2
  · rw [hsplit, drop_left' htake, take_left' htake]

def directory : Variant → List OffPair → UInt32 × UInt32 × UInt64 × List OffPair
  | .scale sb, offs => (sb.len, sb.scale, sb.r, offs)
  | _, offs => (1, 0, 0, offs)

theorem filterType_byte (t : FilterType) : filterType t.byte = some t := by
  cases t <;> rfl

variable {sz : UInt64}

theorem rdDirScale_of_reads {sb : ScaleFilter} {offs : List OffPair}
    (hlen : offs.length = sb.len.toNat)
    (hmax : sb.len.toNat ≤ 1048576) (hsz : 80 + 8 * sb.len.toNat ≤ sz.toNat)
    (hoffs : ∀ o ∈ offs, o.hdroff < sz ∧ o.dataoff < sz ∧
      o.dataoff = TypeUtils.alignUp (o.hdroff + 40) 64)
    (hreads : Reads img ([(64, encLEu32 sb.len.toUInt64), (68, encLEu32 sb.scale.toUInt64),
      (72, encLEu64 sb.r)] ++ wrOffs 80 offs)) :
    rdDirScale img sz = .ok (sb.len, sb.scale, sb.r, offs) := by
  unfold Reads at hreads
  simp only [cons_append, nil_append, forall_mem_cons, length_encLEu64, length_encLEu32] at hreads
  obtain ⟨hn, hscale, hr, hdir⟩ := hreads
  have hle : sb.len ≤ 1048576 := UInt32.le_iff_toNat_le.mpr hmax
  have havail : (sb.len * 8).toUInt64 ≤ sz - 64 - 16 := by
    have h64 : (sz - 64).toNat = sz.toNat - 64 :=
      UInt64.toNat_sub_of_le _ _ (UInt64.le_iff_toNat_le.mpr (show 64 ≤ sz.toNat by omega))
    have h16 : (sz - 64 - 16).toNat = sz.toNat - 64 - 16 := by
      have hle16 : 16 ≤ sz - 64 := UInt64.le_iff_toNat_le.mpr (show 16 ≤ (sz - 64).toNat by omega)
      rw [UInt64.toNat_sub_of_le _ _ hle16, h64]
      rfl
    rw [UInt64.le_iff_toNat_le, h16, UInt32.toNat_toUInt64, UInt32.toNat_mul,
      show (8 : UInt32).toNat = 8 from rfl]
    omega
  have hos := rdOffs_of_reads hdir hoffs
  rw [hlen] at hos
  unfold rdDirScale
  simp only [rdU32_of_read hn, rdU32_of_read hscale, rdU64_of_read hr, ok_bind, require_of hle,
    require_of havail, hos]
  rfl

theorem rdDirSingle_of_reads {o : OffPair} (hhdr : o.hdroff < sz) (hdata : o.dataoff < sz)
    (halign : o.dataoff = TypeUtils.alignUp (o.hdroff + 40) 64)
    (hreads : Reads img ((64, encLEu32 1) :: wrOffs 80 [o])) :
    rdDirSingle img sz = .ok (1, 0, 0, [o]) := by
  unfold Reads wrOffs at hreads
  simp only [forall_mem_cons, length_encLEu64, length_encLEu32] at hreads
  obtain ⟨hn, ho, -⟩ := hreads
  have hone : rdU32 img 64 = .ok 1 := rdU32_of_read hn
  unfold rdDirSingle
  simp only [hone, ok_bind, rdOff_of_read ho hhdr hdata halign]
  rfl

def dirStores (v : Variant) (offs : List OffPair) : List (Nat × List UInt8) :=
  match v with
  | .scale sb => [(64, encLEu32 sb.len.toUInt64), (68, encLEu32 sb.scale.toUInt64),
      (72, encLEu64 sb.r)] ++ wrOffs 80 offs
  | _ => (64, encLEu32 1) :: wrOffs 80 (offs.take 1)

theorem stores_tail_eq (h : Handle) : (stores h).tail =
    (0, magic) :: (4, [0]) :: (5, [h.filter.typ.byte]) :: (6, [0]) :: (7, [CkType.sha256.byte]) ::
      (8, encLEu64 h.n) :: (16, encLEu64 h.e) :: (24, encLEu64 (calcMarshalSize h.filter).2) ::
      (dirStores h.filter (calcMarshalSize h.filter).1 ++
        ((calcMarshalSize h.filter).1.zip h.filter.levels).flatMap fun p => wrfilter p.1 p.2) := rfl

theorem offs_in_range {v : Variant} (hv : v.Valid) (hl : LaidOut v) (hsz : sz.toNat = dataSize v) :
    ∀ o ∈ (calcMarshalSize v).1, o.hdroff < sz ∧ o.dataoff < sz ∧
      o.dataoff = TypeUtils.alignUp (o.hdroff + 40) 64 := by
  intro o ho
  rw [← map_fst_zip hl.offs.le] at ho
  obtain ⟨p, hp, rfl⟩ := mem_map.mp ho
  have hb := hl.placed.bounds hp
  have hpos := (hv.stored p.2 (of_mem_zip hp).2).bmsize_pos
  rw [UInt64.lt_iff_toNat_lt, UInt64.lt_iff_toNat_lt]
  exact ⟨by omega, by omega, hl.aligned _ (of_mem_zip hp).1⟩

theorem rdDir_of_reads {v : Variant} (hv : v.Valid) (hl : LaidOut v)
    (hsz : sz.toNat = dataSize v) (hreads : Reads img (dirStores v (calcMarshalSize v).1)) :
    rdDir v.typ img sz = .ok (directory v (calcMarshalSize v).1) := by
  have hrange := offs_in_range hv hl hsz
  have hsingle : ∀ f, v.levels = [f] → Reads img ((64, encLEu32 1) ::
      wrOffs 80 ((calcMarshalSize v).1.take 1)) →
      rdDirSingle img sz = .ok (1, 0, 0, (calcMarshalSize v).1) := by
    intro f hf hr
    have hlen := hl.offs
    rw [hf, length_singleton] at hlen
    obtain ⟨o, ho⟩ := length_eq_one_iff.mp hlen
    rw [ho] at hr hrange ⊢
    obtain ⟨hhdr, hdata, halign⟩ := hrange o mem_cons_self
    exact rdDirSingle_of_reads hhdr hdata halign hr
  cases v with
  | counting f => exact (if_neg nofun).trans (hsingle f rfl hreads)
  | quick f => exact (if_neg nofun).trans (hsingle f rfl hreads)
  | scale sb =>
    obtain ⟨hbfa, hpos, hmax, -⟩ := hv
    have hlevels : (Variant.scale sb).levels.length = sb.len.toNat := by
      rw [Variant.levels, ← hbfa, take_length]
    have hle := le_align64 (80 + 8 * (Variant.scale sb).levels.length)
    have hge := hl.placed.le
    have hdir := rdDirScale_of_reads (hl.offs.trans hlevels) hmax (by omega) hrange hreads
    exact (if_pos rfl).trans hdir

theorem rdhdr_of_reads (hv : h.filter.Valid) (hl : LaidOut h.filter)
    (hsz : (calcMarshalSize h.filter).2 = sz) (hreads : Reads img (stores h).tail) :
    ∃ hd, rdhdr img sz = .ok hd ∧ hd.typ = h.filter.typ ∧ hd.n = h.n ∧ hd.e = h.e ∧
      (hd.len, hd.scale, hd.r, hd.offs) = directory h.filter (calcMarshalSize h.filter).1 := by
  have hds := hl.size
  rw [hsz] at hds
  rw [stores_tail_eq] at hreads
  unfold Reads at hreads
  simp only [forall_mem_cons, length_encLEu64, length_singleton] at hreads
  obtain ⟨hmagic, hver, htyp, hhash, -, hn, he, hsize, hrest⟩ := hreads
  have hmagic' : rd img 0 4 = .ok magic := rd_eq_ok.mpr hmagic
  have hdir := rdDir_of_reads hv hl hds fun w hw => hrest w (mem_append_left _ hw)
  have hge : 64 + 16 ≤ sz := by
    have hle := le_align64 (80 + 8 * h.filter.levels.length)
    have hplaced := hl.placed.le
    rw [UInt64.le_iff_toNat_le, show (64 + 16 : UInt64).toNat = 80 from rfl]
    omega
  have htype : orElse (filterType h.filter.typ.byte) (.errno .ebadf) = .ok h.filter.typ :=
    orElse_eq_ok.mpr (filterType_byte _)
  refine ⟨⟨h.filter.typ, h.n, h.e, _, _, _, _⟩, ?_, rfl, rfl, rfl, rfl⟩
  unfold rdhdr
  simp only [require_of hge, hmagic', rdU8_of_read hver, rdU8_of_read htyp,
    rdU8_of_read hhash, rdU64_of_read hn, rdU64_of_read he, rdU64_of_read hsize, htype, hdir,
    hsz, ok_bind]
  rfl

theorem bloomEq_refl (f : Bloom) : bloomEq f f = true := by
  simp only [bloomEq, decide_true, Bool.and_self]

theorem levelsEq_refl {n : Nat} {fs : List Bloom} (hn : n ≤ fs.length) :
    levelsEq n fs fs = true := by
  induction fs generalizing n with
  | nil =>
    rw [Nat.le_zero.mp hn]
    rfl
  | cons f fs ih =>
    cases n with
    | zero => rfl
    | succ n => rw [levelsEq, bloomEq_refl, ih (Nat.le_of_succ_le_succ hn), Bool.and_self]

theorem rdVariant_of_reads {v : Variant} {dommap : Bool} {hd : Header} (hv : v.Valid)
    (hl : LaidOut v) (halloc : dommap = false → ∀ f ∈ v.levels, P.alloc f.bmsize = true)
    (hreads : Reads img (((calcMarshalSize v).1.zip v.levels).flatMap fun p => wrfilter p.1 p.2))
    (htyp : hd.typ = v.typ)
    (hdir : (hd.len, hd.scale, hd.r, hd.offs) = directory v (calcMarshalSize v).1) :
    ∃ w, rdVariant P dommap img hd = .ok w ∧ ∀ n e, handleEq P ⟨n, e, v⟩ ⟨n, e, w⟩ = true := by
  have hps := rdfilters_of_reads hreads (fun p hp => hv.stored p.2 (of_mem_zip hp).2)
    fun h p hp => halloc h p.2 (of_mem_zip hp).2
  rw [map_fst_zip hl.offs.le, map_snd_zip hl.offs.ge] at hps
  have hsingle : ∀ f, v.levels = [f] → hd.offs = (calcMarshalSize v).1 →
      ∃ o, hd.offs[0]? = some o ∧ rdfilter P dommap img o = .ok (f, none) := by
    intro f hf ho
    have hlen := hl.offs
    rw [hf, length_singleton] at hlen
    obtain ⟨o, ho'⟩ := length_eq_one_iff.mp hlen
    rw [hf, ho', zip_cons_cons, zip_nil_right, flatMap_cons, flatMap_nil, append_nil] at hreads
    have hmem : f ∈ v.levels := by rw [hf]; exact mem_cons_self
    refine ⟨o, by rw [ho, ho']; rfl, ?_⟩
    exact rdfilter_of_reads hreads (hv.stored f hmem) fun h => halloc h f hmem
  cases v with
  | counting f =>
    obtain ⟨o, ho, hf⟩ := hsingle f rfl (congrArg (fun d => d.2.2.2) hdir)
    refine ⟨.counting f, ?_, fun _ _ => bloomEq_refl f⟩
    simp only [rdVariant, htyp, Variant.typ, ho, orElse, ok_bind, hf]
    rfl
  | quick f =>
    obtain ⟨o, ho, hf⟩ := hsingle f rfl (congrArg (fun d => d.2.2.2) hdir)
    refine ⟨.quick f, ?_, fun _ _ => bloomEq_refl f⟩
    simp only [rdVariant, htyp, Variant.typ, ho, orElse, ok_bind, hf]
    rfl
  | scale sb =>
    obtain ⟨hbfa, -⟩ := hv
    simp only [directory, Prod.mk.injEq] at hdir
    obtain ⟨hlen, hscale, hr, hoffs⟩ := hdir
    have hlevels : (Variant.scale sb).levels = sb.bfa := by rw [Variant.levels, ← hbfa, take_length]
    rw [← hoffs, hlevels] at hps
    refine ⟨.scale ⟨⟨sb.bfa, hd.len, (TypeUtils.nextPow2 hd.len.toUInt64).toUInt32⟩, hd.scale,
      hd.r⟩, ?_, fun n e => ?_⟩
    · simp only [rdVariant, htyp, Variant.typ, hps, ok_bind]
      rfl
    · simp only [handleEq, scaledBloomEq, hlen, hscale, hr, P.exceeds_self, decide_true,
        Bool.not_false, Bool.and_self, Bool.true_and]
      exact levelsEq_refl hbfa.ge

/-- The image that a filter is marshalled to reads back as an equal filter, in the file or as a
copy, and its parts lie apart from each other inside the data. -/
theorem marshal_round_trip (P : Platform) (h : Handle) (hv : h.filter.Valid)
    (hsize : dataSize h.filter + 32 < 2 ^ 63) :
    (regions h.filter).Pairwise Apart ∧
    (∀ r ∈ regions h.filter, r.1 + r.2 ≤ (calcMarshalSize h.filter).2.toNat) ∧
    ∃ img, bloomMarshal P h = some img ∧ img.length = (calcMarshalSize h.filter).2.toNat + 32 ∧
      ∀ dommap, (dommap = false → ∀ f ∈ h.filter.levels, P.alloc f.bmsize = true) →
        ∃ h', bloomUnmarshal P dommap img = .ok h' ∧ handleEq P h h' = true := by
  have hl := laidOut hv (by omega)
  have hregions := regions_laid hl
  rw [hl.size]
  obtain ⟨img, hmarshal, hlen, hreads, hck⟩ := bloomMarshal_spec (P := P) hv hsize
  refine ⟨hregions.pairwise_apart, fun r hr => (hregions.bounds hr).2, img, hmarshal, hlen, ?_⟩
  intro dommap halloc
  have hge := hregions.bounds (r := (64, 16 + 8 * h.filter.levels.length))
    (mem_cons_of_mem _ mem_cons_self)
  have hds : img.length - 32 = dataSize h.filter := by omega
  have hlong : 64 + 16 + 32 ≤ img.length := by
    have := hv.levels_length.1
    simp only at hge
    omega
  have hsz : (calcMarshalSize h.filter).2 = UInt64.ofNat (img.length - 32) := by
    rw [hds, ← hl.size, UInt64.ofNat_toNat]
  obtain ⟨hd, hhdr, htyp, hn, he, hdir⟩ := rdhdr_of_reads hv hl hsz hreads
  rw [stores_tail_eq] at hreads
  have hck7 : rdU8 img 7 = .ok CkType.sha256.byte :=
    rdU8_of_read (hreads (7, [CkType.sha256.byte]) (by simp only [mem_cons, true_or, or_true]))
  have hlevels : Reads img (((calcMarshalSize h.filter).1.zip h.filter.levels).flatMap
      fun p => wrfilter p.1 p.2) := by
    intro w hw
    apply hreads
    simp only [mem_cons, mem_append, hw, or_true]
  obtain ⟨w, hw, heq⟩ := rdVariant_of_reads hv hl halloc hlevels htyp hdir
  refine ⟨⟨h.n, h.e, w⟩, ?_, heq h.n h.e⟩
  have hvalid : orElse (isValidCktyp CkType.sha256.byte) (.errno .eilseq) = .ok .sha256 := rfl
  have hdigest : P.digest .sha256 (img.take (img.length - 32)) = img.drop (img.length - 32) := by
    rw [hds, hck]
  unfold bloomUnmarshal
  simp only [require_of hlong, hck7, hvalid, require_of hdigest, hhdr, hw, hn, he, ok_bind]
  rfl

def samplePlatform (d : List UInt8) (hd : d.length = 32) : Platform where
  digest := fun _ _ => d
  length_digest := fun _ _ => hd
  exceeds := fun a b => a ≠ b
  exceeds_self := fun a => by simp only [ne_eq, not_true, decide_false]
  alloc := fun _ => true

/-- With the SHA-256 digest of the file that `sampleScale` is written to. -/
def scalePlatform : Platform :=
  samplePlatform [166, 37, 221, 87, 22, 105, 167, 147, 49, 160, 113, 138, 59, 180, 99, 83, 9, 57,
    136, 59, 74, 8, 13, 177, 128, 24, 83, 76, 254, 38, 142, 104] rfl

def sampleScale : ScaleFilter where
  bfa := [⟨3, 2, 7, [1, 4], 1, 2⟩, ⟨5, 3, 9, [255, 3, 0], 2, 3⟩]
  len := 2
  cap := 8
  scale := 2
  r := 0x3feccccccccccccd

theorem marshal_round_trip_two_levels :
    ∃ img, bloomMarshal scalePlatform ⟨100, 0, .scale sampleScale⟩ = some img ∧
      ∃ h', bloomUnmarshal scalePlatform false img = .ok h' ∧
        handleEq scalePlatform ⟨100, 0, .scale sampleScale⟩ h' = true := by
  have hstored : ∀ f ∈ sampleScale.bfa, f.Stored := by
    intro f hf
    simp only [sampleScale, mem_cons, not_mem_nil, or_false] at hf
    rcases hf with rfl | rfl
    · exact ⟨by decide, by decide, by decide, rfl⟩
    · exact ⟨by decide, by decide, by decide, rfl⟩
  have hv : (Variant.scale sampleScale).Valid := ⟨rfl, by decide, by decide, hstored⟩
  obtain ⟨-, -, img, himg, -, hread⟩ := marshal_round_trip scalePlatform
    ⟨100, 0, .scale sampleScale⟩ hv (by decide)
  exact ⟨img, himg, hread false fun _ _ _ => rfl⟩

end Whole
end PortableLib.BloomFilter
