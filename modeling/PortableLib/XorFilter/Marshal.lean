import PortableLib.BloomFilter.RoundTrip
import PortableLib.XorFilter.Filter

/-! The marshalled form of a xor filter, `xorfilter_marshal.c`. As for Bloom filters the writer is
given by its stores, the reader by its loads from the mapped file, and opening, sizing, mapping and
renaming the file always succeed. -/

namespace PortableLib.XorFilter
open List Encdec Image BloomFilter

/-- The double nearest to `m` units of any power of two: 53 significant bits, ties to even. -/
def roundDouble (m : Nat) : Nat :=
  let e := m.log2 - 52
  let q := m / 2 ^ e
  let r := m % 2 ^ e
  if 2 * r > 2 ^ e ∨ (2 * r = 2 ^ e ∧ q % 2 = 1) then (q + 1) * 2 ^ e else q * 2 ^ e

/-- `xorfilter_calc_size`. The double `1.23` is 5539427541665710 units of 2⁻⁵². -/
def calcSize (n : Nat) : Nat :=
  let prod := roundDouble (5539427541665710 * roundDouble n)
  let dn := roundDouble (32 + (prod + (2 ^ 52 - 1)) / 2 ^ 52)
  dn / 3

def Fingerprints.is16 : Fingerprints → Bool
  | .fp8 _ => false
  | .fp16 _ => true

def xorfilterSize (is16 : Bool) (size : UInt32) : UInt64 :=
  let sz := (3 * size).toUInt64
  if is16 then sz * 2 else sz

def Fingerprints.bytes : Fingerprints → List UInt8
  | .fp8 b => b
  | .fp16 b => b.flatMap fun v => encLEu16 v.toUInt64

def halves : List UInt8 → List UInt16
  | lo :: hi :: bs => (decLEu16 [lo, hi]).toUInt16 :: halves bs
  | _ => []

def fingerprints (is16 : Bool) (bs : List UInt8) : Fingerprints :=
  if is16 then .fp16 (halves bs) else .fp8 bs

def magic : List UInt8 := [0x58, 0x4f, 0x52, 0x46]

def wrhdr (x : Xorfilter) : List (Nat × List UInt8) :=
  [(0, magic), (4, [1]), (5, [if x.fp.is16 then 1 else 0]), (8, encLEu64 x.seed),
    (16, encLEu32 x.size.toUInt64), (20, encLEu32 x.n.toUInt64)]

def digested (filesz : Nat) (img : List UInt8) : List UInt8 :=
  encLEu64 (UInt64.ofNat filesz) ++ img.take (filesz - 32)

/-- The bytes of the file that `Xorfilter_marshal` leaves behind, for a page of `page` bytes. -/
def xorfilterMarshal (sha256 : List UInt8 → List UInt8) (page : Nat) (x : Xorfilter) :
    Option (List UInt8) := do
  let xsz := (xorfilterSize x.fp.is16 x.size).toNat
  let filesz := xsz + page + 32
  let fp ← readAt x.fp.bytes 0 xsz
  let img ← writeAll (replicate filesz 0) (wrhdr x ++ [(page, fp)])
  writeAt img (page + xsz) (sha256 (digested filesz img))

structure Header where
  is16 : Bool
  seed : UInt64
  size : UInt32
  n : UInt32
  deriving DecidableEq, Repr

/-- `rdhdr`; the size and the count are read as words of 64 bits. -/
def rdhdr (img : List UInt8) : Except Err Header := do
  let m ← rd img 0 4
  require (m = magic) .einval
  let ver ← rdU8 img 4
  require (ver = 1) .einval
  let is16 ← rdU8 img 5
  let seed ← rdU64 img 8
  let size ← rdU64 img 16
  let n ← rdU64 img 20
  pure ⟨is16 ≠ 0, seed, size.toUInt32, n.toUInt32⟩

/-- What `Xorfilter_unmarshal` makes of a file that consists of the bytes `img`, and whether the
filter stays in the mapped file. -/
def xorfilterUnmarshal (sha256 : List UInt8 → List UInt8) (page : Nat) (dommap : Bool)
    (img : List UInt8) : Except Err (Xorfilter × Bool) := do
  require (32 + page ≤ img.length) .eilseq
  require (sha256 (digested img.length img) = img.drop (img.length - 32)) .eilseq
  let zx ← rdhdr img
  let sz := (xorfilterSize zx.is16 zx.size).toNat
  require (sz ≤ img.length - 32) .e2big
  require (zx.size.toNat = calcSize zx.n.toNat) .einval
  let bytes ← if dommap then pure ((img.drop page).take sz) else rd img page sz
  pure (⟨fingerprints zx.is16 bytes, zx.seed, zx.size, zx.n⟩, dommap)

theorem le_roundDouble (m : Nat) : 9 * m ≤ 10 * roundDouble m := by
  obtain ⟨e, he⟩ : ∃ e, m.log2 - 52 = e := ⟨_, rfl⟩
  have hdiv : 2 ^ e * (m / 2 ^ e) + m % 2 ^ e = m := Nat.div_add_mod m (2 ^ e)
  have hmod : m % 2 ^ e < 2 ^ e := Nat.mod_lt m (Nat.two_pow_pos e)
  have hlow : m / 2 ^ e * 2 ^ e ≤ roundDouble m := by
    rw [roundDouble, he]
    split
    · exact Nat.mul_le_mul_right _ (Nat.le_succ _)
    · exact Nat.le_refl _
  rw [Nat.mul_comm] at hlow
  rcases Nat.eq_zero_or_pos e with rfl | hpos
  · rw [Nat.pow_zero] at hdiv hmod hlow
    omega
  · -- there are 53 bits in front of the remainder
    have hne : m ≠ 0 := by
      rintro rfl
      rw [Nat.log2_zero] at he
      omega
    have hbits : 2 ^ (e + 4) ≤ m := (Nat.pow_le_pow_right (by decide) (by omega)).trans
      (Nat.log2_self_le hne)
    have hquot : 2 ^ 4 ≤ m / 2 ^ e := by
      rw [Nat.le_div_iff_mul_le (Nat.two_pow_pos e), ← Nat.pow_add, Nat.add_comm]
      exact hbits
    have hprod : 2 ^ e * 2 ^ 4 ≤ 2 ^ e * (m / 2 ^ e) := Nat.mul_le_mul_left _ hquot
    omega

theorem lt_of_calcSize_lt {n : Nat} (h : 3 * calcSize n * 2 < 2 ^ 32) : n < 2 ^ 32 := by
  have h₁ := le_roundDouble n
  have h₂ := le_roundDouble (5539427541665710 * roundDouble n)
  have h₃ := le_roundDouble
    (32 + (roundDouble (5539427541665710 * roundDouble n) + (2 ^ 52 - 1)) / 2 ^ 52)
  rw [calcSize] at h
  omega

theorem length_fill {β : Type} [XorOp β] {fp : UInt64 → β} {size : UInt32} {b b' : List β}
    {stack : List KeyIdx} (h : fill fp size b stack = some b') : b'.length = b.length := by
  induction stack generalizing b with
  | nil => exact congrArg length (Option.some.inj h).symm
  | cons ki stack ih =>
    simp only [fill, Option.bind_eq_bind, Option.bind_eq_some_iff] at h
    obtain ⟨z, -, v, -, hset⟩ := h
    split at hset
    case isTrue hlt => exact (ih hset).trans length_set
    case isFalse hge => cases hset

theorem newFilter_inv {β : Type} [XorOp β] [OfNat β 0] {fp : UInt64 → β}
    {g : List β → Fingerprints} {cells : Nat} {size : UInt64} {keys : List UInt64}
    {seeds : Nat → UInt64} {x : Xorfilter}
    (h : newFilter fp g (fun _ => cells) size keys seeds = some (some x)) :
    ∃ b seed, b.length = cells ∧ x = ⟨g b, seed, size.toUInt32, UInt32.ofNat keys.length⟩ := by
  simp only [newFilter, Option.bind_eq_some_iff] at h
  obtain ⟨r, -, hr⟩ := h
  split at hr
  case isTrue h0 => cases hr
  case isFalse hne =>
    obtain ⟨b, hb, hx⟩ := Option.map_eq_some_iff.mp hr
    refine ⟨b, r.2, ?_, (Option.some.inj hx).symm⟩
    rw [length_fill hb, length_replicate]

theorem length_bytes16 (b : List UInt16) : (Fingerprints.fp16 b).bytes.length = 2 * b.length := by
  induction b with
  | nil => rfl
  | cons v b ih =>
    have hlen : (encLEu16 v.toUInt64).length = 2 := length_encLE 2 _
    rw [Fingerprints.bytes] at ih ⊢
    rw [flatMap_cons, length_append, hlen, ih, length_cons]
    omega

theorem decLEu16_encLEu16 (v : UInt16) : (decLEu16 (encLEu16 v.toUInt64)).toUInt16 = v := by
  have hlen : (encLEu16 v.toUInt64).length = 2 := length_encLE 2 _
  have hlt : v.toUInt64.toNat < 256 ^ 2 := by
    rw [UInt16.toNat_toUInt64]
    exact v.toNat_lt
  rw [decLEu16, take_of_length_le hlen.le, encLEu16, decLE_encLE (by decide), trunc,
    Nat.mod_eq_of_lt hlt, UInt64.ofNat_toNat]
  exact UInt16.toUInt16_toUInt64 v

theorem halves_bytes (b : List UInt16) : halves (Fingerprints.fp16 b).bytes = b := by
  induction b with
  | nil => rfl
  | cons v b ih =>
    rw [Fingerprints.bytes, flatMap_cons]
    change halves (v.toUInt64.toUInt8 :: (v.toUInt64 >>> 8).toUInt8 ::
      (Fingerprints.fp16 b).bytes) = _
    rw [halves, ih]
    exact congrArg (· :: b) (decLEu16_encLEu16 v)

theorem fingerprints_bytes (f : Fingerprints) : fingerprints f.is16 f.bytes = f := by
  cases f with
  | fp8 b => rfl
  | fp16 b => exact congrArg Fingerprints.fp16 (halves_bytes b)

theorem rdU64_low {img : List UInt8} {p : Nat} {v : UInt32}
    (h : readAt img p 4 = some (encLEu32 v.toUInt64)) (hroom : p + 8 ≤ img.length) :
    ∃ w, rdU64 img p = .ok w ∧ w.toUInt32 = v := by
  obtain ⟨r, hr⟩ := readAt_of_le (show p + 4 + 4 ≤ img.length from hroom)
  have hv : (encLEu32 v.toUInt64).length = 4 := length_encLE 4 _
  have hlen : (encLEu32 v.toUInt64).length + r.length ≤ 8 := by
    rw [hv, readAt_length hr]
  refine ⟨_, rdU64_eq_ok.mpr ⟨_, readAt_append h hr, rfl⟩, ?_⟩
  have hlow : (decLE (encLEu32 v.toUInt64)).toNat = v.toNat := by
    rw [encLEu32, toNat_decLE_encLE (by decide), UInt32.toNat_toUInt64]
    exact Nat.mod_eq_of_lt v.toNat_lt
  rw [decLEu64, take_of_length_le (by rw [length_append]; exact hlen), ← UInt32.toNat_inj,
    UInt64.toNat_toUInt32, toNat_decLE_append hlen, hlow, hv, show 256 ^ 4 = 2 ^ 32 from rfl,
    Nat.add_mul_mod_self_left]
  exact Nat.mod_eq_of_lt v.toNat_lt

/-- A filter with an array of the size it states, sized for its count. -/
structure Xorfilter.Sized (x : Xorfilter) : Prop where
  bytes : x.fp.bytes.length = (xorfilterSize x.fp.is16 x.size).toNat
  calc_eq : x.size.toNat = calcSize x.n.toNat

variable {sha256 : List UInt8 → List UInt8} {page : Nat} {x : Xorfilter}

theorem stores_laid (hpage : 64 ≤ page) (x : Xorfilter) (fp : List UInt8) :
    Laid 0 ((wrhdr x ++ [(page, fp)]).map fun w => (w.1, w.2.length)) (page + fp.length) := by
  simp only [wrhdr, cons_append, nil_append, map_cons, map_nil, length_encLEu64, length_encLEu32,
    Laid, magic, length_cons, length_nil]
  omega

theorem xorfilterMarshal_spec (hsha : ∀ bs, (sha256 bs).length = 32) (hpage : 64 ≤ page)
    (hx : x.Sized) :
    ∃ img, xorfilterMarshal sha256 page x = some img ∧
      img.length = page + x.fp.bytes.length + 32 ∧
      (∀ w ∈ wrhdr x ++ [(page, x.fp.bytes)], readAt img w.1 w.2.length = some w.2) ∧
      sha256 (digested img.length img) = img.drop (img.length - 32) := by
  obtain ⟨fp, hfp⟩ : ∃ fp, x.fp.bytes = fp := ⟨_, rfl⟩
  have hsz := hx.bytes
  rw [hfp] at hsz
  have hfull : readAt fp 0 fp.length = some fp := by
    rw [readAt, if_pos (Nat.zero_add _).le, drop_zero, take_length]
  have hzeros : page + fp.length ≤ (replicate (fp.length + page + 32) (0 : UInt8)).length := by
    rw [length_replicate]
    omega
  obtain ⟨img₁, hwrite, hlen, hreads, -⟩ := writeAll_laid (stores_laid hpage x fp) hzeros
  rw [length_replicate] at hlen
  obtain ⟨dig, hdig⟩ : ∃ dig, sha256 (digested (fp.length + page + 32) img₁) = dig := ⟨_, rfl⟩
  have hdlen : dig.length = 32 := hdig ▸ hsha _
  obtain ⟨img, himg⟩ : ∃ img, writeAt img₁ (page + fp.length) dig = some img :=
    ⟨_, if_pos (by omega)⟩
  have htake : (img₁.take (page + fp.length)).length = page + fp.length := by
    rw [length_take]
    omega
  have hsplit : img = img₁.take (page + fp.length) ++ dig := by
    rw [writeAt, if_pos (by omega)] at himg
    rw [← Option.some.inj himg, drop_of_length_le (by omega), append_nil]
  have hsize : img.length = page + fp.length + 32 := by
    rw [writeAt_length himg, hlen]
    omega
  refine ⟨img, ?_, hfp.symm ▸ hsize, fun w hw => ?_, ?_⟩
  · rw [xorfilterMarshal, hfp, ← hsz, hfull]
    simp only [Option.bind_eq_bind, Option.bind_some, hwrite, hdig, himg]
  · rw [hfp] at hw
    have hb := (stores_laid hpage x fp).bounds (mem_map_of_mem hw)
    rw [readAt_writeAt_of_apart himg (.inl hb.2), hreads w hw]
  · have hbody : img.length - 32 = page + fp.length := by omega
    have hbody' : fp.length + page + 32 - 32 = page + fp.length := by omega
    have hdrop : img.drop (page + fp.length) = dig := by rw [hsplit, drop_left' htake]
    have hsame : img.take (page + fp.length) = img₁.take (page + fp.length) := by
      rw [hsplit, take_left' htake]
    rw [digested, hbody, hdrop, hsame, hsize, ← hdig, digested, hbody', Nat.add_comm fp.length page]

theorem require_true (e : Errno) : require true e = .ok () := rfl

theorem rdhdr_of_reads {img : List UInt8} (hroom : 64 ≤ img.length)
    (h : ∀ w ∈ wrhdr x, readAt img w.1 w.2.length = some w.2) :
    rdhdr img = .ok ⟨x.fp.is16, x.seed, x.size, x.n⟩ := by
  simp only [wrhdr, forall_mem_cons, length_encLEu64, length_encLEu32, length_singleton] at h
  obtain ⟨hmagic, hver, htype, hseed, hsize, hn, -⟩ := h
  obtain ⟨w, hw, hwsize⟩ := rdU64_low hsize (by omega)
  obtain ⟨w', hw', hwn⟩ := rdU64_low hn (by omega)
  have hm : rd img 0 4 = .ok magic := rd_eq_ok.mpr hmagic
  have his : ((if x.fp.is16 = true then 1 else 0 : UInt8) ≠ 0) = (x.fp.is16 = true) := by
    cases x.fp.is16 with
    | false => decide
    | true => decide
  rw [rdhdr, hm]
  simp only [ok_bind, require_true, rdU8_of_read hver, rdU8_of_read htype, rdU64_of_read hseed,
    hw, hw', hwsize, hwn, his, decide_true, Bool.decide_eq_true]
  rfl

theorem Xorfilter.Sized.round_trip (hsha : ∀ bs, (sha256 bs).length = 32) (hpage : 64 ≤ page)
    (hx : x.Sized) :
    ∃ img, xorfilterMarshal sha256 page x = some img ∧ ∀ dommap,
      xorfilterUnmarshal sha256 page dommap img = .ok (x, dommap) := by
  obtain ⟨img, himg, hlen, hreads, hdigest⟩ := xorfilterMarshal_spec hsha hpage hx
  refine ⟨img, himg, fun dommap => ?_⟩
  have hhdr : rdhdr img = .ok ⟨x.fp.is16, x.seed, x.size, x.n⟩ :=
    rdhdr_of_reads (by omega) fun w hw => hreads w (mem_append_left _ hw)
  have hfp : readAt img page x.fp.bytes.length = some x.fp.bytes :=
    hreads (page, x.fp.bytes) (mem_append_right _ mem_cons_self)
  have hmapped : (img.drop page).take x.fp.bytes.length = x.fp.bytes := by
    rw [readAt, if_pos (by omega)] at hfp
    exact Option.some.inj hfp
  have hlong : 32 + page ≤ img.length := by omega
  have hfits : x.fp.bytes.length ≤ img.length - 32 := by omega
  rw [xorfilterUnmarshal, require_of hlong, require_of hdigest, hhdr]
  simp only [ok_bind, ← hx.bytes, require_of hfits, require_of hx.calc_eq, hmapped]
  cases dommap with
  | true =>
    simp only [if_true, pure_bind, fingerprints_bytes]
    rfl
  | false =>
    simp only [Bool.false_eq_true, if_false, rd_eq_ok.mpr hfp, ok_bind, fingerprints_bytes]
    rfl

theorem toNat_xorfilterSize (is16 : Bool) (size : UInt32) :
    (xorfilterSize is16 size).toNat = (if is16 then 2 else 1) * (3 * size.toNat % 2 ^ 32) := by
  have hprod : (3 * size).toUInt64.toNat = 3 * size.toNat % 2 ^ 32 := by
    rw [UInt32.toNat_toUInt64, UInt32.toNat_mul]
    rfl
  rw [xorfilterSize]
  cases is16 with
  | false => rw [if_neg Bool.false_ne_true, if_neg Bool.false_ne_true, Nat.one_mul, hprod]
  | true =>
    rw [if_pos rfl, if_pos rfl, UInt64.toNat_mul, hprod, show (2 : UInt64).toNat = 2 from rfl]
    omega

theorem sized_of_built {f : Fingerprints} {seed : UInt64} {keys : List UInt64}
    (hsize : 3 * calcSize keys.length * 2 < 2 ^ 32)
    (hf : f.bytes.length = (if f.is16 then 2 else 1) * (3 * calcSize keys.length)) :
    Xorfilter.Sized ⟨f, seed, (UInt64.ofNat (calcSize keys.length)).toUInt32,
      UInt32.ofNat keys.length⟩ := by
  have hn := lt_of_calcSize_lt hsize
  obtain ⟨size, hs⟩ : ∃ size, calcSize keys.length = size := ⟨_, rfl⟩
  rw [hs] at hsize hf ⊢
  have hsz : (UInt64.ofNat size).toUInt32.toNat = size := by
    rw [UInt64.toNat_toUInt32, UInt64.toNat_ofNat_of_lt' (by change size < 2 ^ 64; omega)]
    omega
  refine ⟨?_, ?_⟩
  · rw [hf]
    change _ = (xorfilterSize f.is16 (UInt64.ofNat size).toUInt32).toNat
    rw [toNat_xorfilterSize, hsz, Nat.mod_eq_of_lt (by omega)]
  · change (UInt64.ofNat size).toUInt32.toNat = calcSize (UInt32.ofNat keys.length).toNat
    rw [hsz, UInt32.toNat_ofNat_of_lt' hn, hs]

/-- The image of a filter is accepted, mapped or copied, and gives the filter back. -/
theorem xorfilter_marshal_round_trip (sha256 : List UInt8 → List UInt8)
    (hsha : ∀ bs, (sha256 bs).length = 32) (page : Nat) (hpage : 64 ≤ page) (keys : List UInt64)
    (seeds : Nat → UInt64) (hsize : 3 * calcSize keys.length * 2 < 2 ^ 32) (x : Xorfilter)
    (hx : xorfilterNew8 (fun _ => 3 * calcSize keys.length) (UInt64.ofNat (calcSize keys.length))
        keys seeds = some (some x) ∨
      xorfilterNew16 (fun _ => 3 * calcSize keys.length) (UInt64.ofNat (calcSize keys.length))
        keys seeds = some (some x)) :
    ∃ img, xorfilterMarshal sha256 page x = some img ∧ ∀ dommap,
      ∃ x', xorfilterUnmarshal sha256 page dommap img = .ok (x', dommap) ∧
        x'.seed = x.seed ∧ x'.size = x.size ∧ x'.n = x.n ∧ x'.fp = x.fp ∧
        ∀ key, xorfilterContains x' key = xorfilterContains x key := by
  have hsized : x.Sized := by
    rcases hx with hx | hx
    · obtain ⟨b, seed, hb, rfl⟩ := newFilter_inv hx
      exact sized_of_built hsize (by rw [← hb]; exact (Nat.one_mul _).symm)
    · obtain ⟨b, seed, hb, rfl⟩ := newFilter_inv hx
      exact sized_of_built hsize (by rw [← hb]; exact length_bytes16 b)
  obtain ⟨img, himg, hback⟩ := hsized.round_trip hsha hpage
  exact ⟨img, himg, fun dommap => ⟨x, hback dommap, rfl, rfl, rfl, rfl, fun _ => rfl⟩⟩

def sampleFilter : Xorfilter where
  fp := .fp16 [0, 0, 0, 0, 0, 0, 0, 0, 0, 0, 0, 0, 0, 0, 0, 0, 0, 0, 0, 0, 0, 51620, 0, 0, 23948, 0,
    0, 1955, 0, 0, 0, 0, 0, 0, 0, 0]
  seed := 7
  size := 12
  n := 3

def sampleSha256 (_ : List UInt8) : List UInt8 :=
  [15, 170, 196, 154, 115, 104, 16, 2, 226, 165, 61, 209, 187, 243, 18, 199, 141, 228, 64, 107, 70,
    35, 105, 147, 58, 11, 153, 223, 114, 106, 124, 109]

theorem xorfilter_marshal_three_keys :
    xorfilterNew16 (fun _ => 3 * calcSize 3) (UInt64.ofNat (calcSize 3)) [3, 1, 4] (fun _ => 7) =
        some (some sampleFilter) ∧
      ∃ img, xorfilterMarshal sampleSha256 64 sampleFilter = some img ∧ ∀ dommap,
        ∃ x', xorfilterUnmarshal sampleSha256 64 dommap img = .ok (x', dommap) ∧
          x'.seed = 7 ∧ x'.size = 12 ∧ x'.n = 3 ∧ x'.fp = sampleFilter.fp ∧
          ∀ key, xorfilterContains x' key = xorfilterContains sampleFilter key := by
  have hbuilt : xorfilterNew16 (fun _ => 3 * calcSize 3) (UInt64.ofNat (calcSize 3)) [3, 1, 4]
      (fun _ => 7) = some (some sampleFilter) := by
    decide
  exact ⟨hbuilt, xorfilter_marshal_round_trip sampleSha256 (fun _ => rfl) 64 (by decide) [3, 1, 4]
    (fun _ => 7) (by decide) sampleFilter (Or.inr hbuilt)⟩

end PortableLib.XorFilter
