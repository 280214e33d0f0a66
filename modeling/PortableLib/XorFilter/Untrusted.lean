import PortableLib.XorFilter.Bounds

/-! Reading a file whose checksum is right and whose header is arbitrary. The size is compared with
the length of the file before the checksum, as if the fingerprints started at its first byte, and
the three segments are counted in 32 bits. -/

namespace PortableLib.XorFilter
open List Image BloomFilter

theorem xorShift_onto (y : BitVec 64) :
    (y ^^^ y >>> 23 ^^^ y >>> 46) ^^^ (y ^^^ y >>> 23 ^^^ y >>> 46) >>> 23 = y := by
  ext i hi
  simp only [BitVec.getElem_xor, BitVec.getElem_ushiftRight, BitVec.getLsbD_xor,
    BitVec.getLsbD_ushiftRight]
  rw [show 23 + (23 + i) = 46 + i by omega, BitVec.getLsbD_of_ge y (46 + (23 + i)) (by omega)]
  cases y.getLsbD (23 + i) <;> cases y.getLsbD (46 + i) <;> simp

theorem xorHalf_onto (y : BitVec 64) : (y ^^^ y >>> 47) ^^^ (y ^^^ y >>> 47) >>> 47 = y := by
  ext i hi
  simp only [BitVec.getElem_xor, BitVec.getElem_ushiftRight, BitVec.getLsbD_xor,
    BitVec.getLsbD_ushiftRight]
  rw [BitVec.getLsbD_of_ge y (47 + (47 + i)) (by omega)]
  cases y.getLsbD (47 + i) <;> simp

theorem mix_surjective : Function.Surjective mix := by
  intro y
  obtain ⟨g, hg⟩ : ∃ g : UInt64, g ^^^ (g >>> 47) = y :=
    ⟨y ^^^ (y >>> 47), UInt64.toBitVec_inj.mp (xorHalf_onto y.toBitVec)⟩
  obtain ⟨f, hf⟩ : ∃ f : UInt64, f * 0x2127599bf4325c37 = g := by
    refine ⟨g * 0xa1bcefb14d101987, ?_⟩
    rw [UInt64.mul_assoc, show (0xa1bcefb14d101987 : UInt64) * 0x2127599bf4325c37 = 1 by decide,
      UInt64.mul_one]
  obtain ⟨e, he⟩ : ∃ e : UInt64, e ^^^ (e >>> 23) = f :=
    ⟨f ^^^ (f >>> 23) ^^^ (f >>> 46), UInt64.toBitVec_inj.mp (xorShift_onto f.toBitVec)⟩
  exact ⟨e, by rw [mix, he, hf, hg]⟩

theorem hashkey_surjective (seed : UInt64) : Function.Surjective (hashkey · seed) := by
  intro y
  obtain ⟨g, hg⟩ := mix_surjective y
  obtain ⟨e, he⟩ := mix_surjective
    (seed ^^^ (8 * 0x880355f21e6d1965) ^^^ (g * 0x28fc23783fb0706d))
  refine ⟨e, ?_⟩
  simp only [hashkey, he]
  rw [← UInt64.xor_assoc, UInt64.xor_self, UInt64.zero_xor, UInt64.mul_assoc,
    show (0x28fc23783fb0706d : UInt64) * 0x880355f21e6d1965 = 1 by decide, UInt64.mul_one, hg]

/-- The file is long enough for its header, and the header passes the checks of the reader. -/
structure Passes (page : Nat) (img : List UInt8) (hd : Header) : Prop where
  long : 32 + page ≤ img.length
  read : rdhdr img = .ok hd
  fits : (xorfilterSize hd.is16 hd.size).toNat ≤ img.length - 32
  sized : hd.size.toNat = calcSize hd.n.toNat

/-- The fingerprints of an accepted file lie before the checksum, and searches stay in them. -/
def SafeRead (sha256 : List UInt8 → List UInt8) (page : Nat) (dommap : Bool) (img : List UInt8) :
    Prop :=
  xorfilterUnmarshal sha256 page dommap img ≠ .error .fault ∧
  ∀ x m, xorfilterUnmarshal sha256 page dommap img = .ok (x, m) →
    page + (xorfilterSize x.fp.is16 x.size).toNat ≤ img.length - 32 ∧ 1 ≤ x.size.toNat ∧
      ∀ key, (xorfilterContains x key).isSome

section Read
variable {img : List UInt8} {p n : Nat}

theorem rd_of_le (h : p + n ≤ img.length) : ∃ bs, rd img p n = .ok bs := by
  obtain ⟨bs, hbs⟩ := readAt_of_le h
  exact ⟨bs, rd_eq_ok.mpr hbs⟩

theorem rdU8_of_lt (h : p < img.length) : ∃ b, rdU8 img p = .ok b :=
  ⟨_, orElse_eq_ok.mpr (getElem?_eq_getElem h)⟩

theorem rdU64_of_le (h : p + 8 ≤ img.length) : ∃ v, rdU64 img p = .ok v := by
  obtain ⟨bs, hbs⟩ := rd_of_le h
  exact ⟨_, rdU64_eq_ok.mpr ⟨bs, rd_eq_ok.mp hbs, rfl⟩⟩

theorem rdhdr_cases (h : 32 ≤ img.length) :
    (∃ hd, rdhdr img = .ok hd) ∨ rdhdr img = .error (.errno .einval) := by
  obtain ⟨m, hm⟩ := rd_of_le (show 0 + 4 ≤ img.length by omega)
  obtain ⟨ver, hver⟩ := rdU8_of_lt (show 4 < img.length by omega)
  obtain ⟨is16, his⟩ := rdU8_of_lt (show 5 < img.length by omega)
  obtain ⟨seed, hseed⟩ := rdU64_of_le (show 8 + 8 ≤ img.length by omega)
  obtain ⟨size, hsize⟩ := rdU64_of_le (show 16 + 8 ≤ img.length by omega)
  obtain ⟨n, hn⟩ := rdU64_of_le (show 20 + 8 ≤ img.length by omega)
  rw [rdhdr, hm, ok_bind]
  by_cases hmagic : m = magic
  · rw [require_of hmagic, ok_bind, hver, ok_bind]
    by_cases hone : ver = 1
    · rw [require_of hone, ok_bind, his, ok_bind, hseed, ok_bind, hsize, ok_bind, hn, ok_bind]
      exact .inl ⟨_, rfl⟩
    · rw [require, if_neg (by rwa [decide_eq_true_iff])]
      exact .inr rfl
  · rw [require, if_neg (by rwa [decide_eq_true_iff])]
    exact .inr rfl

end Read

section Unmarshal
variable {sha256 : List UInt8 → List UInt8} {page : Nat} {img : List UInt8} {hd : Header}

def fingerprintBytes (dommap : Bool) (img : List UInt8) (page sz : Nat) :
    Except Err (List UInt8) :=
  if dommap then pure ((img.drop page).take sz) else rd img page sz

theorem unmarshal_of_passes (dommap : Bool)
    (hdigest : sha256 (digested img.length img) = img.drop (img.length - 32))
    (h : Passes page img hd) :
    xorfilterUnmarshal sha256 page dommap img =
      (fingerprintBytes dommap img page (xorfilterSize hd.is16 hd.size).toNat).map fun bytes =>
        (⟨fingerprints hd.is16 bytes, hd.seed, hd.size, hd.n⟩, dommap) := by
  rw [xorfilterUnmarshal, require_of h.long, ok_bind, require_of hdigest, ok_bind, h.read, ok_bind]
  simp only [require_of h.fits, require_of h.sized, ok_bind, fingerprintBytes]
  cases dommap with
  | true => rfl
  | false =>
    cases rd img page (xorfilterSize hd.is16 hd.size).toNat with
    | ok bytes => rfl
    | error e => rfl

theorem require_neg {q : Prop} [Decidable q] {e : Errno} (h : ¬ q) :
    require (decide q) e = .error (.errno e) := if_neg (by rwa [decide_eq_true_iff])

theorem unmarshal_refuses (dommap : Bool)
    (hdigest : sha256 (digested img.length img) = img.drop (img.length - 32))
    (h : ∀ hd, ¬ Passes page img hd) :
    ∃ e, xorfilterUnmarshal sha256 page dommap img = .error (.errno e) := by
  rw [xorfilterUnmarshal]
  by_cases hlong : 32 + page ≤ img.length
  · rw [require_of hlong, ok_bind, require_of hdigest, ok_bind]
    rcases rdhdr_cases (show 32 ≤ img.length by omega) with ⟨hd, hread⟩ | hread
    · rw [hread, ok_bind]
      by_cases hfits : (xorfilterSize hd.is16 hd.size).toNat ≤ img.length - 32
      · have hsized : ¬ hd.size.toNat = calcSize hd.n.toNat :=
          fun hsized => h hd ⟨hlong, hread, hfits, hsized⟩
        simp only [require_of hfits, require_neg hsized, ok_bind]
        exact ⟨_, rfl⟩
      · simp only [require_neg hfits]
        exact ⟨_, rfl⟩
    · rw [hread]
      exact ⟨_, rfl⟩
  · rw [require_neg hlong]
    exact ⟨_, rfl⟩

theorem fingerprintBytes_of_le (dommap : Bool) {sz : Nat} (h : page + sz ≤ img.length) :
    ∃ bytes, fingerprintBytes dommap img page sz = .ok bytes ∧ bytes.length = sz := by
  cases dommap with
  | true =>
    refine ⟨_, rfl, ?_⟩
    rw [length_take, length_drop]
    omega
  | false =>
    obtain ⟨bytes, hbytes⟩ := rd_of_le h
    exact ⟨bytes, hbytes, readAt_length (rd_eq_ok.mp hbytes)⟩

theorem fingerprintBytes_cases (dommap : Bool) (sz : Nat) :
    (∃ bytes, fingerprintBytes dommap img page sz = .ok bytes) ∨
      fingerprintBytes dommap img page sz = .error .fault := by
  cases dommap with
  | true => exact .inl ⟨_, rfl⟩
  | false =>
    rw [fingerprintBytes, if_neg Bool.false_ne_true, rd]
    cases readAt img page sz with
    | none => exact .inr rfl
    | some bytes => exact .inl ⟨bytes, rfl⟩

end Unmarshal

theorem length_halves (bs : List UInt8) : (halves bs).length = bs.length / 2 := by
  induction bs using halves.induct with
  | case1 lo hi bs ih =>
    rw [halves, length_cons, ih, length_cons, length_cons]
    omega
  | case2 bs hshort =>
    rcases bs with _ | ⟨lo, _ | ⟨hi, bs⟩⟩
    · rfl
    · simp [halves]
    · exact absurd rfl (hshort lo hi bs)

theorem is16_fingerprints (is16 : Bool) (bs : List UInt8) :
    (fingerprints is16 bs).is16 = is16 := by
  cases is16 with
  | false => rfl
  | true => rfl

theorem count_fingerprints {is16 : Bool} {size : UInt32} {bs : List UInt8}
    (h : bs.length = (xorfilterSize is16 size).toNat) :
    (fingerprints is16 bs).count = 3 * size.toNat % 2 ^ 32 := by
  rw [toNat_xorfilterSize] at h
  cases is16 with
  | false => exact h.trans (Nat.one_mul _)
  | true =>
    rw [if_pos rfl] at h
    exact (length_halves bs).trans (by omega)

theorem calcSize_bounds {n : UInt32} : 1 ≤ calcSize n.toNat ∧ calcSize n.toNat < 2 ^ 31 := by
  have hn := n.toNat_lt
  have hle := calcSize_le n.toNat
  have h₃ := le_roundDouble
    (32 + (roundDouble (5539427541665710 * roundDouble n.toNat) + (2 ^ 52 - 1)) / 2 ^ 52)
  constructor
  · rw [calcSize]
    omega
  · omega

theorem exists_key_last (seed : UInt64) {size : UInt32} (hsize : 1 ≤ size.toNat) :
    ∃ key z, hash3 (hashkey key seed) size = some z ∧ z.i.toNat = size.toNat - 1 := by
  obtain ⟨key, hkey⟩ := hashkey_surjective seed (UInt64.ofNat (size.toNat - 1))
  have hlt := size.toNat_lt
  have hne : size ≠ 0 := by
    rintro rfl
    exact absurd hsize (by decide)
  have hhash : (UInt64.ofNat (size.toNat - 1)).toNat = size.toNat - 1 :=
    UInt64.toNat_ofNat_of_lt' (by change size.toNat - 1 < 2 ^ 64; omega)
  refine ⟨key, _, if_neg hne, ?_⟩
  have hmod : (size.toNat - 1) % size.toNat = size.toNat - 1 := Nat.mod_eq_of_lt (by omega)
  simp only [hkey, geth0]
  rw [UInt64.toNat_toUInt32, UInt64.toNat_mod, UInt32.toNat_toUInt64, hhash, hmod]
  exact Nat.mod_eq_of_lt (by omega)

theorem contains_none {x : Xorfilter} {key : UInt64} {z : FpIdx}
    (hz : hash3 (hashkey key x.seed) x.size = some z) (h : x.fp.count ≤ z.i.toNat) :
    xorfilterContains x key = none := by
  obtain ⟨f, seed, size, n⟩ := x
  simp only [xorfilterContains, hz, Option.bind_some]
  cases f with
  | fp8 b =>
    have hnone : b[z.i.toNat]? = none := getElem?_eq_none h
    simp only [matchFp, cellsOf, hnone, Option.bind_eq_bind, Option.bind_none, Option.map_none]
  | fp16 b =>
    have hnone : b[z.i.toNat]? = none := getElem?_eq_none h
    simp only [matchFp, cellsOf, hnone, Option.bind_eq_bind, Option.bind_none, Option.map_none]

/-- A reader is safe on a file with the right checksum exactly if a header that passes the checks
leaves room for the header page and has segments that do not exceed 32 bits together. -/
theorem xorfilter_unmarshal_safe_iff (sha256 : List UInt8 → List UInt8) (page : Nat)
    (dommap : Bool) (img : List UInt8)
    (hdigest : sha256 (digested img.length img) = img.drop (img.length - 32)) :
    SafeRead sha256 page dommap img ↔
      ∀ hd, Passes page img hd →
        page + (xorfilterSize hd.is16 hd.size).toNat + 32 ≤ img.length ∧
          3 * hd.size.toNat < 2 ^ 32 := by
  constructor
  · rintro ⟨hfault, hok⟩ hd hp
    rw [unmarshal_of_passes dommap hdigest hp] at hfault hok
    have hlong := hp.long
    rcases fingerprintBytes_cases dommap (xorfilterSize hd.is16 hd.size).toNat with
      ⟨bytes, hbytes⟩ | hbytes
    · obtain ⟨hroom, hpos, hkeys⟩ := hok _ _ (by rw [hbytes]; rfl)
      simp only [is16_fingerprints] at hroom hpos hkeys
      refine ⟨by omega, ?_⟩
      -- the sum of the segments wraps: some key looks behind the last fingerprint
      by_contra hwrap
      obtain ⟨bytes', hbytes', hlen⟩ := fingerprintBytes_of_le dommap
        (show page + (xorfilterSize hd.is16 hd.size).toNat ≤ img.length by omega)
      obtain rfl := Except.ok.inj (hbytes.symm.trans hbytes')
      have hcount := count_fingerprints hlen
      obtain ⟨-, hlt⟩ := calcSize_bounds (n := hd.n)
      rw [← hp.sized] at hlt
      have hfew : 3 * hd.size.toNat % 2 ^ 32 = 3 * hd.size.toNat - 2 ^ 32 := by omega
      obtain ⟨key, z, hz, hi⟩ := exists_key_last hd.seed hpos
      have hnone : xorfilterContains ⟨fingerprints hd.is16 bytes, hd.seed, hd.size, hd.n⟩ key =
          none := contains_none hz (by simp only [hcount, hi, hfew]; omega)
      have hsome := hkeys key
      rw [hnone] at hsome
      cases hsome
    · rw [hbytes] at hfault
      exact absurd rfl hfault
  · intro hcond
    by_cases hp : ∃ hd, Passes page img hd
    · obtain ⟨hd, hp⟩ := hp
      obtain ⟨hroom, hwrap⟩ := hcond hd hp
      obtain ⟨bytes, hbytes, hlen⟩ := fingerprintBytes_of_le dommap
        (show page + (xorfilterSize hd.is16 hd.size).toNat ≤ img.length by omega)
      obtain ⟨hpos, -⟩ := calcSize_bounds (n := hd.n)
      rw [← hp.sized] at hpos
      have hcount := count_fingerprints hlen
      rw [Nat.mod_eq_of_lt hwrap] at hcount
      have hne : hd.size ≠ 0 := by
        intro h0
        rw [h0] at hpos
        exact absurd hpos (by decide)
      rw [SafeRead, unmarshal_of_passes dommap hdigest hp, hbytes]
      refine ⟨nofun, fun x m hx => ?_⟩
      obtain ⟨rfl, -⟩ := Prod.mk.inj (Except.ok.inj hx)
      simp only [is16_fingerprints]
      exact ⟨by omega, hpos, contains_total hne hcount.ge⟩
    · obtain ⟨e, he⟩ := unmarshal_refuses dommap hdigest fun hd h => hp ⟨hd, h⟩
      rw [SafeRead, he]
      exact ⟨nofun, nofun⟩

def headerPage : List UInt8 :=
  magic ++ [1, 0, 0, 0] ++ [7, 0, 0, 0, 0, 0, 0, 0] ++ [11, 0, 0, 0, 1, 0, 0, 0] ++
    replicate 4072 0

def wholeDigest : List UInt8 :=
  [55, 136, 224, 66, 75, 42, 189, 103, 68, 92, 120, 149, 32, 224, 45, 33, 179, 135, 211, 198, 38,
    120, 65, 213, 16, 12, 212, 232, 170, 156, 160, 111]

def shortDigest : List UInt8 :=
  [169, 247, 141, 120, 47, 240, 39, 4, 181, 140, 87, 182, 134, 178, 119, 23, 163, 59, 110, 132, 102,
    216, 25, 166, 16, 226, 198, 198, 14, 3, 157, 138]

set_option maxRecDepth 20000 in
theorem xorfilter_unmarshal_safe_whole :
    SafeRead (fun _ => wholeDigest) 4096 true (headerPage ++ replicate 33 0 ++ wholeDigest) := by
  have hread : rdhdr (headerPage ++ replicate 33 0 ++ wholeDigest) = .ok ⟨false, 7, 11, 1⟩ := by
    decide
  refine (xorfilter_unmarshal_safe_iff _ _ _ _ (by decide)).mpr fun hd hp => ?_
  obtain rfl := Except.ok.inj (hread.symm.trans hp.read)
  decide

set_option maxRecDepth 20000 in
/-- The file ends where its 33 fingerprints should start: mapped, they are the checksum and a byte
behind the file; copied, they are read beyond it. -/
theorem xorfilter_unmarshal_accepts_short :
    headerPage.length = 4096 ∧
    xorfilterUnmarshal (fun _ => shortDigest) 4096 true (headerPage ++ shortDigest) =
      .ok (⟨.fp8 shortDigest, 7, 11, 1⟩, true) ∧
    xorfilterUnmarshal (fun _ => shortDigest) 4096 false (headerPage ++ shortDigest) =
      .error .fault ∧
    (xorfilterSize false 11).toNat = 33 ∧
    ¬ SafeRead (fun _ => shortDigest) 4096 true (headerPage ++ shortDigest) := by
  have hmapped : xorfilterUnmarshal (fun _ => shortDigest) 4096 true (headerPage ++ shortDigest) =
      .ok (⟨.fp8 shortDigest, 7, 11, 1⟩, true) := by decide
  refine ⟨by decide, hmapped, by decide, by decide, fun h => ?_⟩
  obtain ⟨hroom, -⟩ := h.2 _ _ hmapped
  exact absurd hroom (by decide)

end PortableLib.XorFilter
