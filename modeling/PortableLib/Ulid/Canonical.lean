import PortableLib.Ctype
import PortableLib.Ulid

/-! Which texts `ulid_fromstring` takes for the same id, and which of them `ulid_tostring` prints
again. Two bits of a text are at stake besides the case: 26 digits are two bits more than an id, and
those of the first digit are shifted out of the first byte without a check; and the top bit of the
sixth digit is printed from the second lowest of the seventh. -/

namespace PortableLib.Ulid
open Ctype (toupper)

variable {str : List UInt8}

def digit (str : List UInt8) (i : Nat) : UInt8 := ulidDecoder.getD (str.getD i 0).toNat 0

def pack (w : Nat → UInt8) : Vector UInt8 16 := #v[
  w 0 <<< 5 ||| w 1,
  w 2 <<< 3 ||| w 3 >>> 2, w 3 <<< 6 ||| w 4 <<< 1 ||| w 5 >>> 4, w 5 <<< 4 ||| w 6 >>> 1,
  w 6 <<< 7 ||| w 7 <<< 2 ||| w 8 >>> 3, w 8 <<< 5 ||| w 9,
  w 10 <<< 3 ||| w 11 >>> 2, w 11 <<< 6 ||| w 12 <<< 1 ||| w 13 >>> 4, w 13 <<< 4 ||| w 14 >>> 1,
  w 14 <<< 7 ||| w 15 <<< 2 ||| w 16 >>> 3, w 16 <<< 5 ||| w 17,
  w 18 <<< 3 ||| w 19 >>> 2, w 19 <<< 6 ||| w 20 <<< 1 ||| w 21 >>> 4, w 21 <<< 4 ||| w 22 >>> 1,
  w 22 <<< 7 ||| w 23 <<< 2 ||| w 24 >>> 3, w 24 <<< 5 ||| w 25]

theorem v_eq (str : List UInt8) (i : Nat) :
    v str i = if 0xff = digit str i then .error .einval else .ok (digit str i) := rfl

theorem v_bind_eq_ok {α : Type} {i : Nat} {f : UInt8 → Except Errno α} {a : α} :
    v str i >>= f = .ok a ↔ 0xff ≠ digit str i ∧ f (digit str i) = .ok a := by
  rw [v_eq]
  split
  · next h => exact iff_of_false (fun hc => by cases hc) fun hc => hc.1 h
  · next h => exact (and_iff_right h).symm

theorem ulidFromstring_eq_ok {bsiz : Nat} {bytes : List UInt8} (hb : 16 ≤ bsiz) :
    ulidFromstring bsiz str = .ok bytes ↔
      strlen str = 26 ∧ (∀ i < 26, 0xff ≠ digit str i) ∧ (pack (digit str)).toList = bytes := by
  rw [ulidFromstring]
  by_cases hlen : strlen str = 26
  · simp only [Nat.not_lt.mpr hb, hlen, ne_eq, not_true_eq_false, if_false, v_bind_eq_ok, true_and]
    constructor
    · intro h
      have hall : ∀ i < 26, ¬ 0xff = digit str i := by
        intro i hi
        interval_cases i <;> simp only [h, not_false_eq_true]
      simp only [hall, Nat.reduceLT, not_false_eq_true, true_and] at h
      exact ⟨hall, Except.ok.inj h⟩
    · rintro ⟨hall, rfl⟩
      simp only [hall, Nat.reduceLT, not_false_eq_true, true_and]
      rfl
  · simp only [Nat.not_lt.mpr hb, hlen, ne_eq, not_false_eq_true, if_true, if_false, false_and]
    exact iff_of_false (fun h => by cases h) id

theorem getD_mem_zipIdx {α : Type} {a : Array α} {d : α} {i : Nat} (hi : i < a.size) :
    (a.getD i d, i) ∈ a.toList.zipIdx := by
  rw [List.mk_mem_zipIdx_iff_getElem?, Array.getElem?_toList, Array.getD_eq_getD_getElem?,
    Array.getElem?_eq_getElem hi, Option.getD_some]

set_option maxRecDepth 4000 in
theorem char_checked : ∀ p ∈ ulidDecoder.toList.zipIdx, 0xff ≠ p.1 →
    p.1 < 32 ∧ b32.getD p.1.toNat 0 = toupper (UInt8.ofNat p.2) := by
  decide

set_option maxRecDepth 4000 in
theorem char_spec {c : UInt8} (h : 0xff ≠ ulidDecoder.getD c.toNat 0) :
    ulidDecoder.getD c.toNat 0 < 32 ∧
      b32.getD (ulidDecoder.getD c.toNat 0).toNat 0 = toupper c := by
  have hsize : ulidDecoder.size = 256 := by decide
  have hmem : (ulidDecoder.getD c.toNat 0, c.toNat) ∈ ulidDecoder.toList.zipIdx :=
    getD_mem_zipIdx (hsize ▸ c.toNat_lt)
  generalize ulidDecoder.getD c.toNat 0 = d at h hmem ⊢
  have hc := char_checked (d, c.toNat) hmem h
  rwa [UInt8.ofNat_toNat] at hc

theorem high_bits {w : UInt8} (h : w < 32) :
    w.toBitVec[5] = false ∧ w.toBitVec[6] = false ∧ w.toBitVec[7] = false := by
  have hw : w.toBitVec.toNat < 2 ^ 5 := UInt8.lt_iff_toNat_lt.mp h
  have hbit : ∀ i, 5 ≤ i → w.toBitVec.getLsbD i = false := fun i hi =>
    Nat.testBit_lt_two_pow (hw.trans_le (Nat.pow_le_pow_right (by decide) hi))
  exact ⟨hbit 5 (by decide), hbit 6 (by decide), hbit 7 (by decide)⟩

section
variable {a b c d : UInt8} (ha : a < 32) (hb : b < 32) (hc : c < 32) (hd : d < 32)

include ha hb in
theorem cut_5 : ((a <<< 3 ||| b >>> 2) &&& 248) >>> 3 = a := by
  apply eq_of_bits
  intro i hi
  interval_cases i <;> simp [high_bits ha, high_bits hb]

include hb hc in
theorem cut_3_2 : (((a <<< 3 ||| b >>> 2) &&& 7) <<< 2) |||
    (((b <<< 6 ||| c <<< 1 ||| d >>> 4) &&& 192) >>> 6) = b := by
  apply eq_of_bits
  intro i hi
  interval_cases i <;> simp [high_bits hb, high_bits hc]

include hb hc in
theorem cut_mid : ((a <<< 6 ||| b <<< 1 ||| c >>> 4) &&& 62) >>> 1 = b := by
  apply eq_of_bits
  intro i hi
  interval_cases i <;> simp [high_bits hb, high_bits hc]

include hc hd in
theorem cut_1_4 : (((a <<< 6 ||| b <<< 1 ||| c >>> 4) &&& 1) <<< 4) |||
    (((c <<< 4 ||| d >>> 1) &&& 240) >>> 4) = c := by
  apply eq_of_bits
  intro i hi
  interval_cases i <;> simp [high_bits hc, high_bits hd]

include hb hc in
theorem cut_4_1 : (((a <<< 4 ||| b >>> 1) &&& 15) <<< 1) |||
    (((b <<< 7 ||| c <<< 2 ||| d >>> 3) &&& 128) >>> 7) = b := by
  apply eq_of_bits
  intro i hi
  interval_cases i <;> simp [high_bits hb, high_bits hc]

include hb hc in
theorem cut_high : ((a <<< 7 ||| b <<< 2 ||| c >>> 3) &&& 124) >>> 2 = b := by
  apply eq_of_bits
  intro i hi
  interval_cases i <;> simp [high_bits hb, high_bits hc]

include ha hb in
theorem cut_3 : ((a <<< 5 ||| b) &&& 224) >>> 5 = a &&& 7 := by
  apply eq_of_bits
  intro i hi
  interval_cases i <;> simp [high_bits ha, high_bits hb]

include hc in
theorem cut_2_3 : (((a <<< 7 ||| b <<< 2 ||| c >>> 3) &&& 3) <<< 3) ||| (c &&& 7) = c := by
  apply eq_of_bits
  intro i hi
  interval_cases i <;> simp [high_bits hc]

include hb in
theorem cut_low : (a <<< 5 ||| b) &&& 31 = b := by
  apply eq_of_bits
  intro i hi
  interval_cases i <;> simp [high_bits hb]

def withTop (a b : UInt8) : UInt8 := ((b >>> 1 &&& 1) <<< 4) ||| (a &&& 15)

include ha hb in
theorem cut_fourth : (((a <<< 4 ||| b >>> 1) &&& 1) <<< 4) |||
    (((a <<< 4 ||| b >>> 1) &&& 240) >>> 4) = withTop a b := by
  apply eq_of_bits
  intro i hi
  interval_cases i <;> simp [withTop, high_bits ha, high_bits hb]

end

variable {w : Nat → UInt8}

theorem groups_pack (hw : ∀ i < 26, w i < 32) : groups (pack w) =
    (((List.range 26).map w).set 0 (w 0 &&& 7)).set 5 (withTop (w 5) (w 6)) := by
  simp only [groups, pack, Vector.getElem_mk, List.getElem_toArray, List.getElem_cons_zero,
    List.getElem_cons_succ, cut_3, cut_5, cut_3_2, cut_mid, cut_1_4, cut_4_1, cut_high, cut_2_3,
    cut_low, cut_fourth, hw, Nat.reduceLT]
  rfl

theorem withTop_eq_iff {a b : UInt8} (ha : a < 32) :
    withTop a b = a ↔ a >>> 4 = b >>> 1 &&& 1 := by
  have hjoin : a = ((a >>> 4) <<< 4) ||| (a &&& 15) := by
    apply eq_of_bits
    intro i hi
    interval_cases i <;> simp [high_bits ha]
  have htop : withTop a b >>> 4 = b >>> 1 &&& 1 := by
    apply eq_of_bits
    intro i hi
    interval_cases i <;> simp [withTop]
  constructor
  · intro h
    rw [h] at htop
    exact htop
  · intro h
    rw [withTop, ← h, ← hjoin]

theorem and_seven_eq_iff {a : UInt8} (ha : a < 32) : a &&& 7 = a ↔ a < 8 := by
  have hall : ∀ n < 32, UInt8.ofNat n &&& 7 = UInt8.ofNat n ↔ UInt8.ofNat n < 8 := by decide
  have h := hall a.toNat (UInt8.lt_iff_toNat_lt.mp ha)
  rwa [UInt8.ofNat_toNat] at h

structure Spells (w : Nat → UInt8) (str : List UInt8) : Prop where
  lt : ∀ i < 26, w i < 32
  upper : str.map toupper = digits ((List.range 26).map w)

theorem Spells.forall_lt (h : Spells w str) : ∀ x ∈ (List.range 26).map w, x < 32 := by
  intro x hx
  obtain ⟨i, hi, rfl⟩ := List.mem_map.mp hx
  exact h.lt i (List.mem_range.mp hi)

theorem digit_append {i : Nat} (hi : i < str.length) :
    digit (str ++ [0]) i = ulidDecoder.getD str[i].toNat 0 ∧
      digit (str ++ [0]) i = digit str i := by
  constructor
  · rw [digit, List.getD_append _ _ _ _ hi, List.getD_eq_getElem _ _ hi]
  · rw [digit, List.getD_append _ _ _ _ hi, digit]

theorem length_of_strlen (h0 : 0 ∉ str) (hlen : strlen (str ++ [0]) = 26) : str.length = 26 := by
  have hne : ∀ c ∈ str, decide (c ≠ 0) = true := fun c hc =>
    decide_eq_true (ne_of_mem_of_not_mem hc h0)
  rw [strlen, List.takeWhile_append_of_pos hne] at hlen
  simpa using hlen

theorem spells_of_accepted (hstr : str.length = 26)
    (hdig : ∀ i < 26, 0xff ≠ digit (str ++ [0]) i) : Spells (digit (str ++ [0])) str := by
  constructor
  · intro i hi
    have h := hdig i hi
    rw [(digit_append (hstr ▸ hi)).1] at h ⊢
    exact (char_spec h).1
  · apply List.ext_getElem
    · simp [digits, hstr]
    · intro i hi _
      rw [List.length_map] at hi
      have h := hdig i (hstr ▸ hi)
      simp only [digits, List.getElem_map, List.getElem_range]
      rw [(digit_append hi).1] at h ⊢
      exact (char_spec h).2.symm

theorem Spells.eq_iff {w' : Nat → UInt8} {str' : List UInt8} (h : Spells w str)
    (h' : Spells w' str') : str'.map toupper = str.map toupper ↔ ∀ i < 26, w' i = w i := by
  rw [h.upper, h'.upper]
  constructor
  · intro heq i hi
    exact List.map_inj_left.mp (digits_inj h'.forall_lt h.forall_lt heq) i (List.mem_range.mpr hi)
  · intro hall
    rw [List.map_congr_left fun i hi => hall i (List.mem_range.mp hi)]

theorem Spells.digits_groups (h : Spells w str) : digits (groups (pack w)) = str.map toupper ↔
    w 0 < 8 ∧ w 5 >>> 4 = w 6 >>> 1 &&& 1 := by
  have hinj : digits (groups (pack w)) = digits ((List.range 26).map w) ↔
      groups (pack w) = (List.range 26).map w :=
    ⟨digits_inj (groups_lt _) h.forall_lt, congrArg digits⟩
  rw [h.upper, hinj, groups_pack h.lt, ← and_seven_eq_iff (h.lt 0 (by decide)),
    ← withTop_eq_iff (h.lt 5 (by decide))]
  simp [List.range, List.range.loop]

theorem Spells.agree {w' : Nat → UInt8} {str' : List UInt8} (h : Spells w str)
    (h' : Spells w' str') (hid : pack w' = pack w) (h0 : w' 0 = w 0) : ∀ i < 26, w' i = w i := by
  have hgroups := congrArg groups hid
  rw [groups_pack h.lt, groups_pack h'.lt] at hgroups
  -- the sixth digit is not printed, but its top bit is the low bit of byte 2
  have h5 : w' 5 = w 5 := by
    have h2 : (pack w')[2] = (pack w)[2] := by rw [hid]
    have h3 : (pack w')[3] = (pack w)[3] := by rw [hid]
    have hjoin := cut_1_4 (a := w' 3) (b := w' 4) (h'.lt 5 (by decide)) (h'.lt 6 (by decide))
    have hjoin' := cut_1_4 (a := w 3) (b := w 4) (h.lt 5 (by decide)) (h.lt 6 (by decide))
    rw [← hjoin, ← hjoin']
    exact congrArg₂ (fun x y : UInt8 => ((x &&& 1) <<< 4) ||| ((y &&& 240) >>> 4)) h2 h3
  simp [List.range, List.range.loop] at hgroups
  intro i hi
  interval_cases i <;> simp only [hgroups, h0, h5]

/-- A text that is read comes out again in upper case exactly if its first digit is below 8 and the
top bit of its sixth digit is the second lowest of the seventh. A second text of the same id is the
same up to case exactly if it has the same first digit. -/
theorem ulid_canonical_iff {bsiz bsiz' : Nat} {bytes : List UInt8} (hb : 16 ≤ bsiz)
    (hs : 27 ≤ bsiz') (h0 : 0 ∉ str) (hok : ulidFromstring bsiz (str ++ [0]) = .ok bytes) :
    ∃ id : Vector UInt8 16, id.toList = bytes ∧
      (ulidTostring bsiz' id = .ok (str.map toupper ++ [0], 26) ↔
        digit str 0 < 8 ∧ digit str 5 >>> 4 = digit str 6 >>> 1 &&& 1) ∧
      ∀ str', 0 ∉ str' → ulidFromstring bsiz (str' ++ [0]) = .ok bytes →
        (str'.map toupper = str.map toupper ↔ digit str' 0 = digit str 0) := by
  have hread : ∀ str', 0 ∉ str' → ulidFromstring bsiz (str' ++ [0]) = .ok bytes →
      Spells (digit (str' ++ [0])) str' ∧ (pack (digit (str' ++ [0]))).toList = bytes ∧
        ∀ i < 26, digit (str' ++ [0]) i = digit str' i := by
    intro str' h0' hok'
    obtain ⟨hlen, hdig, hbytes⟩ := (ulidFromstring_eq_ok hb).mp hok'
    have hstr := length_of_strlen h0' hlen
    exact ⟨spells_of_accepted hstr hdig, hbytes, fun i hi => (digit_append (hstr ▸ hi)).2⟩
  obtain ⟨hspells, hid, hdigit⟩ := hread str h0 hok
  refine ⟨pack (digit (str ++ [0])), hid, ?_, ?_⟩
  · rw [← hdigit 0 (by decide), ← hdigit 5 (by decide), ← hdigit 6 (by decide),
      ← hspells.digits_groups, ulidTostring, if_neg (Nat.not_lt.mpr hs)]
    constructor
    · intro h
      exact List.append_cancel_right (Prod.mk.inj (Except.ok.inj h)).1
    · intro h
      rw [← h]
      rfl
  · intro str' h0' hok'
    obtain ⟨hspells', hid', hdigit'⟩ := hread str' h0' hok'
    rw [← hdigit 0 (by decide), ← hdigit' 0 (by decide), hspells.eq_iff hspells']
    exact ⟨fun h => h 0 (by decide),
      hspells.agree hspells' (Vector.toList_inj.mp (hid'.trans hid.symm))⟩

/-- `01bx5zzkbkactav9wevgemmvrz` -/
def lowerText : List UInt8 :=
  [0x30, 0x31, 0x62, 0x78, 0x35, 0x7a, 0x7a, 0x6b, 0x62, 0x6b, 0x61, 0x63, 0x74, 0x61, 0x76, 0x39,
    0x77, 0x65, 0x76, 0x67, 0x65, 0x6d, 0x6d, 0x76, 0x72, 0x7a]

def lowerBytes : List UInt8 :=
  [1, 95, 75, 255, 205, 115, 83, 52, 173, 167, 142, 220, 29, 74, 111, 31]

set_option maxRecDepth 4000 in
theorem ulid_canonical_lower :
    ∃ id : Vector UInt8 16, id.toList = lowerBytes ∧
      ulidTostring 27 id = .ok (lowerText.map toupper ++ [0], 26) ∧
      ∀ str', 0 ∉ str' → ulidFromstring 16 (str' ++ [0]) = .ok lowerBytes →
        (str'.map toupper = lowerText.map toupper ↔ digit str' 0 = 0) := by
  have hok : ulidFromstring 16 (lowerText ++ [0]) = .ok lowerBytes := by decide
  obtain ⟨id, hid, hprint, hother⟩ := ulid_canonical_iff (Nat.le_refl 16) (Nat.le_refl 27)
    (show 0 ∉ lowerText by decide) hok
  have hzero : digit lowerText 0 = 0 := by decide
  rw [hzero] at hother
  exact ⟨id, hid, hprint.mpr (by decide), hother⟩

set_option maxRecDepth 4000 in
/-- An eight before twenty-five zeros is a second text of the id zero. With a `G` for the sixth
digit the id has a bit set that is not printed. -/
theorem ulid_not_canonical :
    ulidFromstring 16 (0x38 :: List.replicate 25 0x30 ++ [0]) = .ok (List.replicate 16 0) ∧
      ulidFromstring 16 (List.replicate 26 0x30 ++ [0]) = .ok (List.replicate 16 0) ∧
      ulidTostring 27 (Vector.replicate 16 0) = .ok (List.replicate 26 0x30 ++ [0], 26) ∧
      List.replicate 26 0x30 ≠ (0x38 :: List.replicate 25 0x30).map toupper ∧
      ulidFromstring 16 ((List.replicate 26 0x30).set 5 0x47 ++ [0]) =
        .ok ((List.replicate 16 0).set 2 1) ∧
      ulidTostring 27 ((Vector.replicate 16 0).setIfInBounds 2 1) =
        .ok (List.replicate 26 0x30 ++ [0], 26) := by
  decide

end PortableLib.Ulid
