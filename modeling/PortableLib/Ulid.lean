import Mathlib.Data.Nat.Bitwise
import Mathlib.Tactic.IntervalCases
import PortableLib.Errno

/-! The text form of a ULID, `ulid.c`: sixteen bytes as twenty-six Crockford base-32 digits. Shifts
of the source are done in `int` and cut to a byte when they are stored; no digit index exceeds
five bits, so bytes suffice here. -/

namespace PortableLib.Ulid

/-- `Ulid_decoder`: upper and lower case digits, `0xff` everywhere else. -/
def ulidDecoder : Array UInt8 := #[
  0xFF, 0xFF, 0xFF, 0xFF, 0xFF, 0xFF, 0xFF, 0xFF, 0xFF, 0xFF,
  0xFF, 0xFF, 0xFF, 0xFF, 0xFF, 0xFF, 0xFF, 0xFF, 0xFF, 0xFF,
  0xFF, 0xFF, 0xFF, 0xFF, 0xFF, 0xFF, 0xFF, 0xFF, 0xFF, 0xFF,
  0xFF, 0xFF, 0xFF, 0xFF, 0xFF, 0xFF, 0xFF, 0xFF, 0xFF, 0xFF,
  0xFF, 0xFF, 0xFF, 0xFF, 0xFF, 0xFF, 0xFF, 0xFF, 0x00, 0x01,
  0x02, 0x03, 0x04, 0x05, 0x06, 0x07, 0x08, 0x09, 0xFF, 0xFF,
  0xFF, 0xFF, 0xFF, 0xFF, 0xFF, 0x0A, 0x0B, 0x0C, 0x0D, 0x0E,
  0x0F, 0x10, 0x11, 0xFF, 0x12, 0x13, 0xFF, 0x14, 0x15, 0xFF,
  0x16, 0x17, 0x18, 0x19, 0x1A, 0xFF, 0x1B, 0x1C, 0x1D, 0x1E,
  0x1F, 0xFF, 0xFF, 0xFF, 0xFF, 0xFF, 0xFF, 0x0A, 0x0B, 0x0C,
  0x0D, 0x0E, 0x0F, 0x10, 0x11, 0xFF, 0x12, 0x13, 0xFF, 0x14,
  0x15, 0xFF, 0x16, 0x17, 0x18, 0x19, 0x1A, 0xFF, 0x1B, 0x1C,
  0x1D, 0x1E, 0x1F, 0xFF, 0xFF, 0xFF, 0xFF, 0xFF, 0xFF, 0xFF,
  0xFF, 0xFF, 0xFF, 0xFF, 0xFF, 0xFF, 0xFF, 0xFF, 0xFF, 0xFF,
  0xFF, 0xFF, 0xFF, 0xFF, 0xFF, 0xFF, 0xFF, 0xFF, 0xFF, 0xFF,
  0xFF, 0xFF, 0xFF, 0xFF, 0xFF, 0xFF, 0xFF, 0xFF, 0xFF, 0xFF,
  0xFF, 0xFF, 0xFF, 0xFF, 0xFF, 0xFF, 0xFF, 0xFF, 0xFF, 0xFF,
  0xFF, 0xFF, 0xFF, 0xFF, 0xFF, 0xFF, 0xFF, 0xFF, 0xFF, 0xFF,
  0xFF, 0xFF, 0xFF, 0xFF, 0xFF, 0xFF, 0xFF, 0xFF, 0xFF, 0xFF,
  0xFF, 0xFF, 0xFF, 0xFF, 0xFF, 0xFF, 0xFF, 0xFF, 0xFF, 0xFF,
  0xFF, 0xFF, 0xFF, 0xFF, 0xFF, 0xFF, 0xFF, 0xFF, 0xFF, 0xFF,
  0xFF, 0xFF, 0xFF, 0xFF, 0xFF, 0xFF, 0xFF, 0xFF, 0xFF, 0xFF,
  0xFF, 0xFF, 0xFF, 0xFF, 0xFF, 0xFF, 0xFF, 0xFF, 0xFF, 0xFF,
  0xFF, 0xFF, 0xFF, 0xFF, 0xFF, 0xFF, 0xFF, 0xFF, 0xFF, 0xFF,
  0xFF, 0xFF, 0xFF, 0xFF, 0xFF, 0xFF, 0xFF, 0xFF, 0xFF, 0xFF,
  0xFF, 0xFF, 0xFF, 0xFF, 0xFF, 0xFF]

/-- `"0123456789ABCDEFGHJKMNPQRSTVWXYZ"`, with its terminator. -/
def b32 : Array UInt8 := #[
  0x30, 0x31, 0x32, 0x33, 0x34, 0x35, 0x36, 0x37, 0x38, 0x39,
  0x41, 0x42, 0x43, 0x44, 0x45, 0x46, 0x47, 0x48, 0x4A, 0x4B, 0x4D, 0x4E,
  0x50, 0x51, 0x52, 0x53, 0x54, 0x56, 0x57, 0x58, 0x59, 0x5A, 0]

def strlen (str : List UInt8) : Nat := (str.takeWhile (· ≠ 0)).length

/-- The macro `v(i)`; the character indexes the table as a `uint8_t`. -/
def v (str : List UInt8) (i : Nat) : Except Errno UInt8 :=
  let z := ulidDecoder.getD (str.getD i 0).toNat 0
  if 0xff = z then .error .einval else .ok z

def ulidFromstring (bsiz : Nat) (str : List UInt8) : Except Errno (List UInt8) := do
  if bsiz < 16 then throw .enospc
  if strlen str ≠ 26 then throw .einval
  let v := v str
  let b0 := ((← v 0) <<< 5) ||| (← v 1)
  let b1 := ((← v 2) <<< 3) ||| ((← v 3) >>> 2)
  let b2 := ((← v 3) <<< 6) ||| ((← v 4) <<< 1) ||| ((← v 5) >>> 4)
  let b3 := ((← v 5) <<< 4) ||| ((← v 6) >>> 1)
  let b4 := ((← v 6) <<< 7) ||| ((← v 7) <<< 2) ||| ((← v 8) >>> 3)
  let b5 := ((← v 8) <<< 5) ||| (← v 9)
  let b6 := ((← v 10) <<< 3) ||| ((← v 11) >>> 2)
  let b7 := ((← v 11) <<< 6) ||| ((← v 12) <<< 1) ||| ((← v 13) >>> 4)
  let b8 := ((← v 13) <<< 4) ||| ((← v 14) >>> 1)
  let b9 := ((← v 14) <<< 7) ||| ((← v 15) <<< 2) ||| ((← v 16) >>> 3)
  let b10 := ((← v 16) <<< 5) ||| (← v 17)
  let b11 := ((← v 18) <<< 3) ||| ((← v 19) >>> 2)
  let b12 := ((← v 19) <<< 6) ||| ((← v 20) <<< 1) ||| ((← v 21) >>> 4)
  let b13 := ((← v 21) <<< 4) ||| ((← v 22) >>> 1)
  let b14 := ((← v 22) <<< 7) ||| ((← v 23) <<< 2) ||| ((← v 24) >>> 3)
  let b15 := ((← v 24) <<< 5) ||| (← v 25)
  return [b0, b1, b2, b3, b4, b5, b6, b7, b8, b9, b10, b11, b12, b13, b14, b15]

/-- The five-bit groups that `ulid_tostring` looks up in `b32`, in order. -/
def groups (id : Vector UInt8 16) : List UInt8 := [
  (id[0] &&& 224) >>> 5,
  id[0] &&& 31,
  (id[1] &&& 248) >>> 3,
  ((id[1] &&& 7) <<< 2) ||| ((id[2] &&& 192) >>> 6),
  (id[2] &&& 62) >>> 1,
  ((id[3] &&& 1) <<< 4) ||| ((id[3] &&& 240) >>> 4),
  ((id[3] &&& 15) <<< 1) ||| ((id[4] &&& 128) >>> 7),
  (id[4] &&& 124) >>> 2,
  ((id[4] &&& 3) <<< 3) ||| ((id[5] &&& 224) >>> 5),
  id[5] &&& 31,
  (id[6] &&& 248) >>> 3,
  ((id[6] &&& 7) <<< 2) ||| ((id[7] &&& 192) >>> 6),
  (id[7] &&& 62) >>> 1,
  ((id[7] &&& 1) <<< 4) ||| ((id[8] &&& 240) >>> 4),
  ((id[8] &&& 15) <<< 1) ||| ((id[9] &&& 128) >>> 7),
  (id[9] &&& 124) >>> 2,
  ((id[9] &&& 3) <<< 3) ||| ((id[10] &&& 224) >>> 5),
  id[10] &&& 31,
  (id[11] &&& 248) >>> 3,
  ((id[11] &&& 7) <<< 2) ||| ((id[12] &&& 192) >>> 6),
  (id[12] &&& 62) >>> 1,
  ((id[12] &&& 1) <<< 4) ||| ((id[13] &&& 240) >>> 4),
  ((id[13] &&& 15) <<< 1) ||| ((id[14] &&& 128) >>> 7),
  (id[14] &&& 124) >>> 2,
  ((id[14] &&& 3) <<< 3) ||| ((id[15] &&& 224) >>> 5),
  id[15] &&& 31]

/-- The bytes written to `s`, terminator included, and the result `p - s`. -/
def ulidTostring (bsiz : Nat) (id : Vector UInt8 16) : Except Errno (List UInt8 × Nat) := do
  if bsiz < 27 then throw .enospc
  let p := (groups id).map fun x => b32.getD x.toNat 0
  return (p ++ [0], p.length)

/-- A Crockford base-32 digit: `0`–`9` or a capital letter other than `I`, `L`, `O` and `U`. -/
def IsCrockford (c : UInt8) : Prop :=
  (0x30 ≤ c ∧ c ≤ 0x39) ∨
    (0x41 ≤ c ∧ c ≤ 0x5A ∧ c ≠ 0x49 ∧ c ≠ 0x4C ∧ c ≠ 0x4F ∧ c ≠ 0x55)

instance (c : UInt8) : Decidable (IsCrockford c) := by
  unfold IsCrockford
  infer_instance

set_option maxRecDepth 4000 in
theorem digit_checked : ∀ n < 32, IsCrockford (b32.getD n 0) ∧ b32.getD n 0 ≠ 0 ∧
    ulidDecoder.getD (b32.getD n 0).toNat 0 = UInt8.ofNat n := by
  decide

theorem digit_spec {x : UInt8} (h : x < 32) : IsCrockford (b32.getD x.toNat 0) ∧
    b32.getD x.toNat 0 ≠ 0 ∧ ulidDecoder.getD (b32.getD x.toNat 0).toNat 0 = x := by
  have hx := digit_checked x.toNat (UInt8.lt_iff_toNat_lt.mp h)
  rwa [UInt8.ofNat_toNat] at hx

set_option maxRecDepth 4000 in
theorem shifted_lt (x : UInt8) : (x &&& 224) >>> 5 < 32 ∧ x &&& 31 < 32 ∧ (x &&& 248) >>> 3 < 32 ∧
    (x &&& 62) >>> 1 < 32 ∧ (x &&& 124) >>> 2 < 32 ∧ (x &&& 7) <<< 2 < 32 ∧
    (x &&& 192) >>> 6 < 32 ∧ (x &&& 1) <<< 4 < 32 ∧ (x &&& 240) >>> 4 < 32 ∧
    (x &&& 15) <<< 1 < 32 ∧ (x &&& 128) >>> 7 < 32 ∧ (x &&& 3) <<< 3 < 32 := by
  have hall : ∀ n < 256, (fun x : UInt8 => (x &&& 224) >>> 5 < 32 ∧ x &&& 31 < 32 ∧
      (x &&& 248) >>> 3 < 32 ∧ (x &&& 62) >>> 1 < 32 ∧ (x &&& 124) >>> 2 < 32 ∧
      (x &&& 7) <<< 2 < 32 ∧ (x &&& 192) >>> 6 < 32 ∧ (x &&& 1) <<< 4 < 32 ∧
      (x &&& 240) >>> 4 < 32 ∧ (x &&& 15) <<< 1 < 32 ∧ (x &&& 128) >>> 7 < 32 ∧
      (x &&& 3) <<< 3 < 32) (UInt8.ofNat n) := by
    decide
  have hx := hall x.toNat x.toNat_lt
  rwa [UInt8.ofNat_toNat] at hx

theorem or_lt {x y : UInt8} (hx : x < 32) (hy : y < 32) : x ||| y < 32 := by
  rw [UInt8.lt_iff_toNat_lt] at hx hy ⊢
  rw [UInt8.toNat_or]
  exact Nat.or_lt_two_pow (n := 5) hx hy

theorem groups_lt (id : Vector UInt8 16) : ∀ x ∈ groups id, x < 32 := by
  simp only [groups, List.forall_mem_cons, shifted_lt, or_lt, List.not_mem_nil, IsEmpty.forall_iff,
    implies_true, and_self]

def digits (gs : List UInt8) : List UInt8 := gs.map fun x => b32.getD x.toNat 0

theorem digits_inj {gs gs' : List UInt8} (h : ∀ x ∈ gs, x < 32) (h' : ∀ x ∈ gs', x < 32)
    (heq : digits gs = digits gs') : gs = gs' := by
  have hback : ∀ {gs : List UInt8}, (∀ x ∈ gs, x < 32) →
      (digits gs).map (fun c => ulidDecoder.getD c.toNat 0) = gs := by
    intro gs h
    rw [digits, List.map_map]
    refine (List.map_congr_left fun x hx => ?_).trans (List.map_id gs)
    rw [Function.comp_apply, (digit_spec (h x hx)).2.2, id]
  rw [← hback h, heq, hback h']

theorem strlen_digits {gs : List UInt8} (h : ∀ x ∈ gs, x < 32) :
    strlen (digits gs ++ [0]) = gs.length := by
  have hne : ∀ c ∈ digits gs, decide (c ≠ 0) = true := by
    intro c hc
    obtain ⟨x, hx, rfl⟩ := List.mem_map.mp hc
    exact decide_eq_true (digit_spec (h x hx)).2.1
  rw [strlen, List.takeWhile_append_of_pos hne]
  simp [digits]

theorem v_digits {gs : List UInt8} (h : ∀ x ∈ gs, x < 32) {i : Nat} (hi : i < gs.length) :
    v (digits gs ++ [0]) i = .ok (gs.getD i 0) := by
  have hlt := h _ (List.getElem_mem hi)
  have hget : (digits gs ++ [0]).getD i 0 = b32.getD gs[i].toNat 0 := by
    rw [List.getD_append _ _ _ _ (by simpa only [digits, List.length_map] using hi),
      List.getD_eq_getElem _ _ (by simpa only [digits, List.length_map] using hi)]
    simp only [digits, List.getElem_map]
  have hff : (0xff : UInt8) ≠ gs[i] := by
    intro hc
    rw [← hc] at hlt
    exact absurd hlt (by decide)
  rw [v, hget, (digit_spec hlt).2.2, if_neg hff, List.getD_eq_getElem _ _ hi]

theorem eq_of_bits {x y : UInt8} (h : ∀ i < 8, x.toBitVec.getLsbD i = y.toBitVec.getLsbD i) :
    x = y := by
  rw [← UInt8.toBitVec_inj]
  exact BitVec.eq_of_getLsbD_eq h

/-! Bytes put together again from the groups they were cut into. The low bit of a byte that is cut
at its second and seventh bit comes from the group after it. -/

theorem join_first (a : UInt8) : (((a &&& 224) >>> 5) <<< 5) ||| (a &&& 31) = a := by
  apply eq_of_bits
  intro i hi
  interval_cases i <;> simp

theorem join_5_3 (a b : UInt8) : (((a &&& 248) >>> 3) <<< 3) |||
    ((((a &&& 7) <<< 2) ||| ((b &&& 192) >>> 6)) >>> 2) = a := by
  apply eq_of_bits
  intro i hi
  interval_cases i <;> simp

theorem join_2_5_1 (a b c d : UInt8) : ((((a &&& 7) <<< 2) ||| ((b &&& 192) >>> 6)) <<< 6) |||
    (((b &&& 62) >>> 1) <<< 1) ||| ((((c &&& 1) <<< 4) ||| ((d &&& 240) >>> 4)) >>> 4) =
      (b &&& 254) ||| (c &&& 1) := by
  apply eq_of_bits
  intro i hi
  interval_cases i <;> simp

theorem join_4_4 (a b c : UInt8) : ((((a &&& 1) <<< 4) ||| ((b &&& 240) >>> 4)) <<< 4) |||
    ((((b &&& 15) <<< 1) ||| ((c &&& 128) >>> 7)) >>> 1) = b := by
  apply eq_of_bits
  intro i hi
  interval_cases i <;> simp

theorem join_1_5_2 (a b c : UInt8) : ((((a &&& 15) <<< 1) ||| ((b &&& 128) >>> 7)) <<< 7) |||
    (((b &&& 124) >>> 2) <<< 2) ||| ((((b &&& 3) <<< 3) ||| ((c &&& 224) >>> 5)) >>> 3) = b := by
  apply eq_of_bits
  intro i hi
  interval_cases i <;> simp

theorem join_3_5 (a b : UInt8) : ((((a &&& 3) <<< 3) ||| ((b &&& 224) >>> 5)) <<< 5) |||
    (b &&& 31) = b := by
  apply eq_of_bits
  intro i hi
  interval_cases i <;> simp

theorem join_low (a : UInt8) : (a &&& 254) ||| (a &&& 1) = a := by
  apply eq_of_bits
  intro i hi
  interval_cases i <;> simp

theorem toList_eq (id : Vector UInt8 16) : id.toList = [id[0], id[1], id[2], id[3], id[4], id[5],
    id[6], id[7], id[8], id[9], id[10], id[11], id[12], id[13], id[14], id[15]] := by
  apply List.ext_getElem (by simp)
  intro i hi _
  simp only [Vector.length_toList] at hi
  interval_cases i <;> simp

def withLow (a b : UInt8) : UInt8 := (a &&& 254) ||| (b &&& 1)

theorem ulidFromstring_digits {bsiz : Nat} (hb : 16 ≤ bsiz) (id : Vector UInt8 16) :
    ulidFromstring bsiz (digits (groups id) ++ [0]) =
      .ok (id.toList.set 2 (withLow id[2] id[3])) := by
  have hlen : strlen (digits (groups id) ++ [0]) = 26 := strlen_digits (groups_lt id)
  have hv : ∀ i < 26, v (digits (groups id) ++ [0]) i = .ok ((groups id).getD i 0) :=
    fun i hi => v_digits (groups_lt id) hi
  generalize digits (groups id) ++ [0] = str at hlen hv
  rw [ulidFromstring, toList_eq]
  simp only [Nat.not_lt.mpr hb, hlen, if_false, ne_eq, not_true_eq_false, hv, Nat.reduceLT,
    bind, Except.bind, pure, Except.pure]
  simp only [groups, List.getD_cons_zero, List.getD_cons_succ, join_first, join_5_3, join_2_5_1,
    join_4_4, join_1_5_2, join_3_5, join_low, List.set_cons_succ, List.set_cons_zero, withLow]

theorem withLow_eq_iff (a b : UInt8) : withLow a b = a ↔ a &&& 1 = b &&& 1 := by
  have hlow : withLow a b &&& 1 = b &&& 1 := by
    apply eq_of_bits
    intro i hi
    interval_cases i <;> simp [withLow]
  constructor
  · intro h
    rw [h] at hlow
    exact hlow
  · intro h
    rw [withLow, ← h, join_low]

/-- Every id has a text of twenty-six digits; it reads back as the id exactly if the low bits of
bytes 2 and 3 agree. -/
theorem ulid_round_trip_iff {bsiz bsiz' : Nat} (hs : 27 ≤ bsiz) (hb : 16 ≤ bsiz')
    (id : Vector UInt8 16) :
    (∃ str, ulidTostring bsiz id = .ok (str ++ [0], 26) ∧ str.length = 26 ∧
      (∀ c ∈ str, IsCrockford c) ∧ ulidFromstring bsiz' (str ++ [0]) = .ok id.toList) ↔
    id[2] &&& (1 : UInt8) = id[3] &&& (1 : UInt8) := by
  have hto : ulidTostring bsiz id = .ok (digits (groups id) ++ [0], 26) := by
    rw [ulidTostring, if_neg (Nat.not_lt.mpr hs)]
    rfl
  have hdig : ∀ c ∈ digits (groups id), IsCrockford c := by
    intro c hc
    obtain ⟨x, hx, rfl⟩ := List.mem_map.mp hc
    exact (digit_spec (groups_lt id x hx)).1
  have hset : id.toList.set 2 (withLow id[2] id[3]) = id.toList ↔ withLow id[2] id[3] = id[2] := by
    rw [toList_eq]
    simp only [List.set_cons_succ, List.set_cons_zero, List.cons.injEq, true_and, and_true]
  rw [← withLow_eq_iff, ← hset]
  constructor
  · rintro ⟨str, hstr, -, -, hfrom⟩
    obtain rfl : digits (groups id) = str := by
      have := Except.ok.inj (hto.symm.trans hstr)
      exact List.append_cancel_right (Prod.mk.inj this).1
    rw [ulidFromstring_digits hb] at hfrom
    exact Except.ok.inj hfrom
  · intro h
    refine ⟨digits (groups id), hto, rfl, hdig, ?_⟩
    rw [ulidFromstring_digits hb, h]

theorem ulid_round_trip_bytes :
    ∃ str, ulidTostring 27 #v[1, 35, 69, 103, 137, 171, 205, 239, 254, 220, 186, 152, 118, 84, 50,
        16] = .ok (str ++ [0], 26) ∧ str.length = 26 ∧ (∀ c ∈ str, IsCrockford c) ∧
      ulidFromstring 16 (str ++ [0]) =
        .ok [1, 35, 69, 103, 137, 171, 205, 239, 254, 220, 186, 152, 118, 84, 50, 16] :=
  (ulid_round_trip_iff (by decide) (by decide) #v[1, 35, 69, 103, 137, 171, 205, 239, 254, 220,
    186, 152, 118, 84, 50, 16]).mpr (by decide)

set_option maxRecDepth 4000 in
/-- The id with only the low bit of byte 2 set comes back as all zeros. -/
theorem ulid_low_bit_lost :
    ¬∃ str, ulidTostring 27 ((Vector.replicate 16 0).set 2 1) = .ok (str ++ [0], 26) ∧
      str.length = 26 ∧ (∀ c ∈ str, IsCrockford c) ∧
      ulidFromstring 16 (str ++ [0]) = .ok ((Vector.replicate 16 (0 : UInt8)).set 2 1).toList := by
  rintro ⟨str, hstr, -, -, hfrom⟩
  have hto : ulidTostring 27 ((Vector.replicate 16 0).set 2 1) =
      .ok (List.replicate 26 0x30 ++ [0], 26) := by
    decide
  obtain rfl : List.replicate 26 0x30 = str := by
    have := Except.ok.inj (hto.symm.trans hstr)
    exact List.append_cancel_right (Prod.mk.inj this).1
  revert hfrom
  decide

end PortableLib.Ulid
