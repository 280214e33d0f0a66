import Mathlib.Data.List.TakeWhile
import PortableLib.Errno

/-! The text form of a UUID, `uuid.c`. What `uuid_fromstring` stores comes with its result: the
caller vouches for sixteen bytes of the buffer. The digits are put together in `int` and cut to a
byte; four bits shifted by four at most fit into one. -/

namespace PortableLib.Uuid

/-- The digits that the `switch` of `uuid_fromstring` knows. -/
def hexDigit (c : UInt8) : Option UInt8 :=
  if 0x30 ≤ c ∧ c ≤ 0x39 then some (c - 0x30)
  else if 0x61 ≤ c ∧ c ≤ 0x66 then some (c - 0x61 + 10)
  else if 0x41 ≤ c ∧ c ≤ 0x46 then some (c - 0x41 + 10)
  else none

/-- The variables of `uuid_fromstring`, and the bytes stored so far. -/
structure Decoder where
  out : List UInt8
  byte : UInt8
  shift : Nat
  bsiz : UInt64
  deriving DecidableEq

def Decoder.digit (st : Decoder) (d : UInt8) : Decoder :=
  let byte := st.byte ||| d <<< UInt8.ofNat st.shift
  if st.shift < 4 then ⟨st.out ++ [byte], 0, 4, st.bsiz - 1⟩
  else { st with byte := byte, shift := st.shift - 4 }

def decodeLoop : Decoder → List UInt8 → Decoder × Bool
  | st, [] => (st, true)
  | st, c :: str =>
    if c = 0 then (st, true)
    else if c = 0x2d then decodeLoop st str
    else
      match hexDigit c with
      | some d => decodeLoop (st.digit d) str
      | none => (st, false)

def strlen (str : List UInt8) : Nat := (str.takeWhile (· ≠ 0)).length

/-- What is stored in `buf`, and the result. -/
def uuidFromstring (bsiz : Nat) (str : List UInt8) : List UInt8 × Except Errno Nat :=
  if bsiz < 16 then ([], .error .enospc)
  else if strlen str ≠ 36 then ([], .error .einval)
  else
    let (st, atEnd) := decodeLoop ⟨[], 0, 4, 16⟩ str
    if !atEnd then (st.out, .error .einval)
    else if st.bsiz ≠ 0 then (st.out, .error .einval)
    else (st.out, .ok 16)

/-- `"0123456789ABCDEF"` -/
def hex : Array UInt8 := #[
  0x30, 0x31, 0x32, 0x33, 0x34, 0x35, 0x36, 0x37, 0x38, 0x39, 0x41, 0x42, 0x43, 0x44, 0x45, 0x46]

def chunk (b : List UInt8) : List UInt8 :=
  b.flatMap fun z : UInt8 => [hex.getD (z >>> 4 &&& 0xf).toNat 0, hex.getD (z &&& 0xf).toNat 0]

def chunks (b : List UInt8) : List UInt8 :=
  chunk (b.take 4) ++ 0x2d :: (chunk ((b.drop 4).take 2) ++ 0x2d :: (chunk ((b.drop 6).take 2) ++
    0x2d :: (chunk ((b.drop 8).take 2) ++ 0x2d :: chunk ((b.drop 10).take 6))))

/-- The bytes stored in `out`, terminator included, and the result `p - out`. -/
def uuidTostring (outsz : Nat) (uuid : Vector UInt8 16) : Except Errno (List UInt8 × Nat) :=
  if outsz < 37 then .error .enospc
  else
    let p := chunks uuid.toList ++ [0]
    .ok (p, p.length)

-- not before the definitions, in which `Vector` would then be ambiguous
open List

theorem digit_checked : ∀ n < 16, hex.getD n 0 ≠ 0 ∧ hex.getD n 0 ≠ 0x2d ∧
    hexDigit (hex.getD n 0) = some (UInt8.ofNat n) := by
  decide

set_option maxRecDepth 4000 in
theorem nibbles_checked : ∀ n < 256, (fun z : UInt8 => (z >>> 4 &&& 0xf).toNat < 16 ∧
    (z &&& 0xf).toNat < 16 ∧ (z >>> 4 &&& 0xf) <<< 4 ||| (z &&& 0xf) = z) (UInt8.ofNat n) := by
  decide

theorem nibbles (z : UInt8) : (z >>> 4 &&& 0xf).toNat < 16 ∧ (z &&& 0xf).toNat < 16 ∧
    (z >>> 4 &&& 0xf) <<< 4 ||| (z &&& 0xf) = z := by
  have hz := nibbles_checked z.toNat z.toNat_lt
  rwa [UInt8.ofNat_toNat] at hz

theorem decodeLoop_hex {x : UInt8} (hx : x.toNat < 16) (st : Decoder) (s : List UInt8) :
    decodeLoop st (hex.getD x.toNat 0 :: s) = decodeLoop (st.digit x) s := by
  obtain ⟨hnul, hdash, hdig⟩ := digit_checked x.toNat hx
  rw [decodeLoop, if_neg hnul, if_neg hdash, hdig, UInt8.ofNat_toNat]

theorem decodeLoop_dash (st : Decoder) (s : List UInt8) :
    decodeLoop st (0x2d :: s) = decodeLoop st s := rfl

theorem decodeLoop_chunk (out : List UInt8) (bsiz : UInt64) (b s : List UInt8) :
    decodeLoop ⟨out, 0, 4, bsiz⟩ (chunk b ++ s) =
      decodeLoop ⟨out ++ b, 0, 4, bsiz - UInt64.ofNat b.length⟩ s := by
  induction b generalizing out bsiz with
  | nil => rw [chunk, flatMap_nil, nil_append, append_nil, length_nil,
      show bsiz - UInt64.ofNat 0 = bsiz from UInt64.sub_zero bsiz]
  | cons z b ih =>
    obtain ⟨hhigh, hlow, hjoin⟩ := nibbles z
    have hbyte : ((⟨out, 0, 4, bsiz⟩ : Decoder).digit (z >>> 4 &&& 0xf)).digit (z &&& 0xf) =
        ⟨out ++ [z], 0, 4, bsiz - 1⟩ := by
      have hz : (0 : UInt8) ||| (z >>> 4 &&& 0xf) <<< UInt8.ofNat 4 |||
          (z &&& 0xf) <<< UInt8.ofNat 0 = z := by
        rw [UInt8.zero_or, show UInt8.ofNat 4 = 4 from rfl, show UInt8.ofNat 0 = 0 from rfl,
          UInt8.shiftLeft_zero, hjoin]
      simp only [Decoder.digit, Nat.lt_irrefl, if_false, Nat.sub_self, Nat.zero_lt_succ, if_true,
        hz]
    have hsub : bsiz - UInt64.ofNat (z :: b).length = bsiz - 1 - UInt64.ofNat b.length := by
      rw [length_cons, UInt64.ofNat_add]
      grind
    rw [chunk, flatMap_cons, append_assoc, cons_append, cons_append, nil_append,
      decodeLoop_hex hhigh, decodeLoop_hex hlow, hbyte, ← chunk, ih, hsub, append_assoc,
      singleton_append]

theorem length_chunk (b : List UInt8) : (chunk b).length = 2 * b.length := by
  induction b with
  | nil => rfl
  | cons z b ih =>
    rw [chunk, flatMap_cons, length_append, ← chunk, ih]
    simp only [length_cons, length_nil]
    omega

theorem ne_zero_of_mem_chunk {b : List UInt8} {c : UInt8} (h : c ∈ chunk b) : c ≠ 0 := by
  obtain ⟨z, -, hc⟩ := mem_flatMap.mp h
  obtain ⟨hhigh, hlow, -⟩ := nibbles z
  rcases mem_cons.mp hc with rfl | hc
  · exact (digit_checked _ hhigh).1
  · exact mem_singleton.mp hc ▸ (digit_checked _ hlow).1

theorem ne_zero_of_mem_chunks {b : List UInt8} {c : UInt8} (h : c ∈ chunks b) : c ≠ 0 := by
  simp only [chunks, mem_append, mem_cons] at h
  rcases h with h | rfl | h | rfl | h | rfl | h | rfl | h
  all_goals first | exact ne_zero_of_mem_chunk h | decide

theorem length_chunks {b : List UInt8} (h : b.length = 16) : (chunks b).length = 36 := by
  simp only [chunks, length_append, length_cons, length_chunk, length_take, length_drop, h]
  decide

theorem strlen_eq {s : List UInt8} (h : ∀ c ∈ s, c ≠ 0) : strlen (s ++ [0]) = s.length := by
  rw [strlen, takeWhile_append_of_pos fun c hc => decide_eq_true (h c hc)]
  simp

theorem decodeLoop_chunks {b : List UInt8} (h : b.length = 16) (s : List UInt8) :
    decodeLoop ⟨[], 0, 4, 16⟩ (chunks b ++ s) = decodeLoop ⟨b, 0, 4, 0⟩ s := by
  have hpiece : ∀ i k, (b.drop i).take k ++ b.drop (i + k) = b.drop i := by
    intro i k
    rw [← drop_drop, take_append_drop]
  have hlast : (b.drop 10).take 6 = b.drop 10 := by
    apply take_of_length_le
    rw [length_drop, h]
  have hjoin : b.take 4 ++ ((b.drop 4).take 2 ++ ((b.drop 6).take 2 ++ ((b.drop 8).take 2 ++
      (b.drop 10).take 6))) = b := by
    rw [hlast, hpiece 8 2, hpiece 6 2, hpiece 4 2, take_append_drop]
  simp only [chunks, append_assoc, cons_append, decodeLoop_chunk, decodeLoop_dash, nil_append,
    hjoin, length_take, length_drop, h]
  rfl

theorem uuidFromstring_chunks {bsiz : Nat} (hb : 16 ≤ bsiz) {b : List UInt8}
    (hlen : b.length = 16) : uuidFromstring bsiz (chunks b ++ [0]) = (b, .ok 16) := by
  have hstr : strlen (chunks b ++ [0]) = 36 :=
    (strlen_eq fun c hc => ne_zero_of_mem_chunks hc).trans (length_chunks hlen)
  rw [uuidFromstring, if_neg (Nat.not_lt.mpr hb), if_neg (not_not_intro hstr),
    decodeLoop_chunks hlen]
  rfl

def isHex (c : UInt8) : Bool := (hexDigit c).isSome

def isPart (c : UInt8) : Bool := isHex c || c = 0x2d

structure Decoder.Read (st : Decoder) (k : Nat) : Prop where
  out : st.out.length = k / 2
  shift : st.shift = if k % 2 = 0 then 4 else 0
  bsiz : st.bsiz = 16 - UInt64.ofNat (k / 2)

variable {st : Decoder} {k : Nat} {s : List UInt8}

theorem Decoder.Read.digit (h : st.Read k) (d : UInt8) : (st.digit d).Read (k + 1) := by
  obtain ⟨hout, hshift, hbsiz⟩ := h
  rcases Nat.mod_two_eq_zero_or_one k with hk | hk
  · have hhalf : (k + 1) / 2 = k / 2 := by omega
    have hodd : (k + 1) % 2 = 1 := by omega
    rw [if_pos hk] at hshift
    rw [Decoder.digit, if_neg (by omega)]
    refine ⟨hout.trans hhalf.symm, ?_, hhalf ▸ hbsiz⟩
    rw [if_neg (by omega)]
    change st.shift - 4 = 0
    omega
  · have hhalf : (k + 1) / 2 = k / 2 + 1 := by omega
    rw [if_neg (by omega)] at hshift
    rw [Decoder.digit, if_pos (by omega)]
    refine ⟨?_, (if_pos (by omega)).symm, ?_⟩
    · rw [length_append, hout, hhalf]
      rfl
    · dsimp only
      rw [hbsiz, hhalf, UInt64.ofNat_add]
      grind

theorem decodeLoop_read (h : st.Read k) (hs : 0 ∉ s) :
    (decodeLoop st (s ++ [0])).1.Read (k + (s.takeWhile isPart).countP isHex) ∧
      ((decodeLoop st (s ++ [0])).2 = true ↔ ∀ c ∈ s, isPart c = true) := by
  induction s generalizing st k with
  | nil => exact ⟨h, iff_of_true rfl fun c hc => by cases hc⟩
  | cons c s ih =>
    obtain ⟨hc, hs⟩ := not_or.mp (mem_cons.not.mp hs)
    rw [cons_append, decodeLoop, if_neg (Ne.symm hc), forall_mem_cons]
    by_cases hdash : c = 0x2d
    · have hpart : isPart c = true := by
        rw [hdash]
        rfl
      have hhex : ¬ isHex c = true := by
        rw [hdash]
        decide
      rw [if_pos hdash, takeWhile_cons_of_pos hpart, countP_cons_of_neg hhex, and_iff_right hpart]
      exact ih h hs
    · rw [if_neg hdash]
      cases hdig : hexDigit c with
      | some d =>
        have hhex : isHex c = true := by rw [isHex, hdig]; rfl
        have hpart : isPart c = true := by rw [isPart, hhex]; rfl
        rw [takeWhile_cons_of_pos hpart, countP_cons_of_pos hhex, and_iff_right hpart,
          ← Nat.add_assoc, Nat.add_right_comm]
        exact ih (h.digit d) hs
      | none =>
        have hpart : ¬ isPart c = true := by
          rw [isPart, isHex, hdig, decide_eq_false hdash]
          exact Bool.false_ne_true
        rw [takeWhile_cons_of_neg hpart]
        exact ⟨h, iff_of_false Bool.false_ne_true fun hall => hpart hall.1⟩

theorem countP_add_count (h : ∀ c ∈ s, isPart c = true) :
    s.countP isHex + s.count 0x2d = s.length := by
  induction s with
  | nil => rfl
  | cons c s ih =>
    obtain ⟨hc, hs⟩ := forall_mem_cons.mp h
    have hrest := ih hs
    rw [count_cons, countP_cons, length_cons]
    by_cases hdash : c = 0x2d
    · have hhex : ¬ isHex c = true := by
        rw [hdash]
        decide
      rw [if_neg hhex, if_pos (beq_iff_eq.mpr hdash)]
      omega
    · have hhex : isHex c = true := by
        rw [isPart, decide_eq_false hdash, Bool.or_false] at hc
        exact hc
      rw [if_pos hhex, if_neg (fun heq => hdash (beq_iff_eq.mp heq))]
      omega

def digitsRead (s : List UInt8) : Nat := (s.takeWhile isPart).countP isHex

/-- At most sixteen bytes are stored, and only thirty-two digits and four dashes are accepted. -/
def ParsesSafely (bsiz : Nat) (s : List UInt8) : Prop :=
  (uuidFromstring bsiz (s ++ [0])).1.length ≤ 16 ∧
    ((uuidFromstring bsiz (s ++ [0])).2 = .error .einval ∨
      s.countP isHex = 32 ∧ s.count 0x2d = 4)

theorem parsesSafely_iff {bsiz : Nat} (hb : 16 ≤ bsiz) (hs : 0 ∉ s) (hlen : s.length = 36) :
    ParsesSafely bsiz s ↔ digitsRead s ≤ 32 ∨ digitsRead s = 33 ∧ ∃ c ∈ s, ¬ isPart c := by
  have hstr : strlen (s ++ [0]) = 36 := (strlen_eq fun c hc h0 => hs (h0 ▸ hc)).trans hlen
  have hstart : (⟨[], 0, 4, 16⟩ : Decoder).Read 0 := ⟨rfl, rfl, rfl⟩
  obtain ⟨hread, hend⟩ := decodeLoop_read hstart hs
  rw [Nat.zero_add, ← digitsRead] at hread
  have hle : digitsRead s ≤ 36 := by
    rw [← hlen]
    exact countP_le_length.trans (takeWhile_sublist isPart).length_le
  rw [ParsesSafely, uuidFromstring, if_neg (Nat.not_lt.mpr hb), if_neg (not_not_intro hstr)]
  generalize decodeLoop ⟨[], 0, 4, 16⟩ (s ++ [0]) = r at hread hend
  obtain ⟨st, atEnd⟩ := r
  have hout := hread.out
  cases atEnd with
  | false =>
    have hbad : ∃ c ∈ s, ¬ isPart c := by
      by_contra hno
      exact Bool.false_ne_true (hend.mpr fun c hc => by_contra fun h => hno ⟨c, hc, h⟩)
    simp only [Bool.not_false, if_true, true_or, and_true, hbad, hout]
    omega
  | true =>
    have hall := hend.mp rfl
    have hgood : ¬ ∃ c ∈ s, ¬ isPart c := fun ⟨c, hc, h⟩ => h (hall c hc)
    have hcount := countP_add_count hall
    have hdig : digitsRead s = s.countP isHex := by
      rw [digitsRead, takeWhile_eq_self_iff.mpr hall]
    have hbsiz : st.bsiz = 0 ↔ digitsRead s / 2 = 16 := by
      have hsmall : ∀ n ≤ 18, (16 - UInt64.ofNat n = 0 ↔ n = 16) := by decide
      rw [hread.bsiz]
      exact hsmall _ (by omega)
    by_cases hzero : st.bsiz = 0
    · have hsixteen := hbsiz.mp hzero
      simp only [hzero, hgood, ne_eq, not_true_eq_false, if_false, Bool.not_true,
        Bool.false_eq_true, reduceCtorEq, false_or, and_false, or_false, hout]
      omega
    · have hother := hbsiz.not.mp hzero
      simp only [hzero, hgood, ne_eq, not_false_eq_true, if_true, Bool.not_true,
        Bool.false_eq_true, if_false, true_or, and_true, and_false, or_false, hout]
      omega

/-- Every id is read back from its text. A string of thirty-six characters is parsed safely exactly
if there are at most thirty-two digits before the first character that is neither a digit nor a
dash, or thirty-three and then such a character. -/
theorem uuid_parse_safe_iff {outsz bsiz : Nat} (ho : 37 ≤ outsz) (hb : 16 ≤ bsiz)
    (hs : 0 ∉ s) (hlen : s.length = 36) :
    (∀ uuid, ∃ str, uuidTostring outsz uuid = .ok (str, 37) ∧
        uuidFromstring bsiz str = (uuid.toList, .ok 16)) ∧
      (ParsesSafely bsiz s ↔ digitsRead s ≤ 32 ∨ digitsRead s = 33 ∧ ∃ c ∈ s, ¬ isPart c) := by
  refine ⟨fun uuid => ⟨chunks uuid.toList ++ [0], ?_, uuidFromstring_chunks hb uuid.length_toList⟩,
    parsesSafely_iff hb hs hlen⟩
  have hstr : (chunks uuid.toList ++ [0]).length = 37 := by
    rw [length_append, length_chunks uuid.length_toList]
    rfl
  rw [uuidTostring, if_neg (Nat.not_lt.mpr ho)]
  dsimp only
  rw [hstr]

theorem uuid_parse_safe_zeros :
    (∀ uuid, ∃ str, uuidTostring 37 uuid = .ok (str, 37) ∧
        uuidFromstring 16 str = (uuid.toList, .ok 16)) ∧
      ParsesSafely 16 (replicate 32 0x30 ++ replicate 4 0x2d) := by
  have hsafe : digitsRead (replicate 32 0x30 ++ replicate 4 0x2d) ≤ 32 := by decide
  have h := uuid_parse_safe_iff (Nat.le_refl 37) (Nat.le_refl 16)
    (show 0 ∉ replicate 32 0x30 ++ replicate 4 0x2d by decide) (by decide)
  exact ⟨h.1, h.2.mpr (Or.inl hsafe)⟩

set_option maxRecDepth 4000 in
/-- Thirty-six digits are eighteen bytes; with three dashes, thirty-three digits are accepted. -/
theorem uuid_parse_overruns :
    (uuidFromstring 16 (replicate 36 0x30 ++ [0])).1.length = 18 ∧
      (uuidFromstring 16 (replicate 33 0x30 ++ replicate 3 0x2d ++ [0])).2 = .ok 16 ∧
      ¬ ParsesSafely 16 (replicate 36 0x30) ∧
      ¬ ParsesSafely 16 (replicate 33 0x30 ++ replicate 3 0x2d) := by
  have hlong : (uuidFromstring 16 (replicate 36 0x30 ++ [0])).1.length = 18 := by
    decide
  have hodd : (uuidFromstring 16 (replicate 33 0x30 ++ replicate 3 0x2d ++ [0])).2 = .ok 16 := by
    decide
  refine ⟨hlong, hodd, fun h => ?_, fun h => ?_⟩
  · exact absurd (hlong ▸ h.1) (by decide)
  · rcases h.2 with herr | hform
    · rw [hodd] at herr
      cases herr
    · exact absurd hform.1 (by decide)

end PortableLib.Uuid
