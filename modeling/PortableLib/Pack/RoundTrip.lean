import PortableLib.Pack.Tokens
import PortableLib.Pack.Pieces

/-! What was packed comes back from unpacking. -/

namespace PortableLib.Pack
open List Encdec

/-- A stored string is what its reader sees: the bytes before the first `\0`. -/
def Stored.value : Stored → Stored
  | .str mem => .str (cstr mem)
  | s => s

theorem cstr_append_zero {s mem : List UInt8} (h : ∀ c ∈ s, c ≠ 0) : cstr (s ++ 0 :: mem) = s := by
  rw [cstr, takeWhile_append_of_pos fun c hc => by simpa using h c hc]
  simp

theorem scanNul_append {s mem : List UInt8} (h : ∀ c ∈ s, c ≠ 0) :
    scanNul (s ++ 0 :: mem) = .ok (s.length + 1) := by
  have hne : s ++ 0 :: mem ≠ [] := by simp
  have hall : ¬ (s ++ 0 :: mem).all (· ≠ 0) = true := by simp
  rw [scanNul, if_neg hne, if_neg hall, cstr_append_zero h]

theorem block_flatMap {α : Type*} {f : α → List UInt8} {w : Nat} (hf : ∀ a, (f a).length = w)
    {l : List α} {i : Nat} {a : α} (h : l[i]? = some a) (tail : List UInt8) :
    ((l.flatMap f ++ tail).drop (i * w)).take w = f a := by
  induction l generalizing i with
  | nil => cases h
  | cons b l ih =>
    rw [flatMap_cons, append_assoc]
    cases i with
    | zero =>
      obtain rfl := Option.some.inj h
      rw [Nat.zero_mul, drop_zero, take_left' (hf b)]
    | succ i =>
      have hlen : (i + 1) * w = (f b).length + i * w := by rw [hf, Nat.succ_mul, Nat.add_comm]
      rw [hlen, drop_length_add_append]
      exact ih h

theorem elements_one (e : Endian) {w : Nat} (hw : w ≤ 8) (v : UInt64) (tail : List UInt8) :
    elements e w 1 (e.enc w v ++ tail) = [trunc w v] := by
  have hone : elements e w 1 (e.enc w v ++ tail) =
      [e.dec (((e.enc w v ++ tail).drop (0 * w)).take w)] := rfl
  rw [hone, Nat.zero_mul, drop_zero, take_left' (length_enc e w v), dec_enc e hw]

theorem elements_flatMap (e : Endian) {w : Nat} (hw : w ≤ 8) (n : Nat) (xs : Nat → UInt64)
    (tail : List UInt8) :
    elements e w n ((range n).flatMap (fun i => e.enc w (xs i)) ++ tail) =
      (range n).map fun i => trunc w (xs i) := by
  refine map_congr_left fun i hi => ?_
  rw [block_flatMap (fun a => length_enc e w (xs a)) (getElem?_range (mem_range.mp hi)),
    dec_enc e hw]

def argElems (w n : Nat) (arg : Arg) : List UInt64 :=
  if n = 1 then [trunc w arg.word] else (range n).map fun i => trunc w (arg.elems i)

theorem elements_payload {e : Endian} {t : Letter} (ht : t.isInt = true) (n : Nat) (arg : Arg)
    (tail : List UInt8) :
    elements e t.size n (payload e t n arg ++ tail) = argElems t.size n arg := by
  obtain ⟨-, -, hw⟩ := width_of_isInt ht
  rw [payload_int ht, argElems]
  split_ifs with h1
  · rw [h1, elements_one e hw]
  · exact elements_flatMap e hw n arg.elems tail

def argStr (num : Nat) (arg : Arg) : List UInt8 :=
  if num = 0 then cstr arg.str else (cstr arg.str).take num

def itemValue (t : Letter) (num : Nat) (arg : Arg) : List Stored :=
  if t = .x then []
  else if t.isStr then [.str (argStr num arg)]
  else [.elems (argElems t.size (if num = 0 then 1 else num) arg)]

theorem payload_string {e : Endian} {t : Letter} (ht : t.isStr = true) {arg : Arg}
    (hw : arg.word ≠ 0) (num : Nat) :
    ∃ k, payload e t (packNum t num none arg) arg = argStr num arg ++ replicate k 0 ∧
      (num = 0 → k = 1) := by
  have hx : t ≠ .x := ne_x_of_isStr ht
  rw [payload_str ht, if_neg hw, packNum, if_neg hx]
  simp only [ht, if_true, argStr]
  by_cases hn : num = 0
  · rw [if_pos ⟨hn, hw⟩, if_pos hn, take_of_length_le (by unfold Arg.strlen; omega)]
    exact ⟨_, rfl, fun _ => by unfold Arg.strlen; omega⟩
  · rw [if_neg fun h => hn h.1, if_neg hn]
    exact ⟨_, rfl, fun h => absurd h hn⟩

theorem argStr_ne_zero (num : Nat) (arg : Arg) : ∀ c ∈ argStr num arg, c ≠ 0 := by
  intro c hc
  unfold argStr at hc
  split_ifs at hc
  · exact cstr_ne_zero c hc
  · exact cstr_ne_zero c (mem_of_mem_take hc)

theorem cstr_append_zeros {s : List UInt8} (h : ∀ c ∈ s, c ≠ 0) (k : Nat) :
    cstr (s ++ replicate k 0 ++ [0]) = s := by
  rw [append_assoc, ← replicate_succ', replicate_succ, cstr_append_zero h]

theorem extent_payload (e : Endian) {t : Letter} {n : Nat} (hn : ¬ (t.isStr = true ∧ n = 0))
    (arg : Arg) (tail : List UInt8) :
    extent t n (payload e t n arg ++ tail) = .ok (payload e t n arg).length := by
  have hlen : ¬ (payload e t n arg ++ tail).length < n * t.width := by
    rw [length_append, length_payload]
    omega
  rw [extent, if_neg hn, if_neg hlen, length_payload]

theorem string_roundtrip (e : Endian) {t : Letter} (ht : t.isStr = true) {arg : Arg}
    (hw : arg.word ≠ 0) (num : Nat) (tail : List UInt8) :
    extent t num (payload e t (packNum t num none arg) arg ++ tail) =
        .ok (payload e t (packNum t num none arg) arg).length ∧
      cstr (payload e t (packNum t num none arg) arg ++ [0]) = argStr num arg := by
  obtain ⟨k, hpay, hk⟩ := payload_string (e := e) ht hw num
  refine ⟨?_, by rw [hpay, cstr_append_zeros (argStr_ne_zero num arg)]⟩
  -- without a count the reader looks for the `\0`, with one it takes that many bytes
  by_cases hn : num = 0
  · rw [extent, if_pos ⟨ht, hn⟩, hpay, hk hn, append_assoc]
    have hscan : scanNul (argStr num arg ++ 0 :: tail) = _ :=
      scanNul_append (argStr_ne_zero num arg)
    simpa using hscan
  · have hnum : packNum t num none arg = num := by
      have hx : t ≠ .x := ne_x_of_isStr ht
      simp only [packNum, if_neg hx, ht, if_true, hn, false_and, if_false]
    rw [hnum]
    exact extent_payload e (fun h => hn h.2) arg tail

theorem item_roundtrip (e : Endian) {t : Letter} (num : Nat) {args : Nat → Arg}
    (hstr : t.isStr = true → (args 0).word ≠ 0) (tail : List UInt8) :
    tokenExtent none (chunk e none args (.item t num) ++ tail) (.item t num) =
        .ok (chunk e none args (.item t num)).length ∧
      (tokenStored e none (chunk e none args (.item t num) ++ tail)
        (chunk e none args (.item t num)).length (.item t num)).map Stored.value =
        itemValue t num (args 0) := by
  simp only [tokenExtent, tokenStored, reduceCtorEq, and_false, if_false, itemValue, chunk]
  rcases t.cases with rfl | ht | ht
  · exact ⟨extent_payload e (fun h => by cases h.1) _ tail, rfl⟩
  · have hx : t ≠ .x := ne_x_of_isStr ht
    have hnum : unpackNum t num none = num := by
      simp only [unpackNum, if_neg hx, ht, Bool.true_eq_false, false_and, if_false]
    obtain ⟨hext, hval⟩ := string_roundtrip e ht (hstr ht) num tail
    refine ⟨by rw [hnum, hext], ?_⟩
    simp only [if_neg hx, ht, if_true, decoded, map_cons, map_nil, Stored.value, take_left, hval]
  · have hx : t ≠ .x := ne_x_of_isInt ht
    have hs : t.isStr = false := isStr_of_isInt ht
    have hnum : unpackNum t num none = if num = 0 then 1 else num := by
      simp only [unpackNum, if_neg hx, hs, true_and]
    have hnum' : packNum t num none (args 0) = if num = 0 then 1 else num := by
      simp only [packNum, if_neg hx, hs, Bool.false_eq_true, if_false]
    rw [hnum, hnum']
    refine ⟨extent_payload e (fun h => Bool.eq_false_iff.mp hs h.1) _ tail, ?_⟩
    simp only [if_neg hx, hs, Bool.false_eq_true, if_false, decoded, Option.isSome_none, map_cons,
      map_nil, Stored.value, elements_payload ht]

def Item.rest (i : Item) (args : Nat → Arg) : Nat → Arg := argsAfter args i.token

def values : (Nat → Arg) → List Item → List Stored
  | _, [] => []
  | args, i :: is => itemValue i.1 i.2 (args 0) ++ values (i.rest args) is

def StringsGiven : (Nat → Arg) → List Item → Prop
  | _, [] => True
  | args, i :: is => (i.1.isStr = true → (args 0).word ≠ 0) ∧ StringsGiven (i.rest args) is

/-- The size of every string without a count survives as an `int`. -/
def StringsFit : (Nat → Arg) → List Item → Prop
  | _, [] => True
  | args, i :: is =>
    (i.1.isStr = true → i.2 = 0 → ((args 0).strlen + 1) % 2 ^ 32 < 2 ^ 31) ∧
      StringsFit (i.rest args) is

theorem intSize_chunk_iff (e : Endian) {args : Nat → Arg} {i : Item} (hnum : i.2 ≤ 9)
    (hstr : i.1.isStr = true → (args 0).word ≠ 0) :
    IntSize (chunk e none args i.token).length ↔
      (i.1.isStr = true → i.2 = 0 → ((args 0).strlen + 1) % 2 ^ 32 < 2 ^ 31) := by
  obtain ⟨t, num⟩ := i
  simp only at hnum hstr
  have hlen : (chunk e none args (Item.token (t, num))).length =
      packNum t num none (args 0) * t.width := length_payload ..
  rw [hlen]
  rcases t.cases with rfl | ht | ht
  · refine iff_of_true (intSize_of_le ?_) fun h => by cases h
    rw [packNum, if_pos rfl, show Letter.x.width = 1 from rfl]
    omega
  · have hx : t ≠ .x := ne_x_of_isStr ht
    rw [(width_of_isStr ht).1, Nat.mul_one, packNum, if_neg hx]
    simp only [ht, if_true, forall_const]
    by_cases hn : num = 0
    · rw [if_pos ⟨hn, hstr ht⟩, intSize_iff, Nat.add_comm]
      simp only [hn, forall_const]
    · rw [if_neg fun h => hn h.1]
      exact iff_of_true (intSize_of_le (by omega)) fun h => absurd h hn
  · have hx : t ≠ .x := ne_x_of_isInt ht
    have hs : t.isStr = false := isStr_of_isInt ht
    obtain ⟨hw, -, h8⟩ := width_of_isInt ht
    refine iff_of_true (intSize_of_le ?_) fun h => absurd h (Bool.eq_false_iff.mp hs)
    have hle : packNum t num none (args 0) ≤ 9 := by
      simp only [packNum, if_neg hx, hs, Bool.false_eq_true, if_false]
      split_ifs <;> omega
    rw [hw]
    exact Nat.mul_le_mul hle h8

theorem intSize_chunks_iff (e : Endian) {args : Nat → Arg} {is : List Item}
    (hnum : ∀ i ∈ is, i.2 ≤ 9) (hstr : StringsGiven args is) :
    (∀ c ∈ chunks e none args (is.map Item.token), IntSize c.length) ↔ StringsFit args is := by
  induction is generalizing args with
  | nil => exact iff_of_true (fun c hc => by cases hc) trivial
  | cons i is ih =>
    simp only [map_cons, chunks, forall_mem_cons, StringsFit]
    rw [intSize_chunk_iff e (hnum i mem_cons_self) hstr.1]
    exact and_congr_right fun _ => ih (fun j hj => hnum j (mem_cons_of_mem i hj)) hstr.2

theorem noNullString_of_given {args : Nat → Arg} {is : List Item} (hstr : StringsGiven args is) :
    NoNullString none args (is.map Item.token) := by
  induction is generalizing args with
  | nil => trivial
  | cons i is ih => exact ⟨fun h => hstr.1 h.1 h.2.2.2, ih hstr.2⟩

theorem items_roundtrip (e : Endian) {args : Nat → Arg} {is : List Item}
    (hstr : StringsGiven args is) (tail : List UInt8) :
    extents e none ((chunks e none args (is.map Item.token)).flatten ++ tail)
        (is.map Item.token) = some ((chunks e none args (is.map Item.token)).map length) ∧
      (storedAll e none ((chunks e none args (is.map Item.token)).flatten ++ tail)
        ((chunks e none args (is.map Item.token)).map length) (is.map Item.token)).map
          Stored.value = values args is := by
  induction is generalizing args with
  | nil => exact ⟨rfl, rfl⟩
  | cons i is ih =>
    obtain ⟨hext, hval⟩ := ih hstr.2
    obtain ⟨hext', hval'⟩ := item_roundtrip e i.2 hstr.1
      ((chunks e none (i.rest args) (is.map Item.token)).flatten ++ tail)
    have hchunks : chunks e none args ((i :: is).map Item.token) =
        chunk e none args i.token :: chunks e none (i.rest args) (is.map Item.token) := rfl
    rw [hchunks, flatten_cons, append_assoc, map_cons, map_cons]
    -- the rest of the buffer starts after the first chunk
    have hdrop : (chunk e none args i.token ++
        ((chunks e none (i.rest args) (is.map Item.token)).flatten ++ tail)).drop
          (chunk e none args i.token).length =
        (chunks e none (i.rest args) (is.map Item.token)).flatten ++ tail := drop_left
    rw [← show i.token = .item i.1 i.2 from rfl] at hext' hval'
    constructor
    · simp only [extents, hext', hdrop]
      rw [show vnumRead e _ i.token = none from rfl, hext]
      rfl
    · rw [storedAll, map_append, hval', hdrop, show vnumRead e _ i.token = none from rfl, hval]
      rfl

/-- `Pack` succeeds in every buffer that is large enough, and `Unpack` of the bytes reads them all
and stores the values. -/
def RoundTrips (fmt : List UInt8) (args : Nat → Arg) (vs : List Stored) : Prop :=
  ∃ bytes, (∀ cap, bytes.length ≤ cap → pack fmt args cap = .ok bytes) ∧
    ∀ dests tail, (∀ i, (dests i).Usable) →
      ∃ stored, unpack fmt dests (bytes ++ tail) = .ok (bytes.length, stored) ∧
        stored.map Stored.value = vs

theorem scanFormat_formatOf (order : Option Endian) (ps : List Piece) :
    scanFormat (formatOf order ps) = ((items ps).map Item.token, .done false) := by
  rw [scanFormat, byteOrder_formatOf, scan_pieces]

section Whole
variable {order : Option Endian} {ps : List Piece} {args : Nat → Arg}

theorem formatOrder_formatOf (order : Option Endian) (ps : List Piece) :
    formatOrder (formatOf order ps) = order.getD .le := by
  rw [formatOrder, byteOrder_formatOf]

theorem formatChunks_formatOf (order : Option Endian) (ps : List Piece) (args : Nat → Arg) :
    formatChunks (formatOf order ps) args =
      chunks (order.getD .le) none args ((items ps).map Item.token) := by
  rw [formatChunks, scanFormat_formatOf, formatOrder_formatOf]

theorem pack_formatOf_iff (order : Option Endian) (hstr : StringsGiven args (items ps)) {cap : Nat}
    (hcap : (formatChunks (formatOf order ps) args).flatten.length ≤ cap) {bytes : List UInt8} :
    pack (formatOf order ps) args cap = .ok bytes ↔
      StringsFit args (items ps) ∧ bytes = (formatChunks (formatOf order ps) args).flatten := by
  have hscan := scanFormat_formatOf order ps
  have hnull : NoNullString none args (scanFormat (formatOf order ps)).1 := by
    rw [hscan]
    exact noNullString_of_given hstr
  have hsize := intSize_chunks_iff (order.getD .le) items_num_le hstr
  rw [← formatChunks_formatOf] at hsize
  rw [← hsize]
  exact pack_eq_ok_iff (by rw [hscan]) hnull hcap

theorem stringsFit_of_roundTrips (hstr : StringsGiven args (items ps)) {vs : List Stored}
    (h : RoundTrips (formatOf order ps) args vs) : StringsFit args (items ps) := by
  obtain ⟨bytes, hpack, -⟩ := h
  have hok := hpack _ (Nat.le_max_left bytes.length
    (formatChunks (formatOf order ps) args).flatten.length)
  exact ((pack_formatOf_iff order hstr (Nat.le_max_right ..)).mp hok).1

theorem roundTrips_of_stringsFit (hstr : StringsGiven args (items ps))
    (hfit : StringsFit args (items ps)) :
    RoundTrips (formatOf order ps) args (values args (items ps)) := by
  have hscan := scanFormat_formatOf order ps
  refine ⟨(formatChunks (formatOf order ps) args).flatten,
    fun cap hcap => (pack_formatOf_iff order hstr hcap).mpr ⟨hfit, rfl⟩, fun dests tail hd => ?_⟩
  obtain ⟨hext, hval⟩ := items_roundtrip (order.getD .le) hstr tail
  have hint := (intSize_chunks_iff (order.getD .le) items_num_le hstr).mpr hfit
  rw [← formatChunks_formatOf] at hext hval hint
  have hms : formatExtents (formatOf order ps)
      ((formatChunks (formatOf order ps) args).flatten ++ tail) =
      some ((formatChunks (formatOf order ps) args).map length) := by
    rw [formatExtents, hscan, formatOrder_formatOf]
    exact hext
  have hun := unpack_chunks (by rw [hscan]) hd hms hint
  rw [hscan, formatOrder_formatOf] at hun
  exact ⟨_, hun, hval⟩

end Whole

/-- A format of plain items comes back exactly if no string without a count has a size that is
negative as an `int`. -/
theorem round_trip_iff (order : Option Endian) (ps : List Piece) (args : Nat → Arg)
    (hstr : StringsGiven args (items ps)) :
    RoundTrips (formatOf order ps) args (values args (items ps)) ↔ StringsFit args (items ps) :=
  ⟨stringsFit_of_roundTrips hstr, roundTrips_of_stringsFit hstr⟩

def sampleArgs : Nat → Arg
  | 0 => ⟨300, fun _ => 0, []⟩
  | 1 => ⟨64, fun i => 7 + .ofNat i, []⟩
  | _ => ⟨80, fun _ => 0, [104, 105, 0]⟩

theorem round_trip_byte_words_string :
    RoundTrips [62, 98, 32, 50, 83, 122] sampleArgs
      [.elems [44], .elems [7, 8], .str [104, 105]] := by
  have hgiven : StringsGiven sampleArgs
      (items [.item none .b, .space 32 rfl, .item (some 1) .S, .item none .z]) :=
    ⟨fun h => (by cases h), fun h => (by cases h), fun _ => (by decide), trivial⟩
  have hfit : StringsFit sampleArgs
      (items [.item none .b, .space 32 rfl, .item (some 1) .S, .item none .z]) :=
    ⟨fun h => (by cases h), fun h => (by cases h), fun _ _ => (by decide), trivial⟩
  have hvalues : values sampleArgs
      (items [.item none .b, .space 32 rfl, .item (some 1) .S, .item none .z]) =
        [.elems [44], .elems [7, 8], .str [104, 105]] := by decide
  rw [← hvalues]
  exact (round_trip_iff (some .be) [.item none .b, .space 32 rfl, .item (some 1) .S, .item none .z]
    sampleArgs hgiven).mpr hfit

def longString (n : Nat) : Nat → Arg := fun _ => ⟨64, fun _ => 0, replicate n 97⟩

theorem longString_strlen (n : Nat) : (longString n 0).strlen = n := by
  have hcstr : cstr (replicate n 97) = replicate n 97 := by
    refine cstr_eq_self fun c hc => ?_
    rw [eq_of_mem_replicate hc]
    decide
  rw [longString, Arg.strlen, hcstr, length_replicate]

/-- A string of `2 ^ 31 - 1` characters and its `\0` do not come back. -/
theorem long_string_lost :
    StringsGiven (longString (2 ^ 31 - 1)) (items [.item none .z]) ∧
      ¬ RoundTrips (formatOf none [.item none .z]) (longString (2 ^ 31 - 1))
        (values (longString (2 ^ 31 - 1)) (items [.item none .z])) := by
  have hlost : ∀ n, ¬ (n + 1) % 2 ^ 32 < 2 ^ 31 →
      StringsGiven (longString n) (items [.item none .z]) ∧
        ¬ RoundTrips (formatOf none [.item none .z]) (longString n)
          (values (longString n) (items [.item none .z])) := by
    intro n hn
    have hgiven : StringsGiven (longString n) (items [.item none .z]) :=
      ⟨fun _ => (by decide : (64 : UInt64) ≠ 0), trivial⟩
    refine ⟨hgiven, fun h => hn ?_⟩
    have hfit := (stringsFit_of_roundTrips hgiven h).1 rfl rfl
    rwa [longString_strlen] at hfit
  exact hlost (2 ^ 31 - 1) (by decide)

end PortableLib.Pack
