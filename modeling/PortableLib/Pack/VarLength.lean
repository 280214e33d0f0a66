import PortableLib.Pack.RoundTrip

/-! Arrays whose length is an argument: the format `* T`. -/

namespace PortableLib.Pack
open List Encdec

/-- The format `* T` with its byte order, if it has one. -/
def starFormat (order : Option Endian) (t : Letter) : List UInt8 :=
  (match order with
    | none => []
    | some .le => [60]
    | some .be => [62]) ++ [42, 32, t.char]

def starArgs (n : UInt32) (arr : Arg) : Nat → Arg
  | 0 => ⟨n.toUInt64, fun _ => 0, []⟩
  | _ => arr

/-- `Pack` of `n` elements into a buffer that is large enough, then `Unpack`, gives back the count
and, unless it is zero, the elements. -/
def VarRoundTrips (order : Option Endian) (t : Letter) (n : UInt32) (arr : Arg) : Prop :=
  ∃ bytes,
    (∀ cap, bytes.length ≤ cap → pack (starFormat order t) (starArgs n arr) cap = .ok bytes) ∧
    ∀ dests tail, (∀ i, (dests i).Usable) →
      ∃ p, unpack (starFormat order t) dests (bytes ++ tail) = .ok (bytes.length, [.count n, p]) ∧
        (0 < n → p = .heap ((range n.toNat).map fun i => trunc t.size (arr.elems i)))

section Star
variable {order : Option Endian} {t : Letter} {n : UInt32} {arr : Arg}

theorem byteOrder_starFormat (order : Option Endian) (t : Letter) :
    byteOrder (cstr (starFormat order t)) = (order.getD .le, [42, 32, t.char]) := by
  match order with
  | none => cases t <;> rfl
  | some .le => cases t <;> rfl
  | some .be => cases t <;> rfl

theorem scanFormat_starFormat (order : Option Endian) (t : Letter) :
    scanFormat (starFormat order t) = ([.star, .item t 0], .done false) := by
  rw [scanFormat, byteOrder_starFormat]
  cases t <;> rfl

theorem vcount_starArgs (n : UInt32) (arr : Arg) : vcount (starArgs n arr) = n := by
  simp [vcount, starArgs]

theorem starChunks (e : Endian) (ht : t.isInt = true) (n : UInt32) (arr : Arg) :
    chunks e none (starArgs n arr) [.star, .item t 0] =
      [e.enc 4 n.toUInt64, payload e t n.toNat arr] := by
  have hx : t ≠ .x := ne_x_of_isInt ht
  have hnum : packNum t 0 (some n) arr = n.toNat := by rw [packNum, if_neg hx]
  have hargs : argsAfter (starArgs n arr) .star 0 = arr := rfl
  simp only [chunks, chunk, vnumAfter, vcount_starArgs, hargs, hnum]

theorem formatChunks_starFormat (ht : t.isInt = true) :
    formatChunks (starFormat order t) (starArgs n arr) =
      [(order.getD .le).enc 4 n.toUInt64, payload (order.getD .le) t n.toNat arr] := by
  rw [formatChunks, scanFormat_starFormat, formatOrder, byteOrder_starFormat, starChunks _ ht]

theorem lengths_starFormat (ht : t.isInt = true) :
    (formatChunks (starFormat order t) (starArgs n arr)).map length = [4, n.toNat * t.size] := by
  simp only [formatChunks_starFormat ht, map_cons, map_nil, length_enc, length_payload,
    (width_of_isInt ht).1]

theorem intSize_starFormat (ht : t.isInt = true) :
    (∀ c ∈ formatChunks (starFormat order t) (starArgs n arr), IntSize c.length) ↔
      IntSize (n.toNat * t.size) := by
  rw [← oversize_lengths_eq_none_iff, lengths_starFormat ht, oversize_eq_none_iff, forall_mem_cons,
    forall_mem_singleton]
  exact and_iff_right (by decide)

theorem pack_starFormat_iff (ht : t.isInt = true) {cap : Nat}
    (hcap : (formatChunks (starFormat order t) (starArgs n arr)).flatten.length ≤ cap)
    {bytes : List UInt8} :
    pack (starFormat order t) (starArgs n arr) cap = .ok bytes ↔ IntSize (n.toNat * t.size) ∧
      bytes = (formatChunks (starFormat order t) (starArgs n arr)).flatten := by
  have hscan := scanFormat_starFormat order t
  have hnull : NoNullString none (starArgs n arr) (scanFormat (starFormat order t)).1 := by
    rw [hscan]
    exact ⟨id, fun h => Bool.eq_false_iff.mp (isStr_of_isInt ht) h.1, trivial⟩
  rw [pack_eq_ok_iff (by rw [hscan]) hnull hcap, intSize_starFormat ht]

theorem readCount_enc (e : Endian) (n : UInt32) (tail : List UInt8) :
    readCount e (e.enc 4 n.toUInt64 ++ tail) = n := by
  have hlt : n.toNat % 256 ^ 4 = n.toNat := Nat.mod_eq_of_lt n.toNat_lt
  rw [readCount, take_left' (length_enc e 4 _), dec_enc e (by decide), trunc,
    UInt32.toNat_toUInt64, hlt]
  simp

theorem extents_starFormat (e : Endian) (ht : t.isInt = true) (n : UInt32) (arr : Arg)
    (tail : List UInt8) :
    extents e none (e.enc 4 n.toUInt64 ++ (payload e t n.toNat arr ++ tail)) [.star, .item t 0] =
      some [4, n.toNat * t.size] := by
  have hx : t ≠ .x := ne_x_of_isInt ht
  have hs : t.isStr = false := isStr_of_isInt ht
  have hstar : tokenExtent none (e.enc 4 n.toUInt64 ++ (payload e t n.toNat arr ++ tail)) .star =
      .ok 4 := by
    have hlen : ¬ (e.enc 4 n.toUInt64 ++ (payload e t n.toNat arr ++ tail)).length < 1 * 4 := by
      rw [length_append, length_enc]
      omega
    exact if_neg hlen
  have hitem : tokenExtent (some n) (payload e t n.toNat arr ++ tail) (.item t 0) =
      .ok (n.toNat * t.size) := by
    rw [tokenExtent]
    split_ifs with h0
    · rw [Option.some.inj h0.2]
      exact congrArg Except.ok (Nat.zero_mul _).symm
    · have hnum : unpackNum t 0 (some n) = n.toNat := by rw [unpackNum, if_neg hx]
      rw [hnum, extent_payload e (fun h => Bool.eq_false_iff.mp hs h.1), length_payload,
        (width_of_isInt ht).1]
  have hdrop : (e.enc 4 n.toUInt64 ++ (payload e t n.toNat arr ++ tail)).drop 4 =
      payload e t n.toNat arr ++ tail := drop_left' (length_enc e 4 _)
  simp only [extents, hstar, hdrop, vnumRead, readCount_enc, hitem]
  rfl

def starStored (t : Letter) (n : UInt32) (arr : Arg) : Stored :=
  if n = 0 then .untouched else .heap (argElems t.size n.toNat arr)

theorem storedAll_starFormat (e : Endian) (ht : t.isInt = true) (n : UInt32) (arr : Arg)
    (tail : List UInt8) :
    storedAll e none (e.enc 4 n.toUInt64 ++ (payload e t n.toNat arr ++ tail))
      [4, n.toNat * t.size] [.star, .item t 0] = [.count n, starStored t n arr] := by
  have hx : t ≠ .x := ne_x_of_isInt ht
  have hs : t.isStr = false := isStr_of_isInt ht
  have hdrop : (e.enc 4 n.toUInt64 ++ (payload e t n.toNat arr ++ tail)).drop 4 =
      payload e t n.toNat arr ++ tail := drop_left' (length_enc e 4 _)
  have hnum : unpackNum t 0 (some n) = n.toNat := by rw [unpackNum, if_neg hx]
  simp only [storedAll, tokenStored, hdrop, vnumRead, readCount_enc, if_neg hx, hnum, decoded, hs,
    Bool.false_eq_true, if_false, Option.isSome_some, if_true, elements_payload ht,
    Option.some.injEq, starStored]
  split_ifs <;> rfl

theorem unpack_starFormat (order : Option Endian) (ht : t.isInt = true) {dests : Nat → Dest}
    (hd : ∀ i, (dests i).Usable) (hint : IntSize (n.toNat * t.size)) (tail : List UInt8) :
    unpack (starFormat order t) dests
        ((formatChunks (starFormat order t) (starArgs n arr)).flatten ++ tail) =
      .ok ((formatChunks (starFormat order t) (starArgs n arr)).flatten.length,
        [.count n, starStored t n arr]) := by
  have hscan := scanFormat_starFormat order t
  have horder : formatOrder (starFormat order t) = order.getD .le := by
    rw [formatOrder, byteOrder_starFormat]
  have hbuf : (formatChunks (starFormat order t) (starArgs n arr)).flatten ++ tail =
      (order.getD .le).enc 4 n.toUInt64 ++ (payload (order.getD .le) t n.toNat arr ++ tail) := by
    simp only [formatChunks_starFormat ht, flatten_cons, flatten_nil, append_nil, append_assoc]
  have hms : formatExtents (starFormat order t)
      ((formatChunks (starFormat order t) (starArgs n arr)).flatten ++ tail) =
      some ((formatChunks (starFormat order t) (starArgs n arr)).map length) := by
    rw [formatExtents, hscan, horder, hbuf, lengths_starFormat ht, extents_starFormat _ ht]
  rw [unpack_chunks (by rw [hscan]) hd hms ((intSize_starFormat ht).mpr hint), hscan, horder, hbuf,
    lengths_starFormat ht, storedAll_starFormat _ ht]

theorem starStored_eq_iff (hn : 0 < n) :
    starStored t n arr = .heap ((range n.toNat).map fun i => trunc t.size (arr.elems i)) ↔
      (n = 1 → trunc t.size arr.word = trunc t.size (arr.elems 0)) := by
  have hn0 : n ≠ 0 := fun h => by rw [h] at hn; exact absurd hn (by decide)
  have hone : n.toNat = 1 ↔ n = 1 := UInt32.toNat_inj (b := 1)
  rw [starStored, if_neg hn0, argElems, Stored.heap.injEq]
  by_cases h1 : n = 1
  · rw [if_pos (hone.mpr h1), hone.mpr h1]
    simp [h1]
  · rw [if_neg (hone.not.mpr h1)]
    exact iff_of_true rfl fun h => absurd h h1

theorem varRoundTrips_imp (ht : t.isInt = true) (h : VarRoundTrips order t n arr) :
    IntSize (n.toNat * t.size) ∧ (n = 1 → trunc t.size arr.word = trunc t.size (arr.elems 0)) := by
  obtain ⟨bytes, hpack, hunpack⟩ := h
  have hok := hpack _ (Nat.le_max_left bytes.length
    (formatChunks (starFormat order t) (starArgs n arr)).flatten.length)
  obtain ⟨hint, rfl⟩ := (pack_starFormat_iff ht (Nat.le_max_right ..)).mp hok
  obtain ⟨p, hp, hval⟩ := hunpack validDests [] validDests_usable
  rw [unpack_starFormat order ht validDests_usable hint] at hp
  simp only [Except.ok.injEq, Prod.mk.injEq, cons.injEq, and_true, true_and] at hp
  refine ⟨hint, fun h1 => ?_⟩
  have hpos : 0 < n := by rw [h1]; decide
  exact (starStored_eq_iff hpos).mp (hp.trans (hval hpos)) h1

theorem varRoundTrips_of (ht : t.isInt = true) (hint : IntSize (n.toNat * t.size))
    (hone : n = 1 → trunc t.size arr.word = trunc t.size (arr.elems 0)) :
    VarRoundTrips order t n arr :=
  ⟨_, fun _ hcap => (pack_starFormat_iff ht hcap).mpr ⟨hint, rfl⟩, fun _ tail hd =>
    ⟨_, unpack_starFormat order ht hd hint tail, fun hn => (starStored_eq_iff hn).mpr hone⟩⟩

end Star

/-- An array comes back exactly if its size is not negative as an `int` and, where it has one
element, that element is the pointer to it. -/
theorem var_round_trip_iff (order : Option Endian) {t : Letter} (ht : t.isInt = true) (n : UInt32)
    (arr : Arg) :
    VarRoundTrips order t n arr ↔ n.toNat * t.size % 2 ^ 32 < 2 ^ 31 ∧
      (n = 1 → trunc t.size arr.word = trunc t.size (arr.elems 0)) := by
  rw [← intSize_iff]
  exact ⟨varRoundTrips_imp ht, fun h => varRoundTrips_of ht h.1 h.2⟩

theorem var_round_trip_three :
    VarRoundTrips (some .be) .I 3 ⟨4096, fun i => 7 + .ofNat i, []⟩ := by
  have hsize : (3 : UInt32).toNat * Letter.I.size % 2 ^ 32 < 2 ^ 31 := by decide
  have hmany : (3 : UInt32) ≠ 1 := by decide
  exact (var_round_trip_iff (some .be) rfl 3 _).mpr ⟨hsize, fun h => absurd h hmany⟩

/-- The word `7` at the address `4096` comes back as `4096`. -/
theorem var_single_word_lost : ¬ VarRoundTrips none .I 1 ⟨4096, fun _ => 7, []⟩ := by
  intro h
  have hsame : trunc 4 4096 = trunc 4 7 := (varRoundTrips_imp rfl h).2 rfl
  exact absurd hsame (by decide)

end PortableLib.Pack
