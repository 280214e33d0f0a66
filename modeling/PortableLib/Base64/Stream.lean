import PortableLib.Base64
import PortableLib.Lib.Cuts
import PortableLib.Lib.Run

/-! Base64 piece by piece: the state between two calls of `base64_encode_block` or of
`base64_decode_block` is all that a call needs to know of the pieces before it. -/

namespace PortableLib.Base64
open List Cuts

def encodeText : EncodeState → List UInt8 → List UInt8 × EncodeState
  | s, [] => ([], s)
  | s, c :: src =>
    let r := encodeText (encodeChar s c).2 src
    ((encodeChar s c).1 ++ r.1, r.2)

structure DecodeState where
  step : DecodeStep
  plainchar : UInt8

def decodeInit : DecodeState := ⟨.stepA, 0⟩

def decodeFragment (st : DecodeState) (fragment : UInt8) : List UInt8 × DecodeState :=
  match st.step with
  | .stepA => ([], ⟨.stepB, (fragment &&& 0x3f) <<< 2⟩)
  | .stepB => ([st.plainchar ||| (fragment &&& 0x30) >>> 4], ⟨.stepC, (fragment &&& 0x0f) <<< 4⟩)
  | .stepC => ([st.plainchar ||| (fragment &&& 0x3c) >>> 2], ⟨.stepD, (fragment &&& 0x03) <<< 6⟩)
  | .stepD => ([st.plainchar ||| (fragment &&& 0x3f)], ⟨.stepA, st.plainchar⟩)

def decodeText (past : Int) : DecodeState → List UInt8 → List UInt8 × DecodeState
  | st, [] => ([], st)
  | st, c :: code =>
    if decodeValue past c < 0 then decodeText past st code
    else
      let q := decodeFragment st (UInt8.ofNat (decodeValue past c).toNat)
      let r := decodeText past q.2 code
      (q.1 ++ r.1, r.2)

theorem encodeText_append (s : EncodeState) (a b : List UInt8) :
    encodeText s (a ++ b) = ((encodeText s a).1 ++ (encodeText (encodeText s a).2 b).1,
      (encodeText (encodeText s a).2 b).2) := by
  induction a generalizing s with
  | nil => rfl
  | cons c a ih => rw [cons_append, encodeText, ih, encodeText, append_assoc]

theorem decodeText_append (past : Int) (st : DecodeState) (a b : List UInt8) :
    decodeText past st (a ++ b) = ((decodeText past st a).1 ++
      (decodeText past (decodeText past st a).2 b).1,
      (decodeText past (decodeText past st a).2 b).2) := by
  induction a generalizing st with
  | nil => rfl
  | cons c a ih =>
    rw [cons_append, decodeText, decodeText]
    split
    · exact ih st
    · dsimp only
      rw [ih, append_assoc]

theorem decodeValue_of_ne {past : Int} {c : UInt8} (hc : c.toInt8.toInt ≠ 123) :
    decodeValue past c = decodeValue 0 c := by
  have hlen : decoding.length = 80 := rfl
  rw [decodeValue, decodeValue]
  split
  · rfl
  · next hin =>
    rw [hlen] at hin
    have hlt : (c.toInt8.toInt - 43).toNat < decoding.length := by
      rw [hlen]
      omega
    rw [getD_eq_getElem _ _ hlt, getD_eq_getElem _ _ hlt]

set_option maxRecDepth 4000 in
theorem encodeValue_spec : ∀ v : Fin 64, (encodeValue (UInt8.ofNat v)).toInt8.toInt ≠ 123 ∧
    decodeValue 0 (encodeValue (UInt8.ofNat v)) = v := by
  decide

theorem decodeValue_encodeValue (past : Int) {v : UInt8} (hv : v < 64) :
    decodeValue past (encodeValue v) = v.toNat := by
  have hlt : v.toNat < 64 := hv
  obtain ⟨hne, heq⟩ := encodeValue_spec ⟨v.toNat, hlt⟩
  have hof : UInt8.ofNat v.toNat = v := UInt8.ofNat_toNat
  rw [hof] at hne heq
  rw [decodeValue_of_ne hne, heq]

theorem decodeText_encodeValue (past : Int) (st : DecodeState) {v : UInt8} (hv : v < 64)
    (code : List UInt8) : decodeText past st (encodeValue v :: code) =
      ((decodeFragment st v).1 ++ (decodeText past (decodeFragment st v).2 code).1,
        (decodeText past (decodeFragment st v).2 code).2) := by
  have hnat : UInt8.ofNat ((v.toNat : Int)).toNat = v := UInt8.ofNat_toNat
  have hnot : ¬ ((v.toNat : Int) < 0) := Int.not_lt.mpr (Int.natCast_nonneg _)
  rw [decodeText, decodeValue_encodeValue past hv, if_neg hnot]
  dsimp only
  rw [hnat]

theorem decodeValue_skipped (past : Int) :
    decodeValue past 0x0a < 0 ∧ decodeValue past 0x3d < 0 := by
  rw [decodeValue_of_ne (c := 0x0a) (by decide), decodeValue_of_ne (c := 0x3d) (by decide)]
  decide

theorem forall_uint8 {P : UInt8 → Prop} (h : ∀ n : Fin 256, P (UInt8.ofNat n)) (b : UInt8) :
    P b := by
  have hb := h ⟨b.toNat, b.toNat_lt⟩
  rwa [UInt8.ofNat_toNat] at hb

set_option maxRecDepth 20000 in
theorem high_six : ∀ b : UInt8, (b &&& 0xfc) >>> 2 < 64 ∧
    ((b &&& 0xfc) >>> 2 &&& 0x3f) <<< 2 = b &&& 0xfc :=
  forall_uint8 (by decide)

set_option maxRecDepth 20000 in
theorem low_two : ∀ b : UInt8, (∃ x : Fin 4, b &&& 0x03 = UInt8.ofNat x) ∧
    (b &&& 0xfc) ||| (b &&& 0x03) = b :=
  forall_uint8 (by decide)

set_option maxRecDepth 20000 in
theorem high_four : ∀ c : UInt8, (∃ y : Fin 16, (c &&& 0xf0) >>> 4 = UInt8.ofNat y) ∧
    (c &&& 0xf0) >>> 4 <<< 4 = c &&& 0xf0 :=
  forall_uint8 (by decide)

set_option maxRecDepth 20000 in
theorem low_four : ∀ b : UInt8, (∃ x : Fin 16, b &&& 0x0f = UInt8.ofNat x) ∧
    (b &&& 0xf0) ||| (b &&& 0x0f) = b :=
  forall_uint8 (by decide)

set_option maxRecDepth 20000 in
theorem high_two : ∀ c : UInt8, (∃ y : Fin 4, (c &&& 0xc0) >>> 6 = UInt8.ofNat y) ∧
    (c &&& 0xc0) >>> 6 <<< 6 = c &&& 0xc0 :=
  forall_uint8 (by decide)

set_option maxRecDepth 20000 in
theorem low_six : ∀ c : UInt8, c &&& 0x3f < 64 ∧ (c &&& 0xc0) ||| (c &&& 0x3f &&& 0x3f) = c :=
  forall_uint8 (by decide)

set_option maxRecDepth 20000 in
theorem join_two_four : ∀ x : Fin 4, ∀ y : Fin 16,
    UInt8.ofNat x <<< 4 ||| UInt8.ofNat y < 64 ∧
      ((UInt8.ofNat x <<< 4 ||| UInt8.ofNat y) &&& 0x30) >>> 4 = UInt8.ofNat x ∧
        (UInt8.ofNat x <<< 4 ||| UInt8.ofNat y) &&& 0x0f = UInt8.ofNat y := by
  decide

set_option maxRecDepth 20000 in
theorem join_four_two : ∀ x : Fin 16, ∀ y : Fin 4,
    UInt8.ofNat x <<< 2 ||| UInt8.ofNat y < 64 ∧
      ((UInt8.ofNat x <<< 2 ||| UInt8.ofNat y) &&& 0x3c) >>> 2 = UInt8.ofNat x ∧
        (UInt8.ofNat x <<< 2 ||| UInt8.ofNat y) &&& 0x03 = UInt8.ofNat y := by
  decide

theorem second_sextet {b c v : UInt8} (hv : v = (b &&& 0x03) <<< 4 ||| (c &&& 0xf0) >>> 4) :
    v < 64 ∧ (b &&& (0xfc : UInt8)) ||| (v &&& 0x30) >>> 4 = b ∧
      (v &&& 0x0f) <<< 4 = c &&& 0xf0 := by
  obtain ⟨⟨x, hx⟩, hb⟩ := low_two b
  obtain ⟨⟨y, hy⟩, hc⟩ := high_four c
  obtain ⟨hlt, hhigh, hlow⟩ := join_two_four x y
  rw [← hx, ← hy, ← hv] at hlt hhigh hlow
  rw [hhigh, hlow]
  exact ⟨hlt, hb, hc⟩

theorem third_sextet {b c v : UInt8} (hv : v = (b &&& 0x0f) <<< 2 ||| (c &&& 0xc0) >>> 6) :
    v < 64 ∧ (b &&& (0xf0 : UInt8)) ||| (v &&& 0x3c) >>> 2 = b ∧
      (v &&& 0x03) <<< 6 = c &&& 0xc0 := by
  obtain ⟨⟨x, hx⟩, hb⟩ := low_four b
  obtain ⟨⟨y, hy⟩, hc⟩ := high_two c
  obtain ⟨hlt, hhigh, hlow⟩ := join_four_two x y
  rw [← hx, ← hy, ← hv] at hlt hhigh hlow
  rw [hhigh, hlow]
  exact ⟨hlt, hb, hc⟩

/-- Where the decoder is when it has read what the encoder has written: `pending` is the byte that
it has begun. -/
inductive Meets : EncodeState → DecodeState → List UInt8 → Prop
  | whole {n : Nat} {result plainchar : UInt8} : Meets ⟨n, .stepA, result⟩ ⟨.stepA, plainchar⟩ []
  | second {n : Nat} (b : UInt8) :
    Meets ⟨n, .stepB, (b &&& 0x03) <<< 4⟩ ⟨.stepB, b &&& 0xfc⟩ [b]
  | third {n : Nat} (b : UInt8) :
    Meets ⟨n, .stepC, (b &&& 0x0f) <<< 2⟩ ⟨.stepC, b &&& 0xf0⟩ [b]

variable {past : Int} {s : EncodeState} {st : DecodeState} {pending : List UInt8}

theorem decodeText_skip {c : UInt8} (hc : decodeValue past c < 0) (code : List UInt8) :
    decodeText past st (c :: code) = decodeText past st code := by
  rw [decodeText, if_pos hc]

theorem Meets.char (past : Int) (h : Meets s st pending) (c : UInt8) : ∃ pending',
    pending ++ [c] = (decodeText past st (encodeChar s c).1).1 ++ pending' ∧
      Meets (encodeChar s c).2 (decodeText past st (encodeChar s c).1).2 pending' := by
  cases h with
  | whole =>
    obtain ⟨hlt, hsame⟩ := high_six c
    rw [encodeChar]
    dsimp only
    rw [decodeText_encodeValue past _ hlt, decodeFragment]
    dsimp only
    rw [hsame]
    exact ⟨[c], rfl, .second c⟩
  | second b =>
    obtain ⟨hlt, hb, hc⟩ := second_sextet (b := b) (c := c) rfl
    rw [encodeChar]
    dsimp only
    rw [decodeText_encodeValue past _ hlt, decodeFragment]
    dsimp only
    rw [hb, hc]
    exact ⟨[c], rfl, .third c⟩
  | @third n b =>
    obtain ⟨hlt, hb, hc⟩ := third_sextet (b := b) (c := c) rfl
    obtain ⟨hlt', hc'⟩ := low_six c
    have htwo : ∀ tail, decodeText past ⟨.stepC, b &&& 0xf0⟩
        (encodeValue ((b &&& 0x0f) <<< 2 ||| (c &&& 0xc0) >>> 6) ::
          encodeValue (c &&& 0x3f) :: tail) =
        (b :: c :: (decodeText past ⟨.stepA, c &&& 0xc0⟩ tail).1,
          (decodeText past ⟨.stepA, c &&& 0xc0⟩ tail).2) := by
      intro tail
      rw [decodeText_encodeValue past _ hlt, decodeFragment]
      dsimp only
      rw [hb, hc, decodeText_encodeValue past _ hlt', decodeFragment]
      dsimp only
      rw [hc']
      rfl
    rw [encodeChar]
    dsimp only
    split
    · rw [htwo, decodeText_skip (decodeValue_skipped past).1]
      exact ⟨[], rfl, .whole⟩
    · rw [htwo]
      exact ⟨[], rfl, .whole⟩

theorem Meets.text (past : Int) (h : Meets s st pending) (src : List UInt8) : ∃ pending',
    pending ++ src = (decodeText past st (encodeText s src).1).1 ++ pending' ∧
      Meets (encodeText s src).2 (decodeText past st (encodeText s src).1).2 pending' := by
  induction src generalizing s st pending with
  | nil => exact ⟨pending, append_nil _, h⟩
  | cons c src ih =>
    obtain ⟨pending₁, hone, hmeets⟩ := h.char past c
    obtain ⟨pending', hall, hmeets'⟩ := ih hmeets
    refine ⟨pending', ?_, ?_⟩
    · rw [encodeText, decodeText_append, append_assoc, ← hall, ← append_assoc, ← hone,
        append_assoc, singleton_append]
    · rw [encodeText, decodeText_append]
      exact hmeets'

theorem Meets.finish (h : Meets s st pending) :
    (decodeText past st (finishText s).dropLast).1 = pending := by
  obtain ⟨hnl, hpad⟩ := decodeValue_skipped past
  cases h with
  | whole =>
    change (decodeText past _ [0x0a]).1 = []
    rw [decodeText_skip hnl]
    rfl
  | second b =>
    obtain ⟨hlt, hb, -⟩ := second_sextet (b := b) (c := 0) UInt8.or_zero.symm
    change (decodeText past _ [encodeValue ((b &&& 0x03) <<< 4), 0x3d, 0x3d, 0x0a]).1 = [b]
    rw [decodeText_encodeValue past _ hlt, decodeText_skip hpad, decodeText_skip hpad,
      decodeText_skip hnl, decodeFragment]
    exact congrArg (fun b => [b]) hb
  | third b =>
    obtain ⟨hlt, hb, -⟩ := third_sextet (b := b) (c := 0) UInt8.or_zero.symm
    change (decodeText past _ [encodeValue ((b &&& 0x0f) <<< 2), 0x3d, 0x0a]).1 = [b]
    rw [decodeText_encodeValue past _ hlt, decodeText_skip hpad, decodeText_skip hnl,
      decodeFragment]
    exact congrArg (fun b => [b]) hb

theorem decodeText_encodeText (src : List UInt8) :
    (decodeText past decodeInit ((encodeText encodeInit src).1 ++
      (finishText (encodeText encodeInit src).2).dropLast)).1 = src := by
  obtain ⟨pending, hsrc, hmeets⟩ := Meets.text past
    (show Meets encodeInit decodeInit [] from .whole) src
  rw [decodeText_append, hmeets.finish, ← hsrc, nil_append]

def base64EncodeBlock (s : EncodeState) (i : List UInt8 × Block UInt8) :
    Option (EncodeState × List UInt8) := do
  let (s, dest, n) ← encodeBlock s i.1 i.2 0
  let out ← dest.first n
  return (s, out)

def base64DecodeBlock (past : Int) (st : DecodeState) (i : List UInt8 × Block UInt8) :
    Option (DecodeState × List UInt8) := do
  let dest ← i.2.write 0 st.plainchar
  let (step, dest, n) ← decodeFrom past st.step i.1 dest 0
  let plainchar ← dest.read n
  let out ← dest.first n
  return (⟨step, plainchar⟩, out)

variable {dest : Block UInt8} {acc src code : List UInt8}

theorem held_write (h : Held dest 0 acc) (hlt : acc.length < dest.len) (c : UInt8) :
    ∃ d, dest.write acc.length c = some d ∧ d.len = dest.len ∧ Held d 0 (acc ++ [c]) := by
  have hw := Block.write_of_lt hlt c
  refine ⟨_, hw, rfl, h.write ?_⟩
  rw [Nat.zero_add]
  exact hw

theorem first_of_held (h : Held dest 0 acc) (hle : acc.length ≤ dest.len) :
    dest.first acc.length = some acc := by
  have hcells : (range acc.length).map dest.cells = acc := by
    rw [← map_range_congr fun i _ => congrArg dest.cells (Nat.zero_add i)]
    exact h
  rw [Block.first_of_le hle, hcells]

theorem puts_spec (h : Held dest 0 acc) (l : List UInt8) (hle : acc.length + l.length ≤ dest.len) :
    ∃ d, puts dest acc.length l = some (d, (acc ++ l).length) ∧ d.len = dest.len ∧
      Held d 0 (acc ++ l) := by
  induction l generalizing dest acc with
  | nil =>
    rw [append_nil]
    exact ⟨dest, rfl, rfl, h⟩
  | cons c l ih =>
    rw [length_cons] at hle
    obtain ⟨d₁, hw, hlen, hheld⟩ := held_write h (by omega) c
    obtain ⟨d, hputs, hlen', hheld'⟩ := ih hheld (by rw [length_append, length_singleton]; omega)
    rw [append_assoc, singleton_append] at hputs hheld'
    rw [length_append, length_singleton] at hputs
    rw [puts, hw, Option.bind_eq_bind, Option.bind_some]
    exact ⟨d, hputs, hlen'.trans hlen, hheld'⟩

theorem length_encodeChar_le (s : EncodeState) (c : UInt8) : (encodeChar s c).1.length ≤ 3 := by
  rw [encodeChar]
  split
  · exact (by decide : 1 ≤ 3)
  · exact (by decide : 1 ≤ 3)
  · dsimp only
    split
    · exact Nat.le_refl 3
    · exact (by decide : 2 ≤ 3)

theorem encodeBlock_spec (s : EncodeState) (h : Held dest 0 acc)
    (hle : acc.length + 3 * src.length ≤ dest.len) :
    ∃ d, encodeBlock s src dest acc.length =
        some ((encodeText s src).2, d, (acc ++ (encodeText s src).1).length) ∧
      d.len = dest.len ∧ Held d 0 (acc ++ (encodeText s src).1) ∧
      (acc ++ (encodeText s src).1).length ≤ dest.len := by
  induction src generalizing s dest acc with
  | nil =>
    rw [encodeText, append_nil]
    exact ⟨dest, rfl, rfl, h, by omega⟩
  | cons c src ih =>
    have hthree := length_encodeChar_le s c
    rw [length_cons] at hle
    obtain ⟨d₁, hputs, hlen, hheld⟩ := puts_spec h (encodeChar s c).1 (by omega)
    obtain ⟨d, hrun, hlen', hheld', hroom⟩ := ih (encodeChar s c).2 hheld
      (by rw [length_append]; omega)
    rw [append_assoc] at hrun hheld' hroom
    rw [encodeBlock, hputs, Option.bind_eq_bind, Option.bind_some]
    exact ⟨d, hrun, hlen'.trans hlen, hheld', hroom.trans hlen.le⟩

theorem encode_block_spec (s : EncodeState) (i : List UInt8 × Block UInt8)
    (hroom : 3 * i.1.length ≤ i.2.len) :
    base64EncodeBlock s i = some ((encodeText s i.1).2, (encodeText s i.1).1) := by
  have hle : ([] : List UInt8).length + 3 * i.1.length ≤ i.2.len := by rw [length_nil]; omega
  obtain ⟨d, hrun, hlen, hheld, hle⟩ := encodeBlock_spec s held_nil hle
  rw [nil_append] at hrun hheld hle
  rw [base64EncodeBlock, show (0 : Nat) = ([] : List UInt8).length from rfl, hrun,
    Option.bind_eq_bind, Option.bind_some]
  dsimp only
  rw [first_of_held hheld (hle.trans hlen.ge)]
  rfl

structure Decoded (st : DecodeState) (acc : List UInt8) (len : Nat) (dest : Block UInt8) :
    Prop where
  len_eq : dest.len = len
  held : Held dest 0 acc
  begun : st.step ≠ .stepA → dest.cells acc.length = st.plainchar

theorem merge_spec {y : UInt8} (h : Held dest 0 acc) (hlt : acc.length < dest.len)
    (hcur : dest.cells acc.length = y) (x : UInt8) :
    ∃ d, merge dest acc.length x = some (d, (acc ++ [y ||| x]).length) ∧ d.len = dest.len ∧
      Held d 0 (acc ++ [y ||| x]) := by
  obtain ⟨d, hw, hlen, hheld⟩ := held_write h hlt (y ||| x)
  refine ⟨d, ?_, hlen, hheld⟩
  rw [merge, Block.read_of_lt hlt, Option.bind_eq_bind, Option.bind_some, hcur, hw, length_append]
  rfl

theorem begin_spec (step : DecodeStep) (h : Held dest 0 acc) (hlt : acc.length < dest.len)
    (x : UInt8) : ∃ d, dest.write acc.length x = some d ∧ Decoded ⟨step, x⟩ acc dest.len d := by
  refine ⟨_, Block.write_of_lt hlt x, rfl, h.frame fun i hi => ?_, fun _ => ?_⟩
  · exact Function.update_of_ne (by omega) _ _
  · exact Function.update_self ..

theorem merge_begin {step : DecodeStep} {y : UInt8} (h : Held dest 0 acc)
    (hroom : acc.length + 1 < dest.len) (hcur : dest.cells acc.length = y) (x z : UInt8) :
    ∃ d, (do
        let (dest, plainchar) ← merge dest acc.length x
        let dest ← dest.write plainchar z
        return (step, dest, plainchar)) = some (step, d, (acc ++ [y ||| x]).length) ∧
      Decoded ⟨step, z⟩ (acc ++ [y ||| x]) dest.len d := by
  obtain ⟨d₁, hmerge, hlen, hheld⟩ := merge_spec h (by omega) hcur x
  obtain ⟨d, hw, hdec⟩ := begin_spec step hheld
    (by rw [length_append, length_singleton]; omega) z
  rw [hmerge, Option.bind_eq_bind, Option.bind_some]
  dsimp only
  rw [hw]
  rw [hlen] at hdec
  exact ⟨d, rfl, hdec⟩

theorem decodeChar_spec {len : Nat} (h : Decoded st acc len dest) (hroom : acc.length + 1 < len)
    (fragment : UInt8) :
    ∃ d, decodeChar st.step fragment dest acc.length =
        some ((decodeFragment st fragment).2.step, d,
          (acc ++ (decodeFragment st fragment).1).length) ∧
      Decoded (decodeFragment st fragment).2 (acc ++ (decodeFragment st fragment).1) len d := by
  obtain ⟨hlen, hheld, hcur⟩ := h
  subst hlen
  obtain ⟨step, plainchar⟩ := st
  cases step with
  | stepA =>
    obtain ⟨d, hw, hdec⟩ := begin_spec .stepB hheld (by omega) ((fragment &&& 0x3f) <<< 2)
    rw [decodeChar, decodeFragment]
    dsimp only
    rw [hw, append_nil]
    exact ⟨d, rfl, hdec⟩
  | stepB => exact merge_begin hheld hroom (hcur (DecodeStep.noConfusion ·)) _ _
  | stepC => exact merge_begin hheld hroom (hcur (DecodeStep.noConfusion ·)) _ _
  | stepD =>
    obtain ⟨d, hmerge, hlen, hheld'⟩ :=
      merge_spec hheld (by omega) (hcur (DecodeStep.noConfusion ·)) (fragment &&& 0x3f)
    rw [decodeChar, decodeFragment]
    dsimp only
    rw [hmerge]
    exact ⟨d, rfl, hlen, hheld', fun hne => absurd rfl hne⟩

theorem decodeFrom_spec (past : Int) {len : Nat} (h : Decoded st acc len dest)
    (hroom : acc.length + code.length < len) :
    ∃ d, decodeFrom past st.step code dest acc.length =
        some ((decodeText past st code).2.step, d, (acc ++ (decodeText past st code).1).length) ∧
      Decoded (decodeText past st code).2 (acc ++ (decodeText past st code).1) len d ∧
      (acc ++ (decodeText past st code).1).length < len := by
  induction code generalizing st acc dest with
  | nil =>
    rw [decodeText, append_nil]
    exact ⟨dest, rfl, h, hroom⟩
  | cons c code ih =>
    rw [length_cons] at hroom
    rw [decodeFrom, decodeText]
    split
    · exact ih h (by omega)
    · obtain ⟨d₁, hchar, hdec⟩ := decodeChar_spec h (by omega)
        (UInt8.ofNat (decodeValue past c).toNat)
      have hone : (decodeFragment st (UInt8.ofNat (decodeValue past c).toNat)).1.length ≤ 1 := by
        rw [decodeFragment]
        split
        · exact Nat.zero_le 1
        · exact Nat.le_refl 1
        · exact Nat.le_refl 1
        · exact Nat.le_refl 1
      obtain ⟨d, hrun, hdec', hlt⟩ := ih hdec (by rw [length_append]; omega)
      rw [append_assoc] at hrun hdec' hlt
      dsimp only
      rw [hchar, Option.bind_eq_bind, Option.bind_some]
      exact ⟨d, hrun, hdec', hlt⟩

theorem decodeText_stepA (x y : UInt8) (code : List UInt8) :
    (decodeText past ⟨.stepA, x⟩ code).1 = (decodeText past ⟨.stepA, y⟩ code).1 := by
  induction code with
  | nil => rfl
  | cons c code ih =>
    rw [decodeText, decodeText]
    split
    · exact ih
    · rfl

theorem decode_block_spec (past : Int) (st : DecodeState) (i : List UInt8 × Block UInt8)
    (hroom : i.1.length < i.2.len) :
    ∃ st', base64DecodeBlock past st i = some (st', (decodeText past st i.1).1) ∧
      ∀ code, (decodeText past st' code).1 =
        (decodeText past (decodeText past st i.1).2 code).1 := by
  obtain ⟨d₁, hw, hdec⟩ := begin_spec st.step held_nil
    (show ([] : List UInt8).length < i.2.len by rw [length_nil]; omega) st.plainchar
  obtain ⟨d, hrun, ⟨hlen, hheld, hcur⟩, hlt⟩ := decodeFrom_spec past hdec
    (show ([] : List UInt8).length + i.1.length < i.2.len by rw [length_nil]; omega)
  rw [nil_append] at hrun hheld hcur hlt
  rw [length_nil] at hw hrun
  refine ⟨⟨(decodeText past st i.1).2.step, d.cells (decodeText past st i.1).1.length⟩, ?_, ?_⟩
  · rw [base64DecodeBlock, hw, Option.bind_eq_bind, Option.bind_some, hrun, Option.bind_eq_bind,
      Option.bind_some]
    dsimp only
    rw [Block.read_of_lt (hlt.trans_le hlen.ge), Option.bind_eq_bind, Option.bind_some,
      first_of_held hheld (hlt.le.trans hlen.ge)]
    rfl
  · intro code
    generalize (decodeText past st i.1).2 = st₁ at hcur
    obtain ⟨step, plainchar⟩ := st₁
    cases step with
    | stepA => exact decodeText_stepA _ _ _
    | stepB => rw [hcur (DecodeStep.noConfusion ·)]
    | stepC => rw [hcur (DecodeStep.noConfusion ·)]
    | stepD => rw [hcur (DecodeStep.noConfusion ·)]

theorem encode_pieces (s : EncodeState) (ins : List (List UInt8 × Block UInt8))
    (hroom : ∀ i ∈ ins, 3 * i.1.length ≤ i.2.len) :
    ∃ outs, Run.run base64EncodeBlock s ins =
        some ((encodeText s (ins.map Prod.fst).flatten).2, outs) ∧
      outs.flatten = (encodeText s (ins.map Prod.fst).flatten).1 := by
  induction ins generalizing s with
  | nil => exact ⟨[], rfl, rfl⟩
  | cons i ins ih =>
    have hone := encode_block_spec s i (hroom i mem_cons_self)
    obtain ⟨outs, hrun, houts⟩ := ih (encodeText s i.1).2 fun j hj => hroom j (mem_cons_of_mem i hj)
    refine ⟨(encodeText s i.1).1 :: outs, ?_, ?_⟩
    · rw [Run.run, hone, Option.bind_some, hrun, map_cons, flatten_cons, encodeText_append]
      rfl
    · rw [flatten_cons, houts, map_cons, flatten_cons, encodeText_append]

theorem decode_pieces (past : Int) (st : DecodeState) (ins : List (List UInt8 × Block UInt8))
    (hroom : ∀ i ∈ ins, i.1.length < i.2.len) :
    ∃ st' outs, Run.run (base64DecodeBlock past) st ins = some (st', outs) ∧
      outs.flatten = (decodeText past st (ins.map Prod.fst).flatten).1 := by
  induction ins generalizing st with
  | nil => exact ⟨st, [], rfl, rfl⟩
  | cons i ins ih =>
    obtain ⟨st₁, hone, hnext⟩ := decode_block_spec past st i (hroom i mem_cons_self)
    obtain ⟨st', outs, hrun, houts⟩ := ih st₁ fun j hj => hroom j (mem_cons_of_mem i hj)
    refine ⟨st', (decodeText past st i.1).1 :: outs, ?_, ?_⟩
    · rw [Run.run, hone, Option.bind_some, hrun]
      rfl
    · rw [flatten_cons, houts, hnext, map_cons, flatten_cons, decodeText_append]

theorem encodeFinish_spec (s : EncodeState) {last : Block UInt8} (hlast : 5 ≤ last.len) :
    ∃ d n, encodeFinish s last 0 = some (d, n) ∧ d.first n = some (finishText s).dropLast := by
  have hfive : (finishText s).length ≤ 5 ∧ finishText s ≠ [] := by
    rw [finishText]
    split
    · exact ⟨by decide, cons_ne_nil _ _⟩
    · exact ⟨Nat.le_refl 5, cons_ne_nil _ _⟩
    · exact ⟨Nat.le_succ 4, cons_ne_nil _ _⟩
  obtain ⟨d, hputs, hlen, hheld⟩ := puts_spec held_nil (finishText s)
    (show ([] : List UInt8).length + (finishText s).length ≤ last.len by rw [length_nil]; omega)
  rw [nil_append, length_nil] at hputs
  rw [nil_append, ← dropLast_append_getLast hfive.2] at hheld
  refine ⟨d, (finishText s).length - 1, ?_, ?_⟩
  · rw [encodeFinish, hputs]
    rfl
  · rw [← length_dropLast]
    refine first_of_held (held_concat.mp hheld).1 ?_
    rw [length_dropLast]
    omega

/-- However a source is cut for the encoder and its text, with the finish, for the decoder: what
comes out is the source. -/
theorem base64_round_trip (past : Int) (ins : List (List UInt8 × Block UInt8)) (last : Block UInt8)
    (hroom : ∀ i ∈ ins, 3 * i.1.length ≤ i.2.len) (hlast : 5 ≤ last.len) :
    ∃ s outs d n text, Run.run base64EncodeBlock encodeInit ins = some (s, outs) ∧
      encodeFinish s last 0 = some (d, n) ∧ d.first n = some text ∧
      ∀ codes : List (List UInt8 × Block UInt8), (∀ i ∈ codes, i.1.length < i.2.len) →
        (codes.map Prod.fst).flatten = outs.flatten ++ text →
        ∃ st plain, Run.run (base64DecodeBlock past) decodeInit codes = some (st, plain) ∧
          plain.flatten = (ins.map Prod.fst).flatten := by
  obtain ⟨outs, hrun, houts⟩ := encode_pieces encodeInit ins hroom
  generalize (ins.map Prod.fst).flatten = src at *
  obtain ⟨d, n, hfinish, htext⟩ := encodeFinish_spec (encodeText encodeInit src).2 hlast
  refine ⟨_, outs, d, n, _, hrun, hfinish, htext, fun codes hroom' hcodes => ?_⟩
  obtain ⟨st, plain, hrun', hplain⟩ := decode_pieces past decodeInit codes hroom'
  refine ⟨st, plain, hrun', ?_⟩
  rw [hplain, hcodes, houts, decodeText_encodeText]

theorem base64_round_trip_two : ∃ s outs d n text, Run.run base64EncodeBlock encodeInit
      [([1, 2], ⟨6, fun _ => 0⟩), ([3, 4], ⟨6, fun _ => 0⟩)] = some (s, outs) ∧
    encodeFinish s ⟨5, fun _ => 0⟩ 0 = some (d, n) ∧ d.first n = some text ∧
    ∀ codes : List (List UInt8 × Block UInt8), (∀ i ∈ codes, i.1.length < i.2.len) →
      (codes.map Prod.fst).flatten = outs.flatten ++ text →
      ∃ st plain, Run.run (base64DecodeBlock 0) decodeInit codes = some (st, plain) ∧
        plain.flatten = [1, 2, 3, 4] :=
  base64_round_trip 0 [([1, 2], ⟨6, fun _ => 0⟩), ([3, 4], ⟨6, fun _ => 0⟩)] ⟨5, fun _ => 0⟩
    (by decide) (by decide)

end PortableLib.Base64
