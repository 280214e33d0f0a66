import PortableLib.Errno
import PortableLib.Lib.Block
import PortableLib.StrSplit.Arrays

/-! Base64 from a buffer to a buffer, `b64_encode.c` and `b64_decode.c`. What is stored in the
destination is checked against its end; an overflow of an `int` leaves no result. -/

namespace PortableLib.Base64
open List
open StrSplit.Arrays (int)

inductive EncodeStep
  | stepA
  | stepB
  | stepC
  deriving DecidableEq

structure EncodeState where
  stepcount : Nat
  step : EncodeStep
  result : UInt8

def encoding : List UInt8 :=
  (List.range 26).map (fun i => UInt8.ofNat (0x41 + i)) ++
    (List.range 26).map (fun i => UInt8.ofNat (0x61 + i)) ++
      (List.range 10).map (fun i => UInt8.ofNat (0x30 + i)) ++ [0x2b, 0x2f]

def encodeValue (valueIn : UInt8) : UInt8 :=
  if 63 < valueIn then 0x3d else encoding.getD valueIn.toNat 0

def encodeInit : EncodeState := ⟨0, .stepA, 0⟩

def charsPerLine : Nat := 72

def encodeChar (s : EncodeState) (fragment : UInt8) : List UInt8 × EncodeState :=
  match s.step with
  | .stepA =>
    let result := (fragment &&& 0xfc) >>> 2
    ([encodeValue result], { s with step := .stepB, result := (fragment &&& 0x03) <<< 4 })
  | .stepB =>
    let result := s.result ||| (fragment &&& 0xf0) >>> 4
    ([encodeValue result], { s with step := .stepC, result := (fragment &&& 0x0f) <<< 2 })
  | .stepC =>
    let result := s.result ||| (fragment &&& 0xc0) >>> 6
    let last := fragment &&& 0x3f
    if s.stepcount + 1 = charsPerLine / 4 then
      ([encodeValue result, encodeValue last, 0x0a], ⟨0, .stepA, last⟩)
    else ([encodeValue result, encodeValue last], ⟨s.stepcount + 1, .stepA, last⟩)

/-- `*codechar++ = c` for the characters one after the other. -/
def puts (dest : Block UInt8) (codechar : Nat) : List UInt8 → Option (Block UInt8 × Nat)
  | [] => some (dest, codechar)
  | c :: cs => do
    let dest ← dest.write codechar c
    puts dest (codechar + 1) cs

def encodeBlock : EncodeState → List UInt8 → Block UInt8 → Nat →
    Option (EncodeState × Block UInt8 × Nat)
  | s, [], dest, codechar => some (s, dest, codechar)
  | s, c :: plaintext, dest, codechar => do
    let (dest, codechar) ← puts dest codechar (encodeChar s c).1
    encodeBlock (encodeChar s c).2 plaintext dest codechar

def finishText (s : EncodeState) : List UInt8 :=
  match s.step with
  | .stepA => [0x0a, 0]
  | .stepB => [encodeValue s.result, 0x3d, 0x3d, 0x0a, 0]
  | .stepC => [encodeValue s.result, 0x3d, 0x0a, 0]

def encodeFinish (s : EncodeState) (dest : Block UInt8) (codechar : Nat) :
    Option (Block UInt8 × Nat) := do
  let (dest, stop) ← puts dest codechar (finishText s)
  return (dest, stop - 1)

def encodeBuf (dest : Block UInt8) (destlen : Int) (src : List UInt8) :
    Option (Except Errno (Nat × Block UInt8)) := do
  let twice ← int (2 * src.length)
  if destlen < twice then return .error .enomem
  let (s, dest, n) ← encodeBlock encodeInit src dest 0
  let limit ← int (destlen + 5)
  if limit ≤ n then none
  let (dest, n) ← encodeFinish s dest n
  return .ok (n, dest)

inductive DecodeStep
  | stepA
  | stepB
  | stepC
  | stepD
  deriving DecidableEq

def decoding : List Int :=
  [62, -1, -1, -1, 63, 52, 53, 54, 55, 56, 57, 58, 59, 60, 61,
    -1, -1, -1, -2, -1, -1, -1, 0, 1, 2, 3, 4, 5, 6, 7, 8, 9, 10,
    11, 12, 13, 14, 15, 16, 17, 18, 19, 20, 21, 22, 23, 24, 25, -1,
    -1, -1, -1, -1, -1, 26, 27, 28, 29, 30, 31, 32, 33, 34, 35, 36,
    37, 38, 39, 40, 41, 42, 43, 44, 45, 46, 47, 48, 49, 50, 51]

/-- `base64_decode_value` of a `char`; `past` is what is found behind the table, where one index
leads. -/
def decodeValue (past : Int) (c : UInt8) : Int :=
  let valueIn := c.toInt8.toInt - 43
  if valueIn < 0 ∨ valueIn > decoding.length then -1 else decoding.getD valueIn.toNat past

/-- `*plainchar++ |= x` -/
def merge (dest : Block UInt8) (plainchar : Nat) (x : UInt8) : Option (Block UInt8 × Nat) := do
  let y ← dest.read plainchar
  let dest ← dest.write plainchar (y ||| x)
  return (dest, plainchar + 1)

def decodeChar (step : DecodeStep) (fragment : UInt8) (dest : Block UInt8) (plainchar : Nat) :
    Option (DecodeStep × Block UInt8 × Nat) := do
  match step with
  | .stepA =>
    let dest ← dest.write plainchar ((fragment &&& 0x3f) <<< 2)
    return (.stepB, dest, plainchar)
  | .stepB =>
    let (dest, plainchar) ← merge dest plainchar ((fragment &&& 0x30) >>> 4)
    let dest ← dest.write plainchar ((fragment &&& 0x0f) <<< 4)
    return (.stepC, dest, plainchar)
  | .stepC =>
    let (dest, plainchar) ← merge dest plainchar ((fragment &&& 0x3c) >>> 2)
    let dest ← dest.write plainchar ((fragment &&& 0x03) <<< 6)
    return (.stepD, dest, plainchar)
  | .stepD =>
    let (dest, plainchar) ← merge dest plainchar (fragment &&& 0x3f)
    return (.stepA, dest, plainchar)

/-- The loop of `base64_decode_block`: characters without a value are passed over. -/
def decodeFrom (past : Int) : DecodeStep → List UInt8 → Block UInt8 → Nat →
    Option (DecodeStep × Block UInt8 × Nat)
  | step, [], dest, plainchar => some (step, dest, plainchar)
  | step, c :: code, dest, plainchar =>
    if decodeValue past c < 0 then decodeFrom past step code dest plainchar
    else do
      let fragment := UInt8.ofNat (decodeValue past c).toNat
      let (step, dest, plainchar) ← decodeChar step fragment dest plainchar
      decodeFrom past step code dest plainchar

/-- At the end `plainchar` may be one behind the destination; the byte there is read for the
state, which nobody looks at again. -/
def decodeBlock (past : Int) (step : DecodeStep) (code : List UInt8) (dest : Block UInt8)
    (plainchar : Nat) : Option (Nat × Block UInt8) := do
  let (_, dest, plainchar) ← decodeFrom past step code dest plainchar
  return (plainchar, dest)

def decodeBuf (past : Int) (buf : Block UInt8) (destlen : Int) (src : List UInt8) :
    Option (Except Errno (Nat × Block UInt8)) := do
  if destlen < (src.length : Int) / 2 then return .error .enomem
  let dest ← buf.write 0 0
  let r ← decodeBlock past .stepA src dest 0
  return .ok r

/-- A result, which is `-ENOMEM` if it is an error, and no access outside `destlen` bytes. -/
def EncodeInside (destlen : Int) (src : List UInt8) : Prop :=
  ∀ cells, ∃ r, encodeBuf ⟨destlen.toNat, cells⟩ destlen src = some r

def DecodeInside (past destlen : Int) (src : List UInt8) : Prop :=
  ∀ cells, ∃ r, decodeBuf past ⟨destlen.toNat, cells⟩ destlen src = some r

def encodedLen (t : Nat) : Nat := 4 * ((t + 2) / 3) + t / 54 + 2

def digits (past : Int) (code : List UInt8) : Nat :=
  (code.filter fun c => 0 ≤ decodeValue past c).length

variable {dest : Block UInt8} {i t k : Nat} {l src : List UInt8} {s : EncodeState} {c : UInt8}

theorem puts_of_le (h : i + l.length ≤ dest.len) :
    ∃ d, puts dest i l = some (d, i + l.length) ∧ d.len = dest.len := by
  induction l generalizing dest i with
  | nil => exact ⟨dest, rfl, rfl⟩
  | cons c l ih =>
    rw [length_cons] at h ⊢
    have hlt : i < dest.len := by omega
    obtain ⟨d, hrun, hlen⟩ := @ih { dest with cells := Function.update dest.cells i c } (i + 1)
      (show i + 1 + l.length ≤ dest.len by omega)
    rw [puts, Block.write_of_lt hlt, Option.bind_eq_bind, Option.bind_some, hrun,
      Nat.add_right_comm]
    exact ⟨d, rfl, hlen⟩

theorem puts_of_lt (hi : i ≤ dest.len) (h : dest.len < i + l.length) : puts dest i l = none := by
  induction l generalizing dest i with
  | nil => exact absurd h (Nat.not_lt.mpr hi)
  | cons c l ih =>
    rw [length_cons] at h
    rw [puts]
    rcases hi.lt_or_eq with hlt | heq
    · rw [Block.write_of_lt hlt, Option.bind_eq_bind, Option.bind_some]
      exact ih hlt (show dest.len < i + 1 + l.length by omega)
    · rw [Block.write, if_neg (by omega), Option.bind_eq_bind, Option.bind_none]

def written (t : Nat) : Nat := 4 * (t / 3) + t / 54 + t % 3

structure Behind (t : Nat) (s : EncodeState) : Prop where
  step : s.step = if t % 3 = 0 then .stepA else if t % 3 = 1 then .stepB else .stepC
  stepcount : s.stepcount = t / 3 % 18

theorem Behind.encodeChar (h : Behind t s) (c : UInt8) :
    Behind (t + 1) (encodeChar s c).2 ∧
      written (t + 1) = written t + (encodeChar s c).1.length := by
  have hstep := h.step
  have hcount := h.stepcount
  have hline : charsPerLine / 4 = 18 := rfl
  have hmod : t % 3 = 0 ∨ t % 3 = 1 ∨ t % 3 = 2 := by omega
  rcases hmod with h0 | h1 | h2
  · rw [if_pos h0] at hstep
    rw [Base64.encodeChar, hstep]
    dsimp only
    refine ⟨⟨?_, ?_⟩, ?_⟩
    · rw [if_neg (by omega), if_pos (by omega)]
    · dsimp only
      omega
    · rw [written, written, length_singleton]
      omega
  · rw [if_neg (by omega), if_pos h1] at hstep
    rw [Base64.encodeChar, hstep]
    dsimp only
    refine ⟨⟨?_, ?_⟩, ?_⟩
    · rw [if_neg (by omega), if_neg (by omega)]
    · dsimp only
      omega
    · rw [written, written, length_singleton]
      omega
  · rw [if_neg (by omega), if_neg (by omega)] at hstep
    rw [Base64.encodeChar, hstep, hline, hcount]
    dsimp only
    split_ifs with hfull
    · refine ⟨⟨?_, ?_⟩, ?_⟩
      · rw [if_pos (by omega)]
      · dsimp only
        omega
      · rw [written, written, length_cons, length_cons, length_singleton]
        omega
    · refine ⟨⟨?_, ?_⟩, ?_⟩
      · rw [if_pos (by omega)]
      · dsimp only
        omega
      · rw [written, written, length_cons, length_singleton]
        omega

theorem Behind.finishText (h : Behind t s) :
    written t + (finishText s).length = encodedLen t := by
  have hmod : t % 3 = 0 ∨ t % 3 = 1 ∨ t % 3 = 2 := by omega
  have hstep := h.step
  rw [Base64.finishText, written, encodedLen]
  rcases hmod with h0 | h1 | h2
  · rw [if_pos h0] at hstep
    rw [hstep]
    simp only [length_cons, length_nil]
    omega
  · rw [if_neg (by omega), if_pos h1] at hstep
    rw [hstep]
    simp only [length_cons, length_nil]
    omega
  · rw [if_neg (by omega), if_neg (by omega)] at hstep
    rw [hstep]
    simp only [length_cons, length_nil]
    omega

theorem Behind.encodeBlock (h : Behind t s) (hi : written t ≤ dest.len) (src : List UInt8) :
    (written (t + src.length) ≤ dest.len →
      ∃ s' d, encodeBlock s src dest (written t) = some (s', d, written (t + src.length)) ∧
        d.len = dest.len ∧ Behind (t + src.length) s') ∧
    (dest.len < written (t + src.length) → encodeBlock s src dest (written t) = none) := by
  induction src generalizing t s dest with
  | nil => exact ⟨fun _ => ⟨s, dest, rfl, rfl, h⟩, fun hlt => absurd hlt (Nat.not_lt.mpr hi)⟩
  | cons c src ih =>
    obtain ⟨hnext, hwritten⟩ := h.encodeChar c
    have hlen : t + (c :: src).length = t + 1 + src.length := by
      rw [length_cons]
      omega
    have hmono : written (t + 1) ≤ written (t + 1 + src.length) := by
      unfold written
      omega
    rw [hlen, Base64.encodeBlock]
    rcases Nat.lt_or_ge dest.len (written (t + 1)) with hlt | hge
    · rw [puts_of_lt hi (hwritten ▸ hlt)]
      exact ⟨fun hle => by omega, fun _ => rfl⟩
    · obtain ⟨d, hrun, hd⟩ := puts_of_le (hwritten ▸ hge)
      rw [hrun, ← hwritten, Option.bind_eq_bind, Option.bind_some]
      obtain ⟨ihle, ihlt⟩ := ih hnext (hd ▸ hge)
      rw [hd] at ihle ihlt
      exact ⟨ihle, ihlt⟩

theorem behind_init : Behind 0 encodeInit := ⟨rfl, rfl⟩

theorem encodeBuf_iff {destlen : Int} (hlen : (dest.len : Int) = max destlen 0)
    (src : List UInt8) : (∃ r, encodeBuf dest destlen src = some r) ↔
      src.length < 2 ^ 30 ∧ (destlen < 2 * src.length ∨
        destlen < 2 ^ 31 - 5 ∧ encodedLen src.length ≤ destlen) := by
  rw [encodeBuf]
  by_cases hsrc : src.length < 2 ^ 30
  swap
  -- twice the length does not fit in an `int`
  · have hint : int (2 * (src.length : Int)) = none := if_neg (by omega)
    rw [hint]
    exact iff_of_false (fun ⟨r, hr⟩ => nomatch hr) fun h => hsrc h.1
  have hint : int (2 * (src.length : Int)) = some (2 * (src.length : Int)) := if_pos (by omega)
  rw [hint, Option.bind_eq_bind, Option.bind_some, and_iff_right hsrc]
  dsimp only
  -- too little room by its own measure is reported
  by_cases hguard : destlen < 2 * src.length
  · rw [if_pos hguard]
    exact iff_of_true ⟨_, rfl⟩ (Or.inl hguard)
  rw [if_neg hguard, or_iff_right hguard]
  have hdest : destlen = dest.len := by omega
  -- but this is less than what is written
  obtain ⟨hle, hlt⟩ := behind_init.encodeBlock (Nat.zero_le dest.len) src
  rw [Nat.zero_add] at hle hlt
  have htotal : written src.length ≤ encodedLen src.length := by
    unfold written encodedLen
    omega
  rcases Nat.lt_or_ge dest.len (written src.length) with hfull | hroom
  · have hnone : encodeBlock encodeInit src dest 0 = none := hlt hfull
    rw [hnone]
    exact iff_of_false (fun ⟨r, hr⟩ => nomatch hr) fun h => by omega
  obtain ⟨s, d, hrun, hd, hs⟩ := hle hroom
  have hsome : encodeBlock encodeInit src dest 0 = some (s, d, written src.length) := hrun
  rw [hsome, Option.bind_eq_bind, Option.bind_some]
  dsimp only
  by_cases hmax : destlen < 2 ^ 31 - 5
  swap
  -- the assertion after the block overflows
  · have hlimit : int (destlen + 5) = none := if_neg (by omega)
    rw [hlimit]
    exact iff_of_false (fun ⟨r, hr⟩ => nomatch hr) fun h => hmax h.1
  have hlimit : int (destlen + 5) = some (destlen + 5) := if_pos (by omega)
  have hassert : ¬ destlen + 5 ≤ (written src.length : Int) := by omega
  rw [hlimit, Option.bind_eq_bind, Option.bind_some, if_neg hassert, and_iff_right hmax,
    encodeFinish]
  have hfinish := hs.finishText
  rcases Nat.lt_or_ge dest.len (encodedLen src.length) with hfull | hroom'
  · rw [puts_of_lt (hd ▸ hroom) (by omega)]
    exact iff_of_false (fun ⟨r, hr⟩ => nomatch hr) fun h => by omega
  · obtain ⟨d', hputs, -⟩ := puts_of_le (show written src.length + (finishText s).length ≤ d.len by
      omega)
    rw [hputs]
    exact iff_of_true ⟨_, rfl⟩ (by omega)

def decoded (t : Nat) : Nat := t - t / 4

structure After (t : Nat) (step : DecodeStep) (plainchar : Nat) : Prop where
  step : step = if t % 4 = 0 then .stepA else if t % 4 = 1 then .stepB
    else if t % 4 = 2 then .stepC else .stepD
  plainchar : plainchar = if t % 4 = 0 then decoded t else decoded t - 1

theorem merge_of_lt (hi : i < dest.len) (x : UInt8) :
    ∃ d, merge dest i x = some (d, i + 1) ∧ d.len = dest.len := by
  rw [merge, Block.read_of_lt hi, Option.bind_eq_bind, Option.bind_some, Block.write_of_lt hi]
  exact ⟨_, rfl, rfl⟩

theorem merge_write (hi : i < dest.len) (x y : UInt8) (step : DecodeStep) :
    (i + 2 ≤ dest.len → ∃ d, (do
        let (dest, plainchar) ← merge dest i x
        let dest ← dest.write plainchar y
        return (step, dest, plainchar)) = some (step, d, i + 1) ∧ d.len = dest.len) ∧
      (dest.len < i + 2 → (do
        let (dest, plainchar) ← merge dest i x
        let dest ← dest.write plainchar y
        return (step, dest, plainchar)) = none) := by
  obtain ⟨d, hd, hlen⟩ := merge_of_lt hi x
  rw [hd, Option.bind_eq_bind, Option.bind_some]
  dsimp only
  constructor
  · intro hle
    rw [Block.write_of_lt (show i + 1 < d.len by omega)]
    exact ⟨_, rfl, hlen⟩
  · intro hlt
    rw [Block.write, if_neg (by omega)]
    rfl

theorem after_middle {step : DecodeStep}
    (hmod : t % 4 = 1 ∧ step = .stepC ∨ t % 4 = 2 ∧ step = .stepD) (hi : i + 1 = decoded t) :
    decoded (t + 1) = i + 2 ∧ After (t + 1) step (i + 1) := by
  have hnext : decoded (t + 1) = i + 2 := by
    unfold decoded at hi ⊢
    omega
  refine ⟨hnext, ?_, ?_⟩
  · rcases hmod with ⟨h1, rfl⟩ | ⟨h2, rfl⟩
    · rw [if_neg (by omega), if_neg (by omega), if_pos (by omega)]
    · rw [if_neg (by omega), if_neg (by omega), if_neg (by omega)]
  · rw [if_neg (by omega)]
    omega

theorem After.decodeChar {step : DecodeStep} (h : After t step i) (ht : decoded t ≤ dest.len)
    (fragment : UInt8) :
    (decoded (t + 1) ≤ dest.len → ∃ step' d i', decodeChar step fragment dest i =
        some (step', d, i') ∧ d.len = dest.len ∧ After (t + 1) step' i') ∧
      (dest.len < decoded (t + 1) → decodeChar step fragment dest i = none) := by
  obtain ⟨hstep, hi⟩ := h
  have hmod : t % 4 = 0 ∨ t % 4 = 1 ∨ t % 4 = 2 ∨ t % 4 = 3 := by omega
  rcases hmod with h0 | h1 | h2 | h3
  -- the first character of four begins a byte
  · rw [if_pos h0] at hstep hi
    have hnext : decoded (t + 1) = i + 1 := by
      unfold decoded at hi ⊢
      omega
    rw [hstep, Base64.decodeChar, hnext]
    refine ⟨fun hle => ?_, fun hlt => ?_⟩
    · rw [Block.write_of_lt (show i < dest.len by omega)]
      refine ⟨_, _, _, rfl, rfl, ?_, ?_⟩
      · rw [if_neg (by omega), if_pos (by omega)]
      · rw [if_neg (by omega)]
        omega
    · rw [Block.write, if_neg (by omega)]
      rfl
  -- the second and the third end one and begin the next
  · rw [if_neg (by omega), if_pos h1] at hstep
    rw [if_neg (by omega)] at hi
    have hi' : i + 1 = decoded t := by
      unfold decoded at *
      omega
    obtain ⟨hnext, hafter⟩ := after_middle (.inl ⟨h1, rfl⟩) hi'
    obtain ⟨hroom, hfull⟩ := merge_write (show i < dest.len by omega) _ _ .stepC
    rw [hstep, Base64.decodeChar, hnext]
    refine ⟨fun hle => ?_, hfull⟩
    obtain ⟨d, hd, hlen⟩ := hroom hle
    exact ⟨_, d, _, hd, hlen, hafter⟩
  · rw [if_neg (by omega), if_neg (by omega), if_pos h2] at hstep
    rw [if_neg (by omega)] at hi
    have hi' : i + 1 = decoded t := by
      unfold decoded at *
      omega
    obtain ⟨hnext, hafter⟩ := after_middle (.inr ⟨h2, rfl⟩) hi'
    obtain ⟨hroom, hfull⟩ := merge_write (show i < dest.len by omega) _ _ .stepD
    rw [hstep, Base64.decodeChar, hnext]
    refine ⟨fun hle => ?_, hfull⟩
    obtain ⟨d, hd, hlen⟩ := hroom hle
    exact ⟨_, d, _, hd, hlen, hafter⟩
  -- the last one ends a byte
  · rw [if_neg (by omega), if_neg (by omega), if_neg (by omega)] at hstep
    rw [if_neg (by omega)] at hi
    have hnext : decoded (t + 1) = i + 1 := by
      unfold decoded at hi ⊢
      omega
    have hlt : i < dest.len := by
      unfold decoded at *
      omega
    obtain ⟨d, hd, hlen⟩ := merge_of_lt hlt (fragment &&& 0x3f)
    rw [hstep, Base64.decodeChar]
    dsimp only
    rw [hd, Option.bind_eq_bind, Option.bind_some]
    refine ⟨fun _ => ⟨_, _, _, rfl, hlen, ?_, ?_⟩, fun hlt => ?_⟩
    · rw [if_pos (by omega)]
    · rw [if_pos (by omega)]
      exact hnext.symm
    · unfold decoded at *
      omega

theorem After.decodeFrom {step : DecodeStep} (h : After t step i) (ht : decoded t ≤ dest.len)
    (past : Int) (code : List UInt8) :
    (∃ r, decodeFrom past step code dest i = some r) ↔
      decoded (t + digits past code) ≤ dest.len := by
  induction code generalizing t step dest i with
  | nil => exact iff_of_true ⟨_, rfl⟩ ht
  | cons c code ih =>
    rw [Base64.decodeFrom, digits, filter_cons]
    by_cases hneg : decodeValue past c < 0
    · rw [if_pos hneg, if_neg (by simpa using hneg), ← digits]
      exact ih h ht
    · rw [if_neg hneg, if_pos (by simpa using hneg), length_cons, ← digits]
      dsimp only
      have hadd : t + (digits past code + 1) = t + 1 + digits past code := by omega
      have hmono : decoded (t + 1) ≤ decoded (t + 1 + digits past code) := by
        unfold decoded
        omega
      rw [hadd]
      obtain ⟨hle, hlt⟩ := h.decodeChar ht (UInt8.ofNat (decodeValue past c).toNat)
      rcases Nat.lt_or_ge dest.len (decoded (t + 1)) with hfull | hroom
      · rw [hlt hfull]
        exact iff_of_false (by rintro ⟨r, hr⟩; cases hr) (by omega)
      · obtain ⟨step', d, i', hrun, hd, hnext⟩ := hle hroom
        rw [hrun, Option.bind_eq_bind, Option.bind_some]
        dsimp only
        rw [← hd] at hroom ⊢
        exact ih hnext hroom

theorem After.decodeBlock {step : DecodeStep} (h : After t step i) (ht : decoded t ≤ dest.len)
    (past : Int) (code : List UInt8) :
    (∃ r, decodeBlock past step code dest i = some r) ↔
      decoded (t + digits past code) ≤ dest.len := by
  rw [← h.decodeFrom ht, Base64.decodeBlock]
  constructor
  · rintro ⟨r, hr⟩
    obtain ⟨x, hx, -⟩ := Option.bind_eq_some_iff.mp hr
    exact ⟨x, hx⟩
  · rintro ⟨x, hx⟩
    rw [hx]
    exact ⟨_, rfl⟩

theorem decodeBuf_iff {past destlen : Int} (hlen : (dest.len : Int) = max destlen 0)
    (src : List UInt8) : (∃ r, decodeBuf past dest destlen src = some r) ↔
      destlen < (src.length : Int) / 2 ∨ max 1 (decoded (digits past src)) ≤ destlen := by
  rw [decodeBuf]
  by_cases hguard : destlen < (src.length : Int) / 2
  · rw [if_pos hguard]
    exact iff_of_true ⟨_, rfl⟩ (Or.inl hguard)
  rw [if_neg hguard, or_iff_right hguard]
  have hdest : destlen = dest.len := by omega
  rcases Nat.eq_zero_or_pos dest.len with hzero | hpos
  · rw [Block.write, if_neg (by omega)]
    exact iff_of_false (by rintro ⟨r, hr⟩; cases hr) (by omega)
  · rw [Block.write_of_lt hpos, Option.bind_eq_bind, Option.bind_some]
    have hstart : After 0 .stepA 0 := ⟨rfl, rfl⟩
    have hfit : (∃ r, decodeBlock past .stepA src
        { dest with cells := Function.update dest.cells 0 0 } 0 = some r) ↔
          max 1 (decoded (digits past src)) ≤ destlen := by
      rw [hstart.decodeBlock (Nat.zero_le _), Nat.zero_add]
      dsimp only
      omega
    rw [← hfit]
    constructor
    · rintro ⟨r, hr⟩
      obtain ⟨x, hx, -⟩ := Option.bind_eq_some_iff.mp hr
      exact ⟨x, hx⟩
    · rintro ⟨r, hr⟩
      rw [hr]
      exact ⟨_, rfl⟩

/-- Ten bytes are stored for four, where eight are promised. -/
theorem encodeBuf_outside : ¬ EncodeInside 8 [0x61, 0x62, 0x63, 0x64] := by
  intro h
  have hlen : ((⟨8, fun _ => 0⟩ : Block UInt8).len : Int) = max 8 0 := rfl
  exact absurd ((encodeBuf_iff hlen _).mp (h fun _ => 0)) (by decide)

/-- Neither function stores anything outside the destination exactly if its length is refused or
has room for all that is stored. -/
theorem base64_inside_iff (past destlen : Int) (src : List UInt8) :
    (EncodeInside destlen src ↔ src.length < 2 ^ 30 ∧ (destlen < 2 * src.length ∨
      destlen < 2 ^ 31 - 5 ∧ encodedLen src.length ≤ destlen)) ∧
    (DecodeInside past destlen src ↔
      destlen < (src.length : Int) / 2 ∨ max 1 (decoded (digits past src)) ≤ destlen) := by
  have hlen : ∀ cells : Nat → UInt8, ((⟨destlen.toNat, cells⟩ : Block UInt8).len : Int) =
      max destlen 0 := fun _ => Int.toNat_eq_max destlen
  constructor
  · constructor
    · exact fun h => (encodeBuf_iff (hlen fun _ => 0) src).mp (h fun _ => 0)
    · exact fun h cells => (encodeBuf_iff (hlen cells) src).mpr h
  · constructor
    · exact fun h => (decodeBuf_iff (hlen fun _ => 0) src).mp (h fun _ => 0)
    · exact fun h cells => (decodeBuf_iff (hlen cells) src).mpr h

end PortableLib.Base64
