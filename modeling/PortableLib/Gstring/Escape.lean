import Mathlib.Data.Nat.Bitwise
import PortableLib.Gstring.Gstr

/-! Escaping the characters of a set and taking the escapes out again: `escape.c`, `unescape.c` and
the bit vector of `bits.h`. `gstr_escape` builds its result by appending characters, so the string
it writes is a list here; `gstr_unescape` works in place, on a block. An `int` is its bit
pattern. -/

namespace PortableLib.Gstring.Escape
open List

/-- A `char` used as an `int`. -/
def ofChar (c : UInt8) : UInt32 := if c < 0x80 then c.toUInt32 else c.toUInt32 + 0xFFFFFF00

def bitp (c : UInt32) : UInt32 := 1 <<< (c % 32)

def isDelim (d : Block UInt32) (c : UInt32) : Option Bool := do
  let w ← d.read (c / 32).toNat
  return w &&& bitp c ≠ 0

def addDelim (d : Block UInt32) (c : UInt32) : Option (Block UInt32) := do
  let w ← d.read (c / 32).toNat
  d.write (c / 32).toNat (w ||| bitp c)

/-- `snprintf(buf, sizeof buf, "%c0%3.3o", esc_char, c)` for a `buf` of 8 bytes. -/
def numeric (escChar c : UInt32) : List UInt8 :=
  (escChar.toUInt8 :: 0x30 :: ((Nat.toDigits 8 c.toNat).map Char.toUInt8).leftpad 3 0x30).take 7

/-- The letters for `\a`, `\b`, `\f`, `\n`, `\r`, `\t` and `\v`. -/
def mnemonic : UInt8 → Option UInt8
  | 0x07 => some 0x61
  | 0x08 => some 0x62
  | 0x0c => some 0x66
  | 0x0a => some 0x6e
  | 0x0d => some 0x72
  | 0x09 => some 0x74
  | 0x0b => some 0x76
  | _ => none

/-- What the loop of `gstr_escape` appends for `c`. -/
def escapeChar (d : Block UInt32) (escChar : UInt32) (c : UInt8) : Option (List UInt8) :=
  if ofChar c = escChar then some [c, c]
  else do
    if ← isDelim d (ofChar c) then
      match mnemonic c with
      | some m => return [escChar.toUInt8, m]
      | none => return escChar.toUInt8 :: (numeric escChar (ofChar c)).takeWhile (· ≠ 0)
    else return [c]

def escapeLoop (d : Block UInt32) (escChar : UInt32) : List UInt8 → Option (List UInt8)
  | [] => some []
  | c :: src => do
    let s ← escapeChar d escChar c
    let rest ← escapeLoop d escChar src
    return s ++ rest

def gstrEscape (g escset : List UInt8) (escChar : UInt32) : Option (List UInt8) := do
  let d ← escset.foldlM (fun d c => addDelim d (ofChar c)) ⟨8, fun _ => 0⟩
  if ← isDelim d escChar then none
  else escapeLoop d escChar g

def extract (digit : UInt8 → Option Nat) (base : Nat) (b : Block UInt8) :
    Nat → Nat → Nat → Option (UInt8 × Nat)
  | 0, ptr, val => some (UInt8.ofNat val, ptr)
  | n + 1, ptr, val => do
    match digit (← b.read ptr) with
    | some z => extract digit base b n (ptr + 1) (val * base + z)
    | none => return (UInt8.ofNat val, ptr)

def extractOctal (b : Block UInt8) (ptr : Nat) : Option (UInt8 × Nat) :=
  extract (fun c => if 0x30 ≤ c ∧ c ≤ 0x37 then some (c - 0x30).toNat else none) 8 b 3 ptr 0

def isdigit (c : UInt8) : Bool := 0x30 ≤ c && c ≤ 0x39

def extractDecimal (b : Block UInt8) (ptr : Nat) : Option (UInt8 × Nat) :=
  extract (fun c => if isdigit c then some (c - 0x30).toNat else none) 10 b 3 ptr 0

def extractHex (b : Block UInt8) (ptr : Nat) : Option (UInt8 × Nat) :=
  extract (fun c =>
    if 0x30 ≤ c ∧ c ≤ 0x39 then some (c - 0x30).toNat
    else if 0x61 ≤ c ∧ c ≤ 0x66 then some (c - 0x61).toNat
    else if 0x41 ≤ c ∧ c ≤ 0x46 then some (c - 0x41).toNat
    else none) 16 b 2 ptr 0

/-- The escapes of one letter that `parse_esc` knows. -/
def control : UInt8 → Option UInt8
  | 0x61 => some 0x07
  | 0x62 => some 0x08
  | 0x65 => some 0x1b
  | 0x45 => some 0x1b
  | 0x66 => some 0x0c
  | 0x6e => some 0x0a
  | 0x72 => some 0x0d
  | 0x74 => some 0x09
  | 0x76 => some 0x0b
  | _ => none

/-- The character that the escape at `src` stands for and where the escape ends; the extractors
never return a null pointer. -/
def escaped (b : Block UInt8) (src : Nat) (escChar : UInt32) : Option (UInt8 × Nat) := do
  let c ← b.read src
  match control c with
  | some v => return (v, src + 1)
  | none =>
    if c = 0 then return (escChar.toUInt8, src + 1)
    else if c = 0x30 then extractOctal b (src + 1)
    else if c = 0x78 then extractHex b (src + 1)
    else if isdigit c then extractDecimal b src
    else return (c, src + 1)

def parseEsc (b : Block UInt8) (out src : Nat) (escChar : UInt32) :
    Option (Block UInt8 × Nat × Nat) := do
  let (v, ptr) ← escaped b src escChar
  let b ← b.write out v
  return (b, ptr, out + 1)

def unescapeLoop (escChar : UInt32) (len : Nat) :
    Nat → Block UInt8 → Nat → Nat → Option (Block UInt8 × Nat)
  | 0, _, _, _ => none
  | fuel + 1, b, ptr, out =>
    if ptr < len then do
      let c ← b.read ptr
      if c = 0 then none
      else if ofChar c = escChar then
        let (b, ptr, out) ← parseEsc b out (ptr + 1) escChar
        unescapeLoop escChar len fuel b ptr out
      else
        let b ← b.write out c
        unescapeLoop escChar len fuel b (ptr + 1) (out + 1)
    else some (b, out)

def gstrUnescape (str : Block UInt8) (len : Nat) (escChar : UInt32) :
    Option (Block UInt8 × Nat) := do
  let (b, out) ← unescapeLoop escChar len (len + 1) str 0 0
  let b ← b.write out 0
  return (b, out)

/-- `l` and a terminator at the start of a block. -/
structure Stored (b : Block UInt8) (l : List UInt8) : Prop where
  room : l.length < b.len
  cells : ∀ i ≤ l.length, b.cells i = l.getD i 0

/-- Taking the escapes out of the escaped string, in whatever block it is, gives the string back. -/
def RoundTrips (l escset : List UInt8) (escChar : UInt32) : Prop :=
  ∃ s, gstrEscape l escset escChar = some s ∧ ∀ b, Stored b s →
    ∃ b', gstrUnescape b s.length escChar = some (b', l.length) ∧ Stored b' l

def isalnum (c : UInt32) : Prop :=
  (0x30 ≤ c ∧ c ≤ 0x39) ∨ (0x41 ≤ c ∧ c ≤ 0x5a) ∨ (0x61 ≤ c ∧ c ≤ 0x7a)

/-- Only ASCII, an escape character in the range of the bit vector, and nothing to escape but the
characters with a letter of their own, by an ASCII escape character other than NUL. -/
def Benign (l escset : List UInt8) (escChar : UInt32) : Prop :=
  (∀ c ∈ escset, c < 0x80) ∧ (∀ c ∈ l, c < 0x80) ∧ escChar.toNat < 256 ∧
    ∀ c ∈ l, c ∈ escset → (mnemonic c).isSome ∧ 0 < escChar.toNat ∧ escChar.toNat < 0x80

/-! ## The set -/

theorem ofChar_of_lt {c : UInt8} (h : c < 0x80) : (ofChar c).toNat = c.toNat := by
  rw [ofChar, if_pos h, UInt8.toNat_toUInt32]

theorem ofChar_of_not_lt {c : UInt8} (h : ¬c < 0x80) : (ofChar c).toNat = c.toNat + 0xFFFFFF00 := by
  have hc := c.toNat_lt
  rw [ofChar, if_neg h, UInt32.toNat_add, UInt8.toNat_toUInt32,
    show (0xFFFFFF00 : UInt32).toNat = 0xFFFFFF00 from rfl]
  omega

theorem ofChar_injective {c c' : UInt8} (h : ofChar c = ofChar c') : c = c' := by
  have hlow : ∀ x, (ofChar x).toNat % 256 = x.toNat := by
    intro x
    have hx := x.toNat_lt
    by_cases hlt : x < 0x80
    · rw [ofChar_of_lt hlt]
      omega
    · rw [ofChar_of_not_lt hlt]
      omega
  rw [← UInt8.toNat_inj, ← hlow c, ← hlow c', h]

theorem toNat_word (c : UInt32) : (c / 32).toNat = c.toNat / 32 := UInt32.toNat_div c 32

theorem toNat_bitp (c : UInt32) : (bitp c).toNat = 2 ^ (c.toNat % 32) := by
  have hlt : c.toNat % 32 < 32 := Nat.mod_lt _ (by decide)
  have hpow : 2 ^ (c.toNat % 32) < 2 ^ 32 := Nat.pow_lt_pow_right (by decide) hlt
  rw [bitp, UInt32.toNat_shiftLeft, UInt32.toNat_mod, show (32 : UInt32).toNat = 32 from rfl,
    show (1 : UInt32).toNat = 1 from rfl, Nat.mod_mod, Nat.one_shiftLeft, Nat.mod_eq_of_lt hpow]

theorem and_bitp_ne_zero (w c : UInt32) :
    w &&& bitp c ≠ 0 ↔ w.toNat.testBit (c.toNat % 32) = true := by
  rw [Ne, ← UInt32.toNat_inj, UInt32.toNat_and, toNat_bitp, Nat.and_two_pow,
    show (0 : UInt32).toNat = 0 from rfl]
  cases w.toNat.testBit (c.toNat % 32) with
  | false => simp only [Bool.toNat_false, Nat.zero_mul, not_true_eq_false, Bool.false_eq_true]
  | true =>
    have hpos : 2 ^ (c.toNat % 32) ≠ 0 := (Nat.two_pow_pos _).ne'
    simp only [Bool.toNat_true, Nat.one_mul, hpos, not_false_eq_true]

structure Delims (d : Block UInt32) (l : List UInt8) : Prop where
  len_eq : d.len = 8
  bit : ∀ x : UInt32, x.toNat < 256 →
    (d.cells (x.toNat / 32) &&& bitp x ≠ 0 ↔ ∃ c ∈ l, ofChar c = x)

variable {d : Block UInt32} {l s t : List UInt8} {esc x : UInt32}

theorem isDelim_spec (h : Delims d l) (hx : x.toNat < 256) :
    isDelim d x = some (decide (∃ c ∈ l, ofChar c = x)) := by
  have hword : x.toNat / 32 < d.len := by
    rw [h.len_eq]
    omega
  rw [isDelim, toNat_word, Block.read_of_lt hword]
  simp only [Option.bind_eq_bind, Option.bind_some, h.bit x hx]
  rfl

theorem isDelim_eq_none (h : Delims d l) (hx : ¬x.toNat < 256) : isDelim d x = none := by
  have hword : ¬x.toNat / 32 < d.len := by
    rw [h.len_eq]
    omega
  rw [isDelim, toNat_word, Block.read, if_neg hword]
  rfl

theorem addDelim_spec (h : Delims d l) {c : UInt8} (hc : c < 0x80) :
    ∃ d', addDelim d (ofChar c) = some d' ∧ Delims d' (l ++ [c]) := by
  have hx := ofChar_of_lt hc
  have hc' : c.toNat < 0x80 := UInt8.lt_iff_toNat_lt.mp hc
  have hword : (ofChar c).toNat / 32 < d.len := by
    rw [h.len_eq, hx]
    omega
  refine ⟨⟨d.len, Function.update d.cells ((ofChar c).toNat / 32)
    (d.cells ((ofChar c).toNat / 32) ||| bitp (ofChar c))⟩, ?_, h.len_eq, ?_⟩
  · rw [addDelim, toNat_word, Block.read_of_lt hword]
    exact Block.write_of_lt hword _
  intro x hx'
  have hmem : (∃ c' ∈ l ++ [c], ofChar c' = x) ↔ (∃ c' ∈ l, ofChar c' = x) ∨ ofChar c = x := by
    simp only [mem_append, mem_singleton, or_and_right, exists_or, exists_eq_left]
  rw [hmem, ← h.bit x hx', and_bitp_ne_zero, and_bitp_ne_zero]
  dsimp only
  by_cases hw : x.toNat / 32 = (ofChar c).toNat / 32
  · -- two characters in one word are the same exactly if their bits are
    have heq : (ofChar c).toNat % 32 = x.toNat % 32 ↔ ofChar c = x := by
      rw [← UInt32.toNat_inj]
      omega
    rw [hw, Function.update_self, UInt32.toNat_or, toNat_bitp, Nat.testBit_or,
      Nat.testBit_two_pow, Bool.or_eq_true, decide_eq_true_iff, heq]
  · have hne : ¬ofChar c = x := fun h0 => hw (h0 ▸ rfl)
    rw [Function.update_of_ne hw, or_iff_left hne]

theorem addDelim_eq_none (h : Delims d l) {c : UInt8} (hc : ¬c < 0x80) :
    addDelim d (ofChar c) = none := by
  have hword : ¬(ofChar c).toNat / 32 < d.len := by
    rw [h.len_eq, ofChar_of_not_lt hc]
    omega
  rw [addDelim, toNat_word, Block.read, if_neg hword]
  rfl

theorem delims_spec (h : Delims d l) (hs : ∀ c ∈ s, c < 0x80) :
    ∃ d', s.foldlM (fun d c => addDelim d (ofChar c)) d = some d' ∧ Delims d' (l ++ s) := by
  induction s generalizing d l with
  | nil => exact ⟨d, rfl, (append_nil l).symm ▸ h⟩
  | cons c s ih =>
    obtain ⟨d₁, hd₁, h₁⟩ := addDelim_spec h (hs c mem_cons_self)
    obtain ⟨d₂, hd₂, h₂⟩ := ih h₁ fun c' hc' => hs c' (mem_cons_of_mem _ hc')
    rw [append_assoc, singleton_append] at h₂
    refine ⟨d₂, ?_, h₂⟩
    rw [foldlM_cons, hd₁]
    exact hd₂

theorem delims_eq_none (h : Delims d l) (hs : ∃ c ∈ s, ¬c < 0x80) :
    s.foldlM (fun d c => addDelim d (ofChar c)) d = none := by
  induction s generalizing d l with
  | nil =>
    obtain ⟨c, hc, -⟩ := hs
    cases hc
  | cons c s ih =>
    rw [foldlM_cons]
    by_cases hc : c < 0x80
    · obtain ⟨d₁, hd₁, h₁⟩ := addDelim_spec h hc
      rw [hd₁]
      apply ih h₁
      obtain ⟨c', hc', hge⟩ := hs
      exact ⟨c', (mem_cons.mp hc').resolve_left fun heq => hge (heq ▸ hc), hge⟩
    · rw [addDelim_eq_none h hc]
      rfl

theorem delims_empty : Delims ⟨8, fun _ => 0⟩ [] where
  len_eq := rfl
  bit x _ := by
    rw [and_bitp_ne_zero]
    simp only [show (0 : UInt32).toNat = 0 from rfl, Nat.zero_testBit, Bool.false_eq_true,
      not_mem_nil, false_and, exists_false]

/-! ## Taking escapes out -/

def Literal (c : UInt8) : Prop :=
  c ≠ 0 ∧ control c = none ∧ c ≠ 0x30 ∧ c ≠ 0x78 ∧ isdigit c = false

inductive Decodes (esc : UInt32) : List UInt8 → List UInt8 → Prop
  | nil : Decodes esc [] []
  | plain {c : UInt8} {s t : List UInt8} (h0 : c ≠ 0) (hne : ofChar c ≠ esc)
      (h : Decodes esc s t) : Decodes esc (c :: s) (c :: t)
  | pair {e c v : UInt8} {s t : List UInt8} (h0 : e ≠ 0) (he : ofChar e = esc)
      (hv : control c = some v ∨ c = v ∧ Literal c) (h : Decodes esc s t) :
      Decodes esc (e :: c :: s) (v :: t)

theorem Decodes.append {s' t' : List UInt8} (h : Decodes esc s t) (h' : Decodes esc s' t') :
    Decodes esc (s ++ s') (t ++ t') := by
  induction h with
  | nil => exact h'
  | plain h0 hne _ ih => exact .plain h0 hne ih
  | pair h0 he hv _ ih => exact .pair h0 he hv ih

theorem Decodes.self (h : ∀ c ∈ s, c ≠ 0 ∧ ofChar c ≠ esc) : Decodes esc s s := by
  induction s with
  | nil => exact .nil
  | cons c s ih =>
    have hc := h c mem_cons_self
    exact .plain hc.1 hc.2 (ih fun x hx => h x (mem_cons_of_mem _ hx))

variable {b : Block UInt8} {len ptr : Nat} {r : List UInt8}

structure InPlace (b : Block UInt8) (t s : List UInt8) (ptr : Nat) : Prop where
  behind : t.length ≤ ptr
  room : ptr + s.length < b.len
  done : ∀ i < t.length, b.cells i = t.getD i 0
  rest : ∀ i < s.length, b.cells (ptr + i) = s.getD i 0

theorem InPlace.advance {k : Nat} (h : InPlace b t (r ++ s) ptr) (hk : r.length = k) (hpos : 0 < k)
    (v : UInt8) :
    InPlace ⟨b.len, Function.update b.cells t.length v⟩ (t ++ [v]) s (ptr + k) := by
  have hbehind := h.behind
  have hroom := h.room
  rw [length_append, hk] at hroom
  refine ⟨?_, ?_, ?_, ?_⟩
  · rw [length_append, length_singleton]
    omega
  · change ptr + k + s.length < b.len
    omega
  · intro i hi
    rw [length_append, length_singleton] at hi
    dsimp only
    rcases (Nat.lt_succ_iff.mp hi).lt_or_eq with hlt | rfl
    · rw [Function.update_of_ne hlt.ne, h.done i hlt, getD_append _ _ _ _ hlt]
    · rw [Function.update_self, getD_append_right _ _ _ _ (Nat.le_refl _), Nat.sub_self]
      rfl
  · intro i hi
    have hne : ptr + k + i ≠ t.length := by omega
    have hrest := h.rest (k + i) (by rw [length_append, hk]; omega)
    dsimp only
    rw [Function.update_of_ne hne, Nat.add_assoc, hrest,
      getD_append_right _ _ _ _ (by rw [hk]; exact Nat.le_add_right k i), hk,
      Nat.add_sub_cancel_left]

theorem InPlace.read {c : UInt8} (h : InPlace b t (c :: s) ptr) : b.read ptr = some c := by
  have hroom := h.room
  rw [Block.read_of_lt (by omega)]
  exact congrArg some (h.rest 0 (Nat.succ_pos _))

theorem InPlace.read_second {e c : UInt8} (h : InPlace b t (e :: c :: s) ptr) :
    b.read (ptr + 1) = some c := by
  have hroom := h.room
  rw [length_cons, length_cons] at hroom
  rw [Block.read_of_lt (by omega)]
  exact congrArg some (h.rest 1 (by rw [length_cons, length_cons]; omega))

theorem escaped_spec {c v : UInt8} {src : Nat} (hread : b.read src = some c)
    (hv : control c = some v ∨ c = v ∧ Literal c) : escaped b src esc = some (v, src + 1) := by
  rw [escaped, hread]
  rcases hv with hv | ⟨rfl, h0, hctl, hoct, hhex, hdig⟩
  · simp only [Option.bind_eq_bind, Option.bind_some, hv]
    rfl
  · simp only [Option.bind_eq_bind, Option.bind_some, hctl, if_neg h0, if_neg hoct, if_neg hhex,
      hdig, Bool.false_eq_true, if_false]
    rfl

theorem unescapeLoop_decodes (h : Decodes esc s t) {t₀ : List UInt8}
    (hb : InPlace b t₀ (s ++ r) ptr) (hlen : len = ptr + (s ++ r).length) :
    ∃ b' k, k ≤ s.length ∧ InPlace b' (t₀ ++ t) r (ptr + s.length) ∧ ∀ fuel,
      unescapeLoop esc len (fuel + k) b ptr t₀.length =
        unescapeLoop esc len fuel b' (ptr + s.length) (t₀ ++ t).length := by
  induction h generalizing b t₀ ptr with
  | nil =>
    refine ⟨b, 0, Nat.le_refl _, ?_, fun fuel => ?_⟩
    · rw [append_nil]
      exact hb
    · rw [append_nil]
      rfl
  -- one round moves a character or a pair, and writes one character
  | @plain c s t h0 hne _ ih =>
    rw [cons_append] at hb hlen
    rw [length_cons] at hlen
    have hnext := hb.advance (r := [c]) (k := 1) rfl Nat.one_pos c
    have hwrite := Block.write_of_lt
      (show t₀.length < b.len from hb.behind.trans_lt (by have := hb.room; omega)) c
    obtain ⟨b', k, hk, hin, hrun⟩ := ih hnext (by omega)
    rw [append_assoc, singleton_append] at hin hrun
    have hsize : ptr + (c :: s).length = ptr + 1 + s.length := by
      rw [length_cons]
      omega
    refine ⟨b', k + 1, Nat.succ_le_succ hk, ?_, fun fuel => ?_⟩
    · rw [hsize]
      exact hin
    · rw [hsize, ← hrun fuel, ← Nat.add_assoc, unescapeLoop, if_pos (by omega), hb.read]
      simp only [Option.bind_eq_bind, Option.bind_some, if_neg h0, if_neg hne, hwrite,
        length_append, length_singleton]
  | @pair e c v s t h0 he hv _ ih =>
    rw [cons_append, cons_append] at hb hlen
    rw [length_cons, length_cons] at hlen
    have hnext := hb.advance (r := [e, c]) (k := 2) rfl Nat.two_pos v
    have hwrite := Block.write_of_lt
      (show t₀.length < b.len from hb.behind.trans_lt (by have := hb.room; omega)) v
    obtain ⟨b', k, hk, hin, hrun⟩ := ih hnext (by omega)
    rw [append_assoc, singleton_append] at hin hrun
    have hsize : ptr + (e :: c :: s).length = ptr + 2 + s.length := by
      rw [length_cons, length_cons]
      omega
    refine ⟨b', k + 1, ?_, ?_, fun fuel => ?_⟩
    · rw [length_cons, length_cons]
      omega
    · rw [hsize]
      exact hin
    · rw [hsize, ← hrun fuel, ← Nat.add_assoc, unescapeLoop, if_pos (by omega), hb.read]
      simp only [Option.bind_eq_bind, Option.bind_some, if_neg h0, if_pos he, parseEsc,
        escaped_spec hb.read_second hv, hwrite, length_append, length_singleton]
      rfl

theorem Stored.inPlace (h : Stored b s) : InPlace b [] s 0 where
  behind := Nat.le_refl 0
  room := (Nat.zero_add _).symm ▸ h.room
  done i hi := absurd hi (Nat.not_lt_zero i)
  rest i hi := by
    rw [Nat.zero_add]
    exact h.cells i hi.le

theorem gstrUnescape_spec (h : Decodes esc s t) (hb : Stored b s) :
    ∃ b', gstrUnescape b s.length esc = some (b', t.length) ∧ Stored b' t := by
  have hin := hb.inPlace
  rw [← append_nil s] at hin
  obtain ⟨b', k, hk, hin', hrun⟩ := unescapeLoop_decodes h hin
    (show s.length = 0 + (s ++ []).length by rw [append_nil, Nat.zero_add])
  rw [nil_append, Nat.zero_add] at hin' hrun
  have hfuel : s.length + 1 = s.length - k + 1 + k := by omega
  have hloop : unescapeLoop esc s.length (s.length + 1) b 0 0 = some (b', t.length) := by
    rw [hfuel]
    exact (hrun (s.length - k + 1)).trans (by rw [unescapeLoop, if_neg (Nat.lt_irrefl _)])
  have hroom : t.length < b'.len := hin'.behind.trans_lt hin'.room
  refine ⟨⟨b'.len, Function.update b'.cells t.length 0⟩, ?_, hroom, fun i hi => ?_⟩
  · rw [gstrUnescape, hloop]
    simp only [Option.bind_eq_bind, Option.bind_some, Block.write_of_lt hroom]
    rfl
  · rcases hi.lt_or_eq with hlt | rfl
    · exact (Function.update_of_ne hlt.ne _ _).trans (hin'.done i hlt)
    · exact (Function.update_self _ _ _).trans (getD_eq_default t 0 (Nat.le_refl _)).symm

theorem gstrUnescape_nul (h : Decodes esc s t) (hb : Stored b (s ++ 0 :: r)) :
    gstrUnescape b (s ++ 0 :: r).length esc = none := by
  obtain ⟨b', k, hk, hin, hrun⟩ := unescapeLoop_decodes h hb.inPlace (Nat.zero_add _).symm
  rw [nil_append, Nat.zero_add] at hin hrun
  have hlen : (s ++ 0 :: r).length = s.length + (r.length + 1) := length_append
  have hfuel : (s ++ 0 :: r).length + 1 = (s ++ 0 :: r).length - k + 1 + k := by omega
  have hloop : unescapeLoop esc (s ++ 0 :: r).length ((s ++ 0 :: r).length + 1) b 0 0 = none := by
    rw [hfuel]
    refine (hrun _).trans ?_
    rw [unescapeLoop, if_pos (by omega), hin.read]
    rfl
  rw [gstrUnescape, hloop]
  rfl

/-! ## Putting escapes in -/

theorem octal_digits : ∀ n < 128,
    (((Nat.toDigits 8 n).map Char.toUInt8).leftpad 3 0x30).length = 3 ∧
      (((Nat.toDigits 8 n).map Char.toUInt8).leftpad 3 0x30).all fun x =>
        decide (0x30 ≤ x ∧ x ≤ 0x37) := by
  decide

theorem numeric_spec (esc : UInt32) {c : UInt8} (hc : c < 0x80) :
    ∃ ds, numeric esc (ofChar c) = esc.toUInt8 :: 0x30 :: ds ∧
      ∀ x ∈ ds, 0x30 ≤ x ∧ x ≤ 0x37 := by
  obtain ⟨hlen, hdig⟩ := octal_digits (ofChar c).toNat
    (by rw [ofChar_of_lt hc]; exact UInt8.lt_iff_toNat_lt.mp hc)
  refine ⟨_, ?_, fun x hx => of_decide_eq_true (all_eq_true.mp hdig x hx)⟩
  rw [numeric]
  apply take_of_length_le
  rw [length_cons, length_cons, hlen]
  decide

theorem mem_delims {c : UInt8} : (∃ c' ∈ l, ofChar c' = ofChar c) ↔ c ∈ l := by
  constructor
  · rintro ⟨c', hc', heq⟩
    exact ofChar_injective heq ▸ hc'
  · exact fun hc => ⟨c, hc, rfl⟩

variable {escset : List UInt8} {c : UInt8}

theorem escapeChar_self (h : ofChar c = esc) : escapeChar d esc c = some [c, c] := if_pos h

theorem isDelim_char (hd : Delims d escset) (hc : c < 0x80) :
    isDelim d (ofChar c) = some (decide (c ∈ escset)) := by
  have hlt : (ofChar c).toNat < 256 := by
    rw [ofChar_of_lt hc]
    exact c.toNat_lt
  rw [isDelim_spec hd hlt, decide_eq_decide.mpr mem_delims]

theorem escapeChar_of_not_mem (hd : Delims d escset) (hc : c < 0x80) (hne : ofChar c ≠ esc)
    (hmem : c ∉ escset) : escapeChar d esc c = some [c] := by
  rw [escapeChar, if_neg hne, isDelim_char hd hc, decide_eq_false hmem]
  rfl

theorem escapeChar_of_mem (hd : Delims d escset) (hc : c < 0x80) (hne : ofChar c ≠ esc)
    (hmem : c ∈ escset) :
    escapeChar d esc c = some (esc.toUInt8 :: (mnemonic c).elim
      ((numeric esc (ofChar c)).takeWhile (· ≠ 0)) fun m => [m]) := by
  rw [escapeChar, if_neg hne, isDelim_char hd hc, decide_eq_true hmem]
  cases mnemonic c with
  | none => rfl
  | some m => rfl

theorem escapeLoop_eq_none (hd : Delims d escset) (hesc : esc.toNat < 256)
    (h : ∃ c ∈ l, ¬c < 0x80) : escapeLoop d esc l = none := by
  induction l with
  | nil =>
    obtain ⟨c, hc, -⟩ := h
    cases hc
  | cons a l ih =>
    by_cases ha : a < 0x80
    · obtain ⟨c, hc, hge⟩ := h
      rw [escapeLoop, ih ⟨c, (mem_cons.mp hc).resolve_left fun heq => hge (heq ▸ ha), hge⟩]
      cases escapeChar d esc a with
      | none => rfl
      | some p => rfl
    · have hbig := ofChar_of_not_lt ha
      have hne : ofChar a ≠ esc := by
        intro heq
        rw [← heq, hbig] at hesc
        omega
      rw [escapeLoop, escapeChar, if_neg hne, isDelim_eq_none hd (by rw [hbig]; omega)]
      rfl

/-- Where the escape of each character can be taken out again, and gives the character exactly if
it is good, the whole string comes back exactly if all its characters are good. -/
theorem escapeLoop_decodes {Good : UInt8 → Prop}
    (h : ∀ c ∈ l, ∃ p q, escapeChar d esc c = some p ∧ Decodes esc p q ∧
      (q = [c] ∧ Good c ∨ 1 < q.length ∧ ¬Good c)) :
    ∃ s t, escapeLoop d esc l = some s ∧ Decodes esc s t ∧ l.length ≤ t.length ∧
      (t = l ↔ ∀ c ∈ l, Good c) := by
  induction l with
  | nil => exact ⟨[], [], rfl, .nil, Nat.le_refl _, iff_of_true rfl fun c hc => by cases hc⟩
  | cons c l ih =>
    obtain ⟨p, q, hp, hpq, hgood⟩ := h c mem_cons_self
    obtain ⟨s, t, hs, hst, hlen, hiff⟩ := ih fun x hx => h x (mem_cons_of_mem _ hx)
    refine ⟨p ++ s, q ++ t, ?_, hpq.append hst, ?_⟩
    · rw [escapeLoop, hp, hs]
      rfl
    rcases hgood with ⟨rfl, hc⟩ | ⟨hlong, hc⟩
    · refine ⟨Nat.succ_le_succ hlen, ?_⟩
      rw [singleton_append, cons.injEq, forall_mem_cons, hiff]
      exact and_congr_left fun _ => iff_of_true rfl hc
    · have hlt : (c :: l).length < (q ++ t).length := by
        rw [length_append, length_cons]
        omega
      refine ⟨hlt.le, iff_of_false ?_ fun hall => hc (hall c mem_cons_self)⟩
      exact fun heq => absurd (congrArg length heq) hlt.ne'

theorem stored_cstr (s : List UInt8) : Stored (cstr s) s where
  room := Nat.lt_succ_self _
  cells _ _ := rfl

theorem Stored.unique (hs : Stored b s) (ht : Stored b t) (hlen : s.length = t.length) : s = t := by
  apply List.ext_getElem hlen
  intro i h₁ h₂
  rw [← getD_eq_getElem s 0 h₁, ← getD_eq_getElem t 0 h₂, ← hs.cells i h₁.le, ← ht.cells i h₂.le]

theorem roundTrips_iff_good {Good : UInt8 → Prop}
    (hloop : gstrEscape l escset esc = escapeLoop d esc l)
    (h : ∀ c ∈ l, ∃ p q, escapeChar d esc c = some p ∧ Decodes esc p q ∧
      (q = [c] ∧ Good c ∨ 1 < q.length ∧ ¬Good c)) :
    RoundTrips l escset esc ↔ ∀ c ∈ l, Good c := by
  obtain ⟨s, t, hs, hst, -, hiff⟩ := escapeLoop_decodes h
  rw [← hiff]
  constructor
  · rintro ⟨s', hs', hback⟩
    rw [hloop, hs] at hs'
    obtain rfl := Option.some.inj hs'
    obtain ⟨b₁, hb₁, hl⟩ := hback _ (stored_cstr s)
    obtain ⟨b₂, hb₂, ht⟩ := gstrUnescape_spec hst (stored_cstr s)
    have heq := Option.some.inj (hb₁.symm.trans hb₂)
    rw [Prod.mk.injEq] at heq
    exact ht.unique (heq.1 ▸ hl) heq.2.symm
  · rintro rfl
    exact ⟨s, hloop.trans hs, fun b hb => gstrUnescape_spec hst hb⟩

set_option maxRecDepth 4000 in
theorem control_of_mnemonic {m : UInt8} (h : mnemonic c = some m) : control m = some c ∧ m ≠ 0 := by
  have hall : ∀ n < 256, (mnemonic (UInt8.ofNat n)).all fun m =>
      decide (control m = some (UInt8.ofNat n) ∧ m ≠ 0) := by
    decide
  have hc := hall c.toNat c.toNat_lt
  rw [UInt8.ofNat_toNat, h, Option.all_some] at hc
  exact of_decide_eq_true hc

theorem literal_of_not_alnum (h0 : 0 < esc.toNat) (hlt : esc.toNat < 0x80) (hal : ¬isalnum esc) :
    Literal esc.toUInt8 := by
  have hall : ∀ n < 0x80, 0 < n ∧ ¬((0x30 ≤ n ∧ n ≤ 0x39) ∨ (0x41 ≤ n ∧ n ≤ 0x5a) ∨
      (0x61 ≤ n ∧ n ≤ 0x7a)) → UInt8.ofNat n ≠ 0 ∧ control (UInt8.ofNat n) = none ∧
        UInt8.ofNat n ≠ 0x30 ∧ UInt8.ofNat n ≠ 0x78 ∧ isdigit (UInt8.ofNat n) = false := by
    decide
  have hesc : UInt8.ofNat esc.toNat = esc.toUInt8 := rfl
  rw [← hesc]
  exact hall esc.toNat hlt ⟨h0, hal⟩

theorem ofChar_toUInt8 (hlt : esc.toNat < 0x80) : ofChar esc.toUInt8 = esc := by
  have hlow : esc.toUInt8.toNat = esc.toNat := by
    rw [UInt32.toNat_toUInt8]
    omega
  rw [← UInt32.toNat_inj, ofChar_of_lt, hlow]
  rw [UInt8.lt_iff_toNat_lt, hlow]
  exact hlt

theorem digit_ne_zero {y : UInt8} (h : 0x30 ≤ y ∧ y ≤ 0x37) : y ≠ 0 := by
  rintro rfl
  exact absurd h.1 (by decide)

theorem takeWhile_numeric {y : UInt8} (hy : y ≠ 0) {ds : List UInt8}
    (hds : ∀ x ∈ ds, 0x30 ≤ x ∧ x ≤ 0x37) :
    (y :: 0x30 :: ds).takeWhile (· ≠ 0) = y :: 0x30 :: ds := by
  apply takeWhile_eq_self_iff.mpr
  intro x hx
  rw [decide_eq_true_iff]
  rcases mem_cons.mp hx with rfl | hx
  · exact hy
  rcases mem_cons.mp hx with rfl | hx
  · decide
  · exact digit_ne_zero (hds x hx)

theorem escapeChar_ascii (hd : Delims d escset) (hin : ∀ c ∈ escset, ofChar c ≠ esc)
    (hal : ¬isalnum esc) (h0 : 0 < esc.toNat) (hlt : esc.toNat < 0x80) (hc : c < 0x80)
    (hc0 : c ≠ 0) :
    ∃ p q, escapeChar d esc c = some p ∧ Decodes esc p q ∧
      (q = [c] ∧ (c ∈ escset → (mnemonic c).isSome) ∨
        1 < q.length ∧ ¬(c ∈ escset → (mnemonic c).isSome)) := by
  have hlit := literal_of_not_alnum h0 hlt hal
  have hesc := ofChar_toUInt8 hlt
  by_cases heq : ofChar c = esc
  · have hce : c = esc.toUInt8 := ofChar_injective (heq.trans hesc.symm)
    refine ⟨[c, c], [c], escapeChar_self heq, .pair hc0 heq (Or.inr ⟨rfl, hce ▸ hlit⟩) .nil, ?_⟩
    exact Or.inl ⟨rfl, fun hmem => absurd heq (hin c hmem)⟩
  by_cases hmem : c ∈ escset
  · rw [escapeChar_of_mem hd hc heq hmem]
    cases hm : mnemonic c with
    | some m =>
      refine ⟨_, [c], rfl, .pair hlit.1 hesc (Or.inl (control_of_mnemonic hm).1) .nil, Or.inl ?_⟩
      exact ⟨rfl, fun _ => rfl⟩
    | none =>
      -- the escape character of the number is read as the character after the first one
      obtain ⟨ds, hnum, hds⟩ := numeric_spec esc hc
      rw [hnum, Option.elim_none, takeWhile_numeric hlit.1 hds]
      have hself : Decodes esc (0x30 :: ds) (0x30 :: ds) := by
        apply Decodes.self
        intro x hx
        have hdig : 0x30 ≤ x ∧ x ≤ 0x37 := by
          rcases mem_cons.mp hx with rfl | hx
          · decide
          · exact hds x hx
        refine ⟨digit_ne_zero hdig, fun hxe => hal (Or.inl ?_)⟩
        have hlow : x.toNat ≤ 0x37 := UInt8.le_iff_toNat_le.mp hdig.2
        have hhigh : 0x30 ≤ x.toNat := UInt8.le_iff_toNat_le.mp hdig.1
        have hxn : esc.toNat = x.toNat := by
          rw [← hxe, ofChar_of_lt (UInt8.lt_iff_toNat_lt.mpr (hlow.trans_lt (by decide)))]
        rw [UInt32.le_iff_toNat_le, UInt32.le_iff_toNat_le, hxn]
        exact ⟨hhigh, hlow.trans (by decide)⟩
      refine ⟨_, esc.toUInt8 :: 0x30 :: ds, rfl, .pair hlit.1 hesc (Or.inr ⟨rfl, hlit⟩) hself, ?_⟩
      refine Or.inr ⟨?_, fun hgood => absurd (hgood hmem) Bool.false_ne_true⟩
      rw [length_cons, length_cons]
      omega
  · refine ⟨[c], [c], escapeChar_of_not_mem hd hc heq hmem, .plain hc0 heq .nil, Or.inl ?_⟩
    exact ⟨rfl, fun h => absurd h hmem⟩

theorem ofChar_ne_of_ge (hge : 0x80 ≤ esc.toNat) (hlt : esc.toNat < 256) (y : UInt8) :
    ofChar y ≠ esc := by
  rintro rfl
  by_cases hy : y < 0x80
  · rw [ofChar_of_lt hy] at hge
    exact absurd (UInt8.lt_iff_toNat_lt.mp hy) (Nat.not_lt.mpr hge)
  · rw [ofChar_of_not_lt hy] at hlt
    omega

theorem escapeChar_high (hd : Delims d escset) (hge : 0x80 ≤ esc.toNat) (hlt : esc.toNat < 256)
    (hc : c < 0x80) (hc0 : c ≠ 0) :
    ∃ p q, escapeChar d esc c = some p ∧ Decodes esc p q ∧
      (q = [c] ∧ c ∉ escset ∨ 1 < q.length ∧ ¬c ∉ escset) := by
  have hne := ofChar_ne_of_ge hge hlt
  have hesc0 : esc.toUInt8 ≠ 0 := by
    rw [Ne, ← UInt8.toNat_inj, UInt32.toNat_toUInt8, Nat.mod_eq_of_lt hlt]
    exact fun h0 => absurd (h0 ▸ hge) (by decide)
  by_cases hmem : c ∈ escset
  · rw [escapeChar_of_mem hd hc (hne c) hmem]
    cases hm : mnemonic c with
    | some m =>
      have hm0 := (control_of_mnemonic hm).2
      refine ⟨_, [esc.toUInt8, m], rfl, .plain hesc0 (hne _) (.plain hm0 (hne m) .nil), Or.inr ?_⟩
      exact ⟨Nat.one_lt_two, not_not_intro hmem⟩
    | none =>
      obtain ⟨ds, hnum, hds⟩ := numeric_spec esc hc
      rw [hnum, Option.elim_none, takeWhile_numeric hesc0 hds]
      have hself : Decodes esc ds ds := Decodes.self fun y hy => ⟨digit_ne_zero (hds y hy), hne y⟩
      refine ⟨_, esc.toUInt8 :: esc.toUInt8 :: 0x30 :: ds, rfl, .plain hesc0 (hne _)
        (.plain hesc0 (hne _) (.plain (by decide) (hne _) hself)), Or.inr ?_⟩
      refine ⟨?_, not_not_intro hmem⟩
      rw [length_cons, length_cons]
      omega
  · exact ⟨[c], [c], escapeChar_of_not_mem hd hc (hne c) hmem, .plain hc0 (hne c) .nil,
      Or.inl ⟨rfl, hmem⟩⟩

theorem ofChar_ne_zero (hc0 : c ≠ 0) : ofChar c ≠ 0 :=
  fun h => hc0 (ofChar_injective (h.trans (show (0 : UInt32) = ofChar 0 from rfl)))

theorem escapeLoop_nul (hd : Delims d escset) (hl : ∀ c ∈ l, c < 0x80) (hl0 : 0 ∉ l)
    (hmem : ∃ c ∈ l, c ∈ escset) :
    escapeLoop d 0 l = none ∨
      ∃ s t r, escapeLoop d 0 l = some (s ++ 0 :: r) ∧ Decodes 0 s t := by
  induction l with
  | nil =>
    obtain ⟨c, hc, -⟩ := hmem
    cases hc
  | cons a l ih =>
    have ha0 : a ≠ 0 := fun h => hl0 (h ▸ mem_cons_self)
    have hne := ofChar_ne_zero ha0
    have ha := hl a mem_cons_self
    rw [escapeLoop]
    by_cases hin : a ∈ escset
    · rw [escapeChar_of_mem hd ha hne hin]
      cases escapeLoop d 0 l with
      | none => exact Or.inl rfl
      | some s => exact Or.inr ⟨[], [], _, rfl, .nil⟩
    · obtain ⟨c, hc, hcs⟩ := hmem
      have htail := ih (fun x hx => hl x (mem_cons_of_mem _ hx))
        (fun h => hl0 (mem_cons_of_mem _ h))
        ⟨c, (mem_cons.mp hc).resolve_left fun heq => hin (heq ▸ hcs), hcs⟩
      rw [escapeChar_of_not_mem hd ha hne hin]
      rcases htail with hnone | ⟨s, t, r, hs, hst⟩
      · rw [hnone]
        exact Or.inl rfl
      · rw [hs]
        exact Or.inr ⟨a :: s, a :: t, r, rfl, .plain ha0 hne hst⟩

theorem not_roundTrips_nul (hd : Delims d escset) (hl : ∀ c ∈ l, c < 0x80) (hl0 : 0 ∉ l)
    (hloop : gstrEscape l escset 0 = escapeLoop d 0 l) (hmem : ∃ c ∈ l, c ∈ escset) :
    ¬RoundTrips l escset 0 := by
  rintro ⟨s', hs', hback⟩
  rw [hloop] at hs'
  rcases escapeLoop_nul hd hl hl0 hmem with hnone | ⟨s, t, r, hs, hst⟩
  · rw [hnone] at hs'
    cases hs'
  · obtain rfl := Option.some.inj (hs.symm.trans hs')
    obtain ⟨b, hb, -⟩ := hback _ (stored_cstr _)
    rw [gstrUnescape_nul hst (stored_cstr _)] at hb
    cases hb

theorem roundTrips_nul_iff (hd : Delims d escset) (hl : ∀ c ∈ l, c < 0x80) (hl0 : 0 ∉ l)
    (hloop : gstrEscape l escset 0 = escapeLoop d 0 l) :
    RoundTrips l escset 0 ↔ ∀ c ∈ l, c ∉ escset := by
  by_cases hmem : ∃ c ∈ l, c ∈ escset
  · obtain ⟨c, hc, hcs⟩ := hmem
    exact iff_of_false (not_roundTrips_nul hd hl hl0 hloop ⟨c, hc, hcs⟩) fun h => h c hc hcs
  · have hnot : ∀ c ∈ l, c ∉ escset := fun c hc hcs => hmem ⟨c, hc, hcs⟩
    apply roundTrips_iff_good hloop
    intro c hc
    have hc0 : c ≠ 0 := fun h => hl0 (h ▸ hc)
    have hne := ofChar_ne_zero hc0
    exact ⟨[c], [c], escapeChar_of_not_mem hd (hl c hc) hne (hnot c hc), .plain hc0 hne .nil,
      Or.inl ⟨rfl, hnot c hc⟩⟩

theorem gstrEscape_eq (hs : ∀ c ∈ escset, c < 0x80) (hin : ∀ c ∈ escset, ofChar c ≠ esc)
    (hlt : esc.toNat < 256) :
    ∃ d, Delims d escset ∧ ∀ l, gstrEscape l escset esc = escapeLoop d esc l := by
  obtain ⟨d, hfold, hd⟩ := delims_spec delims_empty hs
  rw [nil_append] at hd
  refine ⟨d, hd, fun l => ?_⟩
  have hnot : ¬∃ c ∈ escset, ofChar c = esc := fun ⟨c, hc, heq⟩ => hin c hc heq
  rw [gstrEscape, hfold]
  simp only [Option.bind_eq_bind, Option.bind_some, isDelim_spec hd hlt, decide_eq_false hnot,
    Bool.false_eq_true, if_false]

theorem not_roundTrips_of_none (h : gstrEscape l escset esc = none) : ¬RoundTrips l escset esc := by
  rintro ⟨s, hs, -⟩
  rw [h] at hs
  cases hs

theorem gstrEscape_eq_none (h : (∃ c ∈ escset, ¬c < 0x80) ∨ ¬esc.toNat < 256) :
    gstrEscape l escset esc = none := by
  by_cases hs : ∃ c ∈ escset, ¬c < 0x80
  · rw [gstrEscape, delims_eq_none delims_empty hs]
    rfl
  · have hs' : ∀ c ∈ escset, c < 0x80 := fun c hc => by_contra fun hge => hs ⟨c, hc, hge⟩
    obtain ⟨d, hfold, hd⟩ := delims_spec delims_empty hs'
    rw [gstrEscape, hfold]
    simp only [Option.bind_eq_bind, Option.bind_some, isDelim_eq_none hd (h.resolve_left hs)]
    rfl

/-- When escaping and unescaping gives a string back: NUL-free strings, and an escape character that
is not in the set and is neither a letter nor a digit. -/
theorem escape_round_trip_iff (l escset : List UInt8) (esc : UInt32) (hl : 0 ∉ l)
    (hin : ∀ c ∈ escset, ofChar c ≠ esc) (hal : ¬isalnum esc) :
    RoundTrips l escset esc ↔ Benign l escset esc := by
  have hchar : ∀ c ∈ l, c ≠ 0 := fun c hc h0 => hl (h0 ▸ hc)
  by_cases hbad : (∃ c ∈ escset, ¬c < 0x80) ∨ ¬esc.toNat < 256
  · refine iff_of_false (not_roundTrips_of_none (gstrEscape_eq_none hbad)) fun hben => ?_
    exact hbad.elim (fun ⟨c, hc, hge⟩ => hge (hben.1 c hc)) fun hge => hge hben.2.2.1
  obtain ⟨hs, hlt⟩ := not_or.mp hbad
  replace hs : ∀ c ∈ escset, c < 0x80 := fun c hc => by_contra fun hge => hs ⟨c, hc, hge⟩
  replace hlt : esc.toNat < 256 := Decidable.not_not.mp hlt
  obtain ⟨d, hd, hloop⟩ := gstrEscape_eq hs hin hlt
  by_cases hl7 : ∃ c ∈ l, ¬c < 0x80
  · have hnone := (hloop l).trans (escapeLoop_eq_none hd hlt hl7)
    obtain ⟨c, hc, hge⟩ := hl7
    exact iff_of_false (not_roundTrips_of_none hnone) fun hben => hge (hben.2.1 c hc)
  replace hl7 : ∀ c ∈ l, c < 0x80 := fun c hc => by_contra fun hge => hl7 ⟨c, hc, hge⟩
  have hben : Benign l escset esc ↔ ∀ c ∈ l, c ∈ escset →
      (mnemonic c).isSome ∧ 0 < esc.toNat ∧ esc.toNat < 0x80 :=
    ⟨fun h => h.2.2.2, fun h => ⟨hs, hl7, hlt, h⟩⟩
  rw [hben]
  -- NUL, an ASCII character, or a value that no `char` has
  rcases Nat.eq_zero_or_pos esc.toNat with h0 | h0
  · obtain rfl : esc = 0 := UInt32.toNat_inj.mp h0
    rw [roundTrips_nul_iff hd hl7 hl (hloop l)]
    refine forall₂_congr fun c _ => forall_congr' fun _ => ?_
    exact iff_of_false not_false fun h => absurd h.2.1 (by decide)
  rcases Nat.lt_or_ge esc.toNat 0x80 with h7 | h7
  · rw [roundTrips_iff_good (hloop l) fun c hc =>
      escapeChar_ascii hd hin hal h0 h7 (hl7 c hc) (hchar c hc)]
    refine forall₂_congr fun c _ => forall_congr' fun _ => ?_
    exact ⟨fun h => ⟨h, h0, h7⟩, And.left⟩
  · rw [roundTrips_iff_good (hloop l) fun c hc =>
      escapeChar_high hd h7 hlt (hl7 c hc) (hchar c hc)]
    refine forall₂_congr fun c _ => forall_congr' fun _ => ?_
    exact iff_of_false not_false fun h => absurd h.2.2 (Nat.not_lt.mpr h7)

theorem escape_round_trip_line_feed : RoundTrips [0x61, 0x0a, 0x5c] [0x0a, 0x3b] 0x5c :=
  (escape_round_trip_iff [0x61, 0x0a, 0x5c] [0x0a, 0x3b] 0x5c (by decide)
    (forall_mem_cons.mpr ⟨by decide, forall_mem_singleton.mpr (by decide)⟩)
    (by unfold isalnum; decide)).mpr (by
      simp only [Benign, forall_mem_cons, not_mem_nil, IsEmpty.forall_iff, implies_true]
      decide)

/-- `";"` becomes `"\\0073"`, and that `"\0073"`. -/
theorem escape_loses_semicolon :
    0 ∉ [(0x3b : UInt8)] ∧ (∀ c ∈ [(0x3b : UInt8)], ofChar c ≠ 0x5c) ∧ ¬isalnum 0x5c ∧
      gstrEscape [0x3b] [0x3b] 0x5c = some [0x5c, 0x5c, 0x30, 0x30, 0x37, 0x33] ∧
      ¬RoundTrips [0x3b] [0x3b] 0x5c := by
  have hesc : gstrEscape [0x3b] [0x3b] 0x5c = some [0x5c, 0x5c, 0x30, 0x30, 0x37, 0x33] := by
    decide
  refine ⟨by decide, forall_mem_singleton.mpr (by decide), by unfold isalnum; decide, hesc, ?_⟩
  rintro ⟨s, hs, hback⟩
  obtain rfl := Option.some.inj (hesc.symm.trans hs)
  obtain ⟨b, hb, -⟩ := hback (cstr [0x5c, 0x5c, 0x30, 0x30, 0x37, 0x33]) (stored_cstr _)
  have hlen : (gstrUnescape (cstr [0x5c, 0x5c, 0x30, 0x30, 0x37, 0x33]) 6 0x5c).map Prod.snd =
      some 5 := by
    decide
  rw [show gstrUnescape (cstr [0x5c, 0x5c, 0x30, 0x30, 0x37, 0x33]) 6 0x5c = some (b, 1) from hb]
    at hlen
  exact absurd (show (1 : Nat) = 5 from Option.some.inj hlen) (by decide)

end PortableLib.Gstring.Escape
