import PortableLib.Gstring.Escape
import PortableLib.Lib.Horner

/-! What `gstr_unescape` makes of any string, and what it should make of it: the text is read from
the left, and an escape stands for a control character, for a number of up to three octal, three
decimal or two hexadecimal digits, or for the character after it. -/

namespace PortableLib.Gstring.Escape
open List Horner

def numerals (digit : UInt8 → Option Nat) : Nat → List UInt8 → List Nat
  | 0, _ => []
  | _, [] => []
  | n + 1, c :: s =>
    match digit c with
    | some z => z :: numerals digit n s
    | none => []

def octalDigit (c : UInt8) : Option Nat :=
  if 0x30 ≤ c ∧ c ≤ 0x37 then some (c - 0x30).toNat else none

def decimalDigit (c : UInt8) : Option Nat := if isdigit c then some (c - 0x30).toNat else none

def hexDigit (c : UInt8) : Option Nat :=
  if 0x30 ≤ c ∧ c ≤ 0x39 then some (c - 0x30).toNat
  else if 0x61 ≤ c ∧ c ≤ 0x66 then some ((c - 0x61).toNat + 10)
  else if 0x41 ≤ c ∧ c ≤ 0x46 then some ((c - 0x41).toNat + 10)
  else none

/-- The digits as `extract_hex` takes them. -/
def fromZero (c : UInt8) : Option Nat := (hexDigit c).map fun z => if z < 10 then z else z - 10

def reading (hex : UInt8 → Option Nat) (e : UInt8) : List UInt8 → UInt8 × Nat
  | [] => (e, 0)
  | c :: s =>
    let number (base : Nat) (ds : List Nat) : UInt8 := UInt8.ofNat (horner base 0 ds)
    match control c with
    | some v => (v, 1)
    | none =>
      if c = 0x30 then
        (number 8 (numerals octalDigit 3 s), 1 + (numerals octalDigit 3 s).length)
      else if c = 0x78 then
        (number 16 (numerals hex 2 s), 1 + (numerals hex 2 s).length)
      else if isdigit c then
        (number 10 (numerals decimalDigit 3 (c :: s)), (numerals decimalDigit 3 (c :: s)).length)
      else (c, 1)

def decode (hex : UInt8 → Option Nat) (esc : UInt32) : Nat → List UInt8 → List UInt8
  | _, [] => []
  | k + 1, _ :: s => decode hex esc k s
  | 0, c :: s =>
    if ofChar c = esc then (reading hex c s).1 :: decode hex esc (reading hex c s).2 s
    else c :: decode hex esc 0 s

def escapes (esc : UInt32) : Nat → List UInt8 → List (List UInt8)
  | _, [] => []
  | k + 1, _ :: s => escapes esc k s
  | 0, c :: s =>
    if ofChar c = esc then s :: escapes esc (reading hexDigit c s).2 s else escapes esc 0 s

/-- No letter is a digit of a hexadecimal escape. -/
def Letterless (esc : UInt32) (s : List UInt8) : Prop :=
  ∀ t, 0x78 :: t ∈ escapes esc 0 s → ∀ z ∈ numerals hexDigit 2 t, z < 10

/-! ## The code -/

def unescapeRound (escChar : UInt32) (b : Block UInt8) (ptr out : Nat) :
    Option (Block UInt8 × Nat × Nat) := do
  let c ← b.read ptr
  if c = 0 then none
  else if ofChar c = escChar then parseEsc b out (ptr + 1) escChar
  else
    let b ← b.write out c
    return (b, ptr + 1, out + 1)

variable {b : Block UInt8} {s t : List UInt8} {esc : UInt32} {len ptr out fuel : Nat}

theorem unescapeLoop_succ (esc : UInt32) (len fuel : Nat) (b : Block UInt8) (ptr out : Nat) :
    unescapeLoop esc len (fuel + 1) b ptr out =
      if ptr < len then
        (unescapeRound esc b ptr out).bind fun r => unescapeLoop esc len fuel r.1 r.2.1 r.2.2
      else some (b, out) := by
  rw [unescapeLoop]
  split
  · cases hread : b.read ptr with
    | none => rw [unescapeRound, hread]; rfl
    | some c =>
      rw [unescapeRound, hread]
      simp only [Option.bind_eq_bind, Option.bind_some]
      split
      · rfl
      · split
        · rfl
        · rw [Option.bind_assoc]
          rfl
  · rfl

inductive Visits (esc : UInt32) (len : Nat) (b₀ : Block UInt8) : Block UInt8 → Nat → Nat → Prop
  | start : Visits esc len b₀ b₀ 0 0
  | round {b b' : Block UInt8} {ptr ptr' out out' : Nat} (h : Visits esc len b₀ b ptr out)
      (hlt : ptr < len) (hround : unescapeRound esc b ptr out = some (b', ptr', out')) :
      Visits esc len b₀ b' ptr' out'

theorem extract_le {digit : UInt8 → Option Nat} {base n val p : Nat} {v : UInt8}
    (h : extract digit base b n ptr val = some (v, p)) : ptr ≤ p := by
  induction n generalizing ptr val with
  | zero => exact (Prod.mk.inj (Option.some.inj h)).2.le
  | succ n ih =>
    rw [extract] at h
    obtain ⟨c, -, h⟩ := Option.bind_eq_some_iff.mp h
    cases hc : digit c with
    | some z =>
      rw [hc] at h
      exact Nat.le_of_succ_le (ih h)
    | none =>
      rw [hc] at h
      exact (Prod.mk.inj (Option.some.inj h)).2.le

theorem escaped_le {v : UInt8} {src p : Nat} (h : escaped b src esc = some (v, p)) : src ≤ p := by
  rw [escaped] at h
  obtain ⟨c, -, h⟩ := Option.bind_eq_some_iff.mp h
  have hone : ∀ {x : UInt8}, some (x, src + 1) = some (v, p) → src ≤ p := fun heq =>
    (Nat.le_succ src).trans (Prod.mk.inj (Option.some.inj heq)).2.le
  cases hc : control c with
  | some x =>
    rw [hc] at h
    exact hone h
  | none =>
    simp only [hc] at h
    split at h
    · exact hone h
    split at h
    · exact (Nat.le_succ src).trans (extract_le h)
    split at h
    · exact (Nat.le_succ src).trans (extract_le h)
    split at h
    · exact extract_le h
    · exact hone h

theorem unescapeRound_advance {b' : Block UInt8} {ptr' out' : Nat}
    (h : unescapeRound esc b ptr out = some (b', ptr', out')) : ptr < ptr' ∧ out' = out + 1 := by
  rw [unescapeRound] at h
  obtain ⟨c, -, h⟩ := Option.bind_eq_some_iff.mp h
  split at h
  · cases h
  split at h
  · rw [parseEsc] at h
    obtain ⟨⟨v, p⟩, hp, h⟩ := Option.bind_eq_some_iff.mp h
    obtain ⟨b₁, -, h⟩ := Option.bind_eq_some_iff.mp h
    cases h
    exact ⟨escaped_le hp, rfl⟩
  · obtain ⟨b₁, -, h⟩ := Option.bind_eq_some_iff.mp h
    cases h
    exact ⟨Nat.lt_succ_self ptr, rfl⟩

theorem Visits.out_le {b₀ : Block UInt8} (h : Visits esc len b₀ b ptr out) : out ≤ ptr := by
  induction h with
  | start => exact Nat.le_refl 0
  | round _ _ hround ih =>
    obtain ⟨hlt, rfl⟩ := unescapeRound_advance hround
    exact Nat.succ_le_of_lt (ih.trans_lt hlt)

/-! ## One escape -/

theorem Stored.read_headD (h : Stored (b.shift ptr) s) : b.read ptr = some (s.headD 0) := by
  have hroom := h.room
  change s.length < b.len - ptr at hroom
  have hcell := h.cells 0 (Nat.zero_le _)
  rw [Block.read_of_lt (by omega)]
  refine congrArg some (hcell.trans ?_)
  cases s <;> rfl

theorem Stored.tail {c : UInt8} (h : Stored (b.shift ptr) (c :: s)) :
    Stored (b.shift (ptr + 1)) s := by
  have hroom := h.room
  change (c :: s).length < b.len - ptr at hroom
  rw [length_cons] at hroom
  constructor
  · change s.length < b.len - (ptr + 1)
    omega
  · intro i hi
    have hcell := h.cells (i + 1) (Nat.succ_le_succ hi)
    rw [getD_cons_succ] at hcell
    rw [← hcell]
    exact congrArg b.cells (by omega)

theorem extract_spec {digit : UInt8 → Option Nat} (hnul : digit 0 = none) {base n val : Nat}
    (h : Stored (b.shift ptr) s) : extract digit base b n ptr val =
      some (UInt8.ofNat (horner base val (numerals digit n s)),
        ptr + (numerals digit n s).length) := by
  induction n generalizing ptr val s with
  | zero => rw [extract, numerals, horner_nil, length_nil, Nat.add_zero]
  | succ n ih =>
    rw [extract, h.read_headD]
    cases s with
    | nil =>
      simp only [headD_nil, Option.bind_eq_bind, Option.bind_some, hnul, numerals, horner_nil,
        length_nil, Nat.add_zero]
      rfl
    | cons c s =>
      simp only [headD_cons, Option.bind_eq_bind, Option.bind_some, numerals]
      cases hc : digit c with
      | none => rfl
      | some z =>
        simp only [horner_cons, length_cons]
        rw [ih h.tail, Nat.add_right_comm, Nat.add_assoc]

set_option maxRecDepth 4000 in
theorem fromZero_checked : ∀ n < 256, (fun c : UInt8 => (fromZero c =
    if 0x30 ≤ c ∧ c ≤ 0x39 then some (c - 0x30).toNat
    else if 0x61 ≤ c ∧ c ≤ 0x66 then some (c - 0x61).toNat
    else if 0x41 ≤ c ∧ c ≤ 0x46 then some (c - 0x41).toNat
    else none) ∧ ∀ z ∈ hexDigit c, z < 16) (UInt8.ofNat n) := by
  decide

theorem extractHex_eq (b : Block UInt8) (ptr : Nat) :
    extractHex b ptr = extract fromZero 16 b 2 ptr 0 := by
  rw [extractHex]
  congr 1
  funext c
  have hc := fromZero_checked c.toNat c.toNat_lt
  rw [UInt8.ofNat_toNat] at hc
  exact hc.1.symm

theorem escaped_eq (esc : UInt32) {c : UInt8} (e : UInt8) (hc : c ≠ 0)
    (h : Stored (b.shift ptr) (c :: s)) :
    escaped b ptr esc = some ((reading fromZero e (c :: s)).1,
      ptr + (reading fromZero e (c :: s)).2) := by
  have htail := h.tail
  rw [escaped, h.read_headD, headD_cons]
  simp only [Option.bind_eq_bind, Option.bind_some, reading]
  cases hctl : control c with
  | some v => rfl
  | none =>
    simp only [if_neg hc]
    split
    · rw [extractOctal, ← Nat.add_assoc]
      exact extract_spec rfl htail
    split
    · rw [extractHex_eq, ← Nat.add_assoc]
      exact extract_spec rfl htail
    split
    · exact extract_spec rfl h
    · rfl

theorem length_numerals_le (digit : UInt8 → Option Nat) (n : Nat) (s : List UInt8) :
    (numerals digit n s).length ≤ s.length := by
  induction n generalizing s with
  | zero => exact Nat.zero_le _
  | succ n ih =>
    cases s with
    | nil => exact Nat.zero_le _
    | cons c s =>
      rw [numerals]
      cases digit c with
      | none => exact Nat.zero_le _
      | some z => exact Nat.succ_le_succ (ih s)

theorem reading_le (hex : UInt8 → Option Nat) (e : UInt8) (s : List UInt8) :
    (reading hex e s).2 ≤ s.length := by
  cases s with
  | nil => exact Nat.le_refl 0
  | cons c s =>
    have hone : 1 ≤ (c :: s).length := Nat.succ_le_succ (Nat.zero_le _)
    have hnum : ∀ digit n, 1 + (numerals digit n s).length ≤ (c :: s).length := fun digit n => by
      rw [length_cons, Nat.add_comm]
      exact Nat.succ_le_succ (length_numerals_le digit n s)
    rw [reading]
    cases control c with
    | some v => exact hone
    | none =>
      dsimp only
      split
      · exact hnum _ _
      split
      · exact hnum _ _
      split
      · exact length_numerals_le _ _ _
      · exact hone

theorem decode_eq_drop (hex : UInt8 → Option Nat) (esc : UInt32) (k : Nat) (s : List UInt8) :
    decode hex esc k s = decode hex esc 0 (s.drop k) := by
  induction k generalizing s with
  | zero => rfl
  | succ k ih =>
    cases s with
    | nil => rfl
    | cons c s => exact ih s

theorem toUInt8_of_ofChar {e : UInt8} (h : ofChar e = esc) : esc.toUInt8 = e := by
  rw [← h, ← UInt8.toNat_inj, UInt32.toNat_toUInt8]
  have he := e.toNat_lt
  by_cases hlt : e < 0x80
  · rw [ofChar_of_lt hlt]
    omega
  · rw [ofChar_of_not_lt hlt]
    omega

/-! ## The whole string -/

structure Midway (b : Block UInt8) (t s : List UInt8) (ptr : Nat) : Prop
    extends InPlace b t s ptr where
  nul : b.cells (ptr + s.length) = 0

theorem Midway.stored (h : Midway b t s ptr) : Stored (b.shift ptr) s := by
  have hroom := h.room
  constructor
  · change s.length < b.len - ptr
    omega
  · intro i hi
    rcases hi.lt_or_eq with hlt | rfl
    · exact h.rest i hlt
    · exact h.nul.trans (getD_eq_default s 0 (Nat.le_refl _)).symm

theorem Midway.write {r : List UInt8} {k : Nat} (h : Midway b t (r ++ s) ptr) (hk : r.length = k)
    (hpos : 0 < k) (v : UInt8) : ∃ b', b.write t.length v = some b' ∧
      Midway b' (t ++ [v]) s (ptr + k) := by
  have hbehind := h.behind
  have hroom := h.room
  have hlen : (r ++ s).length = k + s.length := by rw [length_append, hk]
  refine ⟨_, Block.write_of_lt (by omega) v, h.toInPlace.advance hk hpos v, ?_⟩
  have hnul := h.nul
  rw [hlen, ← Nat.add_assoc] at hnul
  exact (Function.update_of_ne (by omega) _ _).trans hnul

section
variable {c d : UInt8}

theorem round_plain (h : Midway b t (c :: s) ptr) (hc : c ≠ 0) (hne : ofChar c ≠ esc) :
    ∃ b', unescapeRound esc b ptr t.length = some (b', ptr + 1, (t ++ [c]).length) ∧
      Midway b' (t ++ [c]) s (ptr + 1) := by
  obtain ⟨b', hb', hmid⟩ := h.write (r := [c]) rfl Nat.one_pos c
  refine ⟨b', ?_, hmid⟩
  rw [unescapeRound, h.read]
  simp only [Option.bind_eq_bind, Option.bind_some, if_neg hc, if_neg hne, hb', length_append,
    length_singleton]
  rfl

theorem round_escape (h : Midway b t (c :: d :: s) ptr) (hc : c ≠ 0) (heq : ofChar c = esc)
    (hd : d ≠ 0) : ∃ b' r, r = reading fromZero c (d :: s) ∧ r.2 ≤ (d :: s).length ∧
      unescapeRound esc b ptr t.length = some (b', ptr + (r.2 + 1), (t ++ [r.1]).length) ∧
      Midway b' (t ++ [r.1]) ((d :: s).drop r.2) (ptr + (r.2 + 1)) := by
  have hstored : Stored (b.shift (ptr + 1)) (d :: s) := h.stored.tail
  have hk := reading_le fromZero c (d :: s)
  have hread := escaped_eq esc c hd hstored
  generalize reading fromZero c (d :: s) = r at hk hread ⊢
  have hsplit : c :: d :: s = (c :: (d :: s).take r.2) ++ (d :: s).drop r.2 := by
    rw [cons_append, take_append_drop]
  have hmid := h
  rw [hsplit] at hmid
  obtain ⟨b', hb', hmid'⟩ := hmid.write (k := r.2 + 1)
    (by rw [length_cons, length_take_of_le hk]) (Nat.succ_pos _) r.1
  refine ⟨b', r, rfl, hk, ?_, hmid'⟩
  rw [unescapeRound, h.read]
  simp only [Option.bind_eq_bind, Option.bind_some, if_neg hc, if_pos heq, parseEsc, hread, hb',
    length_append, length_singleton]
  rw [Nat.add_assoc, Nat.add_comm 1]
  rfl

theorem round_last (h : Midway b t [c] ptr) (hc : c ≠ 0) (heq : ofChar c = esc) :
    ∃ b', unescapeRound esc b ptr t.length = some (b', ptr + 2, (t ++ [c]).length) ∧
      Midway b' (t ++ [c]) [] (ptr + 1) := by
  have hread : b.read (ptr + 1) = some 0 := h.stored.tail.read_headD
  obtain ⟨b', hb', hmid⟩ := h.write (r := [c]) rfl Nat.one_pos c
  refine ⟨b', ?_, hmid⟩
  have hescaped : escaped b (ptr + 1) esc = some (c, ptr + 2) := by
    rw [escaped, hread]
    simp only [Option.bind_eq_bind, Option.bind_some, toUInt8_of_ofChar heq]
    rfl
  rw [unescapeRound, h.read]
  simp only [Option.bind_eq_bind, Option.bind_some, if_neg hc, if_pos heq, parseEsc, hescaped, hb',
    length_append, length_singleton]
  rfl

end

theorem decode_cons_of_eq (hex : UInt8 → Option Nat) {c : UInt8} (h : ofChar c = esc) :
    decode hex esc 0 (c :: s) =
      (reading hex c s).1 :: decode hex esc 0 (s.drop (reading hex c s).2) := by
  rw [decode, if_pos h, decode_eq_drop]

def Written (b : Block UInt8) (l : List UInt8) : Prop :=
  l.length < b.len ∧ ∀ i < l.length, b.cells i = l.getD i 0

theorem Midway.written (h : Midway b t s ptr) : Written b t :=
  ⟨by have := h.behind; have := h.room; omega, h.done⟩

theorem unescapeLoop_decode (esc : UInt32) (h : Midway b t s ptr) (h0 : 0 ∉ s)
    (hlen : len = ptr + s.length) (hfuel : s.length < fuel) :
    ∃ b', unescapeLoop esc len fuel b ptr t.length =
        some (b', (t ++ decode fromZero esc 0 s).length) ∧
      Written b' (t ++ decode fromZero esc 0 s) := by
  induction fuel generalizing b t s ptr with
  | zero => exact absurd hfuel (Nat.not_lt_zero _)
  | succ fuel ih =>
    rw [unescapeLoop_succ]
    cases s with
    | nil =>
      rw [length_nil, Nat.add_zero] at hlen
      rw [if_neg (Nat.not_lt.mpr hlen.le), decode, append_nil]
      exact ⟨b, rfl, h.written⟩
    | cons c s =>
      obtain ⟨hc, h0⟩ := not_or.mp (mem_cons.not.mp h0)
      rw [length_cons] at hlen hfuel
      rw [if_pos (by omega)]
      by_cases heq : ofChar c = esc
      · rw [decode_cons_of_eq fromZero heq]
        cases s with
        | nil =>
          -- the loop stops behind the terminator
          obtain ⟨b', hround, hmid⟩ := round_last h (Ne.symm hc) heq
          rw [length_nil] at hlen hfuel
          rw [hround, Option.bind_some, reading, drop_nil, decode]
          refine ⟨b', ?_, hmid.written⟩
          dsimp only
          rw [Nat.eq_add_of_sub_eq (show 1 ≤ fuel by omega) rfl, unescapeLoop_succ,
            if_neg (by omega)]
        | cons d s =>
          obtain ⟨hd, -⟩ := not_or.mp (mem_cons.not.mp h0)
          obtain ⟨b', r, hr, hle, hround, hmid⟩ := round_escape h (Ne.symm hc) heq (Ne.symm hd)
          rw [hround, Option.bind_some, ← hr,
            append_cons t r.1 (decode fromZero esc 0 ((d :: s).drop r.2))]
          dsimp only
          have hdrop : ((d :: s).drop r.2).length = (d :: s).length - r.2 := length_drop
          exact ih hmid (fun hmem => h0 (mem_of_mem_drop hmem)) (by omega) (by omega)
      · obtain ⟨b', hround, hmid⟩ := round_plain h (Ne.symm hc) heq
        rw [hround, Option.bind_some, decode, if_neg heq,
          append_cons t c (decode fromZero esc 0 s)]
        dsimp only
        exact ih hmid h0 (by omega) (by omega)

theorem gstrUnescape_eq (esc : UInt32) (hb : Stored b s) (h0 : 0 ∉ s) :
    ∃ b', gstrUnescape b s.length esc = some (b', (decode fromZero esc 0 s).length) ∧
      Stored b' (decode fromZero esc 0 s) := by
  have hmid : Midway b [] s 0 := by
    refine ⟨hb.inPlace, ?_⟩
    rw [Nat.zero_add, hb.cells _ (Nat.le_refl _), getD_eq_default s 0 (Nat.le_refl _)]
  obtain ⟨b', hloop, hroom, hcells⟩ := unescapeLoop_decode esc hmid h0
    (Nat.zero_add _).symm (Nat.lt_succ_self _)
  rw [length_nil, nil_append] at hloop
  rw [nil_append] at hroom hcells
  obtain ⟨b₁, hb₁, hsl, hnul, hkeep⟩ := Block.write_spec hroom (0 : UInt8)
  refine ⟨b₁, ?_, hsl ▸ hroom, fun i hi => ?_⟩
  · rw [gstrUnescape, hloop]
    simp only [Option.bind_eq_bind, Option.bind_some, hb₁]
    rfl
  · rcases hi.lt_or_eq with hlt | rfl
    · exact (hkeep i hlt.ne).trans (hcells i hlt)
    · exact hnul.trans (getD_eq_default _ 0 (Nat.le_refl _)).symm

/-! ## The letters -/

theorem numerals_fromZero (n : Nat) (s : List UInt8) : numerals fromZero n s =
    (numerals hexDigit n s).map fun z => if z < 10 then z else z - 10 := by
  induction n generalizing s with
  | zero => rfl
  | succ n ih =>
    cases s with
    | nil => rfl
    | cons c s =>
      rw [numerals, numerals, fromZero]
      cases hexDigit c with
      | none => rfl
      | some z => rw [Option.map_some, map_cons, ← ih]

theorem numerals_spec (n : Nat) (s : List UInt8) : (numerals hexDigit n s).length ≤ n ∧
    ∀ z ∈ numerals hexDigit n s, z < 16 := by
  induction n generalizing s with
  | zero => exact ⟨Nat.le_refl 0, fun z hz => by cases hz⟩
  | succ n ih =>
    cases s with
    | nil => exact ⟨Nat.zero_le _, fun z hz => by cases hz⟩
    | cons c s =>
      have hc := fromZero_checked c.toNat c.toNat_lt
      rw [UInt8.ofNat_toNat] at hc
      rw [numerals]
      cases hdig : hexDigit c with
      | none => exact ⟨Nat.zero_le _, fun z hz => by cases hz⟩
      | some z =>
        exact ⟨Nat.succ_le_succ (ih s).1, forall_mem_cons.mpr ⟨hc.2 z hdig, (ih s).2⟩⟩

theorem number_eq_iff {ds : List Nat} (hlen : ds.length ≤ 2) (hlt : ∀ z ∈ ds, z < 16) :
    UInt8.ofNat (horner 16 0 (ds.map fun z => if z < 10 then z else z - 10)) =
      UInt8.ofNat (horner 16 0 ds) ↔ ∀ z ∈ ds, z < 10 := by
  have hone : ∀ z < 16, UInt8.ofNat (horner 16 0 [if z < 10 then z else z - 10]) =
      UInt8.ofNat (horner 16 0 [z]) ↔ z < 10 := by
    decide
  have htwo : ∀ z < 16, ∀ w < 16, UInt8.ofNat (horner 16 0
      [if z < 10 then z else z - 10, if w < 10 then w else w - 10]) =
        UInt8.ofNat (horner 16 0 [z, w]) ↔ z < 10 ∧ w < 10 := by
    decide
  match ds with
  | [] => exact iff_of_true rfl fun z hz => by cases hz
  | [z] =>
    rw [map_singleton, forall_mem_singleton]
    exact hone z (hlt z mem_cons_self)
  | [z, w] =>
    rw [map_cons, map_singleton, forall_mem_cons, forall_mem_singleton]
    exact htwo z (hlt z mem_cons_self) w (hlt w (mem_cons_of_mem z mem_cons_self))
  | _ :: _ :: _ :: _ =>
    simp only [length_cons] at hlen
    omega

theorem reading_fromZero (e : UInt8) (s : List UInt8) :
    (reading fromZero e s).2 = (reading hexDigit e s).2 ∧
      ((reading fromZero e s).1 = (reading hexDigit e s).1 ↔
        ∀ t, s = 0x78 :: t → ∀ z ∈ numerals hexDigit 2 t, z < 10) := by
  cases s with
  | nil => exact ⟨rfl, iff_of_true rfl fun t ht => by cases ht⟩
  | cons c s =>
    by_cases hc : c = 0x78
    · subst hc
      obtain ⟨hlen, hlt⟩ := numerals_spec 2 s
      have hnum := number_eq_iff hlen hlt
      have hread : ∀ hex, reading hex e (0x78 :: s) =
          (UInt8.ofNat (horner 16 0 (numerals hex 2 s)), 1 + (numerals hex 2 s).length) :=
        fun hex => rfl
      rw [hread, hread, numerals_fromZero, length_map]
      refine ⟨rfl, hnum.trans ⟨fun h t ht => ?_, fun h => h s rfl⟩⟩
      obtain rfl := (cons.inj ht).2
      exact h
    · have hsame : reading fromZero e (c :: s) = reading hexDigit e (c :: s) := by
        simp only [reading, if_neg hc]
      rw [hsame]
      exact ⟨rfl, iff_of_true rfl fun t ht => absurd (cons.inj ht).1 hc⟩

theorem decode_fromZero (esc : UInt32) (s : List UInt8) (k : Nat) :
    (decode fromZero esc k s).length = (decode hexDigit esc k s).length ∧
      (decode fromZero esc k s = decode hexDigit esc k s ↔
        ∀ t, 0x78 :: t ∈ escapes esc k s → ∀ z ∈ numerals hexDigit 2 t, z < 10) := by
  induction s generalizing k with
  | nil =>
    have hdec : ∀ hex, decode hex esc k [] = [] := fun hex => by cases k <;> rfl
    have hesc : escapes esc k [] = [] := by cases k <;> rfl
    rw [hdec, hdec, hesc]
    exact ⟨rfl, iff_of_true rfl fun t ht => by cases ht⟩
  | cons c s ih =>
    cases k with
    | succ k => exact ih k
    | zero =>
      rw [decode, decode, escapes]
      by_cases heq : ofChar c = esc
      · obtain ⟨hlen, hiff⟩ := reading_fromZero c s
        obtain ⟨hrest, hiff'⟩ := ih (reading hexDigit c s).2
        simp only [if_pos heq, hlen, length_cons, hrest, cons.injEq, hiff, hiff', mem_cons, or_imp,
          forall_and, true_and]
        refine and_congr_left fun _ => forall_congr' fun t => ?_
        exact imp_congr_left eq_comm
      · obtain ⟨hrest, hiff'⟩ := ih 0
        simp only [if_neg heq, length_cons, hrest, cons.injEq, true_and, hiff']

theorem Stored.inj {l l' : List UInt8} (h : Stored b l) (h' : Stored b l')
    (hlen : l.length = l'.length) : l = l' := by
  apply List.ext_getElem hlen
  intro i hi hi'
  have hcell := h.cells i hi.le
  rw [h'.cells i hi'.le, getD_eq_getElem _ _ hi, getD_eq_getElem _ _ hi'] at hcell
  exact hcell.symm

/-- Nothing is written before it is read, nothing behind the terminator is read, and the string is
replaced by what it stands for. -/
def Unescapes (esc : UInt32) (s : List UInt8) : Prop :=
  ∀ b, Stored b s → (∀ b₁ ptr out, Visits esc s.length b b₁ ptr out → out ≤ ptr) ∧
    ∃ b', gstrUnescape b s.length esc = some (b', (decode hexDigit esc 0 s).length) ∧
      Stored b' (decode hexDigit esc 0 s)

/-- `gstr_unescape` decodes exactly the strings without a letter among the digits of a hexadecimal
escape. -/
theorem gstrUnescape_exact (esc : UInt32) (h0 : 0 ∉ s) : Unescapes esc s ↔ Letterless esc s := by
  obtain ⟨hlen, hiff⟩ := decode_fromZero esc s 0
  rw [Letterless, ← hiff]
  constructor
  · intro h
    have hstored : Stored (cstr s) s := ⟨Nat.lt_succ_self _, fun _ _ => rfl⟩
    obtain ⟨b', hrun, hb'⟩ := gstrUnescape_eq esc hstored h0
    obtain ⟨-, b₁, hrun₁, hb₁⟩ := h _ hstored
    obtain rfl : b' = b₁ := (Prod.mk.inj (Option.some.inj (hrun.symm.trans hrun₁))).1
    exact hb'.inj hb₁ hlen
  · intro heq b hb
    obtain ⟨b', hrun, hb'⟩ := gstrUnescape_eq esc hb h0
    rw [heq] at hrun hb'
    exact ⟨fun b₁ ptr out hvisit => hvisit.out_le, b', hrun, hb'⟩

theorem gstrUnescape_exact_digits : Unescapes 0x5c
    [0x61, 0x5c, 0x78, 0x34, 0x31, 0x5c, 0x6e, 0x5c, 0x30, 0x36, 0x35, 0x5c, 0x39] := by
  refine (gstrUnescape_exact 0x5c (by decide)).mpr fun t ht => ?_
  have hesc : escapes 0x5c 0 [0x61, 0x5c, 0x78, 0x34, 0x31, 0x5c, 0x6e, 0x5c, 0x30, 0x36, 0x35,
      0x5c, 0x39] = [[0x78, 0x34, 0x31, 0x5c, 0x6e, 0x5c, 0x30, 0x36, 0x35, 0x5c, 0x39],
        [0x6e, 0x5c, 0x30, 0x36, 0x35, 0x5c, 0x39], [0x30, 0x36, 0x35, 0x5c, 0x39], [0x39]] := by
    decide
  rw [hesc] at ht
  obtain rfl : t = [0x34, 0x31, 0x5c, 0x6e, 0x5c, 0x30, 0x36, 0x35, 0x5c, 0x39] := by
    simpa using ht
  decide

/-- `\x0a` becomes a NUL and not a line feed. -/
theorem gstrUnescape_letter :
    ((gstrUnescape (cstr [0x5c, 0x78, 0x30, 0x61]) 4 0x5c).map fun r => (r.2, r.1.first 1)) =
        some (1, some [0x00]) ∧
      decode hexDigit 0x5c 0 [0x5c, 0x78, 0x30, 0x61] = [0x0a] ∧
      ¬ Unescapes 0x5c [0x5c, 0x78, 0x30, 0x61] := by
  have hrun : ((gstrUnescape (cstr [0x5c, 0x78, 0x30, 0x61]) 4 0x5c).map
      fun r => (r.2, r.1.first 1)) = some (1, some [0x00]) := by
    decide
  have hdec : decode hexDigit 0x5c 0 [0x5c, 0x78, 0x30, 0x61] = [0x0a] := by decide
  refine ⟨hrun, hdec, fun h => ?_⟩
  obtain ⟨-, b', hres, hb'⟩ := h (cstr [0x5c, 0x78, 0x30, 0x61])
    ⟨Nat.lt_succ_self _, fun _ _ => rfl⟩
  have hcell := hb'.cells 0 (Nat.zero_le _)
  rw [hdec] at hcell
  change gstrUnescape (cstr [0x5c, 0x78, 0x30, 0x61]) 4 0x5c = _ at hres
  rw [hres, Option.map_some, Block.first_of_le (Nat.one_le_of_lt hb'.room)] at hrun
  have hfirst := (Prod.mk.inj (Option.some.inj hrun)).2
  rw [range_one, map_singleton, hcell] at hfirst
  exact absurd hfirst (by decide)

end PortableLib.Gstring.Escape
