import PortableLib.Ctype
import PortableLib.Errno
import PortableLib.Gstring.Refinement
import PortableLib.Lib.Horner

/-! Numbers from strings, `strtosize.c`. A string is a block, every access to it is checked, and a
position in it stands for the pointer. -/

namespace PortableLib.StrToSize
open List Gstring Ctype Horner
open Gstring.Escape (isdigit)

/-- What `strtou64` returns, `none` for 0, and what it stores through its pointers. -/
structure Parsed where
  ret : Option Errno
  endptr : Option Nat
  val : Option UInt64
  deriving DecidableEq

def skipWhite (str : Block UInt8) : Nat → Nat → Option (Nat × UInt8)
  | 0, _ => none
  | fuel + 1, s => do
    let c ← str.read s
    if c = 0 then return (s, c)
    if !isspace c then return (s, c)
    skipWhite str fuel (s + 1)

def digitValue (c : UInt8) : Option UInt64 :=
  if isdigit c then some (c - 0x30).toUInt64
  else if isalpha c then some (c - if isupper c then 0x41 - 10 else 0x61 - 10).toUInt64
  else none

/-- The loop over the digits: where it ends, and the value or an error. -/
def digits (str : Block UInt8) (mult cutoff cutchar : UInt64) :
    Nat → Nat → UInt64 → Option (Nat × Except Errno UInt64)
  | 0, _, _ => none
  | fuel + 1, s, val => do
    let c ← str.read s
    if c = 0 then return (s, .ok val)
    match digitValue c with
    | none => return (s, .error .einval)
    | some c =>
      if mult ≤ c then return (s, .ok val)
      if cutoff < val ∨ val = cutoff ∧ cutchar < c then return (s, .error .erange)
      digits str mult cutoff cutchar fuel (s + 1) (val * mult + c)

def hexPrefix (str : Block UInt8) (s : Nat) (base : Int) (c : UInt8) : Option Bool :=
  if (base = 0 ∨ base = 16) ∧ c = 0x30 then do
    let x ← str.read (s + 1)
    return x = 0x78 ∨ x = 0x58
  else some false

/-- Where the digits start, and `mult`. -/
def radixOf (str : Block UInt8) (s : Nat) (base : Int) (c : UInt8) : Option (Nat × UInt64) := do
  let hex ← hexPrefix str s base c
  if hex then return (s + 2, 16)
  else if base = 0 then return (s, if c = 0x30 then 8 else 10)
  else return (s, UInt64.ofNat base.toNat)

def strtou64 (str : Block UInt8) (base : Int) : Option Parsed :=
  if base < 0 ∨ 36 < base ∨ base = 1 then some ⟨some .einval, none, none⟩
  else do
    let (s, c) ← skipWhite str str.len 0
    if c = 0 then return ⟨none, some s, some 0⟩
    let neg := c = 0x2d
    let s := if c = 0x2d then s + 1 else if c = 0x2b then s + 1 else s
    let c ← str.read s
    let (s, mult) ← radixOf str s base c
    if mult = 0 then none
    let (s, r) ← digits str mult (0xFFFFFFFFFFFFFFFF / mult) (0xFFFFFFFFFFFFFFFF % mult) str.len s 0
    match r with
    | .error e => return ⟨some e, some s, none⟩
    | .ok val => return ⟨none, some s, some (if neg then 0 - val else val)⟩

/-- `"0123456789abcdefghijklmnopqrstuvwxyz"` -/
def numerals : List UInt8 := [
  0x30, 0x31, 0x32, 0x33, 0x34, 0x35, 0x36, 0x37, 0x38, 0x39,
  0x61, 0x62, 0x63, 0x64, 0x65, 0x66, 0x67, 0x68, 0x69, 0x6a, 0x6b, 0x6c, 0x6d,
  0x6e, 0x6f, 0x70, 0x71, 0x72, 0x73, 0x74, 0x75, 0x76, 0x77, 0x78, 0x79, 0x7a]

def value (c : UInt8) : Nat := numerals.idxOf (tolower c)

set_option maxRecDepth 4000 in
theorem digitValue_checked : ∀ n < 256, (fun c : UInt8 => digitValue c =
    if isalnum c then some (UInt64.ofNat (value c)) else none) (UInt8.ofNat n) := by
  decide

set_option maxRecDepth 4000 in
theorem isalnum_checked : ∀ n < 256, (fun c : UInt8 => isalnum (tolower c) = true →
    isalnum c = true ∧ c ≠ 0) (UInt8.ofNat n) := by
  decide

theorem isalnum_of_value_lt {c : UInt8} (h : value c < 36) : isalnum c = true ∧ c ≠ 0 := by
  have hmem : tolower c ∈ numerals := idxOf_lt_length_iff.mp h
  have hall : numerals.all isalnum = true := by decide
  have hc := isalnum_checked c.toNat c.toNat_lt
  rw [UInt8.ofNat_toNat] at hc
  exact hc (all_eq_true.mp hall _ hmem)

theorem digitValue_eq (c : UInt8) : digitValue c =
    (if isalnum c then some (UInt64.ofNat (value c)) else none) ∧
      value c ≤ 36 ∧ (value c < 36 → isalnum c = true ∧ c ≠ 0) := by
  have hc := digitValue_checked c.toNat c.toNat_lt
  rw [UInt8.ofNat_toNat] at hc
  exact ⟨hc, idxOf_le_length, isalnum_of_value_lt⟩

variable {b : Block UInt8} {p ds rest : List UInt8} {radix : Nat}

def Stops (radix : Nat) (rest : List UInt8) : Prop :=
  rest = [] ∨ ∃ c ∈ rest.head?, isalnum c = true ∧ radix ≤ value c

theorem toNat_value (c : UInt8) : (UInt64.ofNat (value c)).toNat = value c := by
  have hle := (digitValue_eq c).2.1
  exact UInt64.toNat_ofNat_of_lt' (by change value c < 2 ^ 64; omega)

theorem digits_stop {mult cutoff cutchar val : UInt64} {fuel : Nat} (h : Terminated b (p ++ rest))
    (hmult : mult.toNat = radix) (hstop : Stops radix rest) :
    digits b mult cutoff cutchar (fuel + 1) p.length val = some (p.length, .ok val) := by
  rw [digits, h.read_headD]
  rcases hstop with rfl | ⟨c, hc, halnum, hle⟩
  · rfl
  · obtain ⟨t, rfl⟩ := head?_eq_some_iff.mp hc
    have hne : c ≠ 0 := fun h0 => h.nulFree (h0 ▸ mem_append_right p mem_cons_self)
    have hbig : mult ≤ UInt64.ofNat (value c) := by
      rw [UInt64.le_iff_toNat_le, toNat_value, hmult]
      exact hle
    simp only [headD_cons, Option.bind_eq_bind, Option.bind_some, if_neg hne,
      (digitValue_eq c).1, halnum, if_true, if_pos hbig]
    rfl

theorem digits_spec {mult val : UInt64} {fuel : Nat} (h : Terminated b (p ++ (ds ++ rest)))
    (hmult : mult.toNat = radix) (hradix : radix ≤ 36) (hds : ∀ c ∈ ds, value c < radix)
    (hstop : Stops radix rest) (hfuel : ds.length < fuel) :
    (∀ v, guarded (2 ^ 64 - 1) radix val.toNat (ds.map value) = some v →
      ∃ x : UInt64, x.toNat = v ∧
        digits b mult (0xFFFFFFFFFFFFFFFF / mult) (0xFFFFFFFFFFFFFFFF % mult) fuel p.length val =
          some (p.length + ds.length, .ok x)) ∧
      (guarded (2 ^ 64 - 1) radix val.toNat (ds.map value) = none → ∃ e,
        digits b mult (0xFFFFFFFFFFFFFFFF / mult) (0xFFFFFFFFFFFFFFFF % mult) fuel p.length val =
          some (e, .error .erange)) := by
  have hmax : (0xFFFFFFFFFFFFFFFF : UInt64).toNat = 2 ^ 64 - 1 := rfl
  induction ds generalizing p val fuel with
  | nil =>
    obtain ⟨fuel, rfl⟩ := Nat.exists_eq_add_of_lt hfuel
    refine ⟨fun v hv => ⟨val, Option.some.inj hv, ?_⟩, fun hnone => by cases hnone⟩
    rw [nil_append] at h
    exact digits_stop h hmult hstop
  | cons c ds ih =>
    obtain ⟨hc, hds⟩ := forall_mem_cons.mp hds
    obtain ⟨fuel, rfl⟩ := Nat.exists_eq_add_of_lt hfuel
    obtain ⟨hval, -, hdig⟩ := digitValue_eq c
    obtain ⟨halnum, hne⟩ := hdig (hc.trans_le hradix)
    have hsmall : ¬ mult ≤ UInt64.ofNat (value c) := by
      rw [UInt64.le_iff_toNat_le, toNat_value, hmult]
      exact Nat.not_le.mpr hc
    -- the test of the code is the test of the library
    have htest : (0xFFFFFFFFFFFFFFFF / mult < val ∨ val = 0xFFFFFFFFFFFFFFFF / mult ∧
        0xFFFFFFFFFFFFFFFF % mult < UInt64.ofNat (value c)) ↔
        ((2 ^ 64 - 1) / radix < val.toNat ∨ val.toNat = (2 ^ 64 - 1) / radix ∧
          (2 ^ 64 - 1) % radix < value c) := by
      rw [UInt64.lt_iff_toNat_lt, UInt64.lt_iff_toNat_lt, ← UInt64.toNat_inj, UInt64.toNat_div,
        UInt64.toNat_mod, toNat_value, hmult, hmax]
    rw [cons_append] at h
    rw [digits, h.read]
    simp only [Option.bind_eq_bind, Option.bind_some, if_neg hne, hval, halnum, if_true,
      if_neg hsmall, htest, map_cons, guarded]
    by_cases hover : (2 ^ 64 - 1) / radix < val.toNat ∨ val.toNat = (2 ^ 64 - 1) / radix ∧
        (2 ^ 64 - 1) % radix < value c
    · simp only [if_pos hover]
      exact ⟨fun v hv => (by cases hv), fun _ => ⟨p.length, rfl⟩⟩
    · have hfit := (cutoff_iff hc).not.mp hover
      have hnext : (val * mult + UInt64.ofNat (value c)).toNat = val.toNat * radix + value c := by
        rw [UInt64.toNat_add, UInt64.toNat_mul, toNat_value, hmult]
        omega
      have hrest : Terminated b ((p ++ [c]) ++ (ds ++ rest)) := by
        rw [append_assoc]
        exact h
      have hlen : (p ++ [c]).length = p.length + 1 := length_append
      have hnow := @ih (p ++ [c]) (val * mult + UInt64.ofNat (value c)) (ds.length + 1 + fuel) hrest
        hds (by omega)
      rw [hnext, hlen] at hnow
      simp only [if_neg hover, length_cons]
      rw [show p.length + (ds.length + 1) = p.length + 1 + ds.length by omega]
      exact hnow

set_option maxRecDepth 4000 in
theorem alnum_checked : ∀ n < 256, (fun c : UInt8 => isalnum c = true →
    c ≠ 0 ∧ isspace c = false ∧ c ≠ 0x2d ∧ c ≠ 0x2b) (UInt8.ofNat n) := by
  decide

theorem alnum_plain {c : UInt8} (h : isalnum c = true) :
    c ≠ 0 ∧ isspace c = false ∧ c ≠ 0x2d ∧ c ≠ 0x2b := by
  have hc := alnum_checked c.toNat c.toNat_lt
  rw [UInt8.ofNat_toNat] at hc
  exact hc h

theorem skipWhite_spec {ws t : List UInt8} {c : UInt8} {fuel : Nat}
    (h : Terminated b (p ++ (ws ++ c :: t))) (hws : ∀ x ∈ ws, isspace x = true)
    (hc : isspace c = false) (hfuel : ws.length < fuel) :
    skipWhite b fuel p.length = some (p.length + ws.length, c) := by
  induction ws generalizing p fuel with
  | nil =>
    obtain ⟨fuel, rfl⟩ := Nat.exists_eq_add_of_lt hfuel
    rw [nil_append] at h
    rw [skipWhite, h.read]
    simp only [Option.bind_eq_bind, Option.bind_some, hc, Bool.not_false, if_true, ite_self]
    rfl
  | cons x ws ih =>
    obtain ⟨hx, hws⟩ := forall_mem_cons.mp hws
    obtain ⟨fuel, rfl⟩ := Nat.exists_eq_add_of_lt hfuel
    rw [cons_append] at h
    have hne : x ≠ 0 := by
      rintro rfl
      cases hx
    have hrest : Terminated b ((p ++ [x]) ++ (ws ++ c :: t)) := by
      rw [append_assoc]
      exact h
    have hlen : (p ++ [x]).length = p.length + 1 := length_append
    have hnow := @ih (p ++ [x]) (ws.length + 1 + fuel) hrest hws (by omega)
    rw [hlen] at hnow
    rw [skipWhite, h.read]
    simp only [Option.bind_eq_bind, Option.bind_some, if_neg hne, hx, Bool.not_true,
      Bool.false_eq_true, if_false, length_cons]
    rw [show p.length + (ws.length + 1) = p.length + 1 + ws.length by omega]
    exact hnow

inductive Radix (base : Int) : Nat → List UInt8 → List UInt8 → Prop
  | given {ds : List UInt8} (hlo : 2 ≤ base) (hhi : base ≤ 36) : Radix base base.toNat [] ds
  | hex {x : UInt8} {ds : List UInt8} (h : base = 0 ∨ base = 16) (hx : x = 0x78 ∨ x = 0x58) :
    Radix base 16 [0x30, x] ds
  | octal {ds : List UInt8} (h : base = 0) (hd : ds.head? = some 0x30) : Radix base 8 [] ds
  | decimal {ds : List UInt8} (h : base = 0) (hd : ds.head? ≠ some 0x30) : Radix base 10 [] ds

/-- White space, a sign, a prefix and digits, and what stands behind them. -/
structure Numeral (base : Int) (radix : Nat) (ws sign pre ds rest : List UInt8) : Prop where
  white : ∀ c ∈ ws, isspace c = true
  sign : sign = [] ∨ sign = [0x2b]
  prefixed : Radix base radix pre ds
  nonempty : ds ≠ []
  digit : ∀ c ∈ ds, value c < radix
  stops : Stops radix rest
  lone : base = 0 ∨ base = 16 → pre = [] → ds = [0x30] →
    rest.head? ≠ some 0x78 ∧ rest.head? ≠ some 0x58

variable {base : Int} {ws sign pre : List UInt8}

theorem Radix.bounds (h : Radix base radix pre ds) : 2 ≤ radix ∧ radix ≤ 36 := by
  cases h with
  | given hlo hhi => omega
  | hex _ _ => decide
  | octal _ _ => decide
  | decimal _ _ => decide

theorem Radix.base_allowed (h : Radix base radix pre ds) : ¬(base < 0 ∨ 36 < base ∨ base = 1) := by
  cases h with
  | given hlo hhi => omega
  | hex h _ => omega
  | octal h _ => omega
  | decimal h _ => omega

theorem Numeral.not_hexPrefix {d : UInt8} {ds : List UInt8}
    (h : Numeral base radix ws sign [] (d :: ds) rest)
    (hb : Terminated b (p ++ (d :: (ds ++ rest)))) : hexPrefix b p.length base d = some false := by
  rw [hexPrefix]
  by_cases hzero : (base = 0 ∨ base = 16) ∧ d = 0x30
  · obtain ⟨hbase, rfl⟩ := hzero
    have hsmall : radix ≤ 16 := by
      cases h.prefixed with
      | given hlo hhi => omega
      | octal _ _ => decide
      | decimal _ _ => decide
    have hnext : ∀ x, (ds ++ rest).headD 0 = x → x = 0x78 ∨ x = 0x58 → False := by
      intro x hx hX
      cases ds with
      | nil =>
        obtain ⟨hlow, hup⟩ := h.lone hbase rfl rfl
        cases rest with
        | nil =>
          obtain rfl : 0 = x := hx
          exact absurd hX (by decide)
        | cons y t =>
          obtain rfl : y = x := hx
          exact hX.elim (fun h0 => hlow (congrArg some h0)) fun h0 => hup (congrArg some h0)
      | cons y ds =>
        obtain rfl : y = x := hx
        have hy := h.digit y (mem_cons_of_mem _ mem_cons_self)
        have hval : value y = 33 := by
          rcases hX with rfl | rfl
          · decide
          · decide
        omega
    have hterm : Terminated b ((p ++ [0x30]) ++ (ds ++ rest)) := by
      rw [append_assoc]
      exact hb
    have hread : b.read (p.length + 1) = some ((ds ++ rest).headD 0) := by
      have hr := hterm.read_headD
      rwa [length_append, length_singleton] at hr
    rw [if_pos ⟨hbase, rfl⟩, hread]
    have hnot : ¬((ds ++ rest).headD 0 = 0x78 ∨ (ds ++ rest).headD 0 = 0x58) :=
      fun hX => hnext _ rfl hX
    simp only [Option.bind_eq_bind, Option.bind_some, decide_eq_false hnot]
    rfl
  · rw [if_neg hzero]

theorem Numeral.radixOf_spec (h : Numeral base radix ws sign pre ds rest)
    (hb : Terminated b (p ++ (pre ++ (ds ++ rest)))) :
    ∃ c t mult, pre ++ (ds ++ rest) = c :: t ∧ isalnum c = true ∧
      radixOf b p.length base c = some (p.length + pre.length, mult) ∧ mult.toNat = radix := by
  obtain ⟨d, ds, rfl⟩ := exists_cons_of_ne_nil h.nonempty
  have hd := h.digit d mem_cons_self
  have halnum : isalnum d = true := ((digitValue_eq d).2.2 (hd.trans_le h.prefixed.bounds.2)).1
  have hpre := h.prefixed
  cases hpre with
  | given hlo hhi =>
    have hne : ¬ base = 0 := by omega
    refine ⟨d, ds ++ rest, UInt64.ofNat base.toNat, rfl, halnum, ?_,
      UInt64.toNat_ofNat_of_lt' (by change base.toNat < 2 ^ 64; omega)⟩
    rw [radixOf, h.not_hexPrefix hb]
    simp only [Option.bind_eq_bind, Option.bind_some, Bool.false_eq_true, if_false, if_neg hne]
    rfl
  | @hex x _ hbase hx =>
    refine ⟨0x30, x :: (d :: ds ++ rest), 16, rfl, rfl, ?_, rfl⟩
    have hterm : Terminated b ((p ++ [0x30]) ++ x :: (d :: ds ++ rest)) := by
      rw [append_assoc]
      exact hb
    have hread : b.read (p.length + 1) = some x := by
      have hr := hterm.read
      rwa [length_append, length_singleton] at hr
    rw [radixOf, hexPrefix, if_pos ⟨hbase, rfl⟩, hread]
    simp only [Option.bind_eq_bind, Option.bind_some, decide_eq_true hx]
    rfl
  | octal hbase hzero =>
    obtain rfl : d = 0x30 := Option.some.inj hzero
    refine ⟨0x30, ds ++ rest, 8, rfl, halnum, ?_, rfl⟩
    rw [radixOf, h.not_hexPrefix hb]
    simp only [Option.bind_eq_bind, Option.bind_some, Bool.false_eq_true, if_false, if_pos hbase]
    rfl
  | decimal hbase hzero =>
    have hd : ¬ d = 0x30 := fun h0 => hzero (congrArg some h0)
    refine ⟨d, ds ++ rest, 10, rfl, halnum, ?_, rfl⟩
    rw [radixOf, h.not_hexPrefix hb]
    simp only [Option.bind_eq_bind, Option.bind_some, Bool.false_eq_true, if_false, if_pos hbase,
      if_neg hd]
    rfl

theorem Numeral.sign_spec (h : Numeral base radix ws sign pre ds rest) {c : UInt8} {t : List UInt8}
    (heq : pre ++ (ds ++ rest) = c :: t) (halnum : isalnum c = true) :
    ∃ x u, sign ++ (pre ++ (ds ++ rest)) = x :: u ∧ isspace x = false ∧ x ≠ 0 ∧ x ≠ 0x2d ∧
      ∀ s, (if x = 0x2d then s + 1 else if x = 0x2b then s + 1 else s) = s + sign.length := by
  obtain ⟨hne, hsp, hminus, hplus⟩ := alnum_plain halnum
  rcases h.sign with hs | hs
  · subst hs
    exact ⟨c, t, heq, hsp, hne, hminus, fun s => by rw [if_neg hminus, if_neg hplus]; rfl⟩
  · subst hs
    exact ⟨0x2b, _, rfl, rfl, by decide, by decide, fun s => rfl⟩

theorem Numeral.front (h : Numeral base radix ws sign pre ds rest)
    (hb : Terminated b (ws ++ (sign ++ (pre ++ (ds ++ rest))))) : ∃ x c mult,
      skipWhite b b.len 0 = some (ws.length, x) ∧ x ≠ 0 ∧ x ≠ 0x2d ∧
      (∀ s, (if x = 0x2d then s + 1 else if x = 0x2b then s + 1 else s) = s + sign.length) ∧
      b.read (ws.length + sign.length) = some c ∧
      radixOf b (ws.length + sign.length) base c =
        some (ws.length + sign.length + pre.length, mult) ∧ mult.toNat = radix := by
  have hb₁ : Terminated b ((ws ++ sign) ++ (pre ++ (ds ++ rest))) := by rwa [append_assoc]
  obtain ⟨c, t, mult, heq, halnum, hradix, hmult⟩ := h.radixOf_spec hb₁
  obtain ⟨x, u, hx, hsp, hx0, hminus, hsign⟩ := h.sign_spec heq halnum
  have hroom := hb.room
  simp only [length_append] at hroom
  have hskip : skipWhite b b.len 0 = some (ws.length, x) := by
    rw [hx] at hb
    have hs := skipWhite_spec (p := []) hb h.white hsp (show ws.length < b.len by omega)
    rwa [length_nil, Nat.zero_add] at hs
  have hread : b.read (ws.length + sign.length) = some c := by
    rw [heq] at hb₁
    have hr := hb₁.read
    rwa [length_append] at hr
  rw [length_append] at hradix
  exact ⟨x, c, mult, hskip, hx0, hminus, hsign, hread, hradix, hmult⟩

theorem Numeral.strtou64_loop (h : Numeral base radix ws sign pre ds rest)
    (hb : Terminated b (ws ++ (sign ++ (pre ++ (ds ++ rest))))) :
    ∃ mult : UInt64, mult.toNat = radix ∧
      strtou64 b base = (digits b mult (0xFFFFFFFFFFFFFFFF / mult) (0xFFFFFFFFFFFFFFFF % mult) b.len
        (ws.length + sign.length + pre.length) 0).bind fun r =>
          match r.2 with
          | .error e => some ⟨some e, some r.1, none⟩
          | .ok val => some ⟨none, some r.1, some val⟩ := by
  have hlo := h.prefixed.bounds.1
  obtain ⟨x, c, mult, hskip, hx0, hminus, hsign, hread, hradix, hmult⟩ := h.front hb
  have hne : ¬ mult = 0 := by
    rintro rfl
    rw [show (0 : UInt64).toNat = 0 from rfl] at hmult
    omega
  refine ⟨mult, hmult, ?_⟩
  rw [strtou64, if_neg h.prefixed.base_allowed, hskip]
  simp only [Option.bind_eq_bind, Option.bind_some, if_neg hx0, hsign, hread, hradix, if_neg hne,
    if_neg hminus]
  rfl

theorem Numeral.digits_run (h : Numeral base radix ws sign pre ds rest)
    (hb : Terminated b (ws ++ (sign ++ (pre ++ (ds ++ rest))))) {mult : UInt64}
    (hmult : mult.toNat = radix) :
    (Nat.ofDigits radix (ds.map value).reverse < 2 ^ 64 → ∃ x : UInt64,
      x.toNat = Nat.ofDigits radix (ds.map value).reverse ∧
      digits b mult (0xFFFFFFFFFFFFFFFF / mult) (0xFFFFFFFFFFFFFFFF % mult) b.len
        (ws.length + sign.length + pre.length) 0 =
          some (ws.length + sign.length + pre.length + ds.length, .ok x)) ∧
    (2 ^ 64 ≤ Nat.ofDigits radix (ds.map value).reverse → ∃ e,
      digits b mult (0xFFFFFFFFFFFFFFFF / mult) (0xFFFFFFFFFFFFFFFF % mult) b.len
        (ws.length + sign.length + pre.length) 0 = some (e, .error .erange)) := by
  obtain ⟨hlo, hhi⟩ := h.prefixed.bounds
  have hb₂ : Terminated b ((ws ++ sign ++ pre) ++ (ds ++ rest)) := by
    rw [append_assoc, append_assoc]
    exact hb
  have hroom := hb.room
  simp only [length_append] at hroom
  obtain ⟨hsome, hnone⟩ := @digits_spec b (ws ++ sign ++ pre) ds rest radix mult 0 b.len hb₂ hmult
    hhi h.digit h.stops (by omega)
  have hvalues : ∀ d ∈ ds.map value, d < radix := forall_mem_map.mpr h.digit
  have hguard := guarded_eq hvalues (Nat.zero_le (2 ^ 64 - 1))
  rw [horner_eq_ofDigits] at hguard
  rw [show (0 : UInt64).toNat = 0 from rfl, hguard, length_append, length_append] at hsome hnone
  exact ⟨fun hlt => hsome _ (if_pos (by omega)), fun hge => hnone (if_neg (by omega))⟩

theorem Numeral.strtou64_fits (h : Numeral base radix ws sign pre ds rest)
    (hb : Terminated b (ws ++ (sign ++ (pre ++ (ds ++ rest)))))
    (hlt : Nat.ofDigits radix (ds.map value).reverse < 2 ^ 64) : ∃ x : UInt64,
      x.toNat = Nat.ofDigits radix (ds.map value).reverse ∧ strtou64 b base =
        some ⟨none, some (ws.length + sign.length + pre.length + ds.length), some x⟩ := by
  obtain ⟨mult, hmult, hrun⟩ := h.strtou64_loop hb
  obtain ⟨x, hx, hdig⟩ := (h.digits_run hb hmult).1 hlt
  exact ⟨x, hx, by rw [hrun, hdig]; rfl⟩

/-- `strtou64` on the numbers of any base: the exact value, with the end at what follows the digits,
or `-ERANGE` from 2⁶⁴ on. -/
theorem strtou64_exact (h : Numeral base radix ws sign pre ds rest)
    (hb : Terminated b (ws ++ (sign ++ (pre ++ (ds ++ rest))))) :
    (Nat.ofDigits radix (ds.map value).reverse < 2 ^ 64 → ∃ x : UInt64,
      x.toNat = Nat.ofDigits radix (ds.map value).reverse ∧ strtou64 b base =
        some ⟨none, some (ws.length + sign.length + pre.length + ds.length), some x⟩) ∧
    (2 ^ 64 ≤ Nat.ofDigits radix (ds.map value).reverse →
      ∃ e, strtou64 b base = some ⟨some .erange, some e, none⟩) := by
  refine ⟨h.strtou64_fits hb, fun hge => ?_⟩
  obtain ⟨mult, hmult, hrun⟩ := h.strtou64_loop hb
  obtain ⟨e, hdig⟩ := (h.digits_run hb hmult).2 hge
  exact ⟨e, by rw [hrun, hdig]; rfl⟩

theorem strtou64_exact_ff :
    ∃ x : UInt64, x.toNat = 255 ∧
      strtou64 (cstr [0x20, 0x2b, 0x30, 0x78, 0x66, 0x46, 0x7a]) 16 =
        some ⟨none, some 6, some x⟩ := by
  have hnum : Numeral 16 16 [0x20] [0x2b] [0x30, 0x78] [0x66, 0x46] [0x7a] := by
    refine ⟨forall_mem_singleton.mpr (by decide), Or.inr rfl, .hex (Or.inr rfl) (Or.inl rfl),
      cons_ne_nil _ _, forall_mem_cons.mpr ⟨by decide, forall_mem_singleton.mpr (by decide)⟩, ?_,
      ?_⟩
    · exact Or.inr ⟨0x7a, rfl, by decide, by decide⟩
    · exact fun _ h => absurd h (by decide)
  have hstr : Terminated (cstr [0x20, 0x2b, 0x30, 0x78, 0x66, 0x46, 0x7a])
      ([0x20] ++ ([0x2b] ++ ([0x30, 0x78] ++ ([0x66, 0x46] ++ [0x7a])))) :=
    terminated_cstr (by decide)
  exact (strtou64_exact hnum hstr).1 (by decide)

end PortableLib.StrToSize
