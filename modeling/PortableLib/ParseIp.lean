import PortableLib.StrToSize

/-! IPv4 addresses from strings, `parse-ip.c`. The two local buffers are blocks of their own, and
what they hold at first is up to the stack. -/

namespace PortableLib.ParseIp
open List Gstring Horner
open Gstring.Escape (isdigit)
open StrToSize (value)

def dtoi (s : Block UInt8) : Nat → Nat → UInt64 → Option (Option UInt64)
  | 0, _, _ => none
  | fuel + 1, i, n => do
    let c ← s.read i
    if c = 0 then return some n
    if !isdigit c then return none
    dtoi s fuel (i + 1) (n * 10 + (c - 0x30).toUInt64)

def decBEU32 (p : Block UInt8) : Option UInt32 := do
  let p₀ ← p.read 0
  let p₁ ← p.read 1
  let p₂ ← p.read 2
  let p₃ ← p.read 3
  return p₃.toUInt32 ||| p₂.toUInt32 <<< 8 ||| p₁.toUInt32 <<< 16 ||| p₀.toUInt32 <<< 24

/-- What `parse_ipv4` does with the `m` characters of an octet: they are terminated, read, and the
number goes into `p[n]`. -/
def octet (x p : Block UInt8) (n m : Nat) : Option (Option (Block UInt8 × Block UInt8)) := do
  let x ← x.write m 0
  match ← dtoi x x.len 0 0 with
  | none => return none
  | some z =>
    if 255 < z then return none
    let p ← p.write n z.toUInt8
    return some (x, p)

def combine (p : Block UInt8) (n : Nat) : Option (Option UInt32) :=
  if n < 4 then some none else (decBEU32 p).map some

def parseLoop (sx : Block UInt8) :
    Nat → Nat → Block UInt8 → Block UInt8 → Nat → Nat → Option (Option UInt32)
  | 0, _, _, _, _, _ => none
  | fuel + 1, s, x, p, n, m => do
    let c ← sx.read s
    if c = 0 then
      if m = 0 then combine p n
      else match ← octet x p n m with
        | none => return none
        | some (_, p) => combine p (n + 1)
    else if 3 < n ∨ 3 < m then return none
    else if c ≠ 0x2e then
      let x ← x.write m c
      parseLoop sx fuel (s + 1) x p n (m + 1)
    else match ← octet x p n m with
      | none => return none
      | some (x, p) => parseLoop sx fuel (s + 1) x p (n + 1) 0

/-- `none` inside is false, else what `*p_z` becomes. -/
def parseIpv4 (junk : Nat → UInt8) (sx : Block UInt8) : Option (Option UInt32) :=
  parseLoop sx sx.len 0 ⟨8, junk⟩ ⟨4, fun _ => 0⟩ 0 0

/-! ## Octets -/

def number (o : List UInt8) : Nat := Nat.ofDigits 10 (o.map value).reverse

structure Octet (w : Nat) (o : List UInt8) : Prop where
  short : o.length ≤ w
  digit : ∀ c ∈ o, isdigit c = true
  small : number o ≤ 255

instance (w : Nat) (o : List UInt8) : Decidable (Octet w o) :=
  decidable_of_iff (o.length ≤ w ∧ o.all isdigit = true ∧ number o ≤ 255)
    ⟨fun h => ⟨h.1, all_eq_true.mp h.2.1, h.2.2⟩,
      fun h => ⟨h.short, all_eq_true.mpr h.digit, h.small⟩⟩

set_option maxRecDepth 4000 in
theorem digit_checked : ∀ n < 256, (fun c : UInt8 => isdigit c = true →
    (c - 0x30).toNat = value c ∧ value c < 10 ∧ c ≠ 0 ∧ c ≠ 0x2e) (UInt8.ofNat n) := by
  decide

theorem digit_spec {c : UInt8} (h : isdigit c = true) :
    (c - 0x30).toNat = value c ∧ value c < 10 ∧ c ≠ 0 ∧ c ≠ 0x2e := by
  have hc := digit_checked c.toNat c.toNat_lt
  rw [UInt8.ofNat_toNat] at hc
  exact hc h

theorem Octet.noDot {w : Nat} {o : List UInt8} (h : Octet w o) : 0x2e ∉ o :=
  fun hmem => (digit_spec (h.digit _ hmem)).2.2.2 rfl

theorem Octet.nulFree {w : Nat} {o : List UInt8} (h : Octet w o) : 0 ∉ o :=
  fun hmem => (digit_spec (h.digit _ hmem)).2.2.1 rfl

theorem Octet.mono {w w' : Nat} {o : List UInt8} (h : Octet w o) (hw : w ≤ w') : Octet w' o :=
  ⟨h.short.trans hw, h.digit, h.small⟩

theorem number_lt {o : List UInt8} (h : ∀ c ∈ o, isdigit c = true) : number o < 10 ^ o.length := by
  have hlt := Nat.ofDigits_lt_base_pow_length (b := 10) (l := (o.map value).reverse) (by decide)
    fun d hd => by
      obtain ⟨c, hc, rfl⟩ := mem_map.mp (mem_reverse.mp hd)
      exact (digit_spec (h c hc)).2.1
  rwa [length_reverse, length_map] at hlt

variable {s x p : Block UInt8} {q o : List UInt8}

theorem dtoi_spec (h : Terminated s (q ++ o)) {fuel v : Nat} {n : UInt64}
    (hn : n.toNat = v % 2 ^ 64) (hfuel : o.length < fuel) :
    ((∀ c ∈ o, isdigit c = true) → ∃ z, dtoi s fuel q.length n = some (some z) ∧
      z.toNat = horner 10 v (o.map value) % 2 ^ 64) ∧
    ((¬ ∀ c ∈ o, isdigit c = true) → dtoi s fuel q.length n = some none) := by
  induction o generalizing q fuel v n with
  | nil =>
    obtain ⟨fuel, rfl⟩ := Nat.exists_eq_add_of_lt hfuel
    rw [append_nil] at h
    rw [dtoi, h.read_end]
    exact ⟨fun _ => ⟨n, rfl, hn⟩, fun hnot => absurd (forall_mem_nil _) hnot⟩
  | cons c o ih =>
    obtain ⟨fuel, rfl⟩ := Nat.exists_eq_add_of_lt hfuel
    have hne : c ≠ 0 := fun h0 => h.nulFree (h0 ▸ mem_append_right q mem_cons_self)
    have hrest : Terminated s ((q ++ [c]) ++ o) := by
      rw [append_assoc]
      exact h
    rw [dtoi, h.read]
    simp only [Option.bind_eq_bind, Option.bind_some, if_neg hne, forall_mem_cons]
    by_cases hd : isdigit c = true
    · have hnext : (n * 10 + (c - 0x30).toUInt64).toNat = (v * 10 + value c) % 2 ^ 64 := by
        rw [UInt64.toNat_add, UInt64.toNat_mul, hn, UInt8.toNat_toUInt64, (digit_spec hd).1,
          show (10 : UInt64).toNat = 10 from rfl]
        omega
      have hlen : (q ++ [c]).length = q.length + 1 := length_append
      have hnow := @ih (q ++ [c]) hrest (o.length + 1 + fuel) _ _ hnext (by omega)
      rw [hlen] at hnow
      simp only [hd, Bool.not_true, Bool.false_eq_true, if_false, true_and, map_cons, horner_cons,
        length_cons]
      exact hnow
    · rw [Bool.not_eq_true] at hd
      simp only [hd, Bool.not_false, if_true, Bool.false_eq_true, false_and, false_implies,
        not_false_eq_true, true_implies, true_and]
      rfl

/-- The characters `cur` of the octet in `x`, and the numbers of the octets before it in `p`. -/
structure Filled (x p : Block UInt8) (done : List (List UInt8)) (cur : List UInt8) : Prop where
  xlen : x.len = 8
  plen : p.len = 4
  chars : (range cur.length).map x.cells = cur
  numbers : (range done.length).map (fun i => (p.cells i).toNat) = done.map number
  nulFree : 0 ∉ cur
  short : cur.length ≤ 4
  few : done.length ≤ 4
  room : cur ≠ [] → done.length < 4

variable {done : List (List UInt8)} {cur : List UInt8}

theorem Filled.octet_spec (h : Filled x p done cur) (hroom : done.length < 4) :
    (Octet 4 cur → ∃ x' p', octet x p done.length cur.length = some (some (x', p')) ∧
      Filled x' p' (done ++ [cur]) []) ∧
    (¬ Octet 4 cur → octet x p done.length cur.length = some none) := by
  have hlen := h.xlen
  have hshort := h.short
  obtain ⟨x', hx', hxl, hnul, hkept⟩ := Block.write_spec (b := x) (i := cur.length) (by omega) 0
  have hterm : Terminated x' ([] ++ cur) :=
    ⟨by rw [hxl, hlen]; change cur.length < 8; omega,
      (map_range_congr fun i (hi : i < cur.length) => hkept i (by omega)).trans h.chars, hnul,
      h.nulFree⟩
  obtain ⟨hsome, hnone⟩ := dtoi_spec (v := 0) (n := 0) hterm rfl (show cur.length < x'.len by omega)
  rw [horner_eq_ofDigits] at hsome
  rw [length_nil] at hsome hnone
  rw [octet, hx', Option.bind_eq_bind, Option.bind_some]
  by_cases hd : ∀ c ∈ cur, isdigit c = true
  · obtain ⟨z, hz, hval⟩ := hsome hd
    have hlt := number_lt hd
    -- at most four digits, so nothing wraps
    have hpow : 10 ^ cur.length ≤ 10 ^ 4 := Nat.pow_le_pow_right (by decide) hshort
    have hzn : z.toNat = number cur := by
      rw [hval]
      exact Nat.mod_eq_of_lt (by change number cur < 2 ^ 64; omega)
    have htest : 255 < z ↔ ¬ number cur ≤ 255 := by
      rw [UInt64.lt_iff_toNat_lt, hzn, Nat.not_le]
      rfl
    simp only [hz, Option.bind_eq_bind, Option.bind_some, htest]
    constructor
    · intro hoct
      obtain ⟨p', hp', hpl, hnew, hold⟩ := Block.write_spec (b := p) (i := done.length)
        (by rw [h.plen]; exact hroom) z.toUInt8
      refine ⟨x', p', by simp only [hoct.small, not_true, if_false, hp']; rfl, by rw [hxl, hlen],
        by rw [hpl, h.plen], rfl, ?_, not_mem_nil, Nat.zero_le _, ?_, fun h0 => absurd rfl h0⟩
      · rw [map_append, length_append, ← h.numbers]
        refine map_range_add (fun i hi => by rw [hold i hi.ne]) (k := fun _ => number cur) ?_
        intro i hi
        obtain rfl : i = 0 := Nat.lt_one_iff.mp hi
        rw [Nat.add_zero, hnew, UInt64.toNat_toUInt8, hzn]
        exact Nat.mod_eq_of_lt (Nat.lt_succ_of_le hoct.small)
      · rw [length_append]
        exact hroom
    · intro hoct
      have hbig : ¬ number cur ≤ 255 := fun hle => hoct ⟨hshort, hd, hle⟩
      rw [if_pos hbig]
      rfl
  · refine ⟨fun hoct => absurd hoct.digit hd, fun _ => ?_⟩
    rw [hnone hd]
    rfl

theorem Filled.push (h : Filled x p done cur) {c : UInt8} (hc : c ≠ 0) (hlen : cur.length < 4)
    (hroom : done.length < 4) :
    ∃ x', x.write cur.length c = some x' ∧ Filled x' p done (cur ++ [c]) := by
  obtain ⟨x', hx', hxl, hnew, hold⟩ := Block.write_spec (b := x) (i := cur.length)
    (by rw [h.xlen]; omega) c
  refine ⟨x', hx', by rw [hxl, h.xlen], h.plen, ?_, h.numbers, ?_, ?_, h.few, fun _ => hroom⟩
  · rw [length_append, map_range_add (fun i hi => hold i hi.ne) (k := fun _ => c), h.chars]
    · rfl
    · intro i hi
      obtain rfl : i = 0 := Nat.lt_one_iff.mp hi
      exact hnew
  · rw [mem_append, mem_singleton]
    rintro (h0 | h0)
    · exact h.nulFree h0
    · exact hc h0.symm
  · rw [length_append]
    exact hlen

/-! ## The scan -/

def octets (done : List (List UInt8)) (cur : List UInt8) : List UInt8 → Option (List (List UInt8))
  | [] => if cur = [] then some done else if Octet 4 cur then some (done ++ [cur]) else none
  | c :: s =>
    if 3 < done.length ∨ 3 < cur.length then none
    else if c ≠ 0x2e then octets done (cur ++ [c]) s
    else if Octet 4 cur then octets (done ++ [cur]) [] s
    else none

def combined (a b c d : List UInt8) : Nat :=
  ((number a * 256 + number b) * 256 + number c) * 256 + number d

def address : List (List UInt8) → Option UInt32
  | [a, b, c, d] => some (UInt32.ofNat (combined a b c d))
  | _ => none

theorem decBEU32_bytes (p₀ p₁ p₂ p₃ : UInt8) :
    p₃.toUInt32 ||| p₂.toUInt32 <<< 8 ||| p₁.toUInt32 <<< 16 ||| p₀.toUInt32 <<< 24 =
      UInt32.ofNat (((p₀.toNat * 256 + p₁.toNat) * 256 + p₂.toNat) * 256 + p₃.toNat) := by
  have h₀ := p₀.toNat_lt
  have h₁ := p₁.toNat_lt
  have h₂ := p₂.toNat_lt
  have h₃ := p₃.toNat_lt
  have hor : ∀ {a b : Nat} (k : Nat), a < 2 ^ k → a ||| b <<< k = a + b * 2 ^ k := by
    intro a b k ha
    rw [Nat.or_comm, ← Nat.shiftLeft_add_eq_or_of_lt ha, Nat.shiftLeft_eq, Nat.add_comm]
  apply UInt32.toNat_inj.mp
  simp only [UInt32.toNat_or, UInt32.toNat_shiftLeft, UInt8.toNat_toUInt32, UInt32.toNat_ofNat']
  rw [show (8 : UInt32).toNat % 32 = 8 from rfl, show (16 : UInt32).toNat % 32 = 16 from rfl,
    show (24 : UInt32).toNat % 32 = 24 from rfl]
  simp only [Nat.shiftLeft_eq]
  rw [Nat.mod_eq_of_lt (a := p₂.toNat * 2 ^ 8) (by omega),
    Nat.mod_eq_of_lt (a := p₁.toNat * 2 ^ 16) (by omega),
    Nat.mod_eq_of_lt (a := p₀.toNat * 2 ^ 24) (by omega),
    Nat.mod_eq_of_lt (by omega)]
  simp only [← Nat.shiftLeft_eq]
  rw [hor 8 (by omega), hor 16 (by omega), hor 24 (by omega)]
  omega

theorem Filled.combine_spec (h : Filled x p done []) :
    combine p done.length = some (address done) := by
  have hfew := h.few
  have hnum := h.numbers
  have hplen := h.plen
  rcases Nat.lt_or_ge done.length 4 with hlt | hge
  · rw [combine, if_pos hlt]
    match done, hlt with
    | [], _ => rfl
    | [_], _ => rfl
    | [_, _], _ => rfl
    | [_, _, _], _ => rfl
  · obtain ⟨a, b, c, d, rfl⟩ : ∃ a b c d, done = [a, b, c, d] := by
      match done, show done.length = 4 by omega with
      | [a, b, c, d], _ => exact ⟨a, b, c, d, rfl⟩
    have hall : [(p.cells 0).toNat, (p.cells 1).toNat, (p.cells 2).toNat, (p.cells 3).toNat] =
        [number a, number b, number c, number d] := hnum
    obtain ⟨h₀, hall⟩ := cons.inj hall
    obtain ⟨h₁, hall⟩ := cons.inj hall
    obtain ⟨h₂, hall⟩ := cons.inj hall
    obtain ⟨h₃, -⟩ := cons.inj hall
    have hread : ∀ i < 4, p.read i = some (p.cells i) := fun i hi =>
      Block.read_of_lt (by rw [hplen]; exact hi)
    rw [combine, if_neg (by exact Nat.lt_irrefl 4), decBEU32, hread 0 (by decide),
      hread 1 (by decide), hread 2 (by decide), hread 3 (by decide)]
    simp only [Option.bind_eq_bind, Option.bind_some, decBEU32_bytes, h₀, h₁, h₂, h₃]
    rfl

variable {sx : Block UInt8} {t : List UInt8}

theorem parseLoop_spec (hs : Terminated sx (q ++ t)) (h : Filled x p done cur) {fuel : Nat}
    (hfuel : t.length < fuel) :
    parseLoop sx fuel q.length x p done.length cur.length =
      some ((octets done cur t).bind address) := by
  induction t generalizing q x p done cur fuel with
  -- the last octet has no dot behind it
  | nil =>
    obtain ⟨fuel, rfl⟩ := Nat.exists_eq_add_of_lt hfuel
    rw [append_nil] at hs
    rw [parseLoop, hs.read_end, octets]
    simp only [Option.bind_eq_bind, Option.bind_some, if_true, length_eq_zero_iff]
    by_cases hcur : cur = []
    · subst hcur
      simp only [if_true, Option.bind_some, h.combine_spec]
    · simp only [if_neg hcur]
      obtain ⟨hsome, hnone⟩ := h.octet_spec (h.room hcur)
      by_cases hoct : Octet 4 cur
      · obtain ⟨x', p', hp, hf⟩ := hsome hoct
        have hcomb := hf.combine_spec
        rw [length_append, length_singleton] at hcomb
        rw [hp, if_pos hoct, Option.bind_some]
        exact hcomb
      · rw [hnone hoct, if_neg hoct]
        rfl
  | cons c t ih =>
    obtain ⟨fuel, rfl⟩ := Nat.exists_eq_add_of_lt hfuel
    have hne : c ≠ 0 := fun h0 => hs.nulFree (h0 ▸ mem_append_right q mem_cons_self)
    have hrest : Terminated sx ((q ++ [c]) ++ t) := by
      rw [append_assoc]
      exact hs
    have hlen : (q ++ [c]).length = q.length + 1 := length_append
    rw [parseLoop, hs.read, octets]
    simp only [Option.bind_eq_bind, Option.bind_some, if_neg hne]
    by_cases hstop : 3 < done.length ∨ 3 < cur.length
    · rw [if_pos hstop, if_pos hstop]
      rfl
    · rw [if_neg hstop, if_neg hstop]
      -- a character of the octet under way, or the dot that ends it
      by_cases hdot : c ≠ 0x2e
      · obtain ⟨x', hx', hf⟩ := h.push hne (by omega) (by omega)
        have hnow := @ih x' p (q ++ [c]) done (cur ++ [c]) hrest hf (t.length + 1 + fuel) (by omega)
        rw [hlen, length_append, length_singleton] at hnow
        rw [if_pos hdot, if_pos hdot, hx', Option.bind_some]
        exact hnow
      · rw [if_neg hdot, if_neg hdot]
        obtain ⟨hsome, hnone⟩ := h.octet_spec (by omega)
        by_cases hoct : Octet 4 cur
        · obtain ⟨x', p', hp, hf⟩ := hsome hoct
          have hnow := @ih x' p' (q ++ [c]) (done ++ [cur]) [] hrest hf (t.length + 1 + fuel)
            (by omega)
          rw [hlen, length_append, length_singleton] at hnow
          rw [hp, if_pos hoct, Option.bind_some]
          exact hnow
        · rw [hnone hoct, if_neg hoct]
          rfl

theorem parseIpv4_spec (junk : Nat → UInt8) (hs : Terminated sx t) :
    parseIpv4 junk sx = some ((octets [] [] t).bind address) :=
  parseLoop_spec (q := []) hs (show Filled ⟨8, junk⟩ ⟨4, fun _ => 0⟩ [] [] from
    ⟨rfl, rfl, rfl, rfl, not_mem_nil, Nat.zero_le _, Nat.zero_le _, fun h0 => absurd rfl h0⟩)
    hs.room

/-! ## What is accepted -/

def dots (os : List (List UInt8)) : List UInt8 := os.flatMap (· ++ [0x2e])

theorem dots_concat (os : List (List UInt8)) (o : List UInt8) :
    dots (os ++ [o]) = dots os ++ (o ++ [0x2e]) := by
  rw [dots, flatMap_append, flatMap_singleton, dots]

variable {os : List (List UInt8)}

theorem octets_sound (h : octets done cur t = some os) (hdone : ∀ o ∈ done, Octet 3 o) :
    (dots done ++ (cur ++ t) = dots os ∧ ∀ o ∈ os, Octet 3 o) ∨
    ∃ os' d, os = os' ++ [d] ∧ d ≠ [] ∧ Octet 4 d ∧ (∀ o ∈ os', Octet 3 o) ∧
      dots done ++ (cur ++ t) = dots os' ++ d := by
  induction t generalizing done cur with
  | nil =>
    rw [octets] at h
    by_cases hcur : cur = []
    · rw [if_pos hcur] at h
      obtain rfl := Option.some.inj h
      exact Or.inl ⟨by rw [hcur, append_nil, append_nil], hdone⟩
    · rw [if_neg hcur] at h
      by_cases hoct : Octet 4 cur
      · rw [if_pos hoct] at h
        obtain rfl := Option.some.inj h
        exact Or.inr ⟨done, cur, rfl, hcur, hoct, hdone, by rw [append_nil]⟩
      · rw [if_neg hoct] at h
        cases h
  | cons c t ih =>
    rw [octets] at h
    by_cases hstop : 3 < done.length ∨ 3 < cur.length
    · rw [if_pos hstop] at h
      cases h
    · rw [if_neg hstop] at h
      by_cases hdot : c ≠ 0x2e
      · rw [if_pos hdot] at h
        have hnow := ih h hdone
        rw [append_assoc] at hnow
        exact hnow
      · rw [if_neg hdot] at h
        by_cases hoct : Octet 4 cur
        · rw [if_pos hoct] at h
          have hnow := ih h (forall_mem_append.mpr ⟨hdone, forall_mem_singleton.mpr
            ⟨by omega, hoct.digit, hoct.small⟩⟩)
          rw [dots_concat, nil_append, append_assoc, append_assoc, singleton_append] at hnow
          rwa [not_not.mp hdot]
        · rw [if_neg hoct] at h
          cases h

theorem octets_chars (ho : 0x2e ∉ o) (hroom : done.length < 4) (hlen : (cur ++ o).length ≤ 4) :
    octets done cur (o ++ t) = octets done (cur ++ o) t := by
  induction o generalizing cur with
  | nil => rw [nil_append, append_nil]
  | cons c o ih =>
    rw [length_append, length_cons] at hlen
    have hne : c ≠ 0x2e := fun h0 => ho (h0 ▸ mem_cons_self)
    have hgo : ¬(3 < done.length ∨ 3 < cur.length) := by omega
    rw [cons_append, octets, if_neg hgo, if_pos hne, ih (fun hm => ho (mem_cons_of_mem c hm))
      (by rw [length_append, length_append, length_singleton]; omega), append_assoc,
      singleton_append]

theorem octets_dot (ho : Octet 3 o) (hroom : done.length < 4) :
    octets done [] (o ++ 0x2e :: t) = octets (done ++ [o]) [] t := by
  have hshort := ho.short
  have hgo : ¬(3 < done.length ∨ 3 < o.length) := by omega
  rw [octets_chars ho.noDot hroom (by rw [nil_append]; omega), nil_append, octets, if_neg hgo,
    if_neg (fun h => h rfl), if_pos (ho.mono (by decide))]

def dotted (a b c d : List UInt8) : List UInt8 := a ++ 0x2e :: (b ++ 0x2e :: (c ++ 0x2e :: d))

def Quad (t : List UInt8) (z : UInt32) : Prop :=
  ∃ a b c d, t = dotted a b c d ∧ (∀ o ∈ [a, b, c, d], o ≠ [] ∧ Octet 3 o) ∧
    z.toNat = combined a b c d

/-- Close to an address: a dot at the end, an empty octet before the last, or four digits in the
last. -/
inductive Sloppy : List UInt8 → Prop
  | trailing {a b c d : List UInt8} (h : ∀ o ∈ [a, b, c, d], Octet 3 o) :
    Sloppy (dotted a b c d ++ [0x2e])
  | last {a b c d : List UInt8} (h : ∀ o ∈ [a, b, c], Octet 3 o) (hd : Octet 4 d) (hne : d ≠ [])
    (hodd : [] ∈ [a, b, c] ∨ d.length = 4) : Sloppy (dotted a b c d)

variable {a b c d : List UInt8}

theorem dots_three : dots [a, b, c] ++ d = dotted a b c d := by
  simp only [dots, dotted, flatMap_cons, flatMap_nil, append_nil, append_assoc, cons_append,
    nil_append]

theorem dots_four : dots [a, b, c, d] = dotted a b c d ++ [0x2e] := by
  simp only [dots, dotted, flatMap_cons, flatMap_nil, append_nil, append_assoc, cons_append,
    nil_append]

theorem octets_dotted (ha : Octet 3 a) (hb : Octet 3 b) (hc : Octet 3 c) :
    octets [] [] (dotted a b c t) = octets [a, b, c] [] t := by
  rw [dotted, octets_dot ha (show ([] : List (List UInt8)).length < 4 by decide), nil_append,
    octets_dot hb (show [a].length < 4 by simp), singleton_append,
    octets_dot hc (show [a, b].length < 4 by simp)]
  rfl

theorem octets_last (ha : Octet 3 a) (hb : Octet 3 b) (hc : Octet 3 c) (hd : Octet 4 d)
    (hne : d ≠ []) : octets [] [] (dotted a b c d) = some [a, b, c, d] := by
  have hchars := octets_chars (t := []) hd.noDot (show [a, b, c].length < 4 by simp)
    (show ([] ++ d).length ≤ 4 from hd.short)
  rw [append_nil] at hchars
  rw [octets_dotted ha hb hc, hchars, nil_append, octets, if_neg hne, if_pos hd]
  rfl

theorem octets_trailing (ha : Octet 3 a) (hb : Octet 3 b) (hc : Octet 3 c) (hd : Octet 3 d) :
    octets [] [] (dotted a b c d ++ [0x2e]) = some [a, b, c, d] := by
  have hassoc : dotted a b c d ++ [0x2e] = dotted a b c (d ++ 0x2e :: []) := by
    simp only [dotted, append_assoc, cons_append]
  rw [hassoc, octets_dotted ha hb hc, octets_dot hd (show [a, b, c].length < 4 by simp)]
  rfl

theorem address_eq_some {z : UInt32} (h : address os = some z) :
    ∃ a b c d, os = [a, b, c, d] ∧ z = UInt32.ofNat (combined a b c d) := by
  match os, h with
  | [a, b, c, d], h => exact ⟨a, b, c, d, rfl, (Option.some.inj h).symm⟩

theorem combined_lt (h : ∀ o ∈ [a, b, c, d], number o ≤ 255) : combined a b c d < 2 ^ 32 := by
  simp only [forall_mem_cons] at h
  obtain ⟨ha, hb, hc, hd, -⟩ := h
  rw [combined]
  omega

theorem accepted_cases {z : UInt32} (h : (octets [] [] t).bind address = some z) :
    Quad t z ∨ Sloppy t := by
  obtain ⟨os, hos, haddr⟩ := Option.bind_eq_some_iff.mp h
  obtain ⟨a, b, c, d, rfl, rfl⟩ := address_eq_some haddr
  rcases octets_sound hos (forall_mem_nil _) with ⟨heq, hall⟩ | ⟨os', e, hsplit, hne, he, hall, heq⟩
  · rw [dots_four] at heq
    obtain rfl : t = _ := heq
    exact Or.inr (.trailing hall)
  · obtain ⟨rfl, rfl⟩ : [a, b, c] = os' ∧ d = e := by
      have h' : [a, b, c] ++ [d] = os' ++ [e] := hsplit
      exact ⟨(append_inj' h' rfl).1, cons.inj (append_inj' h' rfl).2 |>.1⟩
    rw [dots_three] at heq
    obtain rfl : t = _ := heq
    by_cases hodd : [] ∈ [a, b, c] ∨ d.length = 4
    · exact Or.inr (.last hall he hne hodd)
    · obtain ⟨hfull, hlen⟩ := not_or.mp hodd
      have hshort := he.short
      have hd : Octet 3 d := ⟨by omega, he.digit, he.small⟩
      have hquad : ∀ o ∈ [a, b, c, d], o ≠ [] ∧ Octet 3 o := by
        intro o ho
        rcases mem_append.mp (show o ∈ [a, b, c] ++ [d] from ho) with ho | ho
        · exact ⟨fun h0 => hfull (h0 ▸ ho), hall o ho⟩
        · rw [mem_singleton] at ho
          exact ho ▸ ⟨hne, hd⟩
      exact Or.inl ⟨a, b, c, d, rfl, hquad,
        UInt32.toNat_ofNat_of_lt' (combined_lt fun o ho => (hquad o ho).2.small)⟩

theorem Quad.accepted {z : UInt32} (h : Quad t z) : (octets [] [] t).bind address = some z := by
  obtain ⟨a, b, c, d, rfl, hall, hz⟩ := h
  simp only [forall_mem_cons] at hall
  obtain ⟨⟨-, ha⟩, ⟨-, hb⟩, ⟨-, hc⟩, ⟨hne, hd⟩, -⟩ := hall
  rw [octets_last ha hb hc (hd.mono (by decide)) hne, Option.bind_some, address, ← hz,
    UInt32.ofNat_toNat]

theorem Sloppy.accepted (h : Sloppy t) : ∃ z, (octets [] [] t).bind address = some z := by
  cases h with
  | @trailing a b c d h =>
    simp only [forall_mem_cons] at h
    obtain ⟨ha, hb, hc, hd, -⟩ := h
    exact ⟨_, by rw [octets_trailing ha hb hc hd]; rfl⟩
  | @last a b c d h hd hne hodd =>
    simp only [forall_mem_cons] at h
    obtain ⟨ha, hb, hc, -⟩ := h
    exact ⟨_, by rw [octets_last ha hb hc hd hne]; rfl⟩

theorem splitOn_dotted (h : ∀ o ∈ [a, b, c, d], 0x2e ∉ o) :
    (dotted a b c d).splitOn 0x2e = [a, b, c, d] := by
  have hinter : dotted a b c d = intercalate [0x2e] [a, b, c, d] := by
    simp only [dotted, intercalate, intersperse, flatten_cons, flatten_nil, append_nil,
      singleton_append]
  rw [hinter]
  exact splitOn_intercalate 0x2e h (cons_ne_nil _ _)

theorem splitOn_trailing (h : ∀ o ∈ [a, b, c, d], 0x2e ∉ o) :
    (dotted a b c d ++ [0x2e]).splitOn 0x2e = [a, b, c, d, []] := by
  have hinter : dotted a b c d ++ [0x2e] = intercalate [0x2e] [a, b, c, d, []] := by
    simp only [dotted, intercalate, intersperse, flatten_cons, flatten_nil, append_nil,
      append_assoc, cons_append, nil_append]
  rw [hinter]
  refine splitOn_intercalate 0x2e ?_ (cons_ne_nil _ _)
  intro o ho
  rcases mem_append.mp (show o ∈ [a, b, c, d] ++ [[]] from ho) with ho | ho
  · exact h o ho
  · rw [mem_singleton.mp ho]
    exact not_mem_nil

theorem Sloppy.not_quad (h : Sloppy t) (z : UInt32) : ¬ Quad t z := by
  rintro ⟨a', b', c', d', heq, hall, -⟩
  have hsplit := splitOn_dotted fun o ho => (hall o ho).2.noDot
  rw [← heq] at hsplit
  cases h with
  | @trailing a b c d h =>
    rw [splitOn_trailing fun o ho => (h o ho).noDot] at hsplit
    cases hsplit
  | @last a b c d h hd hne hodd =>
    rw [splitOn_dotted] at hsplit
    · obtain ⟨rfl, h₁⟩ := cons.inj hsplit
      obtain ⟨rfl, h₂⟩ := cons.inj h₁
      obtain ⟨rfl, h₃⟩ := cons.inj h₂
      obtain ⟨rfl, -⟩ := cons.inj h₃
      rcases hodd with hempty | hlen
      · exact (hall [] (mem_append_left [d] hempty)).1 rfl
      · have hshort := (hall d (mem_append_right [a, b, c] mem_cons_self)).2.short
        omega
    · intro o ho
      rcases mem_append.mp (show o ∈ [a, b, c] ++ [d] from ho) with ho | ho
      · exact (h o ho).noDot
      · rw [mem_singleton.mp ho]
        exact hd.noDot

/-- Exactly the addresses are accepted, with their value. -/
def AcceptsQuads (junk : Nat → UInt8) (sx : Block UInt8) (t : List UInt8) : Prop :=
  ∃ r, parseIpv4 junk sx = some r ∧ ∀ z, r = some z ↔ Quad t z

/-- `parse_ipv4` stays inside its buffers, and decides whether the string is a dotted quad unless
the string is sloppy. -/
theorem parseIpv4_exact_iff (junk : Nat → UInt8) (hs : Terminated sx t) :
    AcceptsQuads junk sx t ↔ ¬ Sloppy t := by
  rw [AcceptsQuads, parseIpv4_spec junk hs]
  constructor
  · rintro ⟨r, hr, hiff⟩ hsloppy
    obtain rfl := Option.some.inj hr
    obtain ⟨z, hz⟩ := hsloppy.accepted
    exact hsloppy.not_quad z ((hiff z).mp hz)
  · intro hnot
    refine ⟨_, rfl, fun z => ⟨fun hz => ?_, Quad.accepted⟩⟩
    exact (accepted_cases hz).resolve_right hnot

theorem parseIpv4_exact_iff_quad : AcceptsQuads (fun _ => 0)
    (cstr [0x31, 0x2e, 0x32, 0x2e, 0x33, 0x2e, 0x34]) [0x31, 0x2e, 0x32, 0x2e, 0x33, 0x2e, 0x34] :=
  (parseIpv4_exact_iff _ (terminated_cstr (by decide))).mpr fun h => h.not_quad 0x01020304
    ⟨[0x31], [0x32], [0x33], [0x34], rfl, by decide, by decide⟩

/-- `1.2.3.4.`, `1..2.3` and `1.1.1.0001` are accepted. -/
theorem parseIpv4_accepts_sloppy :
    parseIpv4 (fun _ => 0) (cstr [0x31, 0x2e, 0x32, 0x2e, 0x33, 0x2e, 0x34, 0x2e]) =
        some (some 0x01020304) ∧
      parseIpv4 (fun _ => 0) (cstr [0x31, 0x2e, 0x2e, 0x32, 0x2e, 0x33]) =
        some (some 0x01000203) ∧
      parseIpv4 (fun _ => 0) (cstr [0x31, 0x2e, 0x31, 0x2e, 0x31, 0x2e, 0x30, 0x30, 0x30, 0x31]) =
        some (some 0x01010101) ∧
      ¬ AcceptsQuads (fun _ => 0) (cstr [0x31, 0x2e, 0x32, 0x2e, 0x33, 0x2e, 0x34, 0x2e])
        [0x31, 0x2e, 0x32, 0x2e, 0x33, 0x2e, 0x34, 0x2e] ∧
      ¬ AcceptsQuads (fun _ => 0) (cstr [0x31, 0x2e, 0x2e, 0x32, 0x2e, 0x33])
        [0x31, 0x2e, 0x2e, 0x32, 0x2e, 0x33] ∧
      ¬ AcceptsQuads (fun _ => 0)
        (cstr [0x31, 0x2e, 0x31, 0x2e, 0x31, 0x2e, 0x30, 0x30, 0x30, 0x31])
        [0x31, 0x2e, 0x31, 0x2e, 0x31, 0x2e, 0x30, 0x30, 0x30, 0x31] := by
  have hno : ∀ {junk sx t z}, Sloppy t → parseIpv4 junk sx = some (some z) →
      ¬ AcceptsQuads junk sx t := by
    rintro junk sx t z hsloppy hrun ⟨r, hr, hiff⟩
    rw [hrun] at hr
    exact hsloppy.not_quad z ((hiff z).mp (Option.some.inj hr).symm)
  have hdot : Sloppy (dotted [0x31] [0x32] [0x33] [0x34] ++ [0x2e]) := .trailing (by decide)
  have hempty : Sloppy (dotted [0x31] [] [0x32] [0x33]) :=
    .last (by decide) (by decide) (by decide) (Or.inl (by decide))
  have hlong : Sloppy (dotted [0x31] [0x31] [0x31] [0x30, 0x30, 0x30, 0x31]) :=
    .last (by decide) (by decide) (by decide) (Or.inr rfl)
  exact ⟨by decide, by decide, by decide, hno hdot (z := 0x01020304) (by decide),
    hno hempty (z := 0x01000203) (by decide), hno hlong (z := 0x01010101) (by decide)⟩

end PortableLib.ParseIp
