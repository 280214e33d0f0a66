import PortableLib.ConfigFile.Layout
import PortableLib.Ctype
import PortableLib.Errno

/-! Variables in a string replaced by their values, `gstring_var.c`. The lookup is a function of the
name, without its cookie. What `realloc` leaves in a block may differ from one character of the
string to the next. -/

namespace PortableLib.Gstring.VarExp
open List ConfigFile Escape
open Ctype (isalnum)

structure CString where
  chars : List UInt8
  nulFree : 0 ∉ chars

/-- `$`, `#`, `@`, `?`, `*`, `!`, `<`, `>`, `%`, `^`, `&`, `-`, `_`, `|`, `:` and `.` -/
def marks : List UInt8 :=
  [0x24, 0x23, 0x40, 0x3f, 0x2a, 0x21, 0x3c, 0x3e, 0x25, 0x5e, 0x26, 0x2d, 0x5f, 0x7c, 0x3a, 0x2e]

def isName (c : UInt8) : Bool := c ∈ marks || isalnum c

section
variable (junk : Nat → Nat → UInt8) (s : Block UInt8) (src : Nat)

/-- The loops of `getvar`, for the string that starts at `src`: the characters that are kept are
appended to `v`. -/
def collect (keep : UInt8 → Bool) : Nat → Nat → Gstr → Option (Gstr × Nat)
  | 0, _, _ => none
  | fuel + 1, i, v => do
    let c ← s.read (src + i)
    if c = 0 ∨ !keep c then return (v, i)
    let (v, _) ← gstrAppendCh (junk (src + i)) v (ofChar c)
    collect keep fuel (← toInt (i + 1)) v

def getvar (v : Gstr) : Option (Gstr × Nat) := do
  let v ← gstrReset v
  let c ← s.read src
  if c = 0 then return (v, 0)
  if c = 0x7b then
    if (← s.read (src + 1)) = 0 then return (v, 1)
    let (v, i) ← collect junk s src (fun c => c ≠ 0x7d) s.len 1 v
    let c ← s.read (src + i)
    let n ← toInt (i + 1)
    if c = 0x7d then return (v, n)
    -- no closing brace
    let v ← gstrReset v
    return (v, n)
  else collect junk s src isName s.len 0 v

end

@[simp] def varexpLoop (junk : Nat → Nat → UInt8) (find : List UInt8 → Option CString)
    (s : Block UInt8) : Nat → Nat → UInt8 → Gstr → Gstr → Option (Gstr × Int)
  | 0, _, _, _, _ => none
  | fuel + 1, p, prev, g, v => do
    let c ← s.read p
    if c = 0 then return (g, 0)
    if c ≠ 0x24 then
      let (g, _) ← gstrAppendCh (junk p) g (ofChar c)
      varexpLoop junk find s fuel (p + 1) c g v
    else if prev = 0x5c then
      let str ← g.str.write (g.len - 1).toNat 0x24
      varexpLoop junk find s fuel (p + 1) c { g with str := str } v
    else
      let (v, n) ← getvar junk s (p + 1) v
      if v.len = 0 then return (g, -Errno.einval.code)
      match find (← cstring v.str) with
      | none => return (g, -Errno.enoent.code)
      | some z =>
        let (g, _) ← gstrAppendStr (junk p) g (some z.chars)
        varexpLoop junk find s fuel (p + n + 1) c g v

def gstrVarexp (junk : Nat → Nat → UInt8) (find : List UInt8 → Option CString) (g₀ : Gstr) :
    Option (Gstr × Int) := do
  let g ← gstrInit g₀.len
  let v ← gstrInit 64
  let (g, r) ← varexpLoop junk find g₀.str g₀.str.len 0 0 g v
  if r = 0 then return (g, 0)
  let str ← g₀.str.write 0 0
  return ({ g₀ with str := str, len := 0 }, r)

/-! ## Templates -/

/-- A character, an escaped dollar, a name in braces or one without. -/
inductive Piece
  | lit (c : UInt8)
  | dollar
  | ref (name : List UInt8)
  | bare (name : List UInt8)
  deriving DecidableEq

def Piece.render : Piece → List UInt8
  | lit c => [c]
  | dollar => [0x5c, 0x24]
  | ref name => 0x24 :: 0x7b :: name ++ [0x7d]
  | bare name => 0x24 :: name

def render (ps : List Piece) : List UInt8 := ps.flatMap Piece.render

/-- The last character as `gstr_varexp` remembers it. -/
def Piece.last : Piece → UInt8
  | lit c => c
  | _ => 0x24

inductive Malformed : List UInt8 → Prop
  | last : Malformed [0x24]
  | empty (t : List UInt8) : Malformed (0x24 :: 0x7b :: 0x7d :: t)
  | unclosed (t : List UInt8) (h : 0x7d ∉ t) : Malformed (0x24 :: 0x7b :: t)
  | blank (c : UInt8) (t : List UInt8) (hc : isName c = false) (hb : c ≠ 0x7b) :
      Malformed (0x24 :: c :: t)

def Piece.Fits (prev : UInt8) (rest : List UInt8) : Piece → Prop
  | lit c => c ≠ 0x24
  | dollar => True
  | ref name => prev ≠ 0x5c ∧ name ≠ [] ∧ 0x7d ∉ name
  | bare name => prev ≠ 0x5c ∧ name ≠ [] ∧ (∀ c ∈ name, isName c = true) ∧
      ∀ c ∈ rest.head?, isName c = false

def Template : UInt8 → List Piece → List UInt8 → Prop
  | prev, [], tail => tail = [] ∨ prev ≠ 0x5c ∧ Malformed tail
  | prev, p :: ps, tail => p.Fits prev (render ps ++ tail) ∧ Template p.last ps tail

section
variable (find : List UInt8 → Option CString)

def Piece.value : Piece → List UInt8
  | lit c => [c]
  | dollar => [0x24]
  | ref name | bare name => (find name).elim [] CString.chars

def value (ps : List Piece) : List UInt8 := ps.flatMap (Piece.value find)

def Piece.name? : Piece → Option (List UInt8)
  | ref name | bare name => some name
  | _ => none

def names (ps : List Piece) : List (List UInt8) := ps.filterMap Piece.name?

end

def outcome (find : List UInt8 → Option CString) (ps : List Piece) (tail : List UInt8) : Int :=
  if ∃ name ∈ names ps, (find name).isNone then -Errno.enoent.code
  else if tail = [] then 0
  else -Errno.einval.code

/-! ## Names -/

variable {junk : Nat → Nat → UInt8} {s : Block UInt8} {pre name rest acc out tail : List UInt8}
  {g v : Gstr} {find : List UInt8 → Option CString} {src i fuel : Nat} {keep : UInt8 → Bool}

theorem toUInt8_ofChar (c : UInt8) : (ofChar c).toUInt8 = c := by
  have hc := c.toNat_lt
  rw [← UInt8.toNat_inj, UInt32.toNat_toUInt8]
  by_cases hlt : c < 0x80
  · rw [ofChar_of_lt hlt]
    omega
  · rw [ofChar_of_not_lt hlt]
    omega

theorem toInt_of_lt {n : Nat} (h : n < 2 ^ 31) : toInt n = some n := if_pos h

theorem collect_spec (junk : Nat → Nat → UInt8) (keep : UInt8 → Bool) (fuel : Nat)
    (hs : Terminated s (pre ++ (name ++ rest))) (hpre : pre.length = src + i)
    (hname : ∀ c ∈ name, keep c = true) (hrest : ∀ c ∈ rest.head?, keep c = false)
    (hv : Holds v acc) (hshort : acc.length + name.length < 2 ^ 31)
    (hint : i + name.length < 2 ^ 31) (hfuel : name.length < fuel) :
    ∃ v', collect junk s src keep fuel i v = some (v', i + name.length) ∧
      Holds v' (acc ++ name) := by
  induction name generalizing pre i v acc fuel with
  | nil =>
    obtain ⟨fuel, rfl⟩ := Nat.exists_eq_add_of_lt hfuel
    have hread : s.read (src + i) = some (rest.headD 0) := hpre ▸ hs.read_headD
    have hstop : rest.headD 0 = 0 ∨ (!keep (rest.headD 0)) = true := by
      cases rest with
      | nil => exact Or.inl rfl
      | cons c t => exact Or.inr (by rw [headD_cons, hrest c rfl]; rfl)
    refine ⟨v, ?_, by rwa [append_nil]⟩
    rw [collect, hread]
    simp only [Option.bind_eq_bind, Option.bind_some, if_pos hstop]
    rfl
  | cons c name ih =>
    obtain ⟨fuel, rfl⟩ := Nat.exists_eq_add_of_lt hfuel
    obtain ⟨hc, hname⟩ := forall_mem_cons.mp hname
    rw [length_cons] at hshort hint
    have hread : s.read (src + i) = some c := hpre ▸ hs.read
    have hc0 : c ≠ 0 := fun h0 => hs.nulFree (h0 ▸ mem_append_right pre mem_cons_self)
    have hgo : ¬ (c = 0 ∨ (!keep c) = true) := by
      rw [hc]
      exact fun h => h.elim hc0 Bool.false_ne_true
    obtain ⟨w, hw, hwv⟩ := gstrAppendCh_spec (junk (src + i)) hv
      (show (ofChar c).toUInt8 ≠ 0 by rwa [toUInt8_ofChar]) (by omega)
    rw [toUInt8_ofChar] at hwv
    obtain ⟨v', hv', hall⟩ := @ih (pre ++ [c]) (acc ++ [c]) w (i + 1) ((c :: name).length + fuel)
      (by rwa [append_assoc]) (by rw [length_append, hpre, length_singleton, Nat.add_assoc]) hname
      hwv (by rw [length_append, length_singleton]; omega) (by omega)
      (by rw [length_cons]; omega)
    refine ⟨v', ?_, by rwa [append_assoc] at hall⟩
    rw [collect, hread]
    simp only [Option.bind_eq_bind, Option.bind_some, if_neg hgo, hw,
      toInt_of_lt (show i + 1 < 2 ^ 31 by omega), hv']
    rw [length_cons, Nat.add_assoc, Nat.add_comm 1]

/-- A string that can be reset. -/
structure Usable (v : Gstr) : Prop where
  block : v.str.len = v.cap.toNat
  pos : 0 < v.cap.toNat

theorem usable_of_holds (h : Holds v acc) : Usable v :=
  ⟨h.block, Nat.zero_lt_of_lt h.room⟩

theorem Usable.reset (h : Usable v) : ∃ w, gstrReset v = some w ∧ Holds w [] := by
  obtain ⟨w, hw, hempty, -⟩ := gstrReset_spec h.block h.pos
  exact ⟨w, hw, hempty⟩

section
variable (hv : Usable v)
include hv

theorem getvar_brace (junk : Nat → Nat → UInt8)
    (hs : Terminated s (pre ++ 0x7b :: (name ++ rest))) (hname : 0x7d ∉ name)
    (hrest : ∀ c ∈ rest.head?, c = 0x7d) (hne : name ++ rest ≠ [])
    (hint : name.length + 2 < 2 ^ 31) :
    ∃ v', Holds v' name ∧ getvar junk s pre.length v =
      if rest.headD 0 = 0x7d then some (v', name.length + 2)
      else (gstrReset v').bind fun w => some (w, name.length + 2) := by
  obtain ⟨w, hw, hempty⟩ := hv.reset
  have hbrace : s.read pre.length = some 0x7b := hs.read
  have hs' : Terminated s ((pre ++ [0x7b]) ++ (name ++ rest)) := by rwa [append_assoc]
  have hlen : (pre ++ [0x7b]).length = pre.length + 1 := length_append
  obtain ⟨c, t, hct⟩ := exists_cons_of_ne_nil hne
  have hfirst : s.read (pre.length + 1) = some c := by
    rw [hct] at hs'
    exact hlen ▸ hs'.read
  have hc : c ≠ 0 := fun h0 => hs'.nulFree (by rw [hct, h0]; simp)
  have hroom := hs.room
  rw [length_append, length_cons, length_append] at hroom
  obtain ⟨v', hcol, hv'⟩ := collect_spec junk (fun c => c ≠ 0x7d) s.len
    hs' hlen (fun c hc => decide_eq_true (ne_of_mem_of_not_mem hc hname))
    (fun c hc => decide_eq_false (not_not_intro (hrest c hc))) hempty
    (by rw [length_nil]; omega) (by omega) (by omega)
  rw [nil_append] at hv'
  have hend : s.read (pre.length + (1 + name.length)) = some (rest.headD 0) := by
    rw [← append_assoc] at hs'
    have := hs'.read_headD
    rwa [length_append, hlen, Nat.add_assoc] at this
  refine ⟨v', hv', ?_⟩
  rw [getvar, hw, hbrace]
  simp only [Option.bind_eq_bind, Option.bind_some, hfirst, hc, hcol, hend, if_true, if_false,
    toInt_of_lt (show 1 + name.length + 1 < 2 ^ 31 by omega),
    show (0x7b : UInt8) ≠ 0 by decide]
  rw [show 1 + name.length + 1 = name.length + 2 by omega]
  rfl

theorem getvar_ref (junk : Nat → Nat → UInt8)
    (hs : Terminated s (pre ++ 0x7b :: (name ++ 0x7d :: rest)))
    (hname : 0x7d ∉ name) (hint : name.length + 2 < 2 ^ 31) :
    ∃ v', getvar junk s pre.length v = some (v', name.length + 2) ∧ Holds v' name := by
  obtain ⟨v', hv', hrun⟩ := getvar_brace hv junk hs hname (fun c hc => (Option.some.inj hc).symm)
    (by simp) hint
  exact ⟨v', hrun, hv'⟩

theorem getvar_bare (junk : Nat → Nat → UInt8) (hs : Terminated s (pre ++ (name ++ rest)))
    (hname : ∀ c ∈ name, isName c = true) (hrest : ∀ c ∈ rest.head?, isName c = false)
    (hbrace : (name ++ rest).headD 0 ≠ 0x7b) (hint : name.length < 2 ^ 31) :
    ∃ v', getvar junk s pre.length v = some (v', name.length) ∧ Holds v' name := by
  obtain ⟨w, hw, hempty⟩ := hv.reset
  have hfirst := hs.read_headD
  by_cases hzero : (name ++ rest).headD 0 = 0
  · -- the string ends after the dollar
    obtain rfl : name = [] := by
      cases name with
      | nil => rfl
      | cons c name =>
        obtain rfl : c = 0 := hzero
        exact absurd (hname 0 mem_cons_self) (by decide)
    refine ⟨w, ?_, hempty⟩
    rw [getvar, hw, hfirst]
    simp only [Option.bind_eq_bind, Option.bind_some, hzero, if_true]
    rfl
  · have hroom := hs.room
    rw [length_append, length_append] at hroom
    obtain ⟨v', hcol, hv'⟩ := collect_spec junk isName s.len hs
      (show pre.length = pre.length + 0 from rfl) hname hrest hempty
      (by rwa [length_nil, Nat.zero_add]) (by omega) (by omega)
    rw [nil_append] at hv'
    refine ⟨v', ?_, hv'⟩
    rw [getvar, hw, hfirst]
    simp only [Option.bind_eq_bind, Option.bind_some, hzero, hbrace, if_false, hcol, Nat.zero_add]

theorem getvar_malformed (junk : Nat → Nat → UInt8) (hs : Terminated s (pre ++ rest))
    (h : Malformed (0x24 :: rest))
    (hint : ∀ t, rest = 0x7b :: t → 0x7d ∉ t → t.length + 2 < 2 ^ 31) :
    ∃ v' n, getvar junk s pre.length v = some (v', n) ∧ Holds v' [] := by
  cases h with
  | last =>
    obtain ⟨v', hrun, hv'⟩ := getvar_bare hv junk (show Terminated s (pre ++ ([] ++ [])) from hs)
      (fun c hc => by cases hc) (fun c hc => by cases hc) (by decide) (by decide)
    exact ⟨v', _, hrun, hv'⟩
  | empty t =>
    obtain ⟨v', hrun, hv'⟩ := getvar_ref hv junk
      (show Terminated s (pre ++ 0x7b :: ([] ++ 0x7d :: t)) from hs) not_mem_nil (by decide)
    exact ⟨v', _, hrun, hv'⟩
  | unclosed t ht =>
    by_cases hne : t = []
    · subst hne
      obtain ⟨w, hw, hempty⟩ := hv.reset
      have hbrace : s.read pre.length = some 0x7b := hs.read
      have hend : s.read (pre.length + 1) = some 0 := by
        rw [← length_singleton (a := (0x7b : UInt8)), ← length_append]
        exact hs.read_end
      refine ⟨w, 1, ?_, hempty⟩
      rw [getvar, hw, hbrace]
      simp only [Option.bind_eq_bind, Option.bind_some, hend, if_true,
        show (0x7b : UInt8) ≠ 0 by decide, if_false]
      rfl
    · obtain ⟨v', hv', hrun⟩ := getvar_brace hv junk
        (show Terminated s (pre ++ 0x7b :: (t ++ [])) by rwa [append_nil]) ht
        (fun c hc => by cases hc) (by rwa [append_nil]) (hint t rfl ht)
      obtain ⟨w, hw, hempty⟩ := (usable_of_holds hv').reset
      rw [if_neg (by decide), hw, Option.bind_some] at hrun
      exact ⟨w, _, hrun, hempty⟩
  | blank c t hc hb =>
    obtain ⟨v', hrun, hv'⟩ := getvar_bare hv junk
      (show Terminated s (pre ++ ([] ++ c :: t)) from hs) (fun c hc => by cases hc)
      (fun c' hc' => Option.some.inj hc' ▸ hc) hb (by decide)
    exact ⟨v', _, hrun, hv'⟩

end

section
variable {p : Piece} {prev : UInt8}

theorem Piece.value_of_name (hname : p.name? = some name) :
    p.value find = (find name).elim [] CString.chars := by
  cases p <;> cases hname <;> rfl

theorem Piece.Fits.of_name (h : p.Fits prev rest) (hname : p.name? = some name) :
    prev ≠ 0x5c ∧ name ≠ [] ∧ p.last = 0x24 := by
  cases p <;> cases hname
  · exact ⟨h.1, h.2.1, rfl⟩
  · exact ⟨h.1, h.2.1, rfl⟩

theorem getvar_piece (hv : Usable v) (junk : Nat → Nat → UInt8)
    (hs : Terminated s (pre ++ (p.render ++ rest))) (hfits : p.Fits prev rest)
    (hname : p.name? = some name) (hint : name.length + 2 < 2 ^ 31) :
    ∃ body v', p.render = 0x24 :: body ∧
      getvar junk s (pre.length + 1) v = some (v', body.length) ∧ Holds v' name := by
  have hlen : (pre ++ [0x24]).length = pre.length + 1 := length_append
  cases p with
  | lit c => cases hname
  | dollar => cases hname
  | ref name =>
    cases hname
    have heq : (Piece.ref name).render ++ rest = [0x24] ++ 0x7b :: (name ++ 0x7d :: rest) := by
      simp [Piece.render]
    rw [heq, ← append_assoc] at hs
    obtain ⟨v', hget, hv'⟩ := getvar_ref hv junk hs hfits.2.2 hint
    refine ⟨0x7b :: name ++ [0x7d], v', rfl, ?_, hv'⟩
    rw [← hlen, hget, cons_append, length_cons, length_append, length_singleton]
  | bare name =>
    cases hname
    obtain ⟨-, hne, hall, hnext⟩ := hfits
    obtain ⟨c, t, rfl⟩ := exists_cons_of_ne_nil hne
    have hs' : Terminated s ((pre ++ [0x24]) ++ (c :: t ++ rest)) := by
      rw [append_assoc]
      exact hs
    have hc : c ≠ 0x7b := by
      rintro rfl
      exact absurd (hall 0x7b mem_cons_self) (by decide)
    obtain ⟨v', hget, hv'⟩ := getvar_bare hv junk hs' hall hnext hc (by omega)
    exact ⟨c :: t, v', rfl, hlen ▸ hget, hv'⟩

end

/-! ## One piece -/

section
variable {prev c : UInt8} {n : Nat}

theorem varexpLoop_end (hs : Terminated s pre) :
    varexpLoop junk find s (fuel + 1) pre.length prev g v = some (g, 0) := by
  rw [varexpLoop, hs.read_end]
  rfl

theorem varexpLoop_lit (junk : Nat → Nat → UInt8) (hs : Terminated s (pre ++ c :: rest))
    (hc : c ≠ 0x24) (hg : Carries g out) (hfit : out.length + 2 ≤ 2 ^ 63) :
    ∃ g', Carries g' (out ++ [c]) ∧ ∀ find fuel prev v,
      varexpLoop junk find s (fuel + 1) pre.length prev g v =
        varexpLoop junk find s fuel (pre ++ [c]).length c g' v := by
  have hc0 : c ≠ 0 := fun h0 => hs.nulFree (h0 ▸ mem_append_right pre mem_cons_self)
  obtain ⟨g', hg', hcar⟩ := hg.appendCh_fits (junk pre.length)
    (show (ofChar c).toUInt8 ≠ 0 by rwa [toUInt8_ofChar]) hfit
  rw [toUInt8_ofChar] at hcar
  refine ⟨g', hcar, fun find fuel prev v => ?_⟩
  rw [varexpLoop, hs.read]
  simp only [Option.bind_eq_bind, Option.bind_some, if_neg hc0, hc, ne_eq, not_false_eq_true,
    if_true, hg', length_append, length_singleton]

theorem varexpLoop_escaped {x : UInt8} (hs : Terminated s (pre ++ 0x24 :: rest))
    (hg : Carries g (out ++ [x])) :
    ∃ g', Carries g' (out ++ [0x24]) ∧ ∀ junk find fuel v,
      varexpLoop junk find s (fuel + 1) pre.length 0x5c g v =
        varexpLoop junk find s fuel (pre ++ [0x24]).length 0x24 g' v := by
  obtain ⟨str, hstr, hcar⟩ := hg.writeLast (show (0x24 : UInt8) ≠ 0 by decide)
  refine ⟨{ g with str := str }, hcar, fun junk find fuel v => ?_⟩
  rw [varexpLoop, hs.read]
  simp only [Option.bind_eq_bind, Option.bind_some, show (0x24 : UInt8) ≠ 0 by decide, if_false,
    ne_eq, not_true_eq_false, if_true, hstr, length_append, length_singleton]

theorem varexpLoop_name {v' : Gstr} (hs : Terminated s (pre ++ 0x24 :: rest)) (hprev : prev ≠ 0x5c)
    (hget : getvar junk s (pre.length + 1) v = some (v', n)) (hname : Holds v' name) :
    varexpLoop junk find s (fuel + 1) pre.length prev g v =
      if name = [] then some (g, -Errno.einval.code)
      else match find name with
        | none => some (g, -Errno.enoent.code)
        | some z => (gstrAppendStr (junk pre.length) g (some z.chars)).bind fun r =>
          varexpLoop junk find s fuel (pre.length + n + 1) 0x24 r.1 v' := by
  have hlen : v'.len = 0 ↔ name = [] := by
    rw [← UInt64.toNat_inj, hname.len_eq]
    exact length_eq_zero_iff
  rw [varexpLoop, hs.read]
  simp only [Option.bind_eq_bind, Option.bind_some, show (0x24 : UInt8) ≠ 0 by decide, if_false,
    ne_eq, not_true_eq_false, hprev, hget, hlen, cstring_spec hname.term]
  split
  · rfl
  · cases find name <;> rfl

theorem varexpLoop_missing {p : Piece} (hv : Usable v)
    (hs : Terminated s (pre ++ (p.render ++ rest))) (hfits : p.Fits prev rest)
    (hname : p.name? = some name) (hint : name.length + 2 < 2 ^ 31) (hfind : find name = none) :
    varexpLoop junk find s (fuel + 1) pre.length prev g v = some (g, -Errno.enoent.code) := by
  obtain ⟨hprev, hne, -⟩ := hfits.of_name hname
  obtain ⟨body, v', hbody, hget, hv'⟩ := getvar_piece hv junk hs hfits hname hint
  rw [hbody] at hs
  rw [varexpLoop_name hs hprev hget hv', if_neg hne, hfind]

theorem varexpLoop_piece (junk : Nat → Nat → UInt8) {p : Piece} (hv : Usable v)
    (hs : Terminated s (pre ++ (p.render ++ rest))) (hfits : p.Fits prev rest)
    (hg : Carries g out) (hfit : out.length + (p.value find).length + 2 ≤ 2 ^ 63)
    (hfound : ∀ name ∈ p.name?, ∃ z, find name = some z ∧ name.length + 2 < 2 ^ 31 ∧
      z.chars.length + 1 < 2 ^ 31) :
    ∃ g' v' k, Carries g' (out ++ p.value find) ∧ Usable v' ∧ k ≤ p.render.length ∧ ∀ fuel,
      varexpLoop junk find s (fuel + k) pre.length prev g v =
        varexpLoop junk find s fuel (pre ++ p.render).length p.last g' v' := by
  cases hname : p.name? with
  | some name =>
    obtain ⟨z, hfind, hint, hvalue⟩ := hfound name hname
    obtain ⟨hprev, hne, hlast⟩ := hfits.of_name hname
    obtain ⟨body, v', hbody, hget, hv'⟩ := getvar_piece hv junk hs hfits hname hint
    rw [Piece.value_of_name hname, hfind, Option.elim_some] at hfit ⊢
    rw [hbody] at hs
    obtain ⟨g', hg', hcar⟩ := hg.append_fits (junk pre.length) (terminated_cstr z.nulFree)
      (toNat_ofNat (show z.chars.length < 2 ^ 31 by omega)) (by omega) hfit
    refine ⟨g', v', 1, hcar, usable_of_holds hv', hbody ▸ Nat.succ_le_succ (Nat.zero_le _),
      fun fuel => ?_⟩
    rw [varexpLoop_name hs hprev hget hv', if_neg hne, hfind]
    dsimp only
    rw [gstrAppendStr, hg', Option.bind_some, hbody, hlast, length_append, length_cons,
      Nat.add_assoc]
  | none =>
    cases p with
    | lit c =>
      obtain ⟨g', hg', hrun⟩ := varexpLoop_lit junk hs hfits hg (by omega)
      exact ⟨g', v, 1, hg', hv, Nat.le_refl 1, fun fuel => hrun find fuel prev v⟩
    | dollar =>
      -- the backslash is written first
      obtain ⟨g₁, hg₁, hrun₁⟩ := varexpLoop_lit junk
        (show Terminated s (pre ++ 0x5c :: 0x24 :: rest) from hs) (by decide) hg (by omega)
      have hs' : Terminated s ((pre ++ [0x5c]) ++ 0x24 :: rest) := by
        rw [append_assoc]
        exact hs
      obtain ⟨g', hg', hrun⟩ := varexpLoop_escaped hs' hg₁
      refine ⟨g', v, 2, hg', hv, Nat.le_refl 2, fun fuel => ?_⟩
      rw [hrun₁, hrun, append_assoc]
      rfl
    | ref name => cases hname
    | bare name => cases hname

end

/-! ## The whole string -/

section
variable {p : Piece} {ps : List Piece}

theorem render_cons : render (p :: ps) ++ tail = p.render ++ (render ps ++ tail) := by
  rw [render, flatMap_cons, append_assoc, ← render]

theorem outcome_cons (h : ∀ name ∈ p.name?, ∃ z, find name = some z) :
    outcome find (p :: ps) tail = outcome find ps tail := by
  cases hname : p.name? with
  | none => rw [outcome, names, filterMap_cons_none hname, ← names, outcome]
  | some name =>
    obtain ⟨z, hz⟩ := h name hname
    rw [outcome, names, filterMap_cons_some hname, ← names]
    simp only [mem_cons, exists_eq_or_imp, hz, Option.isNone_some, Bool.false_eq_true, false_or]
    rw [outcome]

theorem outcome_cons_of_missing (h : p.name? = some name) (hz : find name = none) :
    outcome find (p :: ps) tail = -Errno.enoent.code := by
  rw [outcome, names, filterMap_cons_some h, if_pos ⟨name, mem_cons_self, by rw [hz]; rfl⟩]

end

/-- The sizes for which the code does not overflow an `int` and blocks can be had. -/
structure Sized (find : List UInt8 → Option CString) (ps : List Piece) (tail : List UInt8) :
    Prop where
  name_lt : ∀ name ∈ names ps, name.length + 2 < 2 ^ 31
  value_lt : ∀ name ∈ names ps, ∀ z ∈ find name, z.chars.length + 1 < 2 ^ 31
  unclosed : ∀ t, tail = 0x24 :: 0x7b :: t → 0x7d ∉ t → t.length + 2 < 2 ^ 31

theorem Sized.of_cons {p : Piece} {ps : List Piece} (h : Sized find (p :: ps) tail) :
    Sized find ps tail := by
  have hmem : ∀ name ∈ names ps, name ∈ names (p :: ps) := by
    intro name hname
    obtain ⟨q, hq, hqname⟩ := mem_filterMap.mp hname
    exact mem_filterMap.mpr ⟨q, mem_cons_of_mem p hq, hqname⟩
  exact ⟨fun name hname => h.name_lt name (hmem name hname),
    fun name hname => h.value_lt name (hmem name hname), h.unclosed⟩

theorem varexpLoop_template (junk : Nat → Nat → UInt8) {ps : List Piece} {prev : UInt8}
    (hs : Terminated s (pre ++ (render ps ++ tail))) (ht : Template prev ps tail)
    (hg : Carries g out) (hv : Usable v) (hsize : Sized find ps tail)
    (hfit : out.length + (value find ps).length + 2 ≤ 2 ^ 63)
    (hfuel : (render ps ++ tail).length < fuel) :
    ∃ g', varexpLoop junk find s fuel pre.length prev g v = some (g', outcome find ps tail) ∧
      (outcome find ps tail = 0 → Carries g' (out ++ value find ps)) := by
  induction ps generalizing pre prev g v out fuel with
  | nil =>
    obtain ⟨fuel, rfl⟩ := Nat.exists_eq_add_of_lt hfuel
    have hnames : ¬ ∃ name ∈ names [], (find name).isNone = true := fun ⟨_, hn, _⟩ => by cases hn
    rw [outcome, if_neg hnames]
    rcases ht with rfl | ⟨hprev, hbad⟩
    · refine ⟨g, ?_, fun _ => by rwa [value, flatMap_nil, append_nil]⟩
      rw [if_pos rfl]
      rw [render, flatMap_nil, append_nil, append_nil] at hs
      exact varexpLoop_end hs
    -- a name that is not closed ends the loop with an error
    · obtain ⟨t, rfl⟩ : ∃ t, tail = 0x24 :: t := by cases hbad <;> exact ⟨_, rfl⟩
      rw [if_neg (cons_ne_nil _ _)]
      have hs' : Terminated s ((pre ++ [0x24]) ++ t) := by
        rw [append_assoc]
        exact hs
      obtain ⟨v', n, hget, hv'⟩ := getvar_malformed hv junk hs' hbad
        (fun u hu => hsize.unclosed u (congrArg _ hu))
      rw [length_append, length_singleton] at hget
      refine ⟨g, ?_, fun h0 => absurd h0 (by decide)⟩
      exact (varexpLoop_name hs hprev hget hv').trans (if_pos rfl)
  | cons p ps ih =>
    obtain ⟨hfits, ht⟩ := ht
    have hmem : ∀ name ∈ p.name?, name ∈ names (p :: ps) := fun name hname =>
      mem_filterMap.mpr ⟨p, mem_cons_self, hname⟩
    rw [render_cons] at hs hfuel
    rw [value, flatMap_cons, ← value] at hfit ⊢
    rw [length_append] at hfit hfuel
    -- a name without a value ends it as well, whatever comes after
    by_cases hmiss : ∃ name ∈ p.name?, find name = none
    · obtain ⟨name, hname, hnone⟩ := hmiss
      obtain ⟨fuel, rfl⟩ := Nat.exists_eq_add_of_lt hfuel
      rw [outcome_cons_of_missing hname hnone]
      exact ⟨g, varexpLoop_missing hv hs hfits hname (hsize.name_lt name (hmem name hname)) hnone,
        fun h0 => absurd h0 (by decide)⟩
    · have hfound : ∀ name ∈ p.name?, ∃ z, find name = some z := fun name hname =>
        Option.ne_none_iff_exists'.mp fun hnone => hmiss ⟨name, hname, hnone⟩
      obtain ⟨g', v', k, hg', hv', hk, hrun⟩ := varexpLoop_piece junk hv hs hfits hg
        (show out.length + (p.value find).length + 2 ≤ 2 ^ 63 by omega) fun name hname => by
          obtain ⟨z, hz⟩ := hfound name hname
          exact ⟨z, hz, hsize.name_lt name (hmem name hname),
            hsize.value_lt name (hmem name hname) z hz⟩
      obtain ⟨fuel, rfl⟩ : ∃ n, fuel = n + k := ⟨fuel - k, by omega⟩
      rw [outcome_cons hfound, hrun, ← append_assoc]
      exact ih (by rwa [append_assoc]) ht hg' hv' hsize.of_cons (by rw [length_append]; omega)
        (by omega)

theorem gstrVarexp_template (junk : Nat → Nat → UInt8) {g₀ : Gstr} {ps : List Piece}
    (hg₀ : Carries g₀ (render ps ++ tail)) (ht : Template 0 ps tail) (hsize : Sized find ps tail)
    (hlen : (render ps ++ tail).length < 2 ^ 63) (hfit : (value find ps).length + 2 ≤ 2 ^ 63) :
    ∃ g', gstrVarexp junk find g₀ = some (g', outcome find ps tail) ∧
      Carries g' (if outcome find ps tail = 0 then value find ps else []) := by
  obtain ⟨g, hg, hgl⟩ := gstrInit_spec (show g₀.len.toNat < 2 ^ 63 by rwa [hg₀.len_eq])
  obtain ⟨v, hv, hvl⟩ := gstrInit_spec (show (64 : UInt64).toNat < 2 ^ 63 by decide)
  obtain ⟨g', hrun, hcar⟩ := varexpLoop_template junk
    (show Terminated g₀.str ([] ++ (render ps ++ tail)) from hg₀.term) ht hgl.carries
    (usable_of_holds hvl) hsize (by rwa [length_nil, Nat.zero_add]) hg₀.term.room
  rw [length_nil] at hrun
  rw [gstrVarexp, hg, hv]
  simp only [Option.bind_eq_bind, Option.bind_some, hrun]
  by_cases h0 : outcome find ps tail = 0
  · rw [if_pos h0, if_pos h0]
    exact ⟨g', by rw [h0]; rfl, hcar h0⟩
  · rw [if_neg h0, if_neg h0]
    have hpos : 0 < g₀.str.len := Nat.zero_lt_of_lt hg₀.term.room
    obtain ⟨str, hstr, hsl, hzero, -⟩ := Block.write_spec hpos (0 : UInt8)
    exact ⟨⟨str, 0, g₀.cap⟩, by rw [hstr]; rfl, hsl.trans hg₀.block, rfl, hsl ▸ hpos, rfl, hzero,
      not_mem_nil⟩

/-! ## Every string -/

theorem exists_piece {l : List UInt8} {prev : UInt8} (hne : l ≠ [])
    (hl : prev = 0x5c → l.head? ≠ some 0x24) :
    (prev ≠ 0x5c ∧ Malformed l) ∨ ∃ p : Piece, ∃ rest, l = p.render ++ rest ∧ p.Fits prev rest ∧
      (p.last = 0x5c → rest.head? ≠ some 0x24) := by
  obtain ⟨c, t, rfl⟩ := exists_cons_of_ne_nil hne
  by_cases hc : c = 0x24
  · subst hc
    have hprev : prev ≠ 0x5c := fun h => hl h rfl
    have hlast : (0x24 : UInt8) ≠ 0x5c := by decide
    rcases t with - | ⟨d, t⟩
    · exact Or.inl ⟨hprev, .last⟩
    by_cases hd : d = 0x7b
    · subst hd
      by_cases hclose : 0x7d ∈ t
      · obtain ⟨name, rest, rfl, hname⟩ := eq_append_cons_of_mem hclose
        by_cases hempty : name = []
        · subst hempty
          exact Or.inl ⟨hprev, .empty rest⟩
        · exact Or.inr ⟨.ref name, rest, by simp [Piece.render], ⟨hprev, hempty, hname⟩,
            fun h => absurd h hlast⟩
      · exact Or.inl ⟨hprev, .unclosed t hclose⟩
    · cases hname : isName d with
      | false => exact Or.inl ⟨hprev, .blank d t hname hd⟩
      | true =>
        refine Or.inr ⟨.bare ((d :: t).takeWhile isName), (d :: t).dropWhile isName, ?_,
          ⟨hprev, ?_, fun c hc => mem_takeWhile_imp hc, fun c hc => ?_⟩, fun h => absurd h hlast⟩
        · rw [Piece.render, cons_append, takeWhile_append_dropWhile]
        · rw [takeWhile_cons_of_pos hname]
          exact cons_ne_nil _ _
        · have := head?_dropWhile_not isName (d :: t)
          rw [Option.mem_def.mp hc] at this
          exact this
  · by_cases hesc : c = 0x5c ∧ t.head? = some 0x24
    · obtain ⟨rfl, ht⟩ := hesc
      obtain ⟨rest, rfl⟩ := head?_eq_some_iff.mp ht
      exact Or.inr ⟨.dollar, rest, rfl, trivial, fun h => absurd h (by decide)⟩
    · exact Or.inr ⟨.lit c, t, rfl, hc, fun h ht => hesc ⟨h, ht⟩⟩

theorem exists_template {l : List UInt8} {prev : UInt8} (hl : prev = 0x5c → l.head? ≠ some 0x24) :
    ∃ ps tail, l = render ps ++ tail ∧ Template prev ps tail := by
  induction hn : l.length using Nat.strong_induction_on generalizing l prev with
  | _ n ih =>
    by_cases hne : l = []
    · exact ⟨[], [], hne, Or.inl rfl⟩
    rcases exists_piece hne hl with hbad | ⟨p, rest, rfl, hfits, hlast⟩
    · exact ⟨[], l, rfl, Or.inr hbad⟩
    have hshort : rest.length < n := by
      have hpos : 0 < p.render.length := by cases p <;> exact Nat.zero_lt_succ _
      rw [← hn, length_append]
      omega
    obtain ⟨ps, tail, rfl, ht⟩ := ih rest.length hshort hlast rfl
    exact ⟨p :: ps, tail, by rw [render, render, flatMap_cons, append_assoc], hfits, ht⟩

theorem gstrVarexp_exact (junk : Nat → Nat → UInt8) (find : List UInt8 → Option CString)
    {g₀ : Gstr} {l : List UInt8} (hg₀ : Carries g₀ l) (hlen : l.length < 2 ^ 63) :
    (∃ ps tail, l = render ps ++ tail ∧ Template 0 ps tail) ∧
      ∀ ps tail, l = render ps ++ tail → Template 0 ps tail → Sized find ps tail →
        (value find ps).length + 2 ≤ 2 ^ 63 →
        ∃ g' r, gstrVarexp junk find g₀ = some (g', r) ∧
          ((∀ name ∈ names ps, (find name).isSome) → tail = [] →
            r = 0 ∧ Carries g' (value find ps)) ∧
          ((∃ name ∈ names ps, find name = none) → r = -Errno.enoent.code ∧ Carries g' []) ∧
          ((∀ name ∈ names ps, (find name).isSome) → tail ≠ [] →
            r = -Errno.einval.code ∧ Carries g' []) := by
  refine ⟨exists_template fun h => absurd h (by decide), ?_⟩
  rintro ps tail rfl ht hsize hfit
  obtain ⟨g', hrun, hcar⟩ := gstrVarexp_template junk hg₀ ht hsize hlen hfit
  have hfound : (∀ name ∈ names ps, (find name).isSome) →
      outcome find ps tail = if tail = [] then 0 else -Errno.einval.code := by
    intro hall
    rw [outcome, if_neg]
    rintro ⟨name, hname, hnone⟩
    have hsome := hall name hname
    rw [Option.isNone_iff_eq_none.mp hnone] at hsome
    exact Bool.false_ne_true hsome
  refine ⟨g', _, hrun, fun hall htail => ?_, fun hmiss => ?_, fun hall htail => ?_⟩
  · have hout := hfound hall
    rw [if_pos htail] at hout
    rw [if_pos hout] at hcar
    exact ⟨hout, hcar⟩
  · obtain ⟨name, hname, hnone⟩ := hmiss
    have hout : outcome find ps tail = -Errno.enoent.code :=
      if_pos ⟨name, hname, Option.isNone_iff_eq_none.mpr hnone⟩
    rw [if_neg (by rw [hout]; decide)] at hcar
    exact ⟨hout, hcar⟩
  · have hout := hfound hall
    rw [if_neg htail] at hout
    rw [if_neg (by rw [hout]; decide)] at hcar
    exact ⟨hout, hcar⟩

theorem gstrVarexp_exact_x :
    ∃ g', gstrVarexp (fun _ _ => 9)
        (fun name => if name = [0x61] then some ⟨[0x78], by decide⟩ else none)
        ⟨cstr [0x5c, 0x24, 0x24, 0x7b, 0x61, 0x7d], 6, 7⟩ = some (g', 0) ∧
      Carries g' [0x24, 0x78] := by
  obtain ⟨g', r, hrun, hfound, -⟩ := (gstrVarexp_exact (fun _ _ => 9)
    (fun name => if name = [0x61] then some ⟨[0x78], by decide⟩ else none)
    (show Carries ⟨cstr [0x5c, 0x24, 0x24, 0x7b, 0x61, 0x7d], 6, 7⟩ _ from
      ⟨rfl, rfl, terminated_cstr (by decide)⟩) (by decide)).2 [.dollar, .ref [0x61]] [] rfl
    ⟨trivial, ⟨by decide, by decide, by decide⟩, Or.inl rfl⟩
    ⟨by decide, by simp [names, Piece.name?], nofun⟩ (by decide)
  obtain ⟨rfl, hcar⟩ := hfound (by decide) rfl
  exact ⟨g', hrun, hcar⟩

/-- `$$` is a reference to the name `$`, and the capacity for a value of 2³¹ - 1 bytes overflows. -/
theorem gstrVarexp_dollars :
    (((gstrInitFrom (some [0x24, 0x24])).bind (gstrVarexp (fun _ _ => 0) fun _ => none)).map
        Prod.snd = some (-Errno.enoent.code) ∧
      ((gstrInitFrom (some [0x24, 0x24])).bind
        (gstrVarexp (fun _ _ => 0) fun _ => some ⟨[], not_mem_nil⟩)).map Prod.snd = some 0) ∧
    ∃ z, (gstrInitFrom (some [0x24, 0x7b, 0x61, 0x7d])).bind
      (gstrVarexp (fun _ _ => 0) fun _ => some z) = none := by
  refine ⟨⟨by decide, by decide⟩, ?_⟩
  have hnul : (0 : UInt8) ∉ replicate (2 ^ 31 - 1) 0x61 :=
    fun h0 => absurd (eq_of_mem_replicate h0) (by decide)
  obtain ⟨g₀, hg₀, hcar⟩ : ∃ g₀, gstrInitFrom (some [0x24, 0x7b, 0x61, 0x7d]) = some g₀ ∧
      Holds g₀ [0x24, 0x7b, 0x61, 0x7d] :=
    initGstr_spec (terminated_cstr (by decide)) rfl (by decide)
  have hg : gstrInit g₀.len = some ⟨⟨8, fun _ => 0⟩, 0, 8⟩ := by
    rw [hcar.carries.len_of_short (by decide)]
    rfl
  have hgrow : growIf (fun _ => 0) ⟨⟨8, fun _ => 0⟩, 0, 8⟩ (UInt64.ofNat (2 ^ 31 - 1) + 1) =
      none := rfl
  obtain ⟨v, hv, hvl⟩ := gstrInit_spec (show (64 : UInt64).toNat < 2 ^ 63 by decide)
  obtain ⟨v', hget, hv'⟩ := getvar_ref (usable_of_holds hvl) (fun _ _ => 0)
    (show Terminated g₀.str ([0x24] ++ 0x7b :: ([0x61] ++ 0x7d :: [])) from hcar.term) (by decide)
    (by decide)
  obtain ⟨k, hk⟩ := Nat.exists_eq_succ_of_ne_zero (Nat.ne_zero_of_lt hcar.term.room)
  have hloop : varexpLoop (fun _ _ => 0) (fun _ => some ⟨_, hnul⟩) g₀.str (k + 1) 0 0
      ⟨⟨8, fun _ => 0⟩, 0, 8⟩ v = none := by
    refine (varexpLoop_name (show Terminated g₀.str ([] ++ _) from hcar.term) (by decide) hget
      hv').trans ?_
    rw [if_neg (cons_ne_nil _ _)]
    simp only [gstrAppendStr, append, length_replicate, hgrow, Option.bind_eq_bind,
      Option.bind_none]
  refine ⟨⟨_, hnul⟩, ?_⟩
  rw [hg₀, Option.bind_some, gstrVarexp, hg, hv]
  simp only [Option.bind_eq_bind, Option.bind_some, hk]
  exact congrArg (Option.bind · _) hloop

end PortableLib.Gstring.VarExp
