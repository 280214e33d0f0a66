import PortableLib.Gstring.Escape
import PortableLib.Gstring.Refinement
import PortableLib.StrUnquote

/-! Three operations of `gstring.c` that keep the length and the capacity by formulas of their own:
`gstr_copy`, `gstr_unquote` and `gstr_readline`. A stream is the bytes up to its end. -/

namespace PortableLib.Gstring
open List TypeUtils Escape
open StrUnquote (IsQuote)

def gstrCopy (junk : Nat → UInt8) (dest src : Gstr) : Option Gstr := do
  let len := src.len
  let dest := { dest with len := 0 }
  let dest ← growIf junk dest (len + 1)
  let str ← dest.str.copy 0 src.str (len + 1).toNat
  return { dest with str := str }

def gstrUnquote (g : Gstr) : Option (Gstr × Int) := do
  let q ← g.str.read 0
  if ¬ IsQuote q then return (g, 0)
  if (← g.str.read (g.len - 1).toNat) ≠ q then return (g, -1)
  let g := { g with len := g.len - 1 }
  let str ← g.str.write g.len.toNat 0
  let str ← str.copy 0 (str.shift 1) g.len.toNat
  return ({ g with str := str }, q.toNat)

def doubled (junk : Nat → UInt8) (g : Gstr) : Option Gstr :=
  if g.len ≥ g.cap then
    let newcap := g.cap * 2
    if newcap = 0 then none
    else some { g with str := g.str.realloc newcap.toNat junk, cap := newcap }
  else some g

def readlineLoop (junk : Nat → Nat → UInt8) (d : Block UInt32) (g : Gstr) :
    List UInt8 → Option Gstr
  | [] => some g
  | c :: fp => do
    let g ← doubled (junk fp.length) g
    if ← isDelim d c.toUInt32 then return g
    let str ← g.str.write g.len.toNat c
    readlineLoop junk d { g with str := str, len := g.len + 1 } fp

def gstrReadline (junk : Nat → Nat → UInt8) (g : Gstr) (fp tok : List UInt8) :
    Option (Gstr × Int) := do
  let d ← tok.foldlM (fun d c => addDelim d (ofChar c)) ⟨8, fun _ => 0⟩
  let g ← readlineLoop junk d { g with len := 0 } fp
  let str ← g.str.write g.len.toNat 0
  return ({ g with str := str }, (Int32.ofNat g.len.toNat).toInt)

variable {g src : Gstr} {l m p fp tok : List UInt8} {junk : Nat → UInt8} {d : Block UInt32}

theorem gstrCopy_empty (hblock : g.str.len = g.cap.toNat) (hsrc : Carries src []) :
    ∃ g', gstrCopy junk g src = some g' ∧ Carries g' [] := by
  have hlen : src.len = 0 := UInt64.toNat_inj.mp hsrc.len_eq
  obtain ⟨w, hw, hblock', hlen', hroom⟩ : ∃ w, growIf junk { g with len := 0 } 1 = some w ∧
      w.str.len = w.cap.toNat ∧ w.len = 0 ∧ 0 < w.cap.toNat := by
    have hwant : (0 : UInt64) + asInt 1 + 1 = 2 := by decide
    rw [growIf]
    dsimp only
    rw [hwant]
    by_cases hcap : g.cap < 2
    · have htwo : nextPow2 2 = 2 := by decide
      rw [if_pos hcap, htwo, if_neg (by decide)]
      exact ⟨_, rfl, rfl, rfl, Nat.zero_lt_two⟩
    · have hle := Nat.not_lt.mp fun h => hcap (UInt64.lt_iff_toNat_lt.mpr h)
      rw [if_neg hcap]
      exact ⟨_, rfl, hblock, rfl, Nat.lt_of_lt_of_le (by decide) hle⟩
  obtain ⟨str, hstr, hsl, -, hnew⟩ := Block.copy_spec (show 0 + 1 ≤ w.str.len by omega)
    (show 1 ≤ src.str.len from hsrc.term.room)
  refine ⟨{ w with str := str }, ?_, hsl.trans hblock', ?_, ⟨?_, rfl, ?_, not_mem_nil⟩⟩
  · rw [gstrCopy, hlen]
    simp only [Option.bind_eq_bind, UInt64.zero_add, hw, Option.bind_some]
    rw [show (1 : UInt64).toNat = 1 from rfl, hstr]
    rfl
  · rw [hlen']
    rfl
  · rw [hsl, hblock']
    exact hroom
  · exact (hnew 0 (by decide)).trans hsrc.term.nul

theorem growIf_len {n : UInt64} {w : Gstr} (h : growIf junk g n = some w) : w.len = g.len := by
  rw [growIf] at h
  dsimp only at h
  split at h
  · split at h
    · cases h
    · cases h
      rfl
  · cases h
    rfl

theorem gstrCopy_len {w : Gstr} (h : gstrCopy junk g src = some w) : w.len = 0 := by
  rw [gstrCopy] at h
  obtain ⟨w₁, hw₁, h⟩ := Option.bind_eq_some_iff.mp h
  obtain ⟨str, -, h⟩ := Option.bind_eq_some_iff.mp h
  cases h
  exact growIf_len hw₁

theorem gstrCopy_iff (hg : Carries g l) (hsrc : Carries src m) :
    (∃ g', gstrCopy junk g src = some g' ∧ Carries g' m) ↔ m = [] := by
  constructor
  · rintro ⟨w, hw, hm⟩
    have hlen := hm.len_eq
    rw [gstrCopy_len hw] at hlen
    exact length_eq_zero_iff.mp hlen.symm
  · rintro rfl
    exact gstrCopy_empty hg.block hsrc

/-- The string stays one, and if it is quoted, what was between the quotes is left. -/
def Unquotes (g : Gstr) (l : List UInt8) : Prop :=
  ∃ g' r l', gstrUnquote g = some (g', r) ∧ Carries g' l' ∧
    ∀ q body, IsQuote q → l = q :: body ++ [q] → l' = body

theorem gstrUnquote_of_not_isQuote (h : Carries g l) (hq : ¬ IsQuote (l.headD 0)) :
    gstrUnquote g = some (g, 0) := by
  have hread : g.str.read 0 = some (l.headD 0) := Terminated.read_headD (p := []) h.term
  rw [gstrUnquote, hread]
  simp only [Option.bind_eq_bind, Option.bind_some, hq, not_false_eq_true, if_true]
  rfl

section
variable {q : UInt8} {t : List UInt8}

theorem gstrUnquote_cons (h : Carries g (q :: t)) (hq : IsQuote q) :
    (g.len - 1).toNat = t.length ∧ gstrUnquote g =
      if (q :: t).getLast? ≠ some q then some (g, -1)
      else (g.str.write t.length 0).bind fun str =>
        (str.copy 0 (str.shift 1) t.length).bind fun str =>
          some (⟨str, g.len - 1, g.cap⟩, (q.toNat : Int)) := by
  have hread : g.str.read 0 = some q := Terminated.read (p := []) h.term
  have hlen : (g.len - 1).toNat = t.length := by
    have hle : (1 : UInt64) ≤ g.len := by
      rw [UInt64.le_iff_toNat_le, h.len_eq, length_cons]
      exact Nat.le_add_left _ _
    rw [UInt64.toNat_sub_of_le _ _ hle, h.len_eq]
    rfl
  have hlt : t.length < (q :: t).length := Nat.lt_succ_self _
  have hend : (q :: t).getLast? = some (q :: t)[t.length] := by
    rw [getLast?_eq_getElem?, length_cons, Nat.add_sub_cancel, getElem?_eq_getElem hlt]
  have hlast : g.str.read t.length = some (q :: t)[t.length] := by
    rw [Block.read_of_lt (hlt.trans h.term.room), h.term.cell hlt]
  refine ⟨hlen, ?_⟩
  rw [gstrUnquote, hread, hend]
  simp only [Option.bind_eq_bind, Option.bind_some, hq, not_true_eq_false, if_false, hlast, hlen,
    ne_eq, Option.some.injEq]
  rfl

theorem gstrUnquote_single (h : Carries g [q]) (hq : IsQuote q) :
    ∃ g' r, gstrUnquote g = some (g', r) ∧ Carries g' [] := by
  obtain ⟨hlen, hrun⟩ := gstrUnquote_cons h hq
  have hroom : 0 < g.str.len := Nat.zero_lt_of_lt h.term.room
  obtain ⟨str, hstr, hsl, hzero, -⟩ := Block.write_spec hroom (0 : UInt8)
  have hcopy : str.copy 0 (str.shift 1) 0 = some str := by
    rw [Block.copy_of_le (Nat.zero_le _) (Nat.zero_le _)]
    congr 1
  refine ⟨⟨str, g.len - 1, g.cap⟩, q.toNat, ?_, hsl.trans h.block, hlen, ?_, rfl, hzero,
    not_mem_nil⟩
  · rw [hrun, if_neg (not_not_intro getLast?_singleton), length_nil, hstr, Option.bind_some, hcopy,
      Option.bind_some]
  · rw [hsl]
    exact hroom

theorem gstrUnquote_quoted {body : List UInt8} (h : Carries g (q :: body ++ [q])) (hq : IsQuote q)
    {g' : Gstr} {r : Int} (hr : gstrUnquote g = some (g', r)) : ¬ Carries g' body := by
  obtain ⟨hlen, hrun⟩ := gstrUnquote_cons (t := body ++ [q]) h hq
  have hlast : (q :: (body ++ [q])).getLast? = some q := getLast?_concat (l := q :: body)
  rw [hrun, if_neg (not_not_intro hlast)] at hr
  obtain ⟨str, -, hr⟩ := Option.bind_eq_some_iff.mp hr
  obtain ⟨str', -, hr⟩ := Option.bind_eq_some_iff.mp hr
  cases hr
  intro hbody
  have := hlen.symm.trans hbody.len_eq
  rw [length_append, length_singleton] at this
  omega

theorem gstrUnquote_iff (h : Carries g l) :
    Unquotes g l ↔ ¬ ∃ q body, IsQuote q ∧ l = q :: body ++ [q] := by
  constructor
  · rintro ⟨g', r, l', hr, hl', hbody⟩ ⟨q, body, hq, rfl⟩
    exact gstrUnquote_quoted h hq hr (hbody q body hq rfl ▸ hl')
  · intro hnone
    have hvacuous : ∀ l', ∀ q body, IsQuote q → l = q :: body ++ [q] → l' = body :=
      fun _ q body hq heq => absurd ⟨q, body, hq, heq⟩ hnone
    by_cases hq : IsQuote (l.headD 0)
    · cases l with
      | nil => exact absurd hq (by decide)
      | cons q t =>
        by_cases hlast : (q :: t).getLast? = some q
        · obtain rfl : t = [] := by
            by_contra hne
            rw [getLast?_cons_of_ne_nil hne] at hlast
            exact hnone ⟨q, t.dropLast, hq, by
              rw [cons_append, dropLast_append_getLast? q hlast]⟩
          obtain ⟨g', r, hr, hl'⟩ := gstrUnquote_single h hq
          exact ⟨g', r, [], hr, hl', hvacuous []⟩
        · have hrun := (gstrUnquote_cons h hq).2
          rw [if_pos hlast] at hrun
          exact ⟨g, -1, _, hrun, h, hvacuous _⟩
    · exact ⟨g, 0, l, gstrUnquote_of_not_isQuote h hq, h, hvacuous l⟩

end

structure Stores (g : Gstr) (p : List UInt8) : Prop where
  block : g.str.len = g.cap.toNat
  pos : 0 < g.cap.toNat
  len_eq : g.len.toNat = p.length
  room : p.length ≤ g.cap.toNat
  bytes : (range p.length).map g.str.cells = p
  nulFree : 0 ∉ p

theorem Stores.ge_iff (h : Stores g p) : g.len ≥ g.cap ↔ p.length = g.cap.toNat := by
  rw [ge_iff_le, UInt64.le_iff_toNat_le, h.len_eq]
  exact ⟨fun hle => Nat.le_antisymm h.room hle, fun heq => heq.ge⟩

theorem Stores.doubled_of_lt (h : Stores g p) (hlt : p.length < g.cap.toNat) :
    doubled junk g = some g := if_neg (h.ge_iff.not.mpr hlt.ne)

theorem toNat_double (cap : UInt64) : (cap * 2).toNat = cap.toNat * 2 % 2 ^ 64 :=
  UInt64.toNat_mul cap 2

theorem Stores.doubled_of_eq (junk : Nat → UInt8) (h : Stores g p) (heq : p.length = g.cap.toNat)
    (hfit : g.cap.toNat * 2 < 2 ^ 64) :
    ∃ w, doubled junk g = some w ∧ Stores w p ∧ w.cap.toNat = g.cap.toNat * 2 := by
  have hcap : (g.cap * 2).toNat = g.cap.toNat * 2 := by
    rw [toNat_double, Nat.mod_eq_of_lt hfit]
  have hpos := h.pos
  have hne : g.cap * 2 ≠ 0 := by
    intro h0
    rw [h0] at hcap
    exact absurd hcap (by change ¬ 0 = _; omega)
  refine ⟨⟨g.str.realloc (g.cap * 2).toNat junk, g.len, g.cap * 2⟩, ?_, ⟨rfl, ?_, h.len_eq, ?_, ?_,
    h.nulFree⟩, hcap⟩
  · rw [doubled, if_pos (h.ge_iff.mpr heq)]
    dsimp only
    rw [if_neg hne]
  · dsimp only
    omega
  · dsimp only
    omega
  · refine (map_range_congr fun i hi => ?_).trans h.bytes
    exact if_pos (hi.trans_le (h.room.trans_eq h.block.symm))

theorem Stores.doubled_of_ge (h : Stores g p) (heq : p.length = g.cap.toNat)
    (hbig : ¬ g.cap.toNat * 2 < 2 ^ 64) {w : Gstr} (hw : doubled junk g = some w) (c : UInt8) :
    w.str.write w.len.toNat c = none := by
  rw [doubled, if_pos (h.ge_iff.mpr heq)] at hw
  dsimp only at hw
  split at hw
  · cases hw
  · cases hw
    have hcap := toNat_double g.cap
    have hmax := g.cap.toNat_lt
    have hlen := h.len_eq
    exact if_neg (by change ¬ g.len.toNat < (g.cap * 2).toNat; omega)

theorem Stores.put (h : Stores g p) (hlt : p.length < g.cap.toNat) {c : UInt8} (hc : c ≠ 0) :
    ∃ str, g.str.write g.len.toNat c = some str ∧
      Stores { g with str := str, len := g.len + 1 } (p ++ [c]) := by
  have hlen := h.len_eq
  have hmax := g.cap.toNat_lt
  obtain ⟨str, hstr, hsl, hput, hkeep⟩ := Block.write_spec (b := g.str) (i := g.len.toNat)
    (by rw [h.block, hlen]; exact hlt) c
  refine ⟨str, hstr, hsl.trans h.block, h.pos, ?_, ?_, ?_, ?_⟩
  · rw [UInt64.toNat_add, length_append, length_singleton, show (1 : UInt64).toNat = 1 from rfl]
    omega
  · rw [length_append, length_singleton]
    exact hlt
  · rw [length_append, length_singleton, range_succ, map_append, map_singleton]
    congr 1
    · refine (map_range_congr fun i hi => ?_).trans h.bytes
      exact hkeep i (by omega)
    · rw [← hlen, hput]
  · exact fun h0 => (mem_append.mp h0).elim h.nulFree fun h1 => hc (mem_singleton.mp h1).symm

theorem Stores.finish (h : Stores g p) :
    (∃ str, g.str.write g.len.toNat 0 = some str ∧ Carries { g with str := str } p) ↔
      p.length < g.cap.toNat := by
  constructor
  · rintro ⟨str, hstr, -⟩
    rw [← h.len_eq, ← h.block]
    exact (Block.eq_of_write hstr).1
  · intro hlt
    have hlen := h.len_eq
    obtain ⟨str, hstr, hsl, hnul, hkeep⟩ := Block.write_spec (b := g.str) (i := g.len.toNat)
      (by rw [h.block, hlen]; exact hlt) (0 : UInt8)
    refine ⟨str, hstr, hsl.trans h.block, hlen, ?_, ?_, ?_, h.nulFree⟩
    · rw [hsl, h.block]
      exact hlt
    · exact (map_range_congr fun i hi => hkeep i (by omega)).trans h.bytes
    · rw [← hlen, hnul]

def line (tok fp : List UInt8) : List UInt8 := fp.takeWhile (· ∉ tok)

/-- The capacities that are used up on the way to `n` characters can all be doubled. -/
def Doubles (cap n : Nat) : Prop := ∀ k, cap * 2 ^ k ≤ n → cap * 2 ^ (k + 1) < 2 ^ 64

/-- The block is full with `n` characters. -/
def Fills (cap n : Nat) : Prop := ∃ k, n = cap * 2 ^ k

section
variable {cap n : Nat}

theorem le_mul_two_pow (cap k : Nat) : cap ≤ cap * 2 ^ k :=
  Nat.le_mul_of_pos_right cap (Nat.two_pow_pos k)

theorem doubles_of_lt (h : n < cap) : Doubles cap n := fun k hk =>
  absurd (h.trans_le ((le_mul_two_pow cap k).trans hk)) (Nat.lt_irrefl n)

theorem not_fills_of_lt (h : n < cap) : ¬ Fills cap n := by
  rintro ⟨k, rfl⟩
  exact absurd (le_mul_two_pow cap k) (Nat.not_le.mpr h)

theorem doubles_iff (h : cap ≤ n) : Doubles cap n ↔ cap * 2 < 2 ^ 64 ∧ Doubles (cap * 2) n := by
  have hpow : ∀ k, cap * 2 * 2 ^ k = cap * 2 ^ (k + 1) := by
    intro k
    rw [Nat.mul_assoc, Nat.pow_succ']
  constructor
  · intro hall
    refine ⟨hall 0 (by rwa [Nat.pow_zero, Nat.mul_one]), fun k hk => ?_⟩
    rw [hpow] at hk ⊢
    exact hall (k + 1) hk
  · rintro ⟨hzero, hall⟩ k hk
    cases k with
    | zero => exact hzero
    | succ k =>
      rw [← hpow] at hk ⊢
      exact hall k hk

theorem fills_iff (h : cap < n) : Fills cap n ↔ Fills (cap * 2) n := by
  have hpow : ∀ k, cap * 2 * 2 ^ k = cap * 2 ^ (k + 1) := by
    intro k
    rw [Nat.mul_assoc, Nat.pow_succ']
  constructor
  · rintro ⟨k, rfl⟩
    cases k with
    | zero => exact absurd h (by rw [Nat.pow_zero, Nat.mul_one]; exact Nat.lt_irrefl cap)
    | succ k => exact ⟨k, (hpow k).symm⟩
  · rintro ⟨k, rfl⟩
    exact ⟨k + 1, hpow k⟩

end

theorem isDelim_byte (hd : Delims d tok) (htok : ∀ c ∈ tok, c < 0x80) (c : UInt8) :
    isDelim d c.toUInt32 = some (decide (c ∈ tok)) := by
  have hlt : c.toUInt32.toNat < 256 := by
    rw [UInt8.toNat_toUInt32]
    exact c.toNat_lt
  rw [isDelim_spec hd hlt]
  refine congrArg some (decide_eq_decide.mpr ⟨?_, fun hc => ⟨c, hc, if_pos (htok c hc)⟩⟩)
  rintro ⟨c', hc', heq⟩
  rw [ofChar, if_pos (htok c' hc')] at heq
  exact UInt8.toUInt32_inj.mp heq ▸ hc'

section
variable {junk : Nat → Nat → UInt8}

def Finishes (junk : Nat → Nat → UInt8) (d : Block UInt32) (g : Gstr) (fp l : List UInt8) : Prop :=
  ∃ w, readlineLoop junk d g fp = some w ∧
    ∃ str, w.str.write w.len.toNat 0 = some str ∧ Carries { w with str := str } l

theorem finishes_of_delim (hd : Delims d tok) (htok : ∀ c ∈ tok, c < 0x80) {c : UInt8}
    (hc : c ∈ tok) (h : Stores g p) :
    Finishes junk d g (c :: fp) p ↔ Doubles g.cap.toNat p.length := by
  have hdelim := isDelim_byte hd htok c
  rw [decide_eq_true hc] at hdelim
  have hrun : ∀ {w}, doubled (junk fp.length) g = some w →
      readlineLoop junk d g (c :: fp) = some w := by
    intro w hw
    rw [readlineLoop, hw]
    simp only [Option.bind_eq_bind, Option.bind_some, hdelim, if_true]
    rfl
  by_cases hlt : p.length < g.cap.toNat
  · refine iff_of_true ⟨g, hrun (h.doubled_of_lt hlt), h.finish.mpr hlt⟩ (doubles_of_lt hlt)
  · have heq := Nat.le_antisymm h.room (Nat.not_lt.mp hlt)
    rw [doubles_iff heq.ge]
    by_cases hfit : g.cap.toNat * 2 < 2 ^ 64
    · obtain ⟨w, hw, hwp, hcap⟩ := h.doubled_of_eq (junk fp.length) heq hfit
      have hpos := h.pos
      exact iff_of_true ⟨w, hrun hw, hwp.finish.mpr (by omega)⟩ ⟨hfit, doubles_of_lt (by omega)⟩
    · refine iff_of_false ?_ fun hc => hfit hc.1
      rintro ⟨w, hw, str, hstr, -⟩
      cases hdbl : doubled (junk fp.length) g with
      | none =>
        rw [readlineLoop, hdbl] at hw
        cases hw
      | some w' =>
        obtain rfl := Option.some.inj ((hrun hdbl).symm.trans hw)
        rw [h.doubled_of_ge heq hfit hdbl] at hstr
        cases hstr

theorem readlineLoop_store (hd : Delims d tok) (htok : ∀ c ∈ tok, c < 0x80) {c : UInt8}
    (hc : c ∉ tok) {w : Gstr} (hw : doubled (junk fp.length) g = some w) :
    readlineLoop junk d g (c :: fp) = (w.str.write w.len.toNat c).bind fun str =>
      readlineLoop junk d { w with str := str, len := w.len + 1 } fp := by
  rw [readlineLoop, hw]
  simp only [Option.bind_eq_bind, Option.bind_some, isDelim_byte hd htok, decide_eq_false hc,
    Bool.false_eq_true, if_false]

theorem finishes_store (hd : Delims d tok) (htok : ∀ c ∈ tok, c < 0x80) {c : UInt8} (hc : c ∉ tok)
    (hc0 : c ≠ 0) {w : Gstr} (hw : doubled (junk fp.length) g = some w) (hwp : Stores w p)
    (hlt : p.length < w.cap.toNat) : ∃ w', Stores w' (p ++ [c]) ∧ w'.cap = w.cap ∧
      ∀ l, Finishes junk d g (c :: fp) l ↔ Finishes junk d w' fp l := by
  obtain ⟨str, hstr, hput⟩ := hwp.put hlt hc0
  refine ⟨_, hput, rfl, fun l => ?_⟩
  rw [Finishes, readlineLoop_store hd htok hc hw, hstr, Option.bind_some, Finishes]

theorem readlineLoop_iff (junk : Nat → Nat → UInt8) (hd : Delims d tok) (htok : ∀ c ∈ tok, c < 0x80)
    (h : Stores g p) (hfp : 0 ∉ fp) :
    Finishes junk d g fp (p ++ line tok fp) ↔
      Doubles g.cap.toNat (p ++ line tok fp).length ∧
        ((∃ c ∈ fp, c ∈ tok) ∨ ¬ Fills g.cap.toNat (p ++ line tok fp).length) := by
  induction fp generalizing g p with
  | nil =>
    have hnone : ¬ ∃ c ∈ ([] : List UInt8), c ∈ tok := fun ⟨c, hc, _⟩ => by cases hc
    rw [line, takeWhile_nil, append_nil, or_iff_right hnone]
    have hrun : Finishes junk d g [] p ↔ p.length < g.cap.toNat := by
      rw [← h.finish]
      exact ⟨fun ⟨w, hw, hfin⟩ => Option.some.inj hw ▸ hfin, fun hfin => ⟨g, rfl, hfin⟩⟩
    rw [hrun]
    constructor
    · exact fun hlt => ⟨doubles_of_lt hlt, not_fills_of_lt hlt⟩
    · rintro ⟨-, hfills⟩
      refine Nat.lt_of_le_of_ne h.room fun heq => hfills ⟨0, ?_⟩
      rw [heq, Nat.pow_zero, Nat.mul_one]
  | cons c fp ih =>
    obtain ⟨hc0, hfp⟩ := not_or.mp (mem_cons.not.mp hfp)
    by_cases hc : c ∈ tok
    · have hline : line tok (c :: fp) = [] := takeWhile_cons_of_neg (by simpa using hc)
      rw [hline, append_nil, finishes_of_delim hd htok hc h]
      exact (and_iff_left (Or.inl ⟨c, mem_cons_self, hc⟩)).symm
    have hline : p ++ line tok (c :: fp) = p ++ [c] ++ line tok fp := by
      rw [line, takeWhile_cons_of_pos (by simpa using hc), append_assoc, singleton_append, line]
    have hdelim : (∃ c' ∈ c :: fp, c' ∈ tok) ↔ ∃ c' ∈ fp, c' ∈ tok := by
      simp only [mem_cons, exists_eq_or_imp, hc, false_or]
    rw [hline, hdelim]
    have hlen : p.length < (p ++ [c] ++ line tok fp).length := by
      simp only [length_append, length_singleton]
      omega
    by_cases hlt : p.length < g.cap.toNat
    · obtain ⟨w, hw, hcap, hiff⟩ :=
        finishes_store hd htok hc (Ne.symm hc0) (h.doubled_of_lt hlt) h hlt
      rw [hiff, ih hw hfp, hcap]
    -- the block is full, and a larger one is needed
    have heq := Nat.le_antisymm h.room (Nat.not_lt.mp hlt)
    rw [doubles_iff (heq ▸ hlen.le), fills_iff (heq ▸ hlen)]
    by_cases hfit : g.cap.toNat * 2 < 2 ^ 64
    · have hpos := h.pos
      obtain ⟨w, hw, hwp, hcap⟩ := h.doubled_of_eq (junk fp.length) heq hfit
      obtain ⟨w', hw', hcap', hiff⟩ :=
        finishes_store hd htok hc (Ne.symm hc0) hw hwp (by omega)
      rw [hiff, ih hw' hfp, hcap', hcap, and_iff_right hfit]
    · refine iff_of_false ?_ fun hall => hfit hall.1.1
      rintro ⟨w, hw, -⟩
      cases hdbl : doubled (junk fp.length) g with
      | none =>
        rw [readlineLoop, hdbl] at hw
        cases hw
      | some w' =>
        rw [readlineLoop_store hd htok hc hdbl, h.doubled_of_ge heq hfit hdbl] at hw
        cases hw

/-- The string becomes the next line of the stream. -/
def ReadsLine (junk : Nat → Nat → UInt8) (g : Gstr) (fp tok : List UInt8) : Prop :=
  ∃ g' r, gstrReadline junk g fp tok = some (g', r) ∧ Carries g' (line tok fp)

theorem gstrReadline_iff (h : Carries g l) (hfp : 0 ∉ fp) :
    ReadsLine junk g fp tok ↔ (∀ c ∈ tok, c < 0x80) ∧
      Doubles g.cap.toNat (line tok fp).length ∧
        ((∃ c ∈ fp, c ∈ tok) ∨ ¬ Fills g.cap.toNat (line tok fp).length) := by
  by_cases htok : ∀ c ∈ tok, c < 0x80
  · obtain ⟨d, hd, hdelims⟩ := delims_spec delims_empty htok
    rw [nil_append] at hdelims
    have hstart : Stores { g with len := 0 } [] := by
      have hroom := h.term.room
      exact ⟨h.block, Nat.zero_lt_of_lt (h.block ▸ hroom), rfl, Nat.zero_le _, rfl, not_mem_nil⟩
    have hloop := readlineLoop_iff junk hdelims htok hstart hfp
    rw [nil_append] at hloop
    rw [and_iff_right htok, ← hloop]
    constructor
    · rintro ⟨g', r, hr, hg'⟩
      rw [gstrReadline, hd] at hr
      simp only [Option.bind_eq_bind, Option.bind_some] at hr
      obtain ⟨w, hw, hr⟩ := Option.bind_eq_some_iff.mp hr
      obtain ⟨str, hstr, hr⟩ := Option.bind_eq_some_iff.mp hr
      cases hr
      exact ⟨w, hw, str, hstr, hg'⟩
    · rintro ⟨w, hw, str, hstr, hg'⟩
      refine ⟨{ w with str := str }, (Int32.ofNat w.len.toNat).toInt, ?_, hg'⟩
      rw [gstrReadline, hd]
      simp only [Option.bind_eq_bind, Option.bind_some, hw, hstr]
      rfl
  · refine iff_of_false ?_ fun hc => htok hc.1
    rintro ⟨g', r, hr, -⟩
    have hbad : ∃ c ∈ tok, ¬ c < 0x80 := by
      by_contra hno
      exact htok fun c hc => by_contra fun hlt => hno ⟨c, hc, hlt⟩
    rw [gstrReadline, delims_eq_none delims_empty hbad] at hr
    cases hr

/-- `gstr_copy` gives a string with the contents of the source exactly if that is empty,
`gstr_unquote` leaves a string, and the body of a quoted one, exactly if it is not quoted, and
`gstr_readline` reads the line exactly if the delimiters are ASCII, the capacities on the way can be
doubled, and at the end of the file the block is not full. -/
theorem gstr_keeps_iff (junkCopy : Nat → UInt8) (hg : Carries g l) (hsrc : Carries src m)
    (hfp : 0 ∉ fp) :
    ((∃ g', gstrCopy junkCopy g src = some g' ∧ Carries g' m) ↔ m = []) ∧
      (Unquotes g l ↔ ¬ ∃ q body, IsQuote q ∧ l = q :: body ++ [q]) ∧
      (ReadsLine junk g fp tok ↔ (∀ c ∈ tok, c < 0x80) ∧
        Doubles g.cap.toNat (line tok fp).length ∧
          ((∃ c ∈ fp, c ∈ tok) ∨ ¬ Fills g.cap.toNat (line tok fp).length)) :=
  ⟨gstrCopy_iff hg hsrc, gstrUnquote_iff hg, gstrReadline_iff hg hfp⟩

theorem carries_cstr {l : List UInt8} (h0 : 0 ∉ l) (hlen : l.length < 2 ^ 31) :
    Carries ⟨cstr l, UInt64.ofNat l.length, UInt64.ofNat (l.length + 1)⟩ l := by
  refine ⟨?_, toNat_ofNat hlen, terminated_cstr h0⟩
  exact (UInt64.toNat_ofNat_of_lt' (by change l.length + 1 < 2 ^ 64; omega)).symm

theorem gstr_keeps_line : ReadsLine (fun _ _ => 0xaa) ⟨cstr [0x61, 0x62, 0x63], 3, 4⟩
    [0x78, 0x79, 0x7a, 0x0a] [0x0a] :=
  (gstr_keeps_iff (fun _ => 0xaa) (carries_cstr (l := [0x61, 0x62, 0x63]) (by decide) (by decide))
    (carries_cstr (l := []) (by decide) (by decide)) (by decide)).2.2.mpr
      ⟨forall_mem_singleton.mpr (by decide), doubles_of_lt (by decide),
        Or.inl ⟨0x0a, by decide, by decide⟩⟩

/-- A copy of one character has length 0, `"a"` comes out as one character with length 2, and four
characters without a line feed do not fit into four bytes with their terminator. -/
theorem gstr_keeps_not :
    ((gstrCopy (fun _ => 0xaa) ⟨cstr [], 0, 1⟩ ⟨cstr [0x61], 1, 2⟩).map
        fun g => (g.len, g.str.first 2)) = some (0, some [0x61, 0]) ∧
      ((gstrUnquote ⟨cstr [0x22, 0x61, 0x22], 3, 4⟩).map
        fun r => (r.1.len, r.1.str.first 2)) = some (2, some [0x61, 0]) ∧
      (gstrReadline (fun _ _ => 0xaa) ⟨cstr [0x61, 0x62, 0x63], 3, 4⟩
        [0x77, 0x78, 0x79, 0x7a] [0x0a]).isNone ∧
      ¬ (∃ g', gstrCopy (fun _ => 0xaa) ⟨cstr [], 0, 1⟩ ⟨cstr [0x61], 1, 2⟩ = some g' ∧
        Carries g' [0x61]) ∧
      ¬ Unquotes ⟨cstr [0x22, 0x61, 0x22], 3, 4⟩ [0x22, 0x61, 0x22] ∧
      ¬ ReadsLine (fun _ _ => 0xaa) ⟨cstr [0x61, 0x62, 0x63], 3, 4⟩
        [0x77, 0x78, 0x79, 0x7a] [0x0a] := by
  have hread : (gstrReadline (fun _ _ => 0xaa) ⟨cstr [0x61, 0x62, 0x63], 3, 4⟩
      [0x77, 0x78, 0x79, 0x7a] [0x0a]).isNone := by
    decide
  refine ⟨by decide, by decide, hread, fun h => ?_, fun h => ?_, ?_⟩
  · exact absurd ((gstrCopy_iff (carries_cstr (l := []) (by decide) (by decide))
      (carries_cstr (l := [0x61]) (by decide) (by decide))).mp h) (by decide)
  · exact (gstrUnquote_iff (carries_cstr (l := [0x22, 0x61, 0x22]) (by decide) (by decide))).mp h
      ⟨0x22, [0x61], Or.inl rfl, rfl⟩
  · rintro ⟨g', r, hr, -⟩
    rw [hr] at hread
    cases hread

end

end PortableLib.Gstring
