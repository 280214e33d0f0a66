import PortableLib.Pack.Pads

/-! The space of `Pack`: where it stores, what the descriptors of a template add up to, and what it
returns for a buffer that is too small. -/

namespace PortableLib.Pack
open List

/-! ## The stores -/

def intStores (w ptr num : Nat) : List Nat := (range num).flatMap fun i => range' (ptr + i * w) w

def xStores (cap ptr num : Nat) : List Nat := if cap < ptr + num then [] else range' ptr num

def zStores (cap ptr n : Nat) (arg : Arg) : List Nat :=
  if n = 0 then []
  else if cap < ptr + n then []
  else
    let z := if arg.word = 0 then 0 else min arg.strlen n
    range' ptr z ++ range' (ptr + z) (n - z)

def Letter.stores (cap ptr num : Nat) (arg : Arg) : Letter → List Nat
  | .x => xStores cap ptr num
  | .z | .Z => zStores cap ptr num arg
  | t => intStores t.size ptr num

def callStores (cap : Nat) (t : Letter) (ptr num : Nat) (arg : Arg) : List Nat :=
  if 0 < t.size ∧ cap < ptr + num * t.size then [] else t.stores cap ptr num arg

/-- The stores of the call that a token makes, as `packCount` and `packArg` make it. -/
def tokenStores (cap : Nat) (st : PackState) : Token → List Nat
  | .star => callStores cap .I st.out.length 1 ⟨(vcount st.args).toUInt64, fun _ => 0, []⟩
  | .item t num =>
    let arg := st.args 0
    if t = .x then callStores cap t st.out.length num ⟨0, fun _ => 0, []⟩
    else
      match st.vnum with
      | some vnum => if vnum = 0 then [] else callStores cap t st.out.length vnum.toNat arg
      | none =>
        callStores cap t st.out.length
          (if t.isStr then if num = 0 ∧ arg.word ≠ 0 then 1 + arg.strlen else num
            else if num = 0 then 1 else num) arg

@[simp] def runStores (e : Endian) (cap : Nat) : List Token → PackState → List Nat
  | [], _ => []
  | tok :: toks, st => tokenStores cap st tok ++
    match doToken e (packActions e cap) st tok with
    | .ok st => runStores e cap toks st
    | .error _ => []

def packStores (fmt : List UInt8) (args : Nat → Arg) (cap : Nat) : List Nat :=
  runStores (formatOrder fmt) cap (scanFormat fmt).1 ⟨[], args, none⟩

section Stores
variable {e : Endian} {t : Letter} {cap ptr num : Nat}

theorem intStores_eq (w ptr num : Nat) : intStores w ptr num = range' ptr (num * w) := by
  induction num with
  | zero => rw [Nat.zero_mul]; rfl
  | succ num ih =>
    rw [intStores] at ih ⊢
    rw [range_succ, flatMap_append, ih, flatMap_singleton, Nat.succ_mul, range'_append_1]

theorem zStores_eq (arg : Arg) (hnum : num ≠ 0) :
    zStores cap ptr num arg = if cap < ptr + num then [] else range' ptr num := by
  rw [zStores, if_neg hnum]
  split_ifs with hspace hnull
  · rfl
  · simp only [range'_zero, nil_append, Nat.add_zero, Nat.sub_zero]
  · simp only [range'_append_1, Nat.add_sub_cancel' (Nat.min_le_right ..)]

theorem callStores_eq (t : Letter) (cap ptr num : Nat) (arg : Arg) :
    callStores cap t ptr num arg =
      if cap < ptr + num * t.width then [] else range' ptr (num * t.width) := by
  rw [callStores]
  rcases t.cases with rfl | ht | ht
  · rw [if_neg fun h => absurd h.1 (by decide), show Letter.x.width = 1 from rfl, Nat.mul_one]
    rfl
  · obtain ⟨hwidth, hsize⟩ := width_of_isStr ht
    have hstores : t.stores cap ptr num arg = zStores cap ptr num arg := by
      cases t <;> first | rfl | cases ht
    rw [hstores, hwidth, hsize, Nat.mul_one]
    by_cases hnum : num = 0
    · have hnone : zStores cap ptr num arg = [] := if_pos hnum
      rw [hnone, hnum, range'_zero, ite_self, ite_self]
    · rw [zStores_eq arg hnum]
      by_cases hspace : cap < ptr + num
      · rw [if_pos ⟨Nat.one_pos, hspace⟩, if_pos hspace]
      · rw [if_neg fun h => hspace h.2]
  · obtain ⟨hwidth, hpos, -⟩ := width_of_isInt ht
    have hstores : t.stores cap ptr num arg = intStores t.size ptr num := by
      cases t <;> first | rfl | cases ht
    rw [hstores, intStores_eq, hwidth]
    by_cases hspace : cap < ptr + num * t.size
    · rw [if_pos ⟨hpos, hspace⟩, if_pos hspace]
    · rw [if_neg fun h => hspace h.2, if_neg hspace]

theorem tokenStores_eq (e : Endian) (cap : Nat) (st : PackState) (tok : Token) :
    tokenStores cap st tok =
      if cap < st.out.length + (chunk e st.vnum st.args tok).length then []
      else range' st.out.length (chunk e st.vnum st.args tok).length := by
  cases tok with
  | star =>
    rw [chunk, length_enc, tokenStores, callStores_eq _ _ _ _ _]
    rfl
  | item t num =>
    rw [chunk, length_payload, tokenStores]
    unfold packNum
    by_cases hx : t = .x
    · simp only [if_pos hx]
      exact callStores_eq _ _ _ _ _
    · simp only [if_neg hx]
      cases hv : st.vnum with
      | none => exact callStores_eq _ _ _ _ _
      | some v =>
        by_cases hv0 : v = 0
        · simp only [hv0, if_true, UInt32.toNat_zero, Nat.zero_mul, range'_zero, ite_self]
        · simp only [if_neg hv0]
          exact callStores_eq _ _ _ _ _

theorem mem_runStores {toks : List Token} {st : PackState} (hout : st.out.length ≤ cap) {i : Nat}
    (hi : i ∈ runStores e cap toks st) : i < cap := by
  induction toks generalizing st with
  | nil => cases hi
  | cons tok toks ih =>
    rw [runStores, mem_append] at hi
    rcases hi with hi | hi
    · rw [tokenStores_eq e] at hi
      split_ifs at hi with hspace
      · cases hi
      · rw [mem_range'_1] at hi
        omega
    · rw [packToken_eq e hout] at hi
      split_ifs at hi with hnull
      · cases hi
      · rw [packed] at hi
        split_ifs at hi with hspace hint
        · cases hi
        · refine ih ?_ hi
          rw [length_append]
          omega
        · cases hi

theorem packStores_lt (fmt : List UInt8) (args : Nat → Arg) (cap : Nat) :
    ∀ i ∈ packStores fmt args cap, i < cap :=
  fun _ hi => mem_runStores (Nat.zero_le cap) hi

theorem runStores_eq {toks : List Token} {st st' : PackState} (hout : st.out.length ≤ cap)
    (h : toks.foldlM (doToken e (packActions e cap)) st = .ok st') :
    st.out.length ≤ st'.out.length ∧
      runStores e cap toks st = range' st.out.length (st'.out.length - st.out.length) := by
  induction toks generalizing st with
  | nil =>
    obtain rfl := Except.ok.inj h
    exact ⟨Nat.le_refl _, by rw [Nat.sub_self]; rfl⟩
  | cons tok toks ih =>
    rw [foldlM_cons] at h
    rw [runStores, tokenStores_eq e]
    cases htok : doToken e (packActions e cap) st tok with
    | error s =>
      rw [htok] at h
      cases h
    | ok st₁ =>
      rw [htok] at h
      rw [packToken_eq e hout] at htok
      split_ifs at htok with hnull
      rw [packed] at htok
      split_ifs at htok with hspace hint
      obtain rfl := Except.ok.inj htok
      obtain ⟨hle, hstores⟩ := ih (by rw [length_append]; omega) h
      rw [length_append] at hle hstores
      refine ⟨by omega, ?_⟩
      simp only [hstores, if_neg hspace]
      rw [range'_append_1]
      exact congrArg (range' st.out.length) (by omega)

theorem packStores_ok {fmt : List UInt8} {args : Nat → Arg} {out : List UInt8}
    (h : pack fmt args cap = .ok out) : packStores fmt args cap = range' 0 out.length := by
  rw [pack_eq] at h
  obtain ⟨st', hst', rfl⟩ := map_eq_ok h
  rw [doScan] at hst'
  cases hrun : (scanFormat fmt).1.foldlM (doToken (formatOrder fmt)
      (packActions (formatOrder fmt) cap)) ⟨[], args, none⟩ with
  | error s =>
    rw [hrun] at hst'
    cases hst'
  | ok st =>
    rw [hrun] at hst'
    obtain ⟨-, hstores⟩ := runStores_eq (Nat.zero_le cap) hrun
    have hend : st = st' := by
      cases hen : (scanFormat fmt).2 with
      | done b =>
        rw [hen] at hst'
        exact Except.ok.inj hst'
      | stop s =>
        rw [hen] at hst'
        cases hst'
    rw [packStores, hstores, hend]
    rfl

end Stores

/-! ## Templates -/

structure Count where
  digits : List UInt8
  isDigit : ∀ d ∈ digits, isdigit d = true
  small : decimal digits < 2 ^ 32

def Count.value (c : Count) : Nat := decimal c.digits

inductive Descr
  | space (c : UInt8) (h : isspace c = true)
  | item (count : Count) (t : Letter)
  | star (gap : List UInt8) (h : ∀ c ∈ gap, isspace c = true) (t : Letter)

def Descr.text : Descr → List UInt8
  | .space c _ => [c]
  | .item count t => count.digits ++ [t.char]
  | .star gap _ t => 42 :: gap ++ [t.char]

def template (order : Option Endian) (ds : List Descr) : List UInt8 :=
  orderText order ++ ds.flatMap Descr.text

/-- `NULL` is the same as an empty string. -/
def Arg.textLen (arg : Arg) : Nat := if arg.word = 0 then 0 else arg.strlen

/-- The bytes of a descriptor by the documentation. Without a count a pad item is one byte, a
string has its `\0`, and all other types are one element. -/
def Descr.bytes (args : Nat → Arg) : Descr → Nat
  | .space _ _ => 0
  | .item count t =>
    if t = .x then if count.digits = [] then 1 else count.value
    else if count.value ≠ 0 then count.value * t.width
    else if t.isStr then 1 + (args 0).textLen
    else t.width
  | .star _ _ t => 4 + (vcount args).toNat * t.width

def Descr.argsAfter (args : Nat → Arg) : Descr → Nat → Arg
  | .space _ _ => args
  | .item _ t => Pack.argsAfter args (.item t 0)
  | .star _ _ t => Pack.argsAfter (nextArg args) (.item t 0)

def totalBytes : (Nat → Arg) → List Descr → Nat
  | _, [] => 0
  | args, d :: ds => d.bytes args + totalBytes (d.argsAfter args) ds

def SpaceRule (cap total : Nat) (r : Except Stop (List UInt8)) : Prop :=
  (total ≤ cap → ∃ out, r = .ok out ∧ out.length = total) ∧
    (cap < total → ∃ s, r = .error s ∧ s.ret = some (-Errno.enospc.code))

/-- `Pack` stores inside the buffer only and follows the rule for its space. -/
def AccountsSpace (order : Option Endian) (ds : List Descr) (args : Nat → Arg) (cap : Nat) : Prop :=
  (∀ i ∈ packStores (template order ds) args cap, i < cap) ∧
    SpaceRule cap (totalBytes args ds) (pack (template order ds) args cap)

/-! ## Where the rule is kept -/

/-- The pad bytes of a descriptor that `Pack` leaves out. -/
def Descr.leftOut (args : Nat → Arg) : Descr → Nat
  | .space _ _ => 0
  | .item count t => if t = .x ∧ count.digits = [] then 1 else 0
  | .star _ _ t => if t = .x then (vcount args).toNat else 0

/-- An item of `n` bytes behind `used` bytes: if there is no room for it, it is not a pad item; if
there is, its size is not negative as an `int`, or it happens to be `-ENOSPC`. -/
def Charged (cap total used n : Nat) (t : Letter) (next : Prop) : Prop :=
  if cap < used + n then t ≠ .x
  else if IntSize n then next
  else asInt n = -Errno.enospc.code ∧ cap < total

/-- The descriptors one by one, up to the first that has no room: no count has two digits or more,
no `NULL` string comes without a count, and if all have room no pad byte was left out. -/
def Accounted (cap total : Nat) : Nat → Nat → (Nat → Arg) → List Descr → Prop
  | _, left, _, [] => left = 0
  | used, left, args, .space _ _ :: ds => Accounted cap total used left args ds
  | used, left, args, .item count t :: ds =>
    let d := Descr.item count t
    let n := d.bytes args - d.leftOut args
    count.digits.length ≤ 1 ∧ ¬ (t.isStr = true ∧ count.value = 0 ∧ (args 0).word = 0) ∧
      Charged cap total used n t
        (Accounted cap total (used + n) (left + d.leftOut args) (d.argsAfter args) ds)
  | used, left, args, .star gap h t :: ds =>
    let d := Descr.star gap h t
    let n := d.bytes args - 4 - d.leftOut args
    Charged cap total used 4 .I <| Charged cap total (used + 4) n t
      (Accounted cap total (used + 4 + n) (left + d.leftOut args) (d.argsAfter args) ds)

section Rule
variable {e : Endian} {cap total : Nat}

theorem charged_congr {used n : Nat} {t : Letter} {p q : Prop} (h : used + n ≤ cap → (p ↔ q)) :
    Charged cap total used n t p ↔ Charged cap total used n t q := by
  rw [Charged, Charged]
  split_ifs with hspace
  · rfl
  · exact h (Nat.not_lt.mp hspace)
  · rfl

theorem not_spaceRule_error {s : Stop} (h : s.ret ≠ some (-Errno.enospc.code)) :
    ¬ SpaceRule cap total (.error s) := by
  rintro ⟨hfit, hshort⟩
  rcases Nat.lt_or_ge cap total with hlt | hle
  · obtain ⟨s', hs', hret⟩ := hshort hlt
    obtain rfl := Except.error.inj hs'
    exact h hret
  · obtain ⟨out, hout, -⟩ := hfit hle
    cases hout

theorem spaceRule_enospc {s : Stop} (h : s.ret = some (-Errno.enospc.code)) :
    SpaceRule cap total (.error s) ↔ cap < total := by
  constructor
  · rintro ⟨hfit, -⟩
    by_contra hle
    obtain ⟨out, hout, -⟩ := hfit (Nat.not_lt.mp hle)
    cases hout
  · exact fun hlt => ⟨fun hle => absurd hle (Nat.not_le.mpr hlt), fun _ => ⟨s, rfl, h⟩⟩

theorem spaceRule_ok {out : List UInt8} (hout : out.length ≤ cap) :
    SpaceRule cap total (.ok out) ↔ out.length = total := by
  constructor
  · rintro ⟨hfit, hshort⟩
    rcases Nat.lt_or_ge cap total with hlt | hle
    · obtain ⟨s, hs, -⟩ := hshort hlt
      cases hs
    · obtain ⟨out', hout', hlen⟩ := hfit hle
      obtain rfl := Except.ok.inj hout'
      exact hlen
  · exact fun h => ⟨fun _ => ⟨out, rfl, h⟩, fun hlt => absurd hlt (Nat.not_lt.mpr (h ▸ hout))⟩

def Token.letter : Token → Letter
  | .star => .I
  | .item t _ => t

theorem spaceRule_token {st : PackState} {tok : Token} (hout : st.out.length ≤ cap)
    (hnull : ¬ NullString st.vnum st.args tok)
    (htotal : st.out.length + (chunk e st.vnum st.args tok).length ≤ total)
    (k : PackState → Except Stop PackState) :
    SpaceRule cap total (((doToken e (packActions e cap) st tok).bind k).map PackState.out) ↔
      Charged cap total st.out.length (chunk e st.vnum st.args tok).length tok.letter
        (SpaceRule cap total ((k ⟨st.out ++ chunk e st.vnum st.args tok, argsAfter st.args tok,
          vnumAfter st.args tok⟩).map PackState.out)) := by
  rw [packToken_eq e hout, if_neg hnull, packed, Charged]
  split_ifs with hspace hint
  · have hlt : cap < total := by omega
    cases tok with
    | star => exact iff_of_true ((spaceRule_enospc rfl).mpr hlt) (by decide)
    | item t num =>
      rw [spaceErr_item, Token.letter]
      by_cases hx : t = .x
      · rw [if_pos hx]
        exact iff_of_false (not_spaceRule_error (by decide)) fun h => h hx
      · rw [if_neg hx]
        exact iff_of_true ((spaceRule_enospc rfl).mpr hlt) hx
  · rfl
  · by_cases hret : asInt (chunk e st.vnum st.args tok).length = -Errno.enospc.code
    · rw [and_iff_right hret]
      exact spaceRule_enospc (congrArg some hret)
    · exact iff_of_false (not_spaceRule_error fun h => hret (Option.some.inj h)) fun h => hret h.1

/-! ## The scan of a template -/

theorem scan_gap {gap : List UInt8} (hgap : ∀ c ∈ gap, isspace c = true) (pend : Bool)
    (rest : List UInt8) : scan pend (gap ++ rest) = scan pend rest := by
  induction gap with
  | nil => rfl
  | cons c gap ih =>
    rw [forall_mem_cons] at hgap
    rw [cons_append, scan, if_pos hgap.1]
    exact ih hgap.2

theorem scan_letter (pend : Bool) (t : Letter) (rest : List UInt8) :
    scan pend (t.char :: rest) = (.item t 0 :: (scan false rest).1, (scan false rest).2) := by
  obtain ⟨hspace, hstar, hdigit, -⟩ := char_class t
  have hselect : select pend t.char 0 = .ok t := by
    rw [select, if_neg fun h => absurd h.1 (by decide)]
    cases t <;> rfl
  simp only [scan, hspace, hstar, hdigit, Bool.false_eq_true, if_false, hselect]

theorem scan_item {count : Count} (hone : count.digits.length ≤ 1) (t : Letter)
    (rest : List UInt8) : scan false (count.digits ++ t.char :: rest) =
      (.item t count.value :: (scan false rest).1, (scan false rest).2) := by
  obtain ⟨digits, hdigits, hsmall⟩ := count
  match digits with
  | [] => exact scan_letter false t rest
  | [d] =>
    have hd := forall_mem_singleton.mp hdigits
    obtain ⟨hspace, hstar⟩ := digit_not_special hd
    obtain ⟨-, -, hdigit, -⟩ := char_class t
    have hvalue : Count.value ⟨[d], hdigits, hsmall⟩ = digit d := decimal_singleton d
    simp only [cons_append, nil_append, scan, hspace, hstar, hd, Bool.false_eq_true, if_false,
      if_true, lenPrefix, hdigit, select_char, hvalue]
  | c :: d :: ds =>
    simp only [length_cons] at hone
    omega

theorem scan_star (rest : List UInt8) :
    scan false (42 :: rest) = (.star :: (scan true rest).1, (scan true rest).2) := by
  have hspace : isspace 42 = false := by decide
  simp only [scan, hspace, Bool.false_eq_true, if_false, if_true]

theorem scan_digits {count : Count} (hmany : ¬ count.digits.length ≤ 1) (rest : List UInt8) :
    ∃ s, scan false (count.digits ++ rest) = ([], .stop s) ∧
      s.ret ≠ some (-Errno.enospc.code) := by
  obtain ⟨digits, hdigits, hsmall⟩ := count
  match digits with
  | [] => exact absurd (Nat.zero_le 1) hmany
  | [d] => exact absurd (Nat.le_refl 1) hmany
  | c :: d :: ds =>
    rw [forall_mem_cons, forall_mem_cons] at hdigits
    obtain ⟨hc, hd, -⟩ := hdigits
    obtain ⟨hspace, hstar⟩ := digit_not_special hc
    simp only [cons_append, scan, hspace, hstar, hc, Bool.false_eq_true, if_false, if_true,
      lenPrefix, hd]
    cases lenLoop (digit d) 21 (digit c) with
    | none => exact ⟨.diverge, rfl, by decide⟩
    | some k =>
      refine ⟨.tooBig _, rfl, fun h => ?_⟩
      exact absurd (Option.some.inj h) (by decide)

/-! ## What a descriptor packs -/

theorem leftOut_le (args : Nat → Arg) (d : Descr) : d.leftOut args ≤ d.bytes args := by
  cases d with
  | space c h => exact Nat.le_refl 0
  | item count t =>
    simp only [Descr.leftOut, Descr.bytes]
    split_ifs <;> simp_all
  | star gap h t =>
    simp only [Descr.leftOut, Descr.bytes]
    split_ifs with hx
    · subst hx
      exact (Nat.mul_one _).symm.le.trans (Nat.le_add_left ..)
    · exact Nat.zero_le _

theorem length_chunk_item (e : Endian) {count : Count} {t : Letter} {args : Nat → Arg}
    (hnull : ¬ (t.isStr = true ∧ count.value = 0 ∧ (args 0).word = 0)) :
    (chunk e none args (.item t count.value)).length =
      (Descr.item count t).bytes args - (Descr.item count t).leftOut args := by
  rw [chunk, length_payload]
  simp only [packNum, Descr.bytes, Descr.leftOut]
  rcases t.cases with rfl | ht | ht
  · simp only [if_true, true_and, show Letter.x.width = 1 from rfl, Nat.mul_one]
    split_ifs with hdigits
    · rw [Count.value, hdigits]
      rfl
    · rfl
  · simp only [ht, if_true, (width_of_isStr ht).1, Nat.mul_one,
      ne_x_of_isStr ht, false_and, if_false, Nat.sub_zero]
    by_cases hzero : count.value = 0
    · have hword : (args 0).word ≠ 0 := fun h => hnull ⟨ht, hzero, h⟩
      simp only [hzero, hword, ne_eq, not_true, not_false_eq_true, and_self, if_true, if_false,
        Arg.textLen]
    · simp only [hzero, ne_eq, not_false_eq_true, false_and, if_true, if_false]
  · simp only [isStr_of_isInt ht, Bool.false_eq_true, if_false,
      ne_x_of_isInt ht, false_and, Nat.sub_zero]
    by_cases hzero : count.value = 0
    · simp only [hzero, ne_eq, not_true, if_true, if_false, Nat.one_mul]
    · simp only [hzero, ne_eq, not_false_eq_true, if_true, if_false]

theorem length_chunk_star (e : Endian) (gap : List UInt8) (h : ∀ c ∈ gap, isspace c = true)
    (t : Letter) (args : Nat → Arg) :
    (chunk e (some (vcount args)) (nextArg args) (.item t 0)).length =
      (Descr.star gap h t).bytes args - 4 - (Descr.star gap h t).leftOut args := by
  rw [chunk, length_payload]
  simp only [packNum, Descr.bytes, Descr.leftOut, Nat.add_sub_cancel_left]
  split_ifs with hx
  · subst hx
    rw [Nat.zero_mul, show Letter.x.width = 1 from rfl, Nat.mul_one, Nat.sub_self]
  · rw [Nat.sub_zero]

theorem argsAfter_num (args : Nat → Arg) (t : Letter) (num : Nat) :
    argsAfter args (.item t num) = argsAfter args (.item t 0) := by
  cases t <;> rfl

theorem spaceRule_iff (ds : List Descr) {out : List UInt8} {args : Nat → Arg} {left : Nat}
    (hout : out.length ≤ cap) (htotal : out.length + left + totalBytes args ds = total) :
    SpaceRule cap total ((doScan e (packActions e cap) (scan false (ds.flatMap Descr.text))
      ⟨out, args, none⟩).map PackState.out) ↔ Accounted cap total out.length left args ds := by
  induction ds generalizing out args left with
  | nil =>
    have hend : (doScan e (packActions e cap) (scan false []) ⟨out, args, none⟩).map
        PackState.out = .ok out := rfl
    rw [flatMap_nil, hend, spaceRule_ok hout, Accounted]
    rw [totalBytes] at htotal
    omega
  | cons d ds ih =>
    have hleft := leftOut_le args d
    rw [totalBytes] at htotal
    rw [flatMap_cons]
    cases d with
    | space c h =>
      have hscan : scan false ((Descr.space c h).text ++ ds.flatMap Descr.text) =
          scan false (ds.flatMap Descr.text) := scan_gap (forall_mem_singleton.mpr h) false _
      rw [hscan, Accounted]
      refine ih hout ?_
      rw [← htotal, Descr.bytes, Nat.zero_add]
      rfl
    | item count t =>
      rw [Descr.text, append_assoc, singleton_append, Accounted]
      by_cases hone : count.digits.length ≤ 1
      · rw [and_iff_right hone, scan_item hone, doScan_cons]
        by_cases hnull : t.isStr = true ∧ count.value = 0 ∧ (args 0).word = 0
        · have hassert : doToken e (packActions e cap) ⟨out, args, none⟩ (.item t count.value) =
              .error .assertFail := by
            rw [packToken_eq e hout, if_pos ⟨hnull.1, rfl, hnull.2⟩]
          rw [hassert]
          exact iff_of_false (not_spaceRule_error (by decide)) fun h => h.1 hnull
        · have hlen := length_chunk_item e hnull
          have hnull' : ¬ NullString none args (.item t count.value) := fun h =>
            hnull ⟨h.1, h.2.2⟩
          rw [and_iff_right hnull, ← hlen, spaceRule_token hout hnull' (by dsimp only; omega)]
          dsimp only
          refine charged_congr fun hroom => ?_
          rw [Descr.argsAfter, ← argsAfter_num args t count.value, ← length_append]
          refine ih (by rw [length_append]; exact hroom) ?_
          rw [length_append, argsAfter_num]
          rw [Descr.argsAfter] at htotal
          omega
      -- the scanner stops at the second digit of a count
      · obtain ⟨s, hs, hret⟩ := scan_digits hone (t.char :: ds.flatMap Descr.text)
        rw [hs]
        exact iff_of_false (not_spaceRule_error hret) fun h => hone h.1
    | star gap h t =>
      -- a star is two tokens, the count and then the item, and each is charged on its own
      have hcount : (chunk e none args .star).length = 4 := length_enc e 4 _
      have hlen := length_chunk_star e gap h t args
      have hbytes : 4 ≤ (Descr.star gap h t).bytes args - (Descr.star gap h t).leftOut args := by
        rw [Descr.bytes, Descr.leftOut]
        split_ifs with hx
        · subst hx
          rw [show Letter.x.width = 1 from rfl]
          omega
        · omega
      rw [Descr.text, cons_append, cons_append, append_assoc, singleton_append, scan_star,
        doScan_cons, scan_gap h, scan_letter, spaceRule_token hout id (by dsimp only; omega),
        hcount, Accounted]
      refine charged_congr fun hroom => ?_
      have hfit : out.length + 4 ≤ cap := hroom
      have hout' : (out ++ chunk e none args .star).length = out.length + 4 := by
        rw [length_append, hcount]
      have hnull : ¬ NullString (some (vcount args)) (nextArg args) (.item t 0) := fun h =>
        nomatch h.2.1
      have hnext : argsAfter args .star = nextArg args ∧
          vnumAfter args .star = some (vcount args) := ⟨rfl, rfl⟩
      rw [doScan_cons, hnext.1, hnext.2,
        spaceRule_token (by dsimp only; omega) hnull (by dsimp only; omega)]
      dsimp only
      rw [hlen, hout']
      refine charged_congr fun hroom' => ?_
      rw [Descr.argsAfter, ← hlen, ← hout', ← length_append]
      refine ih (by rw [length_append, hout', hlen]; exact hroom') ?_
      rw [Descr.argsAfter] at htotal
      rw [length_append, hout', hlen]
      omega

end Rule

/-! ## Whole calls -/

theorem digit_text {c : UInt8} (hc : isdigit c = true) : c ≠ 60 ∧ c ≠ 62 ∧ c ≠ 0 := by
  refine ⟨?_, ?_, ne_zero_of_isdigit hc⟩
  all_goals
    rintro rfl
    exact absurd hc (by decide)

theorem text_class (d : Descr) : ∀ c ∈ d.text, c ≠ 60 ∧ c ≠ 62 ∧ c ≠ 0 := by
  intro c hc
  cases d with
  | space s h =>
    obtain rfl := mem_singleton.mp hc
    exact space_class h
  | item count t =>
    rcases mem_append.mp hc with hc | hc
    · exact digit_text (count.isDigit c hc)
    · obtain rfl := mem_singleton.mp hc
      exact (char_class t).2.2.2
  | star gap h t =>
    rcases mem_cons.mp hc with rfl | hc
    · decide
    · rcases mem_append.mp hc with hc | hc
      · exact space_class (h c hc)
      · obtain rfl := mem_singleton.mp hc
        exact (char_class t).2.2.2

theorem byteOrder_template (order : Option Endian) (ds : List Descr) :
    byteOrder (cstr (template order ds)) = (order.getD .le, ds.flatMap Descr.text) := by
  refine byteOrder_text order fun c hc => ?_
  obtain ⟨d, -, hd⟩ := mem_flatMap.mp hc
  exact text_class d c hd

/-- `Pack` accounts for its space exactly if the descriptors are packed one by one up to the first
that has no room, and that one is not a pad item. -/
theorem accounts_space_iff (order : Option Endian) (ds : List Descr) (args : Nat → Arg)
    (cap : Nat) :
    AccountsSpace order ds args cap ↔ Accounted cap (totalBytes args ds) 0 0 args ds := by
  have htotal : ([] : List UInt8).length + 0 + totalBytes args ds = totalBytes args ds := by
    rw [length_nil, Nat.zero_add]
  rw [AccountsSpace, and_iff_right (packStores_lt _ args cap), pack_eq, scanFormat, formatOrder,
    byteOrder_template]
  exact spaceRule_iff ds (Nat.zero_le cap) htotal

/-- The template `3x` and a buffer without room for it. -/
theorem pads_without_room :
    pack [51, 120] fives 0 = .error (.space .einval) ∧
      ¬ AccountsSpace none [.item ⟨[51], forall_mem_singleton.mpr rfl, by decide⟩ .x] fives 0 := by
  have hrun : pack [51, 120] fives 0 = .error (.space .einval) := rfl
  refine ⟨hrun, fun h => ?_⟩
  have hrule : SpaceRule 0 3 (pack [51, 120] fives 0) := h.2
  rw [hrun] at hrule
  exact not_spaceRule_error (by decide) hrule

end PortableLib.Pack
