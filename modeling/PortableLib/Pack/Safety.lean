import PortableLib.Pack.Tokens

/-! The formats and arguments on which the interpreters do not return, read outside of the packer
table, or run past the end of the format. -/

namespace PortableLib.Pack
open List

/-- A failing assertion, a lookup outside of the table, a loop that does not end, and a step past
the `\0` of the format. -/
def Stop.breaks : Stop → Bool
  | .assertFail | .tableOob | .diverge | .tooBig true => true
  | _ => false

def Ending.breaks : Ending → Bool
  | .done _ => false
  | .stop s => s.breaks

def Breaks {α : Type*} (x : Except Stop α) : Prop := ∃ s, x = .error s ∧ s.breaks = true

/-- A `NULL` string without a count is reached before a size that is negative as an `int`. -/
def NullReached (e : Endian) : Option UInt32 → (Nat → Arg) → List Token → Prop
  | _, _, [] => False
  | vnum, args, tok :: toks =>
    NullString vnum args tok ∨ IntSize (chunk e vnum args tok).length ∧
      NullReached e (vnumAfter args tok) (argsAfter args tok) toks

theorem packTokens_error (e : Endian) {cap : Nat} {toks : List Token} {st : PackState}
    (hout : st.out.length ≤ cap) (hnull : ¬ NullReached e st.vnum st.args toks) {s : Stop}
    (h : toks.foldlM (doToken e (packActions e cap)) st = .error s) : s.breaks = false := by
  induction toks generalizing st with
  | nil => cases h
  | cons tok toks ih =>
    rw [NullReached, not_or] at hnull
    rw [foldlM_cons, packToken_eq e hout, if_neg hnull.1, packed] at h
    by_cases hspace : cap < st.out.length + (chunk e st.vnum st.args tok).length
    · rw [if_pos hspace] at h
      obtain rfl := Except.error.inj h
      rfl
    · rw [if_neg hspace] at h
      by_cases hint : IntSize (chunk e st.vnum st.args tok).length
      · rw [if_pos hint] at h
        refine ih ?_ (fun hr => hnull.2 ⟨hint, hr⟩) h
        rw [length_append]
        omega
      · rw [if_neg hint] at h
        obtain rfl := Except.error.inj h
        rfl

theorem packTokens_null (e : Endian) {cap : Nat} (toks : List Token) (st : PackState)
    (hcap : st.out.length + (chunks e st.vnum st.args toks).flatten.length ≤ cap)
    (hnull : NullReached e st.vnum st.args toks) :
    toks.foldlM (doToken e (packActions e cap)) st = .error .assertFail := by
  induction toks generalizing st with
  | nil => exact hnull.elim
  | cons tok toks ih =>
    simp only [chunks, flatten_cons, length_append] at hcap
    have hout : st.out.length ≤ cap := by omega
    have hspace : ¬ cap < st.out.length + (chunk e st.vnum st.args tok).length := by omega
    rw [foldlM_cons, packToken_eq e hout]
    by_cases hstr : NullString st.vnum st.args tok
    · rw [if_pos hstr]
      rfl
    · obtain ⟨hint, hrest⟩ := hnull.resolve_left hstr
      rw [if_neg hstr, packed, if_neg hspace, if_pos hint]
      refine ih _ ?_ hrest
      simp only [length_append]
      omega

theorem codec_unpack_error {e : Endian} {t : Letter} {rest : List UInt8} {n : Nat} {dest : Dest}
    {alloc : Bool} {s : Stop} (h : (t.codec e).unpack rest n dest alloc = .error s) :
    s.breaks = false := by
  rcases t.cases with rfl | ht | ht
  · have hx : (Letter.x.codec e).unpack = xUnpack := rfl
    rw [hx, xUnpack] at h
    split_ifs at h
    obtain rfl := Except.error.inj h
    rfl
  · rw [codec_unpack_str ht, zUnpack, scanNul] at h
    split_ifs at h <;> cases h <;> rfl
  · obtain ⟨checked, hu⟩ := codec_unpack_int (e := e) ht
    simp only [hu, intUnpack] at h
    split_ifs at h <;> cases h <;> rfl

theorem callUnpack_error {e : Endian} {t : Letter} {rest : List UInt8} {n : Nat} {dest : Dest}
    {alloc : Bool} {s : Stop}
    (h : callUnpack (t.packer e) (t.codec e) rest n dest alloc = .error s) : s.breaks = false := by
  rw [callUnpack] at h
  split_ifs at h
  · obtain rfl := Except.error.inj h
    rfl
  · cases hu : (t.codec e).unpack rest n dest alloc with
    | error s' =>
      rw [hu] at h
      obtain rfl := Except.error.inj h
      exact codec_unpack_error hu
    | ok r =>
      rw [hu, Except.bind] at h
      split_ifs at h
      obtain rfl := Except.error.inj h
      rfl

theorem unpackToken_error {e : Endian} {st : UnpackState} {tok : Token} {s : Stop}
    (h : doToken e (unpackActions e) st tok = .error s) : s.breaks = false := by
  cases tok with
  | star =>
    have hcount : doToken e (unpackActions e) st .star = unpackCount e st := rfl
    rw [hcount, unpackCount] at h
    split_ifs at h
    · obtain rfl := Except.error.inj h
      rfl
    · have hcall := map_eq_error h
      cases e
      · exact callUnpack_error (e := .le) (t := .I) hcall
      · exact callUnpack_error (e := .be) (t := .I) hcall
  | item t num =>
    have harg : doToken e (unpackActions e) st (.item t num) =
        unpackArg (t.packer e) (t.codec e) t.char num st := rfl
    rw [harg, unpackArg] at h
    by_cases hx : t.char = Letter.x.char
    · rw [if_pos hx] at h
      exact callUnpack_error (map_eq_error h)
    · rw [if_neg hx] at h
      by_cases hn : (st.dests 0).null = true
      · rw [if_pos hn] at h
        obtain rfl := Except.error.inj h
        rfl
      · rw [if_neg hn] at h
        cases hv : st.vnum with
        | none =>
          rw [hv] at h
          exact callUnpack_error (map_eq_error h)
        | some v =>
          simp only [hv] at h
          split_ifs at h
          exact callUnpack_error (map_eq_error h)

theorem unpackTokens_error {e : Endian} {toks : List Token} {st : UnpackState} {s : Stop}
    (h : toks.foldlM (doToken e (unpackActions e)) st = .error s) : s.breaks = false := by
  induction toks generalizing st with
  | nil => cases h
  | cons tok toks ih =>
    rw [foldlM_cons] at h
    cases htok : doToken e (unpackActions e) st tok with
    | error s' =>
      rw [htok] at h
      obtain rfl := Except.error.inj h
      exact unpackToken_error htok
    | ok st' =>
      rw [htok] at h
      exact ih h

theorem tokenExtent_zeros {vnum : Option UInt32} (hv : vnum = none ∨ vnum = some 0) (tok : Token)
    (htok : ∀ t num, tok = .item t num → num ≤ 9) {k : Nat} (hk : 72 ≤ k) :
    ∃ m, tokenExtent vnum (replicate k 0) tok = .ok m ∧ m ≤ 72 := by
  have hext : ∀ t n, n ≤ 9 → ∃ m, extent t n (replicate k 0) = .ok m ∧ m ≤ 72 := by
    intro t n hn
    have hw : n * t.width ≤ 72 := by
      have h8 : t.width ≤ 8 := by cases t <;> decide
      exact Nat.mul_le_mul hn h8
    rw [extent, length_replicate, if_neg (show ¬ k < n * t.width by omega)]
    split_ifs
    · -- the first zero ends the string
      obtain ⟨j, rfl⟩ : ∃ j, k = j + 1 := ⟨k - 1, by omega⟩
      exact ⟨1, rfl, by decide⟩
    · exact ⟨_, rfl, hw⟩
  cases tok with
  | star => exact hext .I 1 (by decide)
  | item t num =>
    have hnum := htok t num rfl
    rw [tokenExtent]
    split_ifs with h0
    · exact ⟨0, rfl, by decide⟩
    · refine hext t _ ?_
      rcases hv with rfl | rfl
      · simp only [unpackNum]
        split_ifs <;> omega
      · have hx : t = .x := by
          by_contra hx
          exact h0 ⟨hx, rfl⟩
        rw [unpackNum, if_pos hx]
        exact hnum

theorem readCount_zeros (e : Endian) {k : Nat} (hk : 4 ≤ k) : readCount e (replicate k 0) = 0 := by
  rw [readCount, take_replicate, Nat.min_eq_left hk]
  cases e <;> rfl

theorem extents_zeros (e : Endian) {toks : List Token}
    (htoks : ∀ t num, .item t num ∈ toks → num ≤ 9) {vnum : Option UInt32}
    (hv : vnum = none ∨ vnum = some 0) {k : Nat}
    (hk : 72 * toks.length ≤ k) :
    ∃ ms, extents e vnum (replicate k 0) toks = some ms ∧ ∀ m ∈ ms, IntSize m := by
  induction toks generalizing vnum k with
  | nil => exact ⟨[], rfl, fun m hm => (by cases hm)⟩
  | cons tok toks ih =>
    rw [length_cons] at hk
    obtain ⟨m, hm, hle⟩ := tokenExtent_zeros hv tok (k := k)
      (fun t num h => htoks t num (h ▸ mem_cons_self)) (by omega)
    -- a count read from zeros is zero, so its item is skipped
    have hread : vnumRead e (replicate k 0) tok = none ∨
        vnumRead e (replicate k 0) tok = some 0 := by
      cases tok with
      | star => exact .inr (congrArg some (readCount_zeros e (by omega)))
      | item t num => exact .inl rfl
    obtain ⟨ms, hms, hint⟩ := ih (fun t num h => htoks t num (mem_cons_of_mem _ h)) hread
      (show 72 * toks.length ≤ k - m by omega)
    refine ⟨m :: ms, ?_, forall_mem_cons.mpr ⟨intSize_of_le hle, hint⟩⟩
    simp only [extents, hm, drop_replicate, hms, Option.map_some]

/-- After the digit `c`, the format ends, two zeros stand, the count is followed past the end of
the format, or a letter is outside of the table. -/
def BadCount (pend : Bool) (c : UInt8) : List UInt8 → Prop
  | [] => ¬ (0 < digit c ∧ pend)
  | t :: rest =>
    if isdigit t then
      digit c = 0 ∧ digit t = 0 ∨
        ∃ k, lenLoop (digit t) 21 (digit c) = some k ∧ (t :: rest).length < k
    else ¬ (0 < digit c ∧ pend) ∧ 122 < t

def BadSpot (pend : Bool) : List UInt8 → Prop
  | [] => False
  | c :: rest => if isdigit c then BadCount pend c rest else 122 < c

/-- Well-formed items are followed by a place that breaks the interpreters. -/
def ReachesBadSpot (pend : Bool) (fmt : List UInt8) : Prop :=
  ∃ pre spot p, fmt = pre ++ spot ∧ (scan pend pre).2 = .done p ∧ BadSpot p spot

theorem lenLoop_zeros (fuel : Nat) : lenLoop 0 fuel 0 = none := by
  induction fuel with
  | zero => rfl
  | succ fuel ih =>
    have hle : ¬ (0 > 1844674407370955161 ∨ 0 = 1844674407370955161 ∧ 0 > 5) := by decide
    rw [lenLoop, if_neg hle, ih]
    rfl

theorem lenLoop_eq_none_iff {a v : Nat} (ha : a ≤ 9) (hv : v ≤ 9) :
    lenLoop v 21 a = none ↔ a = 0 ∧ v = 0 := by
  have hall : ∀ a v : Fin 10, lenLoop v 21 a = none → a.val = 0 ∧ v.val = 0 := by decide
  constructor
  · exact hall ⟨a, by omega⟩ ⟨v, by omega⟩
  · rintro ⟨rfl, rfl⟩
    exact lenLoop_zeros 21

theorem select_breaks_iff {pend : Bool} {c : UInt8} {num : Nat} (hc : c ≠ 0) :
    (∃ s, select pend c num = .error s ∧ s.breaks = true) ↔ ¬ (0 < num ∧ pend) ∧ 122 < c := by
  rw [select]
  split_ifs with hnum hoob
  · refine iff_of_false ?_ fun h => h.1 hnum
    rintro ⟨s, hs, hb⟩
    cases hs
    cases hb
  · exact iff_of_true ⟨_, rfl, rfl⟩ ⟨hnum, hoob⟩
  · refine iff_of_false ?_ fun h => hoob h.2
    rintro ⟨s, hs, hb⟩
    split at hs
    · cases hs
    · cases hs
      cases hb

theorem lenPrefix_breaks_iff {c t : UInt8} {rest : List UInt8} (hc : isdigit c = true)
    (ht : isdigit t = true) :
    (∃ s, lenPrefix c (t :: rest) = .error s ∧ s.breaks = true) ↔ digit c = 0 ∧ digit t = 0 ∨
      ∃ k, lenLoop (digit t) 21 (digit c) = some k ∧ (t :: rest).length < k := by
  simp only [lenPrefix, ht, if_true]
  rw [← lenLoop_eq_none_iff (digit_le hc) (digit_le ht)]
  cases hloop : lenLoop (digit t) 21 (digit c) with
  | none => exact iff_of_true ⟨_, rfl, rfl⟩ (.inl rfl)
  | some k =>
    constructor
    · rintro ⟨s, hs, hb⟩
      cases hs
      by_cases hlt : (t :: rest).length < k
      · exact .inr ⟨k, rfl, hlt⟩
      · rw [decide_eq_false hlt] at hb
        cases hb
    · rintro (h | ⟨k', hk, hlt⟩)
      · cases h
      · obtain rfl := Option.some.inj hk
        refine ⟨_, rfl, ?_⟩
        rw [decide_eq_true hlt]
        rfl

theorem plain_of_spot {c : UInt8} (h : isdigit c = true ∨ 122 < c) :
    isspace c = false ∧ c ≠ 42 := by
  simp only [isdigit, isspace, Bool.and_eq_true, Bool.or_eq_false_iff, Bool.and_eq_false_iff,
    decide_eq_true_eq, decide_eq_false_iff_not, UInt8.le_iff_toNat_le, UInt8.lt_iff_toNat_lt,
    ← UInt8.toNat_inj, ne_eq, UInt8.reduceToNat] at h ⊢
  omega

theorem breaks_of_badSpot {pend : Bool} {spot : List UInt8} (h0 : ∀ c ∈ spot, c ≠ 0)
    (h : BadSpot pend spot) : (scan pend spot).2.breaks = true := by
  cases spot with
  | nil => exact h.elim
  | cons c rest =>
    rw [BadSpot] at h
    by_cases hd : isdigit c = true
    · obtain ⟨hspace, hstar⟩ := plain_of_spot (.inl hd)
      rw [if_pos hd] at h
      cases rest with
      | nil =>
        rw [BadCount] at h
        simp only [scan, hspace, hstar, hd, Bool.false_eq_true, if_false, if_true, lenPrefix,
          if_neg h]
        rfl
      | cons t rest =>
        rw [BadCount] at h
        by_cases ht : isdigit t = true
        · rw [if_pos ht] at h
          obtain ⟨s, hs, hb⟩ := (lenPrefix_breaks_iff hd ht).mpr h
          simp only [scan, hspace, hstar, hd, Bool.false_eq_true, if_false, if_true, hs]
          exact hb
        · rw [if_neg ht] at h
          have hne : t ≠ 0 := h0 t (mem_cons_of_mem c mem_cons_self)
          obtain ⟨s, hs, hb⟩ := (select_breaks_iff hne).mpr h
          simp only [scan, hspace, hstar, hd, Bool.false_eq_true, if_false, if_true, lenPrefix, ht,
            hs]
          exact hb
    · rw [if_neg hd] at h
      obtain ⟨hspace, hstar⟩ := plain_of_spot (.inr h)
      have hnum : ¬ (0 < 0 ∧ pend = true) := fun hn => absurd hn.1 (by decide)
      obtain ⟨s, hs, hb⟩ := (select_breaks_iff (h0 c mem_cons_self)).mpr ⟨hnum, h⟩
      simp only [scan, hspace, hstar, hd, Bool.false_eq_true, if_false, hs]
      exact hb

theorem lenPrefix_append {c t : UInt8} {rest : List UInt8} {num : Nat} (suf : List UInt8)
    (h : lenPrefix c (t :: rest) = .ok num) : lenPrefix c (t :: (rest ++ suf)) = .ok num := by
  obtain ⟨rfl, ht⟩ := lenPrefix_ok h
  rw [lenPrefix, if_neg (ht t rfl)]

theorem scan_append {pend p : Bool} {pre : List UInt8} (suf : List UInt8)
    (h : (scan pend pre).2 = .done p) : (scan pend (pre ++ suf)).2 = (scan p suf).2 := by
  fun_induction scan pend pre with
  | case1 pend =>
    obtain rfl := Ending.done.inj h
    rfl
  | case2 pend c rest hc ih =>
    rw [cons_append, scan, if_pos hc]
    exact ih h
  | case4 pend rest hp hc ih =>
    simp only [cons_append, scan, if_neg hc, if_true, hp]
    exact ih h
  | case8 pend c hc h42 hd num t rest u hu hnum ih =>
    simp only [cons_append, scan, if_neg hc, if_neg h42, if_pos hd, lenPrefix_append suf hnum, hu]
    exact ih h
  | case10 pend c rest hc h42 hd u hu ih =>
    simp only [cons_append, scan, if_neg hc, if_neg h42, if_neg hd, hu]
    exact ih h
  | _ => cases h

theorem ReachesBadSpot.step {pend pend' : Bool} {rest : List UInt8} (item : List UInt8)
    (hscan : ∀ pre, (scan pend (item ++ pre)).2 = (scan pend' pre).2)
    (h : ReachesBadSpot pend' rest) : ReachesBadSpot pend (item ++ rest) := by
  obtain ⟨pre, spot, p, rfl, hpre, hbad⟩ := h
  exact ⟨item ++ pre, spot, p, (append_assoc ..).symm, (hscan pre).trans hpre, hbad⟩

theorem BadSpot.reaches {pend : Bool} {fmt : List UInt8} (h : BadSpot pend fmt) :
    ReachesBadSpot pend fmt :=
  ⟨[], fmt, pend, rfl, rfl, h⟩

theorem reachesBadSpot_of_breaks {pend : Bool} {fmt : List UInt8} (h0 : ∀ c ∈ fmt, c ≠ 0)
    (h : (scan pend fmt).2.breaks = true) : ReachesBadSpot pend fmt := by
  fun_induction scan pend fmt with
  -- a step over what is read well, or the spot itself
  | case2 pend c rest hc ih =>
    refine ReachesBadSpot.step [c] (fun pre => ?_) (ih (forall_mem_cons.mp h0).2 h)
    rw [singleton_append, scan, if_pos hc]
  | case4 pend rest hp hc ih =>
    refine ReachesBadSpot.step [42] (fun pre => ?_) (ih (forall_mem_cons.mp h0).2 h)
    simp only [singleton_append, scan, if_neg hc, if_true, hp]
    rfl
  | case5 pend c rest hc h42 hd s hs =>
    cases rest with
    | nil => cases hs
    | cons t rest =>
      have ht : isdigit t = true := by
        by_contra ht
        rw [lenPrefix, if_neg ht] at hs
        cases hs
      refine BadSpot.reaches ?_
      rw [BadSpot, if_pos hd, BadCount, if_pos ht]
      exact (lenPrefix_breaks_iff hd ht).mp ⟨s, hs, h⟩
  | case6 pend c hc h42 hd num hnum =>
    refine BadSpot.reaches ?_
    rw [BadSpot, if_pos hd, BadCount]
    rintro hpend
    obtain ⟨rfl, -⟩ := lenPrefix_ok hnum
    rw [if_pos hpend] at h
    cases h
  | case7 pend c hc h42 hd num t rest s hs hnum =>
    obtain ⟨rfl, ht⟩ := lenPrefix_ok hnum
    refine BadSpot.reaches ?_
    rw [BadSpot, if_pos hd, BadCount, if_neg (ht t rfl)]
    exact (select_breaks_iff (h0 t (mem_cons_of_mem c mem_cons_self))).mp ⟨s, hs, h⟩
  | case8 pend c hc h42 hd num t rest u hu hnum ih =>
    obtain ⟨rfl, ht⟩ := lenPrefix_ok hnum
    refine ReachesBadSpot.step [c, t] (fun pre => ?_)
      (ih (forall_mem_cons.mp (forall_mem_cons.mp h0).2).2 h)
    simp only [cons_append, nil_append, scan, if_neg hc, if_neg h42, if_pos hd, lenPrefix,
      if_neg (ht t rfl), hu]
  | case9 pend c rest hc h42 hd s hs =>
    refine BadSpot.reaches ?_
    rw [BadSpot, if_neg hd]
    exact ((select_breaks_iff (h0 c mem_cons_self)).mp ⟨s, hs, h⟩).2
  | case10 pend c rest hc h42 hd u hu ih =>
    refine ReachesBadSpot.step [c] (fun pre => ?_) (ih (forall_mem_cons.mp h0).2 h)
    simp only [singleton_append, scan, if_neg hc, if_neg h42, if_neg hd, hu]
  | _ => cases h

theorem scan_breaks_iff {pend : Bool} {fmt : List UInt8} (h0 : ∀ c ∈ fmt, c ≠ 0) :
    (scan pend fmt).2.breaks = true ↔ ReachesBadSpot pend fmt := by
  refine ⟨reachesBadSpot_of_breaks h0, ?_⟩
  rintro ⟨pre, spot, p, rfl, hpre, hbad⟩
  rw [scan_append spot hpre]
  exact breaks_of_badSpot (fun c hc => h0 c (mem_append_right pre hc)) hbad

theorem formatText_ne_zero (fmt : List UInt8) : ∀ c ∈ (byteOrder (cstr fmt)).2, c ≠ 0 := by
  intro c hc
  have hsub : c ∈ cstr fmt := by
    revert hc
    generalize cstr fmt = text
    cases text with
    | nil => exact id
    | cons d rest =>
      rw [byteOrder]
      split_ifs
      · exact mem_cons_of_mem d
      · exact mem_cons_of_mem d
      · exact id
  exact cstr_ne_zero c hsub

theorem doScan_error {σ : Type*} {e : Endian} {a : Actions σ} {sc : List Token × Ending} {st : σ}
    {s : Stop} (h : doScan e a sc st = .error s) :
    sc.1.foldlM (doToken e a) st = .error s ∨ ∃ st', doEnding a st' sc.2 = .error s := by
  rw [doScan] at h
  cases hrun : sc.1.foldlM (doToken e a) st with
  | error s' =>
    rw [hrun] at h
    exact .inl h
  | ok st' =>
    rw [hrun] at h
    exact .inr ⟨st', h⟩

section Calls
variable {fmt : List UInt8} {args : Nat → Arg}

theorem not_breaks_pack (hend : (scanFormat fmt).2.breaks = false)
    (hnull : ¬ NullReached (formatOrder fmt) none args (scanFormat fmt).1) (cap : Nat) :
    ¬ Breaks (pack fmt args cap) := by
  rintro ⟨s, hs, hb⟩
  rw [pack_eq] at hs
  have hsafe : s.breaks = false := by
    rcases doScan_error (map_eq_error hs) with hrun | ⟨st', hst'⟩
    · exact packTokens_error (formatOrder fmt) (Nat.zero_le cap) hnull hrun
    · cases hen : (scanFormat fmt).2 with
      | done b =>
        rw [hen] at hst'
        cases hst'
      | stop s' =>
        rw [hen] at hst' hend
        obtain rfl := Except.error.inj hst'
        exact hend
  rw [hsafe] at hb
  cases hb

theorem not_breaks_unpack (hend : (scanFormat fmt).2.breaks = false) (dests : Nat → Dest)
    (buf : List UInt8) : ¬ Breaks (unpack fmt dests buf) := by
  rintro ⟨s, hs, hb⟩
  rw [unpack_eq] at hs
  have hsafe : s.breaks = false := by
    rcases doScan_error (map_eq_error hs) with hrun | ⟨st', hst'⟩
    · exact unpackTokens_error hrun
    · cases hen : (scanFormat fmt).2 with
      | done b =>
        simp only [hen, doEnding, unpackActions] at hst'
        split_ifs at hst'
        obtain rfl := Except.error.inj hst'
        rfl
      | stop s' =>
        rw [hen] at hst' hend
        obtain rfl := Except.error.inj hst'
        exact hend
  rw [hsafe] at hb
  cases hb

theorem breaks_pack_of_null
    (hnull : NullReached (formatOrder fmt) none args (scanFormat fmt).1) :
    Breaks (pack fmt args (formatChunks fmt args).flatten.length) := by
  have hroom : ([] : List UInt8).length + (formatChunks fmt args).flatten.length ≤
      (formatChunks fmt args).flatten.length := by
    rw [length_nil, Nat.zero_add]
  have hrun := packTokens_null (formatOrder fmt) _ ⟨[], args, none⟩ hroom hnull
  refine ⟨.assertFail, ?_, rfl⟩
  rw [pack_eq, doScan, hrun]
  rfl

theorem breaks_unpack_of_ending (hend : (scanFormat fmt).2.breaks = true) :
    ∃ dests buf, Breaks (unpack fmt dests buf) := by
  obtain ⟨ms, hms, hint⟩ := extents_zeros (formatOrder fmt)
    (fun t num h => num_le_of_mem_scan h) (.inl rfl) (Nat.le_refl (72 * (scanFormat fmt).1.length))
  refine ⟨validDests, replicate (72 * (scanFormat fmt).1.length) 0, ?_⟩
  rw [unpack_of_extents validDests_usable hms, oversize_eq_none_iff.mpr hint]
  cases hen : (scanFormat fmt).2 with
  | done b =>
    rw [hen] at hend
    cases hend
  | stop s =>
    rw [hen] at hend
    exact ⟨s, rfl, hend⟩

end Calls

/-- No buffer and no destination makes a call with the format break. -/
def Safe (fmt : List UInt8) (args : Nat → Arg) : Prop :=
  (∀ cap, ¬ Breaks (pack fmt args cap)) ∧ ∀ dests buf, ¬ Breaks (unpack fmt dests buf)

/-- The calls are safe exactly if the format has no spot that breaks the interpreters after
well-formed items and no `NULL` string without a count is reached. -/
theorem safe_iff (fmt : List UInt8) (args : Nat → Arg) :
    Safe fmt args ↔ ¬ NullReached (formatOrder fmt) none args (scanFormat fmt).1 ∧
      ¬ ReachesBadSpot false (byteOrder (cstr fmt)).2 := by
  rw [← scan_breaks_iff (formatText_ne_zero fmt), Bool.not_eq_true]
  constructor
  · rintro ⟨hpack, hunpack⟩
    refine ⟨fun hnull => hpack _ (breaks_pack_of_null hnull), ?_⟩
    by_contra hend
    obtain ⟨dests, buf, hbreaks⟩ := breaks_unpack_of_ending (Bool.eq_true_of_not_eq_false hend)
    exact hunpack dests buf hbreaks
  · rintro ⟨hnull, hend⟩
    exact ⟨not_breaks_pack hend hnull, not_breaks_unpack hend⟩

/-- The formats `3`, `~`, `00`, `12` and, with a `NULL` string, `z`. -/
theorem formats_break :
    (∀ fmt ∈ [[51], [126], [48, 48], [49, 50]], ∀ args cap dests buf,
      Breaks (pack fmt args cap) ∧ Breaks (unpack fmt dests buf)) ∧
      Breaks (pack [122] (fun _ => ⟨0, fun _ => 0, []⟩) 1) := by
  refine ⟨?_, .assertFail, rfl, rfl⟩
  simp only [forall_mem_cons, not_mem_nil, false_imp_iff, implies_true, and_true]
  refine ⟨fun _ _ _ _ => ?_, fun _ _ _ _ => ?_, fun _ _ _ _ => ?_, fun _ _ _ _ => ?_⟩
  · exact ⟨⟨.assertFail, rfl, rfl⟩, .assertFail, rfl, rfl⟩
  · exact ⟨⟨.tableOob, rfl, rfl⟩, .tableOob, rfl, rfl⟩
  · exact ⟨⟨.diverge, rfl, rfl⟩, .diverge, rfl, rfl⟩
  · exact ⟨⟨.tooBig true, rfl, rfl⟩, .tooBig true, rfl, rfl⟩

end PortableLib.Pack
