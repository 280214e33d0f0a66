import PortableLib.Pack.Safety

/-! The loads of `Unpack`. Here the unpackers read the buffer byte by byte, and a load that is not
before `pd->end` is an over-read. -/

namespace PortableLib.Pack
open List Encdec

def load (rest : List UInt8) (i : Nat) : Except Stop UInt8 :=
  match rest[i]? with
  | some b => .ok b
  | none => .error .overread

def loads (rest : List UInt8) (i n : Nat) : Except Stop (List UInt8) :=
  (range' i n).mapM (load rest)

def intLoads (dec : List UInt8 → UInt64) (w : Nat) (checked : Bool) : UnpackFn :=
  fun rest num dest alloc =>
    if alloc && !dest.alloc && checked then .error .nomem
    else ((range num).mapM fun i => (loads rest (i * w) w).map dec).bind fun xs =>
      if alloc then
        if dest.alloc then .ok (rest.drop (num * w), .heap xs, num * w) else .error .nullWrite
      else .ok (rest.drop (num * w), .elems xs, num * w)

def scanLoop (rest : List UInt8) : Nat → Nat → Except Stop Nat
  | 0, _ => .error .diverge
  | fuel + 1, s =>
    (load rest s).bind fun b =>
      if b = 0 then .ok (s + 1)
      else if s + 1 = rest.length then .error (.space .einval)
      else scanLoop rest fuel (s + 1)

def zLoads : UnpackFn := fun rest num dest _ =>
  (if num = 0 then scanLoop rest (rest.length + 1) 0
    else if rest.length < num then .error (.space .enospc)
    else .ok num).bind fun n =>
  if dest.alloc then (loads rest 0 n).map fun bs => (rest.drop n, .str (bs ++ [0]), n)
  else .error .nomem

def Letter.loads (e : Endian) : Letter → UnpackFn
  | .b | .B => intLoads e.dec 1 true
  | .x => xUnpack
  | .z | .Z => zLoads
  | .s | .S => intLoads e.dec 2 true
  | .i | .I | .f => intLoads e.dec 4 (e = .le)
  | .l | .L | .D => intLoads e.dec 8 true

def loadCodec (e : Endian) (c : UInt8) (k : Codec) : Codec :=
  match Letter.all.find? fun t => t.char = c with
  | some t => ⟨k.pack, t.loads e⟩
  | none => k

def loadCount (e : Endian) (st : UnpackState) : Except Stop UnpackState :=
  if (st.dests 0).null then .error .null
  else (callUnpack (packers e Letter.I.char) (loadCodec e Letter.I.char e.iCodec) st.rest 1
      (st.dests 0) false).map fun r =>
    ⟨r.1, nextArg st.dests, some r.2.vnum, st.stored ++ [.count r.2.vnum]⟩

def loadActions (e : Endian) : Actions UnpackState where
  pending st := st.vnum.isSome
  count := loadCount e
  arg p k c := unpackArg p (loadCodec e c k) c
  finish st := if st.vnum.isSome then .error (.format .einval) else .ok st

def unpackLoads (fmt : List UInt8) (dests : Nat → Dest) (buf : List UInt8) :
    Except Stop (Nat × List Stored) :=
  let f := byteOrder (cstr fmt)
  (formatLoop f.1 (loadActions f.1) f.2 ⟨buf, dests, none, []⟩).map fun st =>
    (buf.length - st.rest.length, st.stored)

section Loads
variable {rest : List UInt8}

theorem load_of_lt {i : Nat} (h : i < rest.length) : load rest i = .ok rest[i] := by
  rw [load, getElem?_eq_getElem h]

theorem mapM_eq_ok {α β : Type} {f : α → Except Stop β} {g : α → β} {l : List α}
    (h : ∀ a ∈ l, f a = .ok (g a)) : l.mapM f = .ok (l.map g) := by
  induction l with
  | nil => rfl
  | cons a l ih =>
    rw [forall_mem_cons] at h
    rw [mapM_cons, h.1, ih h.2]
    rfl

theorem loads_of_le {i n : Nat} (h : i + n ≤ rest.length) :
    loads rest i n = .ok ((rest.drop i).take n) := by
  have hload : ∀ j ∈ range' i n, load rest j = .ok (rest.getD j 0) := by
    intro j hj
    rw [mem_range'_1] at hj
    rw [load_of_lt (by omega), getD_eq_getElem?_getD, getElem?_eq_getElem (by omega)]
    rfl
  rw [loads, mapM_eq_ok hload]
  refine congrArg Except.ok (ext_getElem? fun j => ?_)
  rw [getElem?_map, getElem?_take, getElem?_drop]
  by_cases hj : j < n
  · rw [getElem?_range' hj, if_pos hj, Option.map_some, Nat.one_mul, getD_eq_getElem?_getD,
      getElem?_eq_getElem (by omega)]
    rfl
  · rw [if_neg hj, getElem?_eq_none (by rw [length_range']; omega)]
    rfl

theorem scanLoop_eq {fuel s : Nat} (hs : s < rest.length) (hfuel : rest.length ≤ fuel + s) :
    scanLoop rest fuel s =
      if (rest.drop s).all (· ≠ 0) then .error (.space .einval)
      else .ok (s + (cstr (rest.drop s)).length + 1) := by
  induction fuel generalizing s with
  | zero => omega
  | succ fuel ih =>
    rw [scanLoop, load_of_lt hs, Except.bind, drop_eq_getElem_cons hs]
    by_cases hzero : rest[s] = 0
    · simp [hzero, cstr]
    · rw [if_neg hzero]
      by_cases hend : s + 1 = rest.length
      · rw [if_pos hend, drop_of_length_le hend.ge]
        simp [hzero]
      · rw [if_neg hend, ih (by omega) (by omega)]
        simp only [all_cons, hzero, ne_eq, not_false_eq_true, decide_true, Bool.true_and, cstr,
          takeWhile_cons, if_true, length_cons]
        split_ifs
        · rfl
        · exact congrArg Except.ok (by omega)

theorem scanLoop_scanNul (rest : List UInt8) :
    scanLoop rest (rest.length + 1) 0 = scanNul rest := by
  cases rest with
  | nil => rfl
  | cons b rest =>
    rw [scanLoop_eq (Nat.succ_pos _) (Nat.le_succ _), scanNul, if_neg (cons_ne_nil b rest)]
    simp only [drop_zero, Nat.zero_add]

theorem scanNul_le {n : Nat} (h : scanNul rest = .ok n) : n ≤ rest.length := by
  rw [scanNul] at h
  split_ifs at h with hnil hall
  obtain rfl := Except.ok.inj h
  have hpre : cstr rest <+: rest := takeWhile_prefix _
  rcases Nat.lt_or_eq_of_le hpre.length_le with hlt | heq
  · exact hlt
  · have hself := hpre.eq_of_length heq
    rw [cstr, takeWhile_eq_self_iff] at hself
    exact absurd (all_eq_true.mpr hself) hall

theorem zLoads_eq : zLoads = zUnpack := by
  funext rest num dest alloc
  rw [zLoads, zUnpack, scanLoop_scanNul]
  have hload : ∀ n ≤ rest.length, (loads rest 0 n).map (fun bs =>
      ((rest.drop n, Stored.str (bs ++ [0]), n) : List UInt8 × Stored × Nat)) =
      .ok (rest.drop n, .str (rest.take n ++ [0]), n) := by
    intro n hn
    rw [loads_of_le (by omega), drop_zero]
    rfl
  refine Except.bind_congr fun n hn => ?_
  have hle : n ≤ rest.length := by
    by_cases hnum : num = 0
    · rw [if_pos hnum] at hn
      exact scanNul_le hn
    · rw [if_neg hnum] at hn
      split_ifs at hn with hshort
      obtain rfl := Except.ok.inj hn
      omega
  rw [hload n hle]

theorem intLoads_eq {w n : Nat} (dec : List UInt8 → UInt64) (checked : Bool)
    (h : n * w ≤ rest.length) (dest : Dest) (alloc : Bool) :
    intLoads dec w checked rest n dest alloc =
      intUnpack (fun p => dec (p.take w)) w checked rest n dest alloc := by
  have hall : ((range n).mapM fun i => (loads rest (i * w) w).map dec) =
      .ok ((range n).map fun i => dec ((rest.drop (i * w)).take w)) := by
    refine mapM_eq_ok fun i hi => ?_
    rw [mem_range] at hi
    have hfit : i * w + w ≤ n * w := by
      rw [← Nat.succ_mul]
      exact Nat.mul_le_mul_right w hi
    rw [loads_of_le (hfit.trans h)]
    rfl
  rw [intLoads, intUnpack, hall]
  cases alloc with
  | false => rfl
  | true =>
    obtain ⟨null, alloc⟩ := dest
    cases alloc with
    | true => rfl
    | false =>
      cases checked with
      | true => rfl
      | false => rfl

end Loads

/-! ## The interpreter with checked loads -/

section Interp
variable {e : Endian} {t : Letter} {rest : List UInt8} {dest : Dest}

theorem codec_loads_int (e : Endian) (ht : t.isInt = true) :
    ∃ checked, (t.codec e).unpack = intUnpack (fun p => e.dec (p.take t.size)) t.size checked ∧
      t.loads e = intLoads e.dec t.size checked := by
  cases e <;> cases t <;> first | exact ⟨_, rfl, rfl⟩ | exact ⟨_, bUnpack_eq, rfl⟩ | cases ht

theorem loadCodec_char (e : Endian) (t : Letter) (k : Codec) :
    loadCodec e t.char k = ⟨k.pack, t.loads e⟩ := by
  cases t <;> rfl

theorem callUnpack_loads (n : Nat) (alloc : Bool) :
    callUnpack (t.packer e) ⟨(t.codec e).pack, t.loads e⟩ rest n dest alloc =
      callUnpack (t.packer e) (t.codec e) rest n dest alloc := by
  rcases t.cases with rfl | ht | ht
  · rfl
  · have hz : t.loads e = (t.codec e).unpack := by
      rw [codec_unpack_str ht, ← zLoads_eq]
      cases t <;> first | rfl | cases ht
    rw [hz]
  · obtain ⟨checked, hunpack, hloads⟩ := codec_loads_int e ht
    rw [callUnpack, callUnpack]
    by_cases hspace : 0 < (t.packer e).size ∧ rest.length < n * (t.packer e).size
    · rw [if_pos hspace, if_pos hspace]
    · have hfit : n * t.size ≤ rest.length :=
        Nat.not_lt.mp fun h => hspace ⟨(width_of_isInt ht).2.1, h⟩
      rw [if_neg hspace, if_neg hspace]
      simp only [hunpack, hloads, intLoads_eq _ _ hfit]

theorem loadActions_lawful (e : Endian) : (loadActions e).Lawful where
  count st st' h := by
    simp only [loadActions, loadCount] at h
    split_ifs at h
    obtain ⟨r, -, rfl⟩ := map_eq_ok h
    rfl
  arg p k c num st st' h := (unpackActions_lawful e).arg p (loadCodec e c k) c num st st' h

theorem loadToken_eq (e : Endian) (st : UnpackState) (tok : Token) :
    doToken e (loadActions e) st tok = doToken e (unpackActions e) st tok := by
  cases tok with
  | star =>
    have hcall : ∀ d, callUnpack (packers e Letter.I.char) (loadCodec e Letter.I.char e.iCodec)
        st.rest 1 d false = callUnpack (packers e Letter.I.char) e.iCodec st.rest 1 d false := by
      intro d
      rw [loadCodec_char]
      cases e <;> exact callUnpack_loads (t := .I) 1 false
    change loadCount e st = unpackCount e st
    rw [loadCount, unpackCount, hcall]
  | item t num =>
    change unpackArg (t.packer e) (loadCodec e t.char (t.codec e)) t.char num st =
      unpackArg (t.packer e) (t.codec e) t.char num st
    rw [loadCodec_char]
    unfold unpackArg
    simp only [callUnpack_loads]

theorem unpackLoads_eq (fmt : List UInt8) (dests : Nat → Dest) (buf : List UInt8) :
    unpackLoads fmt dests buf = unpack fmt dests buf := by
  have hscan : ∀ sc : List Token × Ending, ∀ st,
      doScan (formatOrder fmt) (loadActions (formatOrder fmt)) sc st =
        doScan (formatOrder fmt) (unpackActions (formatOrder fmt)) sc st := by
    intro sc st
    have htok : doToken (formatOrder fmt) (loadActions (formatOrder fmt)) =
        doToken (formatOrder fmt) (unpackActions (formatOrder fmt)) :=
      funext fun st => funext fun tok => loadToken_eq _ st tok
    rw [doScan, doScan, htok]
    refine Except.bind_congr fun st' _ => ?_
    cases sc.2 <;> rfl
  have hloop : formatLoop (formatOrder fmt) (loadActions (formatOrder fmt))
      (byteOrder (cstr fmt)).2 ⟨buf, dests, none, []⟩ = doScan (formatOrder fmt)
        (loadActions (formatOrder fmt)) (scanFormat fmt) ⟨buf, dests, none, []⟩ :=
    formatLoop_eq (loadActions_lawful _) _ _ _
  rw [unpack_eq, ← hscan, ← hloop]
  rfl

end Interp

/-! ## Where a load goes astray -/

def PlainString (vnum : Option UInt32) : Token → Prop
  | .star => False
  | .item t num => t.isStr = true ∧ vnum = none ∧ num = 0

/-- A string without a count is reached with nothing left in the buffer. -/
def StringAtEnd (e : Endian) : Option UInt32 → List UInt8 → List Token → Prop
  | _, _, [] => False
  | vnum, rest, tok :: toks =>
    PlainString vnum tok ∧ rest = [] ∨
      ∃ m, tokenExtent vnum rest tok = .ok m ∧ IntSize m ∧
        StringAtEnd e (vnumRead e rest tok) (rest.drop m) toks

def Dest.Stops (d : Dest) : Stop → Prop
  | .null => d.null = true
  | .nomem | .nullWrite => d.alloc = false
  | _ => False

def Stop.Returned (s : Stop) : Prop := ∃ c, s.ret = some c ∧ c < 0

theorem Dest.Stops.ne_overread {d : Dest} {s : Stop} (h : d.Stops s) : s ≠ .overread := by
  rintro rfl
  exact h

theorem Dest.Stops.returned {d : Dest} {s : Stop} (h : d.Stops s) (hd : d.alloc = true) :
    s.Returned := by
  cases s with
  | null => exact ⟨_, rfl, by decide⟩
  | nomem => exact ⟨_, rfl, by decide⟩
  | nullWrite =>
    rw [Dest.Stops, hd] at h
    cases h
  | _ => exact h.elim

section Tokens
variable {e : Endian} {t : Letter} {rest : List UInt8} {dest : Dest}

theorem codec_unpack_dest (n : Nat) (hd : dest.alloc = false) (alloc : Bool) :
    (∃ s, (t.codec e).unpack rest n dest alloc = .error s ∧ dest.Stops s) ∨
      (t.codec e).unpack rest n dest alloc = (t.codec e).unpack rest n ⟨false, true⟩ alloc := by
  rcases t.cases with rfl | ht | ht
  · exact .inr rfl
  · simp only [codec_unpack_str ht, zUnpack, hd]
    cases (if n = 0 then scanNul rest
      else if rest.length < n then Except.error (.space .enospc) else .ok n) with
    | error s => exact .inr rfl
    | ok m => exact .inl ⟨.nomem, rfl, hd⟩
  · obtain ⟨checked, hunpack⟩ := codec_unpack_int (e := e) ht
    simp only [hunpack, intUnpack, hd]
    cases alloc with
    | false => exact .inr rfl
    | true =>
      cases checked with
      | true => exact .inl ⟨.nomem, rfl, hd⟩
      | false => exact .inl ⟨.nullWrite, rfl, hd⟩

theorem callUnpack_dest (n : Nat) (dest : Dest) (alloc : Bool) :
    (∃ s, callUnpack (t.packer e) (t.codec e) rest n dest alloc = .error s ∧ dest.Stops s) ∨
      callUnpack (t.packer e) (t.codec e) rest n dest alloc =
        callUnpack (t.packer e) (t.codec e) rest n ⟨false, true⟩ alloc := by
  by_cases hd : dest.alloc = true
  · rw [callUnpack_eq hd, callUnpack_eq rfl]
    exact .inr rfl
  · rw [callUnpack_def, callUnpack_def]
    by_cases hspace : 0 < t.size ∧ rest.length < n * t.size
    · rw [if_pos hspace, if_pos hspace]
      exact .inr rfl
    · rw [if_neg hspace, if_neg hspace]
      have hd' := Bool.eq_false_of_not_eq_true hd
      rcases codec_unpack_dest n hd' alloc with ⟨s, hs, hstops⟩ | heq
      · rw [hs]
        exact .inl ⟨s, rfl, hstops⟩
      · rw [heq]
        exact .inr rfl

theorem callUnpack_map_dest (n : Nat) (dest : Dest) (alloc : Bool)
    (f : List UInt8 × Stored → UnpackState) :
    (∃ s, (callUnpack (t.packer e) (t.codec e) rest n dest alloc).map f = .error s ∧
      dest.Stops s) ∨
      (callUnpack (t.packer e) (t.codec e) rest n dest alloc).map f =
        (callUnpack (t.packer e) (t.codec e) rest n ⟨false, true⟩ alloc).map f := by
  rcases callUnpack_dest n dest alloc with ⟨s, hs, hstops⟩ | heq
  · rw [hs]
    exact .inl ⟨s, rfl, hstops⟩
  · rw [heq]
    exact .inr rfl

theorem unpackToken_dest (e : Endian) (st : UnpackState) (tok : Token) :
    (∃ s, doToken e (unpackActions e) st tok = .error s ∧ (st.dests 0).Stops s) ∨
      doToken e (unpackActions e) st tok =
        (doToken e (unpackActions e) { st with dests := validDests } tok).map fun st' =>
          { st' with dests := argsAfter st.dests tok } := by
  have hmap : ∀ {x : Except Stop (List UInt8 × Stored)}
      {f g : List UInt8 × Stored → UnpackState},
      (∀ r, { g r with dests := argsAfter st.dests tok } = f r) →
        x.map f = (x.map g).map fun st' => { st' with dests := argsAfter st.dests tok } := by
    intro x f g hfg
    cases x with
    | error s => rfl
    | ok r => exact congrArg Except.ok (hfg r).symm
  cases tok with
  | star =>
    have hcount : ∀ st, doToken e (unpackActions e) st .star = unpackCount e st := fun _ => rfl
    simp only [hcount]
    by_cases hnull : (st.dests 0).null = true
    · exact .inl ⟨.null, if_pos hnull, hnull⟩
    · rw [unpackCount, unpackCount, if_neg hnull]
      have hcall := @callUnpack_map_dest e .I st.rest 1 (st.dests 0) false
        fun r => ⟨r.1, nextArg st.dests, some r.2.vnum, st.stored ++ [.count r.2.vnum]⟩
      have hpacker : (Letter.I.packer e = packers e Letter.I.char) ∧
          Letter.I.codec e = e.iCodec := by cases e <;> exact ⟨rfl, rfl⟩
      rw [hpacker.1, hpacker.2] at hcall
      exact hcall.imp_right fun h => h.trans (hmap fun r => rfl)
  | item t num =>
    have harg : ∀ st, doToken e (unpackActions e) st (.item t num) =
        unpackArg (t.packer e) (t.codec e) t.char num st := fun _ => rfl
    simp only [harg, unpackArg]
    -- padding has no pointer
    by_cases hx : t = .x
    · subst hx
      rw [if_pos rfl, if_pos rfl]
      exact .inr (hmap fun r => rfl)
    · rw [if_neg (char_eq_x_iff.not.mpr hx), if_neg (char_eq_x_iff.not.mpr hx)]
      by_cases hnull : (st.dests 0).null = true
      · exact .inl ⟨.null, if_pos hnull, hnull⟩
      · have hvalid : ¬ (validDests 0).null = true := Bool.false_ne_true
        rw [if_neg hnull, if_neg hvalid]
        have hdests := argsAfter_item hx st.dests num
        cases hv : st.vnum with
        | none =>
          exact (callUnpack_map_dest _ _ _ _).imp_right fun h =>
            h.trans (hmap fun r => by rw [hdests])
        | some v =>
          by_cases hv0 : v = 0
          · simp only [hv0, if_true, Except.map, hdests]
            exact .inr trivial
          · simp only [if_neg hv0]
            exact (callUnpack_map_dest _ _ _ _).imp_right fun h =>
              h.trans (hmap fun r => by rw [hdests])

theorem unpackToken_cases (e : Endian) (st : UnpackState) (tok : Token) :
    (∃ s, doToken e (unpackActions e) st tok = .error s ∧ (st.dests 0).Stops s) ∨
      doToken e (unpackActions e) st tok = (tokenExtent st.vnum st.rest tok).bind fun m =>
        if IntSize m then
          .ok ⟨st.rest.drop m, argsAfter st.dests tok, vnumRead e st.rest tok,
            st.stored ++ tokenStored e st.vnum st.rest m tok⟩
        else .error (.size (asInt m)) := by
  refine (unpackToken_dest e st tok).imp_right fun h => h.trans ?_
  have husable : ({ st with dests := validDests }.dests 0).Usable := validDests_usable 0
  rw [unpackToken_eq e husable]
  cases tokenExtent st.vnum st.rest tok with
  | error s => rfl
  | ok m =>
    simp only [Except.bind]
    split_ifs <;> rfl

theorem extent_overread_iff (t : Letter) (n : Nat) (rest : List UInt8) :
    extent t n rest = .error .overread ↔ t.isStr = true ∧ n = 0 ∧ rest = [] := by
  rw [extent]
  split_ifs with hstr hshort
  · rw [scanNul]
    split_ifs with hnil
    · exact iff_of_true rfl ⟨hstr.1, hstr.2, hnil⟩
    · exact iff_of_false (fun h => by cases h) fun h => hnil h.2.2
    · exact iff_of_false (fun h => by cases h) fun h => hnil h.2.2
  all_goals exact iff_of_false (fun h => by cases h) fun h => hstr ⟨h.1, h.2.1⟩

theorem tokenExtent_overread_iff (vnum : Option UInt32) (rest : List UInt8) (tok : Token) :
    tokenExtent vnum rest tok = .error .overread ↔ PlainString vnum tok ∧ rest = [] := by
  cases tok with
  | star =>
    rw [tokenExtent, extent_overread_iff]
    exact iff_of_false (fun h => Bool.false_ne_true h.1) fun h => h.1
  | item t num =>
    rw [tokenExtent, PlainString]
    by_cases hskip : t ≠ .x ∧ vnum = some 0
    · rw [if_pos hskip, hskip.2]
      exact iff_of_false (fun h => by cases h) fun h => by cases h.1.2.1
    · rw [if_neg hskip, extent_overread_iff, and_assoc]
      refine and_congr_right fun hstr => ?_
      have hx := ne_x_of_isStr hstr
      simp only [unpackNum, if_neg hx]
      cases vnum with
      | none => simp only [hstr, Bool.true_eq_false, false_and, if_false, true_and]
      | some v =>
        -- a count of zero has been skipped
        have hv : v.toNat ≠ 0 := fun h =>
          hskip ⟨hx, congrArg some (UInt32.toNat_inj.mp (h.trans UInt32.toNat_zero.symm))⟩
        simp only [hv, reduceCtorEq, false_and]

theorem extent_error {t : Letter} {n : Nat} {rest : List UInt8} {s : Stop}
    (h : extent t n rest = .error s) : s = .overread ∨ s.Returned := by
  rw [extent, scanNul] at h
  split_ifs at h with _ _ _ _ hx <;> obtain rfl := Except.error.inj h
  · exact .inl rfl
  all_goals exact .inr ⟨_, rfl, by decide⟩

theorem tokenExtent_error {vnum : Option UInt32} {rest : List UInt8} {tok : Token} {s : Stop}
    (h : tokenExtent vnum rest tok = .error s) : s = .overread ∨ s.Returned := by
  cases tok with
  | star => exact extent_error h
  | item t num =>
    rw [tokenExtent] at h
    split_ifs at h
    exact extent_error h

theorem stringAtEnd_of_overread {toks : List Token} {st : UnpackState}
    (h : toks.foldlM (doToken e (unpackActions e)) st = .error .overread) :
    StringAtEnd e st.vnum st.rest toks := by
  induction toks generalizing st with
  | nil => cases h
  | cons tok toks ih =>
    rw [foldlM_cons] at h
    rw [StringAtEnd]
    rcases unpackToken_cases e st tok with ⟨s, hs, hstops⟩ | heq
    · rw [hs] at h
      exact absurd (Except.error.inj h) hstops.ne_overread
    · rw [heq] at h
      cases hm : tokenExtent st.vnum st.rest tok with
      | error s =>
        rw [hm] at h
        obtain rfl := Except.error.inj h
        exact .inl ((tokenExtent_overread_iff ..).mp hm)
      | ok m =>
        rw [hm, Except.bind] at h
        by_cases hint : IntSize m
        · rw [if_pos hint] at h
          exact .inr ⟨m, rfl, hint, ih h⟩
        · rw [if_neg hint] at h
          cases h

theorem overread_of_stringAtEnd {toks : List Token} {st : UnpackState}
    (hd : ∀ i, (st.dests i).Usable) (h : StringAtEnd e st.vnum st.rest toks) :
    toks.foldlM (doToken e (unpackActions e)) st = .error .overread := by
  induction toks generalizing st with
  | nil => exact h.elim
  | cons tok toks ih =>
    rw [foldlM_cons, unpackToken_eq e (hd 0)]
    rcases h with hplain | ⟨m, hm, hint, hrest⟩
    · rw [(tokenExtent_overread_iff ..).mpr hplain]
      rfl
    · rw [hm, Except.bind, if_pos hint]
      exact ih (usable_argsAfter hd tok) hrest

theorem unpackTokens_short {toks : List Token} {st : UnpackState}
    (hd : ∀ i, (st.dests i).alloc = true) (hshort : extents e st.vnum st.rest toks = none) :
    ∃ s, toks.foldlM (doToken e (unpackActions e)) st = .error s ∧
      (s = .overread ∨ s.Returned) := by
  induction toks generalizing st with
  | nil => cases hshort
  | cons tok toks ih =>
    rw [foldlM_cons]
    rcases unpackToken_cases e st tok with ⟨s, hs, hstops⟩ | heq
    · rw [hs]
      exact ⟨s, rfl, .inr (hstops.returned (hd 0))⟩
    · rw [heq]
      rw [extents] at hshort
      cases hm : tokenExtent st.vnum st.rest tok with
      | error s => exact ⟨s, rfl, tokenExtent_error hm⟩
      | ok m =>
        rw [hm] at hshort
        rw [Except.bind]
        by_cases hint : IntSize m
        · rw [if_pos hint]
          refine ih (fun i => ?_) (Option.map_eq_none_iff.mp hshort)
          simp only [argsAfter]
          split
          · exact hd i
          · exact hd (i + 1)
        · rw [if_neg hint]
          exact ⟨.size (asInt m), rfl, .inr ⟨_, rfl, Int.not_le.mp hint⟩⟩

end Tokens

/-! ## Whole calls -/

section Calls
variable {fmt buf : List UInt8}

theorem lenPrefix_ne_overread (c : UInt8) (rest : List UInt8) :
    lenPrefix c rest ≠ .error .overread := by
  intro h
  cases rest with
  | nil => cases h
  | cons t rest =>
    rw [lenPrefix] at h
    split_ifs at h
    split at h <;> cases h

theorem select_ne_overread (pend : Bool) (c : UInt8) (num : Nat) :
    select pend c num ≠ .error .overread := by
  intro h
  rw [select] at h
  split_ifs at h with hnum hoob hzero
  · cases h
  · cases h
  · cases h
  · split at h <;> cases h

theorem scan_ne_overread (pend : Bool) (fmt : List UInt8) :
    (scan pend fmt).2 ≠ .stop .overread := by
  intro h
  fun_induction scan pend fmt with
  | case2 pend c rest hc ih => exact ih h
  | case4 pend rest hp hc ih => exact ih h
  | case5 pend c rest hc h42 hd s hs =>
    obtain rfl := Ending.stop.inj h
    exact lenPrefix_ne_overread c rest hs
  | case6 pend c hc h42 hd num hnum =>
    have hs := Ending.stop.inj h
    split_ifs at hs
  | case7 pend c hc h42 hd num t rest s hs hnum =>
    obtain rfl := Ending.stop.inj h
    exact select_ne_overread pend t num hs
  | case8 pend c hc h42 hd num t rest u hu hnum ih => exact ih h
  | case9 pend c rest hc h42 hd s hs =>
    obtain rfl := Ending.stop.inj h
    exact select_ne_overread pend c 0 hs
  | case10 pend c rest hc h42 hd u hu ih => exact ih h
  | _ => cases h

theorem unpack_of_tokens_error {dests : Nat → Dest} {s : Stop}
    (h : (scanFormat fmt).1.foldlM (doToken (formatOrder fmt) (unpackActions (formatOrder fmt)))
      ⟨buf, dests, none, []⟩ = .error s) : unpack fmt dests buf = .error s := by
  rw [unpack_eq, doScan, h]
  rfl

theorem stringAtEnd_of_unpack {dests : Nat → Dest} (h : unpack fmt dests buf = .error .overread) :
    StringAtEnd (formatOrder fmt) none buf (scanFormat fmt).1 := by
  rw [unpack_eq] at h
  rcases doScan_error (map_eq_error h) with hrun | ⟨st', hst'⟩
  · exact stringAtEnd_of_overread hrun
  · cases hend : (scanFormat fmt).2 with
    | done b =>
      simp only [hend, doEnding, unpackActions] at hst'
      split_ifs at hst'
      cases hst'
    | stop s =>
      rw [hend] at hst'
      obtain rfl := Except.error.inj hst'
      exact absurd hend (scan_ne_overread _ _)

/-- Every load is before the end of the buffer, and an error is returned if the buffer does not
hold all items, be it too short or without the `\0` of a string. -/
def ReadsInside (fmt buf : List UInt8) : Prop :=
  (∀ dests, unpackLoads fmt dests buf ≠ .error .overread) ∧
    (formatExtents fmt buf = none → ∀ dests, (∀ i, (dests i).alloc = true) →
      ∃ s, unpackLoads fmt dests buf = .error s ∧ s.Returned)

/-- The loads stay in the buffer exactly if no string without a count is reached at its end. -/
theorem reads_inside_iff (fmt buf : List UInt8) :
    ReadsInside fmt buf ↔ ¬ StringAtEnd (formatOrder fmt) none buf (scanFormat fmt).1 := by
  simp only [ReadsInside, unpackLoads_eq]
  constructor
  · rintro ⟨hinside, -⟩ hend
    exact hinside validDests (unpack_of_tokens_error
      (overread_of_stringAtEnd validDests_usable hend))
  · intro hend
    refine ⟨fun dests h => hend (stringAtEnd_of_unpack h), fun hshort dests hd => ?_⟩
    obtain ⟨s, hs, hcases⟩ := @unpackTokens_short _ _ ⟨buf, dests, none, []⟩ hd hshort
    have hs' := unpack_of_tokens_error hs
    refine ⟨s, hs', hcases.resolve_left ?_⟩
    rintro rfl
    exact hend (stringAtEnd_of_unpack hs')

/-- The format `z` with an empty buffer. -/
theorem overread_at_end :
    unpackLoads [122] validDests [] = .error .overread ∧ ¬ ReadsInside [122] [] := by
  have hrun : unpackLoads [122] validDests [] = .error .overread := rfl
  exact ⟨hrun, fun h => h.1 validDests hrun⟩

end Calls
end PortableLib.Pack
