import PortableLib.Pack.Reads

/-! Runs of the two interpreters over the tokens of a format. -/

namespace PortableLib.Pack
open List Encdec

def chunks (e : Endian) : Option UInt32 → (Nat → Arg) → List Token → List (List UInt8)
  | _, _, [] => []
  | vnum, args, tok :: toks =>
    chunk e vnum args tok :: chunks e (vnumAfter args tok) (argsAfter args tok) toks

def NoNullString : Option UInt32 → (Nat → Arg) → List Token → Prop
  | _, _, [] => True
  | vnum, args, tok :: toks =>
    ¬ NullString vnum args tok ∧ NoNullString (vnumAfter args tok) (argsAfter args tok) toks

def extents (e : Endian) : Option UInt32 → List UInt8 → List Token → Option (List Nat)
  | _, _, [] => some []
  | vnum, rest, tok :: toks =>
    match tokenExtent vnum rest tok with
    | .error _ => none
    | .ok m => (extents e (vnumRead e rest tok) (rest.drop m) toks).map (m :: ·)

def storedAll (e : Endian) : Option UInt32 → List UInt8 → List Nat → List Token → List Stored
  | vnum, rest, m :: ms, tok :: toks =>
    tokenStored e vnum rest m tok ++ storedAll e (vnumRead e rest tok) (rest.drop m) ms toks
  | _, _, _, _ => []

/-- The first size that is negative as an `int`. -/
def oversize (ns : List Nat) : Option Int := (ns.find? fun n => ¬ IntSize n).map asInt

theorem oversize_cons_pos {n : Nat} (h : IntSize n) (ns : List Nat) :
    oversize (n :: ns) = oversize ns := by
  rw [oversize, find?_cons_of_neg (by simpa using h), oversize]

theorem oversize_cons_neg {n : Nat} (h : ¬ IntSize n) (ns : List Nat) :
    oversize (n :: ns) = some (asInt n) := by
  rw [oversize, find?_cons_of_pos (by simpa using h), Option.map_some]

theorem oversize_eq_none_iff {ns : List Nat} : oversize ns = none ↔ ∀ n ∈ ns, IntSize n := by
  simp [oversize]

theorem oversize_lengths_eq_none_iff {cs : List (List UInt8)} :
    oversize (cs.map length) = none ↔ ∀ c ∈ cs, IntSize c.length := by
  rw [oversize_eq_none_iff, forall_mem_map]

theorem packTokens_eq (e : Endian) {cap : Nat} (toks : List Token) (st : PackState)
    (hcap : st.out.length + (chunks e st.vnum st.args toks).flatten.length ≤ cap)
    (hnull : NoNullString st.vnum st.args toks) :
    (toks.foldlM (doToken e (packActions e cap)) st).map PackState.out =
      match oversize ((chunks e st.vnum st.args toks).map length) with
      | none => .ok (st.out ++ (chunks e st.vnum st.args toks).flatten)
      | some c => .error (.size c) := by
  -- the room that is left shrinks by the chunk of each token
  induction toks generalizing st with
  | nil => exact congrArg Except.ok (append_nil _).symm
  | cons tok toks ih =>
    simp only [chunks, flatten_cons, length_append] at hcap
    have hout : st.out.length ≤ cap := by omega
    have hspace : ¬ cap < st.out.length + (chunk e st.vnum st.args tok).length := by omega
    have htok := packToken_eq e hout tok
    rw [if_neg hnull.1, packed, if_neg hspace] at htok
    simp only [chunks, map_cons, foldlM_cons, flatten_cons]
    rw [htok]
    by_cases hint : IntSize (chunk e st.vnum st.args tok).length
    · rw [if_pos hint, oversize_cons_pos hint, ← append_assoc]
      exact ih ⟨st.out ++ chunk e st.vnum st.args tok, argsAfter st.args tok,
          vnumAfter st.args tok⟩ (by simp only [length_append]; omega) hnull.2
    · rw [if_neg hint, oversize_cons_neg hint]
      rfl

theorem usable_argsAfter {dests : Nat → Dest} (h : ∀ i, (dests i).Usable) (tok : Token) (i : Nat) :
    (argsAfter dests tok i).Usable := by
  unfold argsAfter
  split
  · exact h i
  · exact h (i + 1)

theorem unpackTokens_eq (e : Endian) (toks : List Token) (st : UnpackState)
    (hd : ∀ i, (st.dests i).Usable) {ms : List Nat}
    (hms : extents e st.vnum st.rest toks = some ms) :
    (toks.foldlM (doToken e (unpackActions e)) st).map (fun st => (st.rest, st.stored)) =
      match oversize ms with
      | none => .ok (st.rest.drop ms.sum, st.stored ++ storedAll e st.vnum st.rest ms toks)
      | some c => .error (.size c) := by
  induction toks generalizing st ms with
  | nil =>
    obtain rfl := Option.some.inj hms
    exact congrArg (fun stored => Except.ok (st.rest, stored)) (append_nil _).symm
  | cons tok toks ih =>
    have htok := unpackToken_eq e (hd 0) tok
    rw [extents] at hms
    cases hm : tokenExtent st.vnum st.rest tok with
    | error s =>
      rw [hm] at hms
      cases hms
    | ok m =>
      rw [hm] at hms htok
      obtain ⟨ms', hms', rfl⟩ := Option.map_eq_some_iff.mp hms
      rw [foldlM_cons, htok, Except.bind]
      by_cases hint : IntSize m
      · rw [if_pos hint, oversize_cons_pos hint, storedAll, ← append_assoc, sum_cons, ← drop_drop]
        exact ih ⟨st.rest.drop m, argsAfter st.dests tok, vnumRead e st.rest tok,
          st.stored ++ tokenStored e st.vnum st.rest m tok⟩ (usable_argsAfter hd tok) hms'
      · rw [if_neg hint, oversize_cons_neg hint]
        rfl

def pendingAfter : Bool → List Token → Bool
  | pend, [] => pend
  | _, .star :: toks => pendingAfter true toks
  | _, .item _ _ :: toks => pendingAfter false toks

theorem pending_foldlM {σ : Type*} {a : Actions σ} (ha : a.Lawful) (e : Endian) {toks : List Token}
    {st st' : σ} (h : toks.foldlM (doToken e a) st = .ok st') :
    a.pending st' = pendingAfter (a.pending st) toks := by
  induction toks generalizing st with
  | nil =>
    obtain rfl := Except.ok.inj h
    rfl
  | cons tok toks ih =>
    rw [foldlM_cons] at h
    cases htok : doToken e a st tok with
    | error s =>
      rw [htok] at h
      cases h
    | ok st₁ =>
      rw [htok] at h
      rw [ih h]
      cases tok with
      | star => rw [ha.count _ _ htok]; rfl
      | item t num => rw [ha.arg _ _ _ _ _ _ htok]; rfl

theorem scan_done {pend b : Bool} {fmt : List UInt8} (h : (scan pend fmt).2 = .done b) :
    b = pendingAfter pend (scan pend fmt).1 := by
  fun_induction scan pend fmt with
  | case1 pend => exact (Ending.done.inj h).symm
  | case2 pend c rest hc ih => exact ih h
  | case4 pend rest hp hc ih => exact ih h
  | case8 pend c hc h42 hd num t rest u hu hnum ih => exact ih h
  | case10 pend c rest hc h42 hd u hu ih => exact ih h
  | _ => cases h

theorem digit_le {c : UInt8} (hc : isdigit c = true) : digit c ≤ 9 := by
  rw [isdigit, Bool.and_eq_true, decide_eq_true_eq, decide_eq_true_eq] at hc
  have hle := UInt8.le_iff_toNat_le.mp hc.2
  rw [show (57 : UInt8).toNat = 57 from rfl] at hle
  unfold digit
  omega

theorem lenPrefix_ok {c : UInt8} {rest : List UInt8} {num : Nat} (h : lenPrefix c rest = .ok num) :
    num = digit c ∧ ∀ t ∈ rest.head?, ¬ isdigit t = true := by
  cases rest with
  | nil => exact ⟨(Except.ok.inj h).symm, fun t ht => (by cases ht)⟩
  | cons t rest =>
    rw [lenPrefix] at h
    split_ifs at h with ht
    · split at h <;> cases h
    · refine ⟨(Except.ok.inj h).symm, fun u hu => ?_⟩
      obtain rfl := Option.some.inj hu
      exact ht

theorem num_le_of_mem_scan {pend : Bool} {fmt : List UInt8} {t : Letter} {num : Nat}
    (h : .item t num ∈ (scan pend fmt).1) : num ≤ 9 := by
  fun_induction scan pend fmt with
  | case2 pend c rest hc ih => exact ih h
  | case4 pend rest hp hc ih =>
    rcases mem_cons.mp h with h | h
    · cases h
    · exact ih h
  | case8 pend c hc h42 hd num' t' rest u hu hnum ih =>
    rcases mem_cons.mp h with h | h
    · cases h
      obtain ⟨rfl, -⟩ := lenPrefix_ok hnum
      exact digit_le hd
    · exact ih h
  | case10 pend c rest hc h42 hd u hu ih =>
    rcases mem_cons.mp h with h | h
    · cases h
      decide
    · exact ih h
  | _ => cases h

section Calls
variable {fmt : List UInt8}

def formatChunks (fmt : List UInt8) (args : Nat → Arg) : List (List UInt8) :=
  chunks (formatOrder fmt) none args (scanFormat fmt).1

def formatExtents (fmt buf : List UInt8) : Option (List Nat) :=
  extents (formatOrder fmt) none buf (scanFormat fmt).1

/-- `Pack` into a buffer that is large enough writes the chunks and ends as the format does,
unless a chunk has a size that is negative as an `int`. -/
theorem pack_of_chunks {args : Nat → Arg} {cap : Nat}
    (hnull : NoNullString none args (scanFormat fmt).1)
    (hcap : (formatChunks fmt args).flatten.length ≤ cap) :
    pack fmt args cap =
      match oversize ((formatChunks fmt args).map length), (scanFormat fmt).2 with
      | none, .done _ => .ok (formatChunks fmt args).flatten
      | none, .stop s => .error s
      | some c, _ => .error (.size c) := by
  have hroom : ([] : List UInt8).length + (formatChunks fmt args).flatten.length ≤ cap := by
    rwa [length_nil, Nat.zero_add]
  have hrun : ((scanFormat fmt).1.foldlM (doToken (formatOrder fmt)
      (packActions (formatOrder fmt) cap)) ⟨[], args, none⟩).map PackState.out =
      match oversize ((formatChunks fmt args).map length) with
      | none => .ok (formatChunks fmt args).flatten
      | some c => .error (.size c) :=
    packTokens_eq (formatOrder fmt) (scanFormat fmt).1 ⟨[], args, none⟩ hroom hnull
  rw [pack_eq, doScan]
  cases hbig : oversize ((formatChunks fmt args).map length) with
  | none =>
    rw [hbig] at hrun
    obtain ⟨st', hst', hout⟩ := map_eq_ok hrun
    rw [hst']
    cases (scanFormat fmt).2 with
    | done b => exact congrArg Except.ok hout
    | stop s => rfl
  | some c =>
    rw [hbig] at hrun
    rw [map_eq_error hrun]
    rfl

/-- `Unpack` of a buffer that holds all items reads them and ends as the format does, unless an
item has a size that is negative as an `int`. -/
theorem unpack_of_extents {dests : Nat → Dest} {buf : List UInt8} (hd : ∀ i, (dests i).Usable)
    {ms : List Nat} (hms : formatExtents fmt buf = some ms) :
    unpack fmt dests buf =
      match oversize ms, (scanFormat fmt).2 with
      | none, .done true => .error (.format .einval)
      | none, .done false => .ok (buf.length - (buf.length - ms.sum),
          storedAll (formatOrder fmt) none buf ms (scanFormat fmt).1)
      | none, .stop s => .error s
      | some c, _ => .error (.size c) := by
  have hrun := unpackTokens_eq _ _ ⟨buf, dests, none, []⟩ hd hms
  rw [unpack_eq, doScan]
  cases hbig : oversize ms with
  | some c =>
    rw [hbig] at hrun
    rw [map_eq_error hrun]
    rfl
  | none =>
    rw [hbig] at hrun
    obtain ⟨st', hst', hend⟩ := map_eq_ok hrun
    obtain ⟨hrest, hstored⟩ := Prod.mk.inj hend
    have hpend := pending_foldlM (unpackActions_lawful _) _ hst'
    rw [hst']
    cases hend : (scanFormat fmt).2 with
    | stop s => rfl
    | done b =>
      have hb : st'.vnum.isSome = b := hpend.trans (scan_done hend).symm
      cases b with
      | true => simp only [Except.bind, doEnding, unpackActions, hb, if_true, Except.map]
      | false =>
        simp only [Except.bind, doEnding, unpackActions, hb, Bool.false_eq_true, if_false,
          Except.map, hrest, hstored, length_drop, nil_append]

theorem pack_eq_ok_iff (hdone : (scanFormat fmt).2 = .done false) {args : Nat → Arg} {cap : Nat}
    (hnull : NoNullString none args (scanFormat fmt).1)
    (hcap : (formatChunks fmt args).flatten.length ≤ cap) {bytes : List UInt8} :
    pack fmt args cap = .ok bytes ↔
      (∀ c ∈ formatChunks fmt args, IntSize c.length) ∧
        bytes = (formatChunks fmt args).flatten := by
  rw [pack_of_chunks hnull hcap, hdone, ← oversize_lengths_eq_none_iff]
  cases oversize ((formatChunks fmt args).map length) with
  | none =>
    refine ⟨fun h => ⟨rfl, (Except.ok.inj h).symm⟩, fun h => ?_⟩
    rw [h.2]
  | some c => exact ⟨fun h => (by cases h), fun h => (by cases h.1)⟩

theorem unpack_chunks (hdone : (scanFormat fmt).2 = .done false) {dests : Nat → Dest}
    (hd : ∀ i, (dests i).Usable) {cs : List (List UInt8)} {tail : List UInt8}
    (hext : formatExtents fmt (cs.flatten ++ tail) = some (cs.map length))
    (hint : ∀ c ∈ cs, IntSize c.length) :
    unpack fmt dests (cs.flatten ++ tail) = .ok (cs.flatten.length,
      storedAll (formatOrder fmt) none (cs.flatten ++ tail) (cs.map length)
        (scanFormat fmt).1) := by
  rw [unpack_of_extents hd hext, hdone, oversize_lengths_eq_none_iff.mpr hint]
  simp only
  rw [← length_flatten, length_append, Nat.add_sub_cancel_left, Nat.add_sub_cancel]

end Calls

end PortableLib.Pack
