import PortableLib.Pack.Items

/-! What one token of a format reads and stores. -/

namespace PortableLib.Pack
open List Encdec

def elements (e : Endian) (w n : Nat) (rest : List UInt8) : List UInt64 :=
  (range n).map fun i => e.dec ((rest.drop (i * w)).take w)

def decoded (e : Endian) (t : Letter) (alloc : Bool) (n m : Nat) (rest : List UInt8) : Stored :=
  if t = .x then .untouched
  else if t.isStr then .str (rest.take m ++ [0])
  else if alloc then .heap (elements e t.size n rest)
  else .elems (elements e t.size n rest)

/-- The bytes that `n` elements take, or a string that is read up to its `\0`. -/
def extent (t : Letter) (n : Nat) (rest : List UInt8) : Except Stop Nat :=
  if t.isStr ∧ n = 0 then scanNul rest
  else if rest.length < n * t.width then .error (.space (if t = .x then .einval else .enospc))
  else .ok (n * t.width)

theorem bUnpack_eq : bUnpack = intUnpack (fun p => decBE (p.take 1)) 1 true := by
  funext rest num dest alloc
  have hone : ∀ p : List UInt8, decLE (p.take 1) = decBE (p.take 1) := by
    intro p
    cases p <;> rfl
  simp only [bUnpack, intUnpack, hone]

theorem codec_unpack_int {e : Endian} {t : Letter} (ht : t.isInt = true) :
    ∃ checked, (t.codec e).unpack =
      intUnpack (fun p => e.dec (p.take t.size)) t.size checked := by
  cases e <;> cases t <;> first | exact ⟨_, rfl⟩ | exact ⟨_, bUnpack_eq⟩ | cases ht

theorem codec_unpack_str {e : Endian} {t : Letter} (ht : t.isStr = true) :
    (t.codec e).unpack = zUnpack := by
  cases t <;> first | rfl | cases ht

theorem intUnpack_eq (e : Endian) (w : Nat) (checked : Bool) (rest : List UInt8) (n : Nat)
    {dest : Dest} (hd : dest.alloc = true) (alloc : Bool) :
    intUnpack (fun p => e.dec (p.take w)) w checked rest n dest alloc = .ok (rest.drop (n * w),
      if alloc then .heap (elements e w n rest) else .elems (elements e w n rest), n * w) := by
  simp only [intUnpack, hd, if_true]
  split_ifs <;> rfl

section CallUnpack
variable {e : Endian} {t : Letter} {rest : List UInt8} {dest : Dest}

def taken (e : Endian) (t : Letter) (alloc : Bool) (n : Nat) (rest : List UInt8) (m : Nat) :
    Except Stop (List UInt8 × Stored) :=
  if IntSize m then .ok (rest.drop m, decoded e t alloc n m rest) else .error (.size (asInt m))

theorem callUnpack_def (e : Endian) (t : Letter) (rest : List UInt8) (n : Nat) (dest : Dest)
    (alloc : Bool) :
    callUnpack (t.packer e) (t.codec e) rest n dest alloc =
      if 0 < t.size ∧ rest.length < n * t.size then .error (.space .enospc)
      else ((t.codec e).unpack rest n dest alloc).bind fun r =>
        if asInt r.2.2 < 0 then .error (.size (asInt r.2.2)) else .ok (r.1, r.2.1) :=
  rfl

theorem taken_ok {alloc : Bool} {n m : Nat} {s : Stored} (hs : decoded e t alloc n m rest = s) :
    ((.ok (rest.drop m, s, m) : Except Stop (List UInt8 × Stored × Nat)).bind fun r =>
      if asInt r.2.2 < 0 then .error (.size (asInt r.2.2)) else .ok (r.1, r.2.1)) =
      taken e t alloc n rest m := by
  rw [taken, hs]
  exact checked_ok m (rest.drop m, s)

theorem callUnpack_x (n : Nat) (alloc : Bool) :
    callUnpack (Letter.x.packer e) (Letter.x.codec e) rest n dest alloc =
      (extent .x n rest).bind (taken e .x alloc n rest) := by
  have hx : (Letter.x.codec e).unpack = xUnpack := rfl
  have hstr : ¬ (Letter.x.isStr = true ∧ n = 0) := fun h => by cases h.1
  rw [callUnpack_def, if_neg fun h => absurd h.1 (by decide), hx, xUnpack, extent, if_neg hstr,
    show Letter.x.width = 1 from rfl, Nat.mul_one]
  by_cases hs : rest.length < n
  · rw [if_pos hs, if_pos hs]
    rfl
  · rw [if_neg hs, if_neg hs]
    exact taken_ok rfl

theorem callUnpack_str (ht : t.isStr = true) (hd : dest.alloc = true) (n : Nat) (alloc : Bool) :
    callUnpack (t.packer e) (t.codec e) rest n dest alloc =
      (extent t n rest).bind (taken e t alloc n rest) := by
  obtain ⟨hw, hz⟩ := width_of_isStr ht
  have hdec : ∀ m, decoded e t alloc n m rest = .str (rest.take m ++ [0]) := by
    intro m
    rw [decoded, if_neg (ne_x_of_isStr ht), if_pos ht]
  simp only [callUnpack_def, codec_unpack_str ht, zUnpack, hd, if_true, hz, extent, hw, Nat.mul_one]
  by_cases hn : n = 0
  · have hspace : ¬ (0 < 1 ∧ rest.length < n) := by omega
    rw [if_neg hspace, if_pos hn, if_pos ⟨ht, hn⟩]
    cases scanNul rest with
    | error s => rfl
    | ok m => exact taken_ok (hdec m)
  · have hstr : ¬ (t.isStr = true ∧ n = 0) := fun h => hn h.2
    by_cases hs : rest.length < n
    · have hspace : 0 < 1 ∧ rest.length < n := ⟨Nat.one_pos, hs⟩
      rw [if_pos hspace, if_neg hstr, if_pos hs, if_neg (ne_x_of_isStr ht)]
      rfl
    · have hspace : ¬ (0 < 1 ∧ rest.length < n) := fun h => hs h.2
      rw [if_neg hspace, if_neg hn, if_neg hs, if_neg hstr, if_neg hs]
      exact taken_ok (hdec n)

theorem callUnpack_int (ht : t.isInt = true) (hd : dest.alloc = true) (n : Nat) (alloc : Bool) :
    callUnpack (t.packer e) (t.codec e) rest n dest alloc =
      (extent t n rest).bind (taken e t alloc n rest) := by
  obtain ⟨checked, hu⟩ := codec_unpack_int (e := e) ht
  obtain ⟨hw, hpos, -⟩ := width_of_isInt ht
  have hstr : ¬ t.isStr = true := Bool.eq_false_iff.mp (isStr_of_isInt ht)
  have hscan : ¬ (t.isStr = true ∧ n = 0) := fun h => hstr h.1
  have hdec : ∀ m, decoded e t alloc n m rest = if alloc then .heap (elements e t.size n rest)
      else .elems (elements e t.size n rest) := by
    intro m
    rw [decoded, if_neg (ne_x_of_isInt ht), if_neg hstr]
  rw [callUnpack_def, hu, intUnpack_eq e _ _ _ _ hd, extent, if_neg hscan, hw,
    if_neg (ne_x_of_isInt ht)]
  by_cases hs : rest.length < n * t.size
  · have hspace : 0 < t.size ∧ rest.length < n * t.size := ⟨hpos, hs⟩
    rw [if_pos hspace, if_pos hs]
    rfl
  · have hspace : ¬ (0 < t.size ∧ rest.length < n * t.size) := fun h => hs h.2
    rw [if_neg hspace, if_neg hs]
    exact taken_ok (hdec _)

theorem callUnpack_eq (hd : dest.alloc = true) (n : Nat) (alloc : Bool) :
    callUnpack (t.packer e) (t.codec e) rest n dest alloc =
      (extent t n rest).bind (taken e t alloc n rest) := by
  rcases t.cases with rfl | ht | ht
  · exact callUnpack_x n alloc
  · exact callUnpack_str ht hd n alloc
  · exact callUnpack_int ht hd n alloc

end CallUnpack

/-- The number of elements that an item unpacks; `0` is a string up to its `\0`. -/
def unpackNum (t : Letter) (num : Nat) (vnum : Option UInt32) : Nat :=
  if t = .x then num
  else
    match vnum with
    | some v => v.toNat
    | none => if t.isStr = false ∧ num = 0 then 1 else num

def tokenExtent (vnum : Option UInt32) (rest : List UInt8) : Token → Except Stop Nat
  | .star => extent .I 1 rest
  | .item t num => if t ≠ .x ∧ vnum = some 0 then .ok 0 else extent t (unpackNum t num vnum) rest

def readCount (e : Endian) (rest : List UInt8) : UInt32 := (e.dec (rest.take 4)).toUInt32

def vnumRead (e : Endian) (rest : List UInt8) : Token → Option UInt32
  | .star => some (readCount e rest)
  | .item _ _ => none

def tokenStored (e : Endian) (vnum : Option UInt32) (rest : List UInt8) (m : Nat) :
    Token → List Stored
  | .star => [.count (readCount e rest)]
  | .item t num =>
    if t = .x then []
    else if vnum = some 0 then [.untouched]
    else [decoded e t vnum.isSome (unpackNum t num vnum) m rest]

/-- The destination is valid, and an allocation for it succeeds. -/
def Dest.Usable (d : Dest) : Prop := d.null = false ∧ d.alloc = true

def validDests : Nat → Dest := fun _ => ⟨false, true⟩

theorem validDests_usable (i : Nat) : (validDests i).Usable := ⟨rfl, rfl⟩

theorem callUnpack_map {e : Endian} {t : Letter} {rest : List UInt8} {n : Nat} {dest : Dest}
    (hd : dest.alloc = true) (alloc : Bool) (f : List UInt8 × Stored → UnpackState) :
    (callUnpack (t.packer e) (t.codec e) rest n dest alloc).map f =
      (extent t n rest).bind fun m =>
        if IntSize m then .ok (f (rest.drop m, decoded e t alloc n m rest))
        else .error (.size (asInt m)) := by
  rw [callUnpack_eq hd]
  cases extent t n rest with
  | error s => rfl
  | ok m =>
    simp only [Except.bind, taken]
    split_ifs <;> rfl

theorem unpackToken_eq (e : Endian) {st : UnpackState} (hd : (st.dests 0).Usable) (tok : Token) :
    doToken e (unpackActions e) st tok = (tokenExtent st.vnum st.rest tok).bind fun m =>
      if IntSize m then
        .ok ⟨st.rest.drop m, argsAfter st.dests tok, vnumRead e st.rest tok,
          st.stored ++ tokenStored e st.vnum st.rest m tok⟩
      else .error (.size (asInt m)) := by
  have hnull : ¬ (st.dests 0).null = true := fun h => by rw [hd.1] at h; cases h
  cases tok with
  | star =>
    have hcall : doToken e (unpackActions e) st .star =
        (callUnpack (Letter.I.packer e) (Letter.I.codec e) st.rest 1 (st.dests 0) false).map
          fun r => ⟨r.1, nextArg st.dests, some r.2.vnum, st.stored ++ [.count r.2.vnum]⟩ := by
      cases e <;> exact if_neg hnull
    rw [hcall, callUnpack_map hd.2]
    rfl
  | item t num =>
    have harg : doToken e (unpackActions e) st (.item t num) =
        unpackArg (t.packer e) (t.codec e) t.char num st := rfl
    by_cases hx : t = .x
    · subst hx
      rw [harg, unpackArg, if_pos rfl, callUnpack_map rfl]
      simp only [tokenExtent, tokenStored, if_true, append_nil]
      rfl
    · rw [harg, unpackArg, if_neg (char_eq_x_iff.not.mpr hx), if_neg hnull, argsAfter_item hx]
      simp only [tokenExtent, tokenStored, if_neg hx]
      cases hv : st.vnum with
      | some v =>
        by_cases hv0 : v = 0
        · subst hv0
          simp only [if_true, ne_eq, hx, not_false_eq_true, and_self, Except.bind, drop_zero]
          rw [if_pos (by decide)]
          rfl
        · have hsome : ¬ (t ≠ .x ∧ some v = some 0) := fun h => hv0 (Option.some.inj h.2)
          have hsome' : ¬ some v = some 0 := fun h => hv0 (Option.some.inj h)
          have hnum : unpackNum t num (some v) = v.toNat := by rw [unpackNum, if_neg hx]
          simp only [if_neg hv0, if_neg hsome, if_neg hsome', hnum]
          rw [callUnpack_map hd.2]
          rfl
      | none =>
        have hnum : (if t.char ≠ Letter.z.char ∧ t.char ≠ Letter.Z.char ∧ num = 0 then 1 else num) =
            unpackNum t num none := by
          rw [unpackNum, if_neg hx]
          simp only [← and_assoc, ← not_or, ne_eq, char_eq_z_iff, Bool.not_eq_true]
        simp only [hnum, reduceCtorEq, and_false, if_false]
        rw [callUnpack_map hd.2]
        rfl

end PortableLib.Pack
