import PortableLib.Pack.Scan

/-! What one token of a format writes. -/

namespace PortableLib.Pack
open List Encdec

def Endian.enc : Endian → Nat → UInt64 → List UInt8
  | .le => encLE
  | .be => encBE

def Endian.dec : Endian → List UInt8 → UInt64
  | .le => decLE
  | .be => decBE

def Letter.isStr (t : Letter) : Bool := t = .z || t = .Z

def Letter.isInt (t : Letter) : Bool := !t.isStr && t ≠ .x

theorem Letter.cases (t : Letter) : t = .x ∨ t.isStr = true ∨ t.isInt = true := by
  cases t <;> decide

theorem ne_x_of_isStr {t : Letter} (ht : t.isStr = true) : t ≠ .x := by
  rintro rfl
  cases ht

theorem ne_x_of_isInt {t : Letter} (ht : t.isInt = true) : t ≠ .x := by
  rintro rfl
  cases ht

theorem isStr_of_isInt {t : Letter} (ht : t.isInt = true) : t.isStr = false := by
  rw [Letter.isInt, Bool.and_eq_true, Bool.not_eq_true'] at ht
  exact ht.1

def Letter.width : Letter → Nat
  | .x => 1
  | t => t.size

def IntSize (n : Nat) : Prop := 0 ≤ asInt n

instance (n : Nat) : Decidable (IntSize n) := inferInstanceAs (Decidable (_ ≤ _))

theorem length_enc (e : Endian) (w : Nat) (v : UInt64) : (e.enc w v).length = w := by
  cases e
  · exact length_encLE w v
  · exact length_encBE w v

theorem dec_enc (e : Endian) {w : Nat} (hw : w ≤ 8) (v : UInt64) :
    e.dec (e.enc w v) = trunc w v := by
  cases e
  · exact decLE_encLE hw v
  · exact decBE_encBE hw v

theorem char_injective {t u : Letter} (h : t.char = u.char) : t = u := by
  revert h
  cases t <;> cases u <;> decide

theorem intSize_iff (n : Nat) : IntSize n ↔ n % 2 ^ 32 < 2 ^ 31 := by
  rw [IntSize, asInt, Int32.toInt_ofNat']
  have h32 : Int32.size = 2 ^ 32 := rfl
  rw [h32, Int.bmod_def]
  split_ifs with h
  all_goals omega

theorem intSize_of_le {n : Nat} (h : n ≤ 72) : IntSize n := by
  rw [intSize_iff]
  omega

def payload (e : Endian) (t : Letter) (n : Nat) (arg : Arg) : List UInt8 :=
  match t with
  | .x => replicate n 0
  | .z | .Z =>
    let s := if arg.word = 0 then [] else (cstr arg.str).take n
    s ++ replicate (n - s.length) 0
  | t =>
    if n = 1 then e.enc t.size arg.word
    else (range n).flatMap fun i => e.enc t.size (arg.elems i)

theorem payload_str {e : Endian} {t : Letter} (ht : t.isStr = true) (n : Nat) (arg : Arg) :
    payload e t n arg = (if arg.word = 0 then [] else (cstr arg.str).take n) ++
      replicate (n - (if arg.word = 0 then [] else (cstr arg.str).take n).length) 0 := by
  cases t <;> first | rfl | cases ht

theorem payload_int {e : Endian} {t : Letter} (ht : t.isInt = true) (n : Nat) (arg : Arg) :
    payload e t n arg = if n = 1 then e.enc t.size arg.word
      else (range n).flatMap fun i => e.enc t.size (arg.elems i) := by
  cases t <;> first | rfl | cases ht

theorem width_of_isStr {t : Letter} (ht : t.isStr = true) : t.width = 1 ∧ t.size = 1 := by
  cases t <;> first | exact ⟨rfl, rfl⟩ | cases ht

theorem width_of_isInt {t : Letter} (ht : t.isInt = true) :
    t.width = t.size ∧ 0 < t.size ∧ t.size ≤ 8 := by
  cases t <;> first | exact ⟨rfl, by decide, by decide⟩ | cases ht

theorem length_flatMap_const {α : Type*} (l : List α) (f : α → List UInt8) {w : Nat}
    (h : ∀ a, (f a).length = w) : (l.flatMap f).length = l.length * w := by
  induction l with
  | nil => simp
  | cons a l ih => rw [flatMap_cons, length_append, h, ih, length_cons, Nat.succ_mul, Nat.add_comm]

theorem length_payload (e : Endian) (t : Letter) (n : Nat) (arg : Arg) :
    (payload e t n arg).length = n * t.width := by
  rcases t.cases with rfl | ht | ht
  · exact length_replicate.trans (Nat.mul_one n).symm
  · have hle : (if arg.word = 0 then [] else (cstr arg.str).take n).length ≤ n := by
      split_ifs
      · exact Nat.zero_le n
      · exact length_take_le n _
    rw [payload_str ht, length_append, length_replicate, (width_of_isStr ht).1]
    omega
  · rw [payload_int ht, (width_of_isInt ht).1]
    split_ifs with h1
    · rw [length_enc, h1, Nat.one_mul]
    · rw [length_flatMap_const _ _ fun i => length_enc e _ _, length_range]

theorem codec_pack_int {e : Endian} {t : Letter} (ht : t.isInt = true) :
    (t.codec e).pack = intPack (e.enc t.size) t.size := by
  have hb : bPack = intPack (encBE 1) 1 := by
    funext cap out num arg
    simp only [bPack, intPack, encBE, encLE, reverse_singleton]
  cases e <;> cases t <;> first | rfl | exact hb | cases ht

theorem codec_pack_str {e : Endian} {t : Letter} (ht : t.isStr = true) :
    (t.codec e).pack = zPack := by
  cases t <;> first | rfl | cases ht

theorem intPack_eq (enc : UInt64 → List UInt8) (w cap : Nat) (out : List UInt8) (n : Nat)
    (arg : Arg) : intPack enc w cap out n arg = .ok (out ++ (if n = 1 then enc arg.word
      else (range n).flatMap fun i => enc (arg.elems i)), n * w) := by
  unfold intPack
  split_ifs with h1
  · rw [h1, Nat.one_mul]
  · rfl

theorem checked_ok {α : Type*} (n : Nat) (a : α) :
    ((.ok (a, n) : Except Stop (α × Nat)).bind fun r =>
      if asInt r.2 < 0 then .error (.size (asInt r.2)) else .ok r.1) =
      if IntSize n then .ok a else .error (.size (asInt n)) := by
  by_cases h : IntSize n
  · rw [if_pos h]
    exact if_neg (Int.not_lt.mpr h)
  · rw [if_neg h]
    exact if_pos (Int.not_le.mp h)

section CallPack
variable {e : Endian} {t : Letter} {cap : Nat} {out : List UInt8}

theorem callPack_def (e : Endian) (t : Letter) (cap : Nat) (out : List UInt8) (n : Nat)
    (arg : Arg) :
    callPack cap (t.packer e) (t.codec e) out n arg =
      if 0 < t.size ∧ cap < out.length + n * t.size then .error (.space .enospc)
      else ((t.codec e).pack cap out n arg).bind fun r =>
        if asInt r.2 < 0 then .error (.size (asInt r.2)) else .ok r.1 :=
  rfl

theorem callPack_x (n : Nat) (arg : Arg) :
    callPack cap (Letter.x.packer e) (Letter.x.codec e) out n arg =
      if cap < out.length + n then .error (.space .einval)
      else if IntSize n then .ok (out ++ payload e .x n arg) else .error (.size (asInt n)) := by
  have hx : (Letter.x.codec e).pack = xPack := rfl
  rw [callPack_def, if_neg fun h => absurd h.1 (by decide), hx, xPack]
  by_cases hs : cap < out.length + n
  · rw [if_pos hs, if_pos hs]
    rfl
  · rw [if_neg hs, if_neg hs]
    exact checked_ok n _

theorem callPack_str (ht : t.isStr = true) (hout : out.length ≤ cap) (n : Nat) (arg : Arg) :
    callPack cap (t.packer e) (t.codec e) out n arg =
      if n = 0 then .error .assertFail
      else if cap < out.length + n then .error (.space .enospc)
      else if IntSize n then .ok (out ++ payload e t n arg) else .error (.size (asInt n)) := by
  rw [callPack_def, codec_pack_str ht, (width_of_isStr ht).2, Nat.mul_one, zPack]
  by_cases hn : n = 0
  · have hspace : ¬ (0 < 1 ∧ cap < out.length + n) := by omega
    rw [if_neg hspace, if_pos hn, if_pos hn]
    rfl
  · by_cases hs : cap < out.length + n
    · have hspace : 0 < 1 ∧ cap < out.length + n := ⟨Nat.one_pos, hs⟩
      rw [if_pos hspace, if_neg hn, if_pos hs]
    · have hspace : ¬ (0 < 1 ∧ cap < out.length + n) := fun h => hs h.2
      rw [if_neg hspace, if_neg hn, if_neg hs, if_neg hn, if_neg hs, payload_str ht, ← append_assoc]
      exact checked_ok n _

theorem callPack_int (ht : t.isInt = true) (n : Nat) (arg : Arg) :
    callPack cap (t.packer e) (t.codec e) out n arg =
      if cap < out.length + n * t.size then .error (.space .enospc)
      else if IntSize (n * t.size) then .ok (out ++ payload e t n arg)
      else .error (.size (asInt (n * t.size))) := by
  rw [callPack_def, codec_pack_int ht, intPack_eq, payload_int ht]
  by_cases hs : cap < out.length + n * t.size
  · have hspace : 0 < t.size ∧ cap < out.length + n * t.size := ⟨(width_of_isInt ht).2.1, hs⟩
    rw [if_pos hspace, if_pos hs]
  · have hspace : ¬ (0 < t.size ∧ cap < out.length + n * t.size) := fun h => hs h.2
    rw [if_neg hspace, if_neg hs]
    exact checked_ok _ _

theorem callPack_eq (e : Endian) (t : Letter) (hout : out.length ≤ cap) (n : Nat) (arg : Arg) :
    callPack cap (t.packer e) (t.codec e) out n arg =
      if t.isStr ∧ n = 0 then .error .assertFail
      else if cap < out.length + n * t.width then
        .error (.space (if t = .x then .einval else .enospc))
      else if IntSize (n * t.width) then .ok (out ++ payload e t n arg)
      else .error (.size (asInt (n * t.width))) := by
  rcases t.cases with rfl | ht | ht
  · have hstr : ¬ (Letter.x.isStr = true ∧ n = 0) := fun h => by cases h.1
    rw [if_neg hstr, callPack_x, show Letter.x.width = 1 from rfl, Nat.mul_one, if_pos rfl]
  · rw [callPack_str ht hout, (width_of_isStr ht).1, Nat.mul_one, if_neg (ne_x_of_isStr ht)]
    simp only [ht, true_and]
  · rw [callPack_int ht, (width_of_isInt ht).1, if_neg (ne_x_of_isInt ht)]
    simp only [isStr_of_isInt ht, Bool.false_eq_true, false_and, if_false]

end CallPack

def vcount (args : Nat → Arg) : UInt32 := (args 0).word.toUInt32

def packNum (t : Letter) (num : Nat) (vnum : Option UInt32) (arg : Arg) : Nat :=
  if t = .x then num
  else
    match vnum with
    | some v => v.toNat
    | none =>
      if t.isStr then if num = 0 ∧ arg.word ≠ 0 then 1 + arg.strlen else num
      else if num = 0 then 1 else num

def chunk (e : Endian) (vnum : Option UInt32) (args : Nat → Arg) : Token → List UInt8
  | .star => e.enc 4 (vcount args).toUInt64
  | .item t num => payload e t (packNum t num vnum (args 0)) (args 0)

def argsAfter {α : Type*} (args : Nat → α) : Token → Nat → α
  | .item .x _ => args
  | _ => nextArg args

def vnumAfter (args : Nat → Arg) : Token → Option UInt32
  | .star => some (vcount args)
  | .item _ _ => none

/-- A `NULL` string without a count. -/
def NullString (vnum : Option UInt32) (args : Nat → Arg) : Token → Prop
  | .star => False
  | .item t num => t.isStr = true ∧ vnum = none ∧ num = 0 ∧ (args 0).word = 0

instance (vnum : Option UInt32) (args : Nat → Arg) : DecidablePred (NullString vnum args)
  | .star => isFalse id
  | .item _ _ => inferInstanceAs (Decidable (_ ∧ _ ∧ _ ∧ _))

def spaceErr : Token → Errno
  | .item .x _ => .einval
  | _ => .enospc

theorem char_eq_x_iff {t : Letter} : t.char = Letter.x.char ↔ t = .x :=
  ⟨char_injective, congrArg Letter.char⟩

theorem char_eq_z_iff {t : Letter} :
    t.char = Letter.z.char ∨ t.char = Letter.Z.char ↔ t.isStr = true := by
  cases t <;> decide

theorem payload_zero (e : Endian) (t : Letter) (arg : Arg) : payload e t 0 arg = [] := by
  rw [← length_eq_zero_iff, length_payload, Nat.zero_mul]

theorem callPack_map (e : Endian) {t : Letter} {cap n : Nat} {out : List UInt8}
    (hout : out.length ≤ cap) (hz : ¬ (t.isStr = true ∧ n = 0)) (arg : Arg)
    (f : List UInt8 → PackState) :
    (callPack cap (t.packer e) (t.codec e) out n arg).map f =
      if cap < out.length + (payload e t n arg).length then
        .error (.space (if t = .x then .einval else .enospc))
      else if IntSize (payload e t n arg).length then .ok (f (out ++ payload e t n arg))
      else .error (.size (asInt (payload e t n arg).length)) := by
  rw [callPack_eq e t hout, if_neg hz, length_payload]
  split_ifs <;> rfl

theorem spaceErr_item (t : Letter) (num : Nat) :
    spaceErr (.item t num) = if t = .x then .einval else .enospc := by
  cases t <;> rfl

theorem argsAfter_item {α : Type*} {t : Letter} (ht : t ≠ .x) (args : Nat → α) (num : Nat) :
    argsAfter args (.item t num) = nextArg args := by
  cases t <;> first | rfl | exact absurd rfl ht

section PackToken
variable (e : Endian) {cap : Nat} {st : PackState}

def packed (cap : Nat) (st : PackState) (tok : Token) : Except Stop PackState :=
  if cap < st.out.length + (chunk e st.vnum st.args tok).length then .error (.space (spaceErr tok))
  else if IntSize (chunk e st.vnum st.args tok).length then
    .ok ⟨st.out ++ chunk e st.vnum st.args tok, argsAfter st.args tok, vnumAfter st.args tok⟩
  else .error (.size (asInt (chunk e st.vnum st.args tok).length))

theorem packToken_star (hout : st.out.length ≤ cap) :
    doToken e (packActions e cap) st .star = packed e cap st .star := by
  have hcall : doToken e (packActions e cap) st .star =
      (callPack cap (Letter.I.packer e) (Letter.I.codec e) st.out 1
        ⟨(vcount st.args).toUInt64, fun _ => 0, []⟩).map
          fun out => ⟨out, nextArg st.args, some (vcount st.args)⟩ := by
    cases e <;> rfl
  rw [hcall, callPack_map e hout fun h => by cases h.1]
  rfl

theorem packToken_x (hout : st.out.length ≤ cap) (num : Nat) :
    doToken e (packActions e cap) st (.item .x num) = packed e cap st (.item .x num) := by
  have hcall : doToken e (packActions e cap) st (.item .x num) =
      (callPack cap (Letter.x.packer e) (Letter.x.codec e) st.out num ⟨0, fun _ => 0, []⟩).map
        fun out => ⟨out, st.args, none⟩ := rfl
  rw [hcall, callPack_map e hout fun h => by cases h.1]
  rfl

theorem packToken_counted {t : Letter} (hx : t ≠ .x) (hout : st.out.length ≤ cap) (num : Nat)
    {v : UInt32} (hv : st.vnum = some v) :
    doToken e (packActions e cap) st (.item t num) = packed e cap st (.item t num) := by
  have harg : doToken e (packActions e cap) st (.item t num) =
      packArg cap (t.packer e) (t.codec e) t.char num st := rfl
  have hchunk : chunk e (some v) st.args (.item t num) = payload e t v.toNat (st.args 0) := by
    rw [chunk, packNum, if_neg hx]
  rw [harg, packArg, if_neg (char_eq_x_iff.not.mpr hx), packed, spaceErr_item, argsAfter_item hx,
    hv, hchunk]
  by_cases hv0 : v = 0
  · subst hv0
    have hpay : payload e t (0 : UInt32).toNat (st.args 0) = [] := payload_zero e t _
    simp only [if_true, hpay, length_nil, Nat.add_zero, if_neg (Nat.not_lt.mpr hout)]
    rw [if_pos (by decide), append_nil]
    rfl
  · have hpos : v.toNat ≠ 0 := fun h => hv0 (UInt32.toNat_inj.mp h)
    simp only [if_neg hv0]
    rw [callPack_map e hout fun h => hpos h.2]
    rfl

theorem packNum_eq_zero_iff {t : Letter} (ht : t.isStr = true) {num : Nat} {arg : Arg} :
    packNum t num none arg = 0 ↔ num = 0 ∧ arg.word = 0 := by
  simp only [packNum, if_neg (ne_x_of_isStr ht), ht, if_true]
  by_cases hw : arg.word = 0
  · simp only [hw, ne_eq, not_true, and_false, if_false, and_true]
  · simp only [hw, ne_eq, not_false_eq_true, and_true, and_false, iff_false]
    split_ifs with hn <;> omega

theorem packToken_plain {t : Letter} (hx : t ≠ .x) (hout : st.out.length ≤ cap) (num : Nat)
    (hv : st.vnum = none) :
    doToken e (packActions e cap) st (.item t num) =
      if NullString none st.args (.item t num) then .error .assertFail
      else packed e cap st (.item t num) := by
  have harg : doToken e (packActions e cap) st (.item t num) =
      packArg cap (t.packer e) (t.codec e) t.char num st := rfl
  have hchunk : chunk e none st.args (.item t num) =
      payload e t (packNum t num none (st.args 0)) (st.args 0) := rfl
  have hnum : (if t.char = Letter.z.char ∨ t.char = Letter.Z.char then
        if num = 0 ∧ (st.args 0).word ≠ 0 then 1 + (st.args 0).strlen else num
      else if num = 0 then 1 else num) = packNum t num none (st.args 0) := by
    simp only [packNum, if_neg hx, char_eq_z_iff]
  rw [harg, packArg, if_neg (char_eq_x_iff.not.mpr hx), packed, spaceErr_item, argsAfter_item hx,
    hv]
  simp only [hnum]
  by_cases hnull : NullString none st.args (.item t num)
  · obtain ⟨hstr, -, hnull'⟩ := hnull
    rw [callPack_eq e t hout, if_pos ⟨hstr, (packNum_eq_zero_iff hstr).mpr hnull'⟩,
      if_pos ⟨hstr, rfl, hnull'⟩]
    rfl
  · rw [if_neg hnull, hchunk, callPack_map e hout]
    · rfl
    · exact fun h => hnull ⟨h.1, rfl, (packNum_eq_zero_iff h.1).mp h.2⟩

theorem packToken_eq (hout : st.out.length ≤ cap) (tok : Token) :
    doToken e (packActions e cap) st tok =
      if NullString st.vnum st.args tok then .error .assertFail else packed e cap st tok := by
  cases tok with
  | star => rw [packToken_star e hout, if_neg (show ¬ NullString _ _ .star from id)]
  | item t num =>
    by_cases hx : t = .x
    · subst hx
      have hnull : ¬ NullString st.vnum st.args (.item .x num) := fun h => by cases h.1
      rw [packToken_x e hout, if_neg hnull]
    · cases hv : st.vnum with
      | none => exact packToken_plain e hx hout num hv
      | some v =>
        have hnull : ¬ NullString (some v) st.args (.item t num) := fun h => by cases h.2.1
        rw [packToken_counted e hx hout num hv, if_neg hnull]

end PackToken

end PortableLib.Pack
