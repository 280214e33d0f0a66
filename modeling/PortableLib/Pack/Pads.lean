import PortableLib.Pack.Counts
import PortableLib.Pack.Language

/-! Pad items against the three rules for counts. The letter `x` takes a branch of its own in both
interpreters, before a missing count becomes one and a run-time count takes over. -/

namespace PortableLib.Pack
open List

/-- A pad item as it is written: `x`, a count before it, or `*` and white space before it. -/
inductive Pad
  | plain
  | counted (ds : List UInt8)
  | star (gap : List UInt8)
  deriving DecidableEq, Repr

def Pad.text : Pad → List UInt8
  | .plain => [120]
  | .counted ds => ds ++ [120]
  | .star gap => 42 :: gap ++ [120]

def Pad.Valid : Pad → Prop
  | .plain => True
  | .counted ds => ds ≠ [] ∧ (∀ d ∈ ds, isdigit d = true) ∧ decimal ds < 2 ^ 32
  | .star gap => ∀ c ∈ gap, isspace c = true

def Pad.bytes (v : UInt32) : Pad → Nat
  | .plain => 1
  | .counted ds => decimal ds
  | .star _ => v.toNat

/-- The state of `pack` behind a pad item that follows the rules. -/
def packedPad (e : Endian) (st : PackState) : Pad → PackState
  | .star gap => ⟨st.out ++ e.enc 4 (vcount st.args).toUInt64 ++
      replicate (Pad.bytes (vcount st.args) (.star gap)) 0, nextArg st.args, none⟩
  | pad => ⟨st.out ++ replicate (pad.bytes 0) 0, st.args, none⟩

/-- The state of `unpack` behind a pad item that follows the rules. -/
def unpackedPad (e : Endian) (st : UnpackState) : Pad → UnpackState
  | .star gap => ⟨st.rest.drop (4 + Pad.bytes (readCount e st.rest) (.star gap)),
      nextArg st.dests, none, st.stored ++ [.count (readCount e st.rest)]⟩
  | pad => ⟨st.rest.drop (pad.bytes 0), st.dests, none, st.stored⟩

def padExtent (e : Endian) (rest : List UInt8) : Pad → Nat
  | .star gap => 4 + Pad.bytes (readCount e rest) (.star gap)
  | pad => pad.bytes 0

/-- Where there is room for it, the pad item packs its bytes, whatever came before it and whatever
comes after it. -/
def PacksPad (pad : Pad) : Prop :=
  ∀ e cap (st : PackState) post, st.vnum = none → (packedPad e st pad).out.length ≤ cap →
    formatLoop e (packActions e cap) (pad.text ++ post) st =
      formatLoop e (packActions e cap) post (packedPad e st pad)

/-- Where the buffer holds them, the pad item skips its bytes. -/
def UnpacksPad (pad : Pad) : Prop :=
  ∀ e (st : UnpackState) post, st.vnum = none → (∀ i, (st.dests i).Usable) →
    padExtent e st.rest pad ≤ st.rest.length →
      formatLoop e (unpackActions e) (pad.text ++ post) st =
        formatLoop e (unpackActions e) post (unpackedPad e st pad)

section Loop
variable {σ : Type*} {e : Endian} {a : Actions σ}

theorem formatLoop_gap {gap : List UInt8} (hgap : ∀ c ∈ gap, isspace c = true) (rest : List UInt8)
    (st : σ) : formatLoop e a (gap ++ rest) st = formatLoop e a rest st := by
  induction gap with
  | nil => rfl
  | cons c gap ih =>
    rw [forall_mem_cons] at hgap
    rw [cons_append, formatLoop, if_pos hgap.1]
    exact ih hgap.2

theorem digit_not_special {d : UInt8} (hd : isdigit d = true) : isspace d = false ∧ d ≠ 42 :=
  plain_of_spot (.inl hd)

theorem formatLoop_pad {d : UInt8} (hd : isdigit d = true) (post : List UInt8) {st : σ}
    (hst : a.pending st = false) :
    formatLoop e a (d :: 120 :: post) st =
      (doToken e a st (.item .x (digit d))).bind fun st => formatLoop e a post st := by
  obtain ⟨hspace, hstar⟩ := digit_not_special hd
  have hnum : lenPrefix d (120 :: post) = .ok (digit d) := rfl
  have hselect : select (a.pending st) 120 (digit d) = .ok .x := by
    rw [hst]
    exact select_char .x (digit d)
  rw [formatLoop]
  simp only [hspace, Bool.false_eq_true, if_false, hstar, hd, if_true, hnum, formatItem_eq,
    hselect]
  rfl

end Loop

theorem packsPad_digit {d : UInt8} (hd : isdigit d = true) : PacksPad (.counted [d]) := by
  intro e cap st post hv hroom
  have hle := digit_le hd
  have hstate : packedPad e st (.counted [d]) =
      ⟨st.out ++ replicate (decimal [d]) 0, st.args, none⟩ := rfl
  rw [hstate, decimal_singleton] at hroom ⊢
  simp only [length_append, length_replicate] at hroom
  have hpending : (packActions e cap).pending st = false := congrArg Option.isSome hv
  have hchunk : chunk e st.vnum st.args (.item .x (digit d)) = replicate (digit d) 0 := rfl
  rw [show Pad.text (.counted [d]) ++ post = d :: 120 :: post from rfl,
    formatLoop_pad hd post hpending, packToken_x e (by omega), packed, hchunk, length_replicate,
    if_neg (by omega), if_pos (intSize_of_le (by omega))]
  rfl

theorem unpacksPad_digit {d : UInt8} (hd : isdigit d = true) : UnpacksPad (.counted [d]) := by
  intro e st post hv hdests hroom
  have hle := digit_le hd
  have hstate : unpackedPad e st (.counted [d]) =
      ⟨st.rest.drop (decimal [d]), st.dests, none, st.stored⟩ := rfl
  have hroom' : decimal [d] ≤ st.rest.length := hroom
  rw [decimal_singleton] at hroom'
  have hpending : (unpackActions e).pending st = false := congrArg Option.isSome hv
  have hnum : unpackNum .x (digit d) st.vnum * Letter.x.width = digit d := Nat.mul_one _
  have hext : tokenExtent st.vnum st.rest (.item .x (digit d)) = .ok (digit d) := by
    rw [tokenExtent, if_neg fun h => h.1 rfl, extent, if_neg (fun h => Bool.false_ne_true h.1),
      hnum, if_neg (by omega)]
  rw [show Pad.text (.counted [d]) ++ post = d :: 120 :: post from rfl,
    formatLoop_pad hd post hpending, unpackToken_eq e (hdests 0), hext, hstate, decimal_singleton]
  simp only [Except.bind]
  rw [if_pos (intSize_of_le (by omega))]
  simp only [tokenStored, if_true, append_nil]
  rfl

def wordArgs (n : UInt32) : Nat → Arg := fun _ => ⟨n.toUInt64, fun _ => 0, []⟩

theorem not_packsPad {pad : Pad} {n : UInt32}
    (h : (formatLoop .le (packActions .le (4 + pad.bytes n)) pad.text
        ⟨[], wordArgs n, none⟩).map PackState.out ≠
      .ok (packedPad .le ⟨[], wordArgs n, none⟩ pad).out)
    (hroom : (packedPad .le ⟨[], wordArgs n, none⟩ pad).out.length ≤ 4 + pad.bytes n) :
    ¬ PacksPad pad := by
  intro hpacks
  have hrun := hpacks .le _ ⟨[], wordArgs n, none⟩ [] rfl hroom
  rw [append_nil] at hrun
  rw [hrun] at h
  exact h rfl

theorem not_packsPad_plain : ¬ PacksPad .plain := by
  refine not_packsPad (n := 0) ?_ (by decide)
  intro h
  cases h

theorem not_packsPad_digits {c d : UInt8} {ds : List UInt8} (hc : isdigit c = true)
    (hd : isdigit d = true) : ¬ PacksPad (.counted (c :: d :: ds)) := by
  refine not_packsPad (n := 0) ?_ (by simp only [packedPad, nil_append, length_replicate]; omega)
  obtain ⟨hspace, hstar⟩ := digit_not_special hc
  have hstop : ∃ s, lenPrefix c (d :: ds ++ [120]) = .error s := by
    rw [cons_append, lenPrefix, if_pos hd]
    cases lenLoop (digit d) 21 (digit c) with
    | none => exact ⟨_, rfl⟩
    | some k => exact ⟨_, rfl⟩
  obtain ⟨s, hs⟩ := hstop
  rw [show Pad.text (.counted (c :: d :: ds)) = c :: (d :: ds ++ [120]) from rfl, formatLoop]
  simp only [hspace, Bool.false_eq_true, if_false, hstar, hc, if_true, hs]
  intro h
  cases h

theorem not_packsPad_star {gap : List UInt8} (hgap : ∀ c ∈ gap, isspace c = true) :
    ¬ PacksPad (.star gap) := by
  refine not_packsPad (n := 1) ?_ (show 5 ≤ 5 from Nat.le_refl 5)
  have hcount : (packActions .le 5).count ⟨[], wordArgs 1, none⟩ =
      .ok ⟨[1, 0, 0, 0], nextArg (wordArgs 1), some 1⟩ := rfl
  have hpending : ¬ (packActions .le 5).pending ⟨[], wordArgs 1, none⟩ = true :=
    Bool.false_ne_true
  rw [show Pad.text (.star gap) = 42 :: (gap ++ [120]) from rfl,
    show 4 + Pad.bytes 1 (.star gap) = 5 from rfl, formatLoop, if_neg (by decide), if_pos rfl,
    if_neg hpending, hcount, Except.bind, formatLoop_gap hgap]
  intro h
  cases h

/-- A pad item follows the rules in both interpreters exactly if it has a count of one digit. -/
theorem pad_rules_iff (pad : Pad) (hpad : pad.Valid) :
    PacksPad pad ∧ UnpacksPad pad ↔ ∃ d, pad = .counted [d] := by
  constructor
  · rintro ⟨hpacks, -⟩
    match pad with
    | .plain => exact absurd hpacks not_packsPad_plain
    | .counted [] => exact absurd rfl hpad.1
    | .counted [d] => exact ⟨d, rfl⟩
    | .counted (c :: d :: ds) =>
      obtain ⟨-, hds, -⟩ := hpad
      rw [forall_mem_cons, forall_mem_cons] at hds
      exact absurd hpacks (not_packsPad_digits hds.1 hds.2.1)
    | .star gap => exact absurd hpacks (not_packsPad_star hpad)
  · rintro ⟨d, rfl⟩
    have hd := forall_mem_singleton.mp hpad.2.1
    exact ⟨packsPad_digit hd, unpacksPad_digit hd⟩

theorem pad_rules_three : PacksPad (.counted [51]) ∧ UnpacksPad (.counted [51]) :=
  (pad_rules_iff (.counted [51])
    ⟨by decide, forall_mem_singleton.mpr rfl, by decide⟩).mpr ⟨51, rfl⟩

/-- The items `x` and `* x` pack and skip no pad byte. -/
theorem pads_left_out :
    pack [120] fives 1 = .ok [] ∧ unpack [120] validDests [0] = .ok (0, []) ∧
      pack [42, 32, 120] fives 9 = .ok [5, 0, 0, 0] ∧
      unpack [42, 32, 120] validDests [5, 0, 0, 0, 0, 0, 0, 0, 0] = .ok (4, [.count 5]) ∧
      ¬ PacksPad .plain ∧ ¬ PacksPad (.star [32]) :=
  ⟨by decide, by decide, by decide, by decide, not_packsPad_plain,
    not_packsPad_star (forall_mem_singleton.mpr rfl)⟩

end PortableLib.Pack
