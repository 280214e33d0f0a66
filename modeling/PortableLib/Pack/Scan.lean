import PortableLib.Pack.Interp

/-! The format language on its own: the items of a format up to its end or its first error. Both
interpreters carry out the items in order and then end as the format does. -/

namespace PortableLib.Pack
open List

inductive Token
  | star
  | item (t : Letter) (num : Nat)
  deriving DecidableEq, Repr

/-- How a format ends: at its `\0`, with or without a pending `*`, or before it. -/
inductive Ending
  | done (pending : Bool)
  | stop (s : Stop)
  deriving DecidableEq, Repr

def select (pend : Bool) (c : UInt8) (num : Nat) : Except Stop Letter :=
  if 0 < num ∧ pend then .error (.format .einval)
  else if 122 < c then .error .tableOob
  else if c = 0 then .error .assertFail
  else
    match Letter.all.find? fun t => t.char = c with
    | some t => .ok t
    | none => .error (.format .enoent)

def scan : Bool → List UInt8 → List Token × Ending
  | pend, [] => ([], .done pend)
  | pend, c :: rest =>
    if isspace c then scan pend rest
    else if c = 42 then
      if pend then ([], .stop (.format .eilseq))
      else (.star :: (scan true rest).1, (scan true rest).2)
    else if isdigit c then
      match lenPrefix c rest with
      | .error s => ([], .stop s)
      | .ok num =>
        match rest with
        | [] => ([], .stop (if 0 < num ∧ pend then .format .einval else .assertFail))
        | t :: rest =>
          match select pend t num with
          | .error s => ([], .stop s)
          | .ok t => (.item t num :: (scan false rest).1, (scan false rest).2)
    else
      match select pend c 0 with
      | .error s => ([], .stop s)
      | .ok t => (.item t 0 :: (scan false rest).1, (scan false rest).2)

def Letter.packer (e : Endian) (t : Letter) : Packer := ⟨t.char, t.size, some (t.codec e)⟩

section Tokens
variable {σ : Type*}

def doToken (e : Endian) (a : Actions σ) (st : σ) : Token → Except Stop σ
  | .star => a.count st
  | .item t num => a.arg (t.packer e) (t.codec e) t.char num st

def doEnding (a : Actions σ) (st : σ) : Ending → Except Stop σ
  | .done _ => a.finish st
  | .stop s => .error s

/-- The branches leave the pending flag as the loop expects it. -/
structure Actions.Lawful (a : Actions σ) : Prop where
  count : ∀ st st', a.count st = .ok st' → a.pending st' = true
  arg : ∀ p k c num st st', a.arg p k c num st = .ok st' → a.pending st' = false

theorem formatItem_eq (e : Endian) (a : Actions σ) (c : UInt8) (num : Nat) (st : σ) :
    formatItem e a c num st = (select (a.pending st) c num).bind fun t =>
      doToken e a st (.item t num) := by
  unfold formatItem select
  split_ifs with hnum hoob hzero
  · rfl
  · rw [getpacker, if_pos hoob]
    rfl
  · subst hzero
    rfl
  · rw [getpacker, if_neg hoob]
    cases hf : Letter.all.find? fun t => t.char = c with
    | none =>
      have htyp : (packers e c).typ ≠ c := by
        simp only [packers, hf]
        exact fun h => hzero h.symm
      rw [if_neg htyp]
      rfl
    | some t =>
      have hc : t.char = c := by simpa using find?_some hf
      subst hc
      have hp : packers e t.char = t.packer e := by
        simp only [packers, hf, Letter.packer]
      rw [hp, if_pos (show (t.packer e).typ = t.char from rfl)]
      rfl

def doScan (e : Endian) (a : Actions σ) (s : List Token × Ending) (st : σ) : Except Stop σ :=
  (s.1.foldlM (doToken e a) st).bind fun st => doEnding a st s.2

theorem doScan_cons (e : Endian) (a : Actions σ) (t : Token) (s : List Token × Ending) (st : σ) :
    doScan e a (t :: s.1, s.2) st = (doToken e a st t).bind fun st => doScan e a s st := by
  simp only [doScan, foldlM_cons]
  cases doToken e a st t <;> rfl

theorem Except.bind_congr {ε α β : Type*} {x : Except ε α} {f g : α → Except ε β}
    (h : ∀ a, x = .ok a → f a = g a) : x.bind f = x.bind g := by
  cases x with
  | error _ => rfl
  | ok a => exact h a rfl

theorem formatItem_bind_eq {a : Actions σ} (ha : a.Lawful) (e : Endian) {rest : List UInt8}
    (c : UInt8) (num : Nat) (st : σ)
    (ih : ∀ st, formatLoop e a rest st = doScan e a (scan (a.pending st) rest) st) :
    (formatItem e a c num st).bind (fun st => formatLoop e a rest st) =
      doScan e a (match select (a.pending st) c num with
        | .error s => ([], .stop s)
        | .ok t => (.item t num :: (scan false rest).1, (scan false rest).2)) st := by
  rw [formatItem_eq]
  cases select (a.pending st) c num with
  | error s => rfl
  | ok t =>
    rw [doScan_cons]
    refine Except.bind_congr fun st' hst' => ?_
    rw [ih, ha.arg _ _ _ _ _ _ hst']

theorem formatLoop_eq {a : Actions σ} (ha : a.Lawful) (e : Endian) (fmt : List UInt8) (st : σ) :
    formatLoop e a fmt st = doScan e a (scan (a.pending st) fmt) st := by
  fun_induction formatLoop e a fmt st with
  | case1 st => rfl
  | case2 c rest st hc ih => rw [scan, if_pos hc, ih]
  | case3 rest st hp hc => simp only [scan, if_neg hc, if_true, hp]; rfl
  | case4 rest st hp hc ih =>
    simp only [scan, if_neg hc, if_true, hp]
    rw [if_neg (by decide), doScan_cons]
    refine Except.bind_congr fun st' hst' => ?_
    rw [ih, ha.count _ _ hst']
  | case5 c rest st hc h42 hd s hs => simp only [scan, if_neg hc, if_neg h42, if_pos hd, hs]; rfl
  | case6 c st hc h42 hd num hnum =>
    simp only [scan, if_neg hc, if_neg h42, if_pos hd, hnum]
    rw [formatItem_eq, select, if_neg (show ¬ (122 : UInt8) < 0 by decide), if_pos rfl]
    split_ifs <;> rfl
  | case7 c st hc h42 hd num t rest hnum ih =>
    simp only [scan, if_neg hc, if_neg h42, if_pos hd, hnum]
    exact formatItem_bind_eq ha e t num st ih
  | case8 c rest st hc h42 hd ih =>
    simp only [scan, if_neg hc, if_neg h42, if_neg hd]
    exact formatItem_bind_eq ha e c 0 st ih

end Tokens

theorem map_eq_ok {ε α β : Type*} {x : Except ε α} {f : α → β} {b : β} (h : x.map f = .ok b) :
    ∃ a, x = .ok a ∧ f a = b := by
  cases x with
  | error _ => cases h
  | ok a => exact ⟨a, rfl, Except.ok.inj h⟩

theorem map_eq_error {ε α β : Type*} {x : Except ε α} {f : α → β} {s : ε}
    (h : x.map f = .error s) : x = .error s := by
  cases x with
  | error _ => exact congrArg Except.error (Except.error.inj h)
  | ok a => cases h

theorem packActions_lawful (e : Endian) (cap : Nat) : (packActions e cap).Lawful where
  count st st' h := by
    obtain ⟨out, -, rfl⟩ := map_eq_ok h
    rfl
  arg p k c num st st' h := by
    simp only [packActions, packArg] at h
    by_cases hx : c = Letter.x.char
    · rw [if_pos hx] at h
      obtain ⟨out, -, rfl⟩ := map_eq_ok h
      rfl
    · rw [if_neg hx] at h
      cases hv : st.vnum with
      | none =>
        simp only [hv] at h
        obtain ⟨out, -, rfl⟩ := map_eq_ok h
        rfl
      | some vnum =>
        simp only [hv] at h
        split_ifs at h
        · obtain rfl := Except.ok.inj h
          rfl
        · obtain ⟨out, -, rfl⟩ := map_eq_ok h
          rfl

theorem unpackActions_lawful (e : Endian) : (unpackActions e).Lawful where
  count st st' h := by
    simp only [unpackActions, unpackCount] at h
    split_ifs at h
    obtain ⟨out, -, rfl⟩ := map_eq_ok h
    rfl
  arg p k c num st st' h := by
    simp only [unpackActions, unpackArg] at h
    by_cases hx : c = Letter.x.char
    · rw [if_pos hx] at h
      obtain ⟨r, -, rfl⟩ := map_eq_ok h
      rfl
    · rw [if_neg hx] at h
      by_cases hn : (st.dests 0).null = true
      · rw [if_pos hn] at h
        cases h
      · rw [if_neg hn] at h
        cases hv : st.vnum with
        | none =>
          simp only [hv] at h
          obtain ⟨r, -, rfl⟩ := map_eq_ok h
          rfl
        | some vnum =>
          simp only [hv] at h
          split_ifs at h
          · obtain rfl := Except.ok.inj h
            rfl
          · obtain ⟨r, -, rfl⟩ := map_eq_ok h
            rfl

def formatOrder (fmt : List UInt8) : Endian := (byteOrder (cstr fmt)).1

/-- A `Pack` or `Unpack` call carries out the scan of its format. -/
def scanFormat (fmt : List UInt8) : List Token × Ending := scan false (byteOrder (cstr fmt)).2

theorem pack_eq (fmt : List UInt8) (args : Nat → Arg) (cap : Nat) :
    pack fmt args cap = (doScan (formatOrder fmt) (packActions (formatOrder fmt) cap)
      (scanFormat fmt) ⟨[], args, none⟩).map PackState.out := by
  rw [pack, formatLoop_eq (packActions_lawful _ _)]
  rfl

theorem unpack_eq (fmt : List UInt8) (dests : Nat → Dest) (buf : List UInt8) :
    unpack fmt dests buf = (doScan (formatOrder fmt) (unpackActions (formatOrder fmt))
      (scanFormat fmt) ⟨buf, dests, none, []⟩).map
        fun st => (buf.length - st.rest.length, st.stored) := by
  rw [unpack, formatLoop_eq (unpackActions_lawful _)]
  rfl

end PortableLib.Pack
