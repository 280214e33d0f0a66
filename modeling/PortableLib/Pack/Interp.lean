import PortableLib.Pack.Packers

/-! The two format interpreters of `pack.c`. -/

namespace PortableLib.Pack
open List Encdec

def isspace (c : UInt8) : Bool := c = 32 || 9 ≤ c && c ≤ 13

def isdigit (c : UInt8) : Bool := 48 ≤ c && c ≤ 57

def digit (c : UInt8) : Nat := c.toNat - 48

/-- The loop of `__len_prefix` once the second character is a digit `v`: that character is not
read again, so the loop goes on until the count overflows. The result is the number of
characters that were skipped. -/
def lenLoop (v : Nat) : Nat → Nat → Option Nat
  | 0, _ => none
  | fuel + 1, nn =>
    -- `max` is `SIZE_MAX / 10`, and `SIZE_MAX % 10` is 5
    if nn > 1844674407370955161 ∨ nn = 1844674407370955161 ∧ v > 5 then some 0
    else (lenLoop v fuel (nn * 10 + v)).map (· + 1)

def lenPrefix (c : UInt8) (rest : List UInt8) : Except Stop Nat :=
  match rest with
  | [] => .ok (digit c)
  | t :: _ =>
    if isdigit t then
      match lenLoop (digit t) 21 (digit c) with
      | some k => .error (.tooBig (rest.length < k))
      | none => .error .diverge
    else .ok (digit c)

def nextArg {α : Type*} (args : Nat → α) : Nat → α := fun i => args (i + 1)

/-- A size that is stored in an `int`. -/
def asInt (n : Nat) : Int := (Int32.ofNat n).toInt

/-- What differs between the loops of `pack` and `unpack`: the pending `*`, its branch, the code
from the argument on, and the end of the format. -/
structure Actions (σ : Type*) where
  pending : σ → Bool
  count : σ → Except Stop σ
  arg : Packer → Codec → UInt8 → Nat → σ → Except Stop σ
  finish : σ → Except Stop σ

section Loop
variable {σ : Type*}

def formatItem (e : Endian) (a : Actions σ) (c : UInt8) (num : Nat) (st : σ) : Except Stop σ :=
  if 0 < num ∧ a.pending st then .error (.format .einval)
  else (getpacker e c).bind fun p =>
    match p with
    | none => .error (.format .enoent)
    | some p =>
      match p.codec with
      | none => .error .assertFail
      | some k => a.arg p k c num st

/-- The loop over the format, which is the same text in `pack` and in `unpack`. -/
def formatLoop (e : Endian) (a : Actions σ) : List UInt8 → σ → Except Stop σ
  | [], st => a.finish st
  | c :: rest, st =>
    if isspace c then formatLoop e a rest st
    else if c = 42 then
      if a.pending st then .error (.format .eilseq)
      else (a.count st).bind fun st => formatLoop e a rest st
    else if isdigit c then
      match lenPrefix c rest with
      | .error s => .error s
      | .ok num =>
        match rest with
        -- the count ends at the `\0`, which is then looked up as a letter
        | [] => formatItem e a 0 num st
        | t :: rest => (formatItem e a t num st).bind fun st => formatLoop e a rest st
    else (formatItem e a c 0 st).bind fun st => formatLoop e a rest st

end Loop

def byteOrder : List UInt8 → Endian × List UInt8
  | [] => (.le, [])
  | c :: rest => if c = 60 then (.le, rest) else if c = 62 then (.be, rest) else (.le, c :: rest)

structure PackState where
  out : List UInt8
  args : Nat → Arg
  vnum : Option UInt32

def callPack (cap : Nat) (p : Packer) (k : Codec) (out : List UInt8) (num : Nat) (arg : Arg) :
    Except Stop (List UInt8) :=
  if 0 < p.size ∧ cap < out.length + num * p.size then .error (.space .enospc)
  else (k.pack cap out num arg).bind fun r =>
    -- the size goes through `int c`
    if asInt r.2 < 0 then .error (.size (asInt r.2)) else .ok r.1

def packCount (e : Endian) (cap : Nat) (st : PackState) : Except Stop PackState :=
  let vnum := (st.args 0).word.toUInt32
  (callPack cap (packers e Letter.I.char) e.iCodec st.out 1 ⟨vnum.toUInt64, fun _ => 0, []⟩).map
    fun out => ⟨out, nextArg st.args, some vnum⟩

def packArg (cap : Nat) (p : Packer) (k : Codec) (c : UInt8) (num : Nat) (st : PackState) :
    Except Stop PackState :=
  let arg := st.args 0
  if c = Letter.x.char then
    (callPack cap p k st.out num ⟨0, fun _ => 0, []⟩).map fun out => ⟨out, st.args, none⟩
  else
    match st.vnum with
    | some vnum =>
      -- `goto next`: the argument is consumed all the same
      if vnum = 0 then .ok ⟨st.out, nextArg st.args, none⟩
      else (callPack cap p k st.out vnum.toNat arg).map fun out => ⟨out, nextArg st.args, none⟩
    | none =>
      let num :=
        if c = Letter.z.char ∨ c = Letter.Z.char then
          if num = 0 ∧ arg.word ≠ 0 then 1 + arg.strlen else num
        else if num = 0 then 1 else num
      (callPack cap p k st.out num arg).map fun out => ⟨out, nextArg st.args, none⟩

def packActions (e : Endian) (cap : Nat) : Actions PackState where
  pending st := st.vnum.isSome
  count := packCount e cap
  arg := packArg cap
  finish := .ok

/-- `Pack` into a buffer of `cap` bytes: the bytes before `pd.ptr`. -/
def pack (fmt : List UInt8) (args : Nat → Arg) (cap : Nat) : Except Stop (List UInt8) :=
  let f := byteOrder (cstr fmt)
  (formatLoop f.1 (packActions f.1 cap) f.2 ⟨[], args, none⟩).map PackState.out

structure UnpackState where
  rest : List UInt8
  dests : Nat → Dest
  vnum : Option UInt32
  stored : List Stored

def callUnpack (p : Packer) (k : Codec) (rest : List UInt8) (num : Nat) (dest : Dest)
    (alloc : Bool) : Except Stop (List UInt8 × Stored) :=
  if 0 < p.size ∧ rest.length < num * p.size then .error (.space .enospc)
  else (k.unpack rest num dest alloc).bind fun r =>
    if asInt r.2.2 < 0 then .error (.size (asInt r.2.2)) else .ok (r.1, r.2.1)

/-- The count that an unpacked `I` leaves behind its pointer. -/
def Stored.vnum : Stored → UInt32
  | .elems (x :: _) => x.toUInt32
  | _ => 0

def unpackCount (e : Endian) (st : UnpackState) : Except Stop UnpackState :=
  if (st.dests 0).null then .error .null
  else (callUnpack (packers e Letter.I.char) e.iCodec st.rest 1 (st.dests 0) false).map fun r =>
    ⟨r.1, nextArg st.dests, some r.2.vnum, st.stored ++ [.count r.2.vnum]⟩

def unpackArg (p : Packer) (k : Codec) (c : UInt8) (num : Nat) (st : UnpackState) :
    Except Stop UnpackState :=
  if c = Letter.x.char then
    (callUnpack p k st.rest num ⟨true, true⟩ st.vnum.isSome).map fun r =>
      ⟨r.1, st.dests, none, st.stored⟩
  else if (st.dests 0).null then .error .null
  else
    match st.vnum with
    | some vnum =>
      if vnum = 0 then .ok ⟨st.rest, nextArg st.dests, none, st.stored ++ [.untouched]⟩
      else (callUnpack p k st.rest vnum.toNat (st.dests 0) true).map fun r =>
        ⟨r.1, nextArg st.dests, none, st.stored ++ [r.2]⟩
    | none =>
      let num := if c ≠ Letter.z.char ∧ c ≠ Letter.Z.char ∧ num = 0 then 1 else num
      (callUnpack p k st.rest num (st.dests 0) false).map fun r =>
        ⟨r.1, nextArg st.dests, none, st.stored ++ [r.2]⟩

def unpackActions (e : Endian) : Actions UnpackState where
  pending st := st.vnum.isSome
  count := unpackCount e
  arg := unpackArg
  -- missing type descriptor after '*'
  finish st := if st.vnum.isSome then .error (.format .einval) else .ok st

/-- `Unpack` of a buffer: the number of bytes read and what is stored behind each pointer. -/
def unpack (fmt : List UInt8) (dests : Nat → Dest) (buf : List UInt8) :
    Except Stop (Nat × List Stored) :=
  let f := byteOrder (cstr fmt)
  (formatLoop f.1 (unpackActions f.1) f.2 ⟨buf, dests, none, []⟩).map fun st =>
    (buf.length - st.rest.length, st.stored)

/-- The `int` that a call returns, if it returns. -/
def Stop.ret : Stop → Option Int
  | .format e | .space e => some (-e.code)
  | .tooBig _ => some (-Errno.e2big.code)
  | .null => some (-Errno.einval.code)
  | .nomem => some (-Errno.enomem.code)
  | .size c => some c
  | .assertFail | .tableOob | .diverge | .overread | .nullWrite => none

end PortableLib.Pack
