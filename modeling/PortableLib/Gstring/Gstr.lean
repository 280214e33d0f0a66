import Mathlib.Data.List.DropRight
import PortableLib.Lib.Block
import PortableLib.Lib.Run
import PortableLib.TypeUtils

/-! The growable strings of `gstring.c`. A `gstr` owns a block of `cap` bytes; every access to it is
checked. Allocations succeed, except that no block is given for 0 bytes by `realloc`, and the
assertion after it fails. -/

namespace PortableLib.Gstring
open List TypeUtils

structure Gstr where
  str : Block UInt8
  len : UInt64
  cap : UInt64

def cstr (s : List UInt8) : Block UInt8 where
  len := s.length + 1
  cells i := s.getD i 0

/-- A `size_t` passed as `int` and added to a `size_t` again. -/
def asInt (n : UInt64) : UInt64 :=
  if n.toUInt32 < 0x80000000 then n.toUInt32.toUInt64
  else n.toUInt32.toUInt64 + 0xFFFFFFFF00000000

/-- `grow_if`; `junk` is what `realloc` leaves in the new part of the block. -/
def growIf (junk : Nat → UInt8) (g : Gstr) (len : UInt64) : Option Gstr :=
  let want := g.len + asInt len + 1
  if g.cap < want then
    let want := nextPow2 want
    if want = 0 then none
    else some { g with str := g.str.realloc want.toNat junk, cap := want }
  else some g

def strlen (s : Block UInt8) : Nat → Nat → Option Nat
  | 0, _ => none
  | fuel + 1, i => do
    let c ← s.read i
    if c = 0 then return i
    strlen s fuel (i + 1)

def initGstr (n : UInt64) (src : Option (Block UInt8)) : Option Gstr :=
  let n := if n = 0 then 63 else n
  let cap := nextPow2 (n + 1)
  let str : Block UInt8 := { len := cap.toNat, cells := fun _ => 0 }
  match src with
  | some src => do
    let n ← strlen src src.len 0
    let str ← str.copy 0 src (n + 1)
    return { str := str, len := UInt64.ofNat n, cap := cap }
  | none => some { str := str, len := 0, cap := cap }

def gstrInit (size : UInt64) : Option Gstr := initGstr size none

def gstrDup (s : Gstr) : Option Gstr := initGstr s.len (some s.str)

def gstrInitFrom (s : Option (List UInt8)) : Option Gstr :=
  initGstr (UInt64.ofNat (s.elim 0 List.length)) (s.map cstr)

def append (junk : Nat → UInt8) (g : Gstr) (str : Block UInt8) (len : UInt64) :
    Option (Gstr × UInt64) := do
  let g ← growIf junk g (len + 1)
  let dst ← g.str.copy g.len.toNat str (len + 1).toNat
  let g := { g with str := dst, len := g.len + len }
  return (g, g.len)

def gstrAppendStr (junk : Nat → UInt8) (g : Gstr) (str : Option (List UInt8)) :
    Option (Gstr × UInt64) :=
  match str with
  | some str => append junk g (cstr str) (UInt64.ofNat str.length)
  | none => some (g, g.len)

def gstrAppend (junk : Nat → UInt8) (g : Gstr) (that : Option Gstr) : Option (Gstr × UInt64) :=
  match that with
  | some that => append junk g that.str that.len
  | none => some (g, g.len)

/-- `gstr_append_ch`; `ch` is an `int`, of which the low byte is stored. -/
def gstrAppendCh (junk : Nat → UInt8) (g : Gstr) (ch : UInt32) : Option (Gstr × UInt64) := do
  let g ← growIf junk g 1
  let str ← g.str.write g.len.toNat ch.toUInt8
  let g := { g with str := str, len := g.len + 1 }
  let str ← g.str.write g.len.toNat 0
  return ({ g with str := str }, g.len)

def gstrTruncate (g : Gstr) (n : UInt64) : Option (Gstr × UInt64) :=
  if g.len > n then do
    let g := { g with len := n }
    let str ← g.str.write n.toNat 0
    return ({ g with str := str }, g.len)
  else some (g, g.len)

/-- `g->str[--g->len] = 0` -/
def dropLast (g : Gstr) : Option Gstr := do
  let g := { g with len := g.len - 1 }
  let str ← g.str.write g.len.toNat 0
  return { g with str := str }

/-- `gstr_chop`; the result is the character it returns. -/
def gstrChop (g : Gstr) : Option (Gstr × UInt8) :=
  if g.len > 0 then do
    let c ← g.str.read (g.len - 1).toNat
    let g ← if c = 0x0a then dropLast g else some g
    if g.len > 0 then
      let cr ← g.str.read (g.len - 1).toNat
      if cr = 0x0d then
        let g ← dropLast g
        return (g, cr)
      else return (g, c)
    else return (g, c)
  else some (g, 0)

/-- `gstr_chop_if`; the set is a C string, and `strchr` finds its terminator too. -/
def gstrChopIf (g : Gstr) (s : List UInt8) : Option (Gstr × UInt8) :=
  if g.len = 0 then some (g, 0)
  else do
    let c ← g.str.read (g.len - 1).toNat
    if c ≠ 0 ∧ (c = s.headD 0 ∨ c ∈ s ++ [0]) then
      let g ← dropLast g
      return (g, c)
    else return (g, c)

def isspace (c : UInt8) : Bool := c = 0x20 || (0x09 ≤ c && c ≤ 0x0d)

/-- The first loop of `gstr_trim`: where the first character is that is not a space, if any. -/
def skipSpaces (str : Block UInt8) : Nat → Nat → Option (Option Nat)
  | 0, _ => none
  | fuel + 1, i => do
    let c ← str.read i
    if c = 0 then return none
    if !isspace c then return some i
    skipSpaces str fuel (i + 1)

def copyDown : Nat → Block UInt8 → Nat → Nat → Nat → Option (Block UInt8 × Nat)
  | 0, _, _, _, _ => none
  | fuel + 1, b, str, ptr, strEnd => do
    let c ← b.read str
    let b ← b.write ptr c
    if c = 0 then return (b, strEnd)
    copyDown fuel b (str + 1) (ptr + 1) (if !isspace c then ptr else strEnd)

def gstrTrim (g : Gstr) : Option Gstr := do
  match ← skipSpaces g.str g.str.len 0 with
  | none =>
    let str ← g.str.write 0 0
    return { g with str := str, len := 0 }
  | some str =>
    let (b, strEnd) ← copyDown g.str.len g.str str 0 0
    let strEnd := strEnd + 1
    let b ← b.write strEnd 0
    return { g with str := b, len := UInt64.ofNat strEnd }

inductive Op (η : Type)
  | init (g : η) (size : UInt64)
  | initFrom (g : η) (s : Option (List UInt8))
  | dup (g s : η)
  | appendStr (g : η) (str : Option (List UInt8))
  | append (g that : η)
  | appendCh (g : η) (ch : UInt32)
  | truncate (g : η) (n : UInt64)
  | chop (g : η)
  | chopIf (g : η) (s : List UInt8)
  | trim (g : η)

structure Call (η : Type) where
  op : Op η
  junk : Nat → UInt8

variable {η : Type} [DecidableEq η]

inductive Result
  | string
  | length (n : UInt64)
  | char (c : UInt8)
  deriving DecidableEq

/-- The strings of a program, `none` before they are initialised. -/
def step (gs : η → Option Gstr) (c : Call η) : Option ((η → Option Gstr) × Result) :=
  let set (g : η) (v : Gstr) := Function.update gs g (some v)
  match c.op with
  | .init g size => (gstrInit size).map fun v => (set g v, .string)
  | .initFrom g s => (gstrInitFrom s).map fun v => (set g v, .string)
  | .dup g s => (gs s).bind fun w => (gstrDup w).map fun v => (set g v, .string)
  | .appendStr g str => (gs g).bind fun w =>
    (gstrAppendStr c.junk w str).map fun p => (set g p.1, .length p.2)
  | .append g that => (gs g).bind fun w => (gs that).bind fun w' =>
    (gstrAppend c.junk w (some w')).map fun p => (set g p.1, .length p.2)
  | .appendCh g ch => (gs g).bind fun w =>
    (gstrAppendCh c.junk w ch).map fun p => (set g p.1, .length p.2)
  | .truncate g n => (gs g).bind fun w =>
    (gstrTruncate w n).map fun p => (set g p.1, .length p.2)
  | .chop g => (gs g).bind fun w => (gstrChop w).map fun p => (set g p.1, .char p.2)
  | .chopIf g s => (gs g).bind fun w => (gstrChopIf w s).map fun p => (set g p.1, .char p.2)
  | .trim g => (gs g).bind fun w => (gstrTrim w).map fun v => (set g v, .string)

def trimmed (l : List UInt8) : List UInt8 := (l.dropWhile isspace).rdropWhile isspace

def chopped (x : UInt8) (l : List UInt8) : List UInt8 :=
  if l.getLast? = some x then l.dropLast else l

def spec (L : η → List UInt8) (c : Call η) : (η → List UInt8) × Result :=
  let set (g : η) (l : List UInt8) := Function.update L g l
  let measured (g : η) (l : List UInt8) := (set g l, Result.length (UInt64.ofNat l.length))
  match c.op with
  | .init g _ => (set g [], .string)
  | .initFrom g s => (set g (s.getD []), .string)
  | .dup g s => (set g (L s), .string)
  | .appendStr g str => measured g (L g ++ str.getD [])
  | .append g that => measured g (L g ++ L that)
  | .appendCh g ch => measured g (L g ++ [ch.toUInt8])
  | .truncate g n => measured g ((L g).take n.toNat)
  | .chop g => (set g (chopped 0x0d (chopped 0x0a (L g))), .char
      (if (chopped 0x0a (L g)).getLast? = some 0x0d then 0x0d else (L g).getLastD 0))
  | .chopIf g s =>
    (set g (if ∃ c ∈ (L g).getLast?, c ∈ s then (L g).dropLast else L g), .char ((L g).getLastD 0))
  | .trim g => (set g (trimmed (L g)), .string)

def Plain (n : UInt64) (s : List UInt8) : Prop := 0 ∉ s ∧ n.toNat + s.length < 2 ^ 31

/-- Calls on initialised strings whose contents stay NUL-free and shorter than 2 GiB. -/
def Allowed (gs : η → Option Gstr) (c : Call η) : Prop :=
  match c.op with
  | .init _ _ => True
  | .initFrom _ s => ∀ str ∈ s, Plain 0 str
  | .dup _ s => (gs s).isSome
  | .appendStr g str => ∃ w ∈ gs g, ∀ s ∈ str, Plain w.len s
  | .append g that =>
    g ≠ that ∧ ∃ w ∈ gs g, ∃ w' ∈ gs that, w.len.toNat + w'.len.toNat < 2 ^ 31
  | .appendCh g ch => ∃ w ∈ gs g, Plain w.len [ch.toUInt8]
  | .truncate g _ | .chop g | .trim g => (gs g).isSome
  | .chopIf g s => (gs g).isSome ∧ 0 ∉ s

/-- The sizes for which the arithmetic of the code does not overflow: an initial capacity that a
power of two above it is a `size_t`, and an addition whose length and two more are an `int`. -/
def Fits (gs : η → Option Gstr) (c : Call η) : Prop :=
  match c.op with
  | .init _ size => size.toNat < 2 ^ 63
  | .appendStr _ str => ∀ s ∈ str, s.length < 2 ^ 31 - 1
  | .append _ that => ∀ w ∈ gs that, w.len.toNat < 2 ^ 31 - 1
  | _ => True

/-- `l` and a terminator at the start of a block. -/
structure Terminated (b : Block UInt8) (l : List UInt8) : Prop where
  room : l.length < b.len
  bytes : (range l.length).map b.cells = l
  nul : b.cells l.length = 0
  nulFree : 0 ∉ l

/-- `len < cap`, the terminator at `len` and none before it. -/
structure Holds (g : Gstr) (l : List UInt8) : Prop where
  block : g.str.len = g.cap.toNat
  len_eq : g.len.toNat = l.length
  term : Terminated g.str l
  short : l.length < 2 ^ 31

end PortableLib.Gstring
