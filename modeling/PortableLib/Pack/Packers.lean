import PortableLib.Encdec
import PortableLib.Errno
import Mathlib.Data.List.TakeWhile

/-! The per-type packers and unpackers of `pack.c` and the tables that select them. -/

namespace PortableLib.Pack
open List Encdec

/-- The string at a pointer: the bytes before the first `\0`. -/
def cstr (mem : List UInt8) : List UInt8 := mem.takeWhile (· ≠ 0)

theorem cstr_eq_self {s : List UInt8} (h : ∀ c ∈ s, c ≠ 0) : cstr s = s := by
  rw [cstr, takeWhile_eq_self_iff]
  exact fun c hc => by simpa using h c hc

theorem cstr_ne_zero {mem : List UInt8} : ∀ c ∈ cstr mem, c ≠ 0 := by
  intro c hc
  simpa using mem_takeWhile_imp hc

/-- An argument of `Pack`: the word that is passed, and what is found behind it if it is used as
a pointer to an array of elements or to a string. -/
structure Arg where
  word : UInt64
  elems : Nat → UInt64
  str : List UInt8

def Arg.strlen (a : Arg) : Nat := (cstr a.str).length

/-- An argument of `Unpack`: whether the pointer is `NULL`, and whether the allocation that is
made for it succeeds. -/
structure Dest where
  null : Bool
  alloc : Bool
  deriving DecidableEq, Repr

/-- What `Unpack` leaves behind a pointer. -/
inductive Stored
  | untouched
  | count (n : UInt32)
  | elems (xs : List UInt64)
  | heap (xs : List UInt64)
  | str (mem : List UInt8)
  deriving DecidableEq, Repr

/-- The ways in which `pack` and `unpack` end early. The ones from `assertFail` on do not
return. -/
inductive Stop
  | format (e : Errno)
  | tooBig (pastNul : Bool)
  | space (e : Errno)
  | null
  | nomem
  | size (c : Int)
  | assertFail
  | tableOob
  | diverge
  | overread
  | nullWrite
  deriving DecidableEq, Repr

abbrev PackFn := Nat → List UInt8 → Nat → Arg → Except Stop (List UInt8 × Nat)

abbrev UnpackFn := List UInt8 → Nat → Dest → Bool → Except Stop (List UInt8 × Stored × Nat)

def intPack (enc : UInt64 → List UInt8) (w : Nat) : PackFn := fun _ out num arg =>
  if num = 1 then .ok (out ++ enc arg.word, w)
  else .ok (out ++ (range num).flatMap fun i => enc (arg.elems i), num * w)

/-- The integer unpackers; `checked` tells whether the allocation is tested for `NULL`. -/
def intUnpack (dec : List UInt8 → UInt64) (w : Nat) (checked : Bool) : UnpackFn :=
  fun rest num dest alloc =>
    let xs := (range num).map fun i => dec (rest.drop (i * w))
    if alloc then
      if dest.alloc then .ok (rest.drop (num * w), .heap xs, num * w)
      else if checked then .error .nomem
      else .error .nullWrite
    else .ok (rest.drop (num * w), .elems xs, num * w)

def bPack := intPack (encLE 1) 1
def leSPack := intPack encLEu16 2
def leIPack := intPack encLEu32 4
def leLPack := intPack encLEu64 8
def beSPack := intPack encBEu16 2
def beIPack := intPack encBEu32 4
def beLPack := intPack encBEu64 8

def bUnpack := intUnpack (fun p => decLE (p.take 1)) 1 true
def leSUnpack := intUnpack decLEu16 2 true
def leIUnpack := intUnpack decLEu32 4 true
def leLUnpack := intUnpack decLEu64 8 true
def beSUnpack := intUnpack decBEu16 2 true
-- the one that does not look at what `NEWZA` returns
def beIUnpack := intUnpack decBEu32 4 false
def beLUnpack := intUnpack decBEu64 8 true

def xPack : PackFn := fun cap out num _ =>
  if cap < out.length + num then .error (.space .einval)
  else .ok (out ++ replicate num 0, num)

def xUnpack : UnpackFn := fun rest num _ _ =>
  if rest.length < num then .error (.space .einval)
  else .ok (rest.drop num, .untouched, num)

def zPack : PackFn := fun cap out n arg =>
  -- we are _never_ sent zero sized requests
  if n = 0 then .error .assertFail
  else if cap < out.length + n then .error (.space .enospc)
  else
    let s := if arg.word = 0 then [] else (cstr arg.str).take n
    .ok (out ++ s ++ replicate (n - s.length) 0, n)

/-- The length of a string with its trailing `\0`; the search starts by reading a byte. -/
def scanNul (rest : List UInt8) : Except Stop Nat :=
  if rest = [] then .error .overread
  else if rest.all (· ≠ 0) then .error (.space .einval)
  else .ok ((cstr rest).length + 1)

def zUnpack : UnpackFn := fun rest num dest _ =>
  (if num = 0 then scanNul rest
    else if rest.length < num then .error (.space .enospc)
    else .ok num).bind fun n =>
  if dest.alloc then .ok (rest.drop n, .str (rest.take n ++ [0]), n)
  else .error .nomem

structure Codec where
  pack : PackFn
  unpack : UnpackFn

/-- `struct packer`; no codec stands for the two `NULL` functions of an unused entry. -/
structure Packer where
  typ : UInt8
  size : Nat
  codec : Option Codec

inductive Endian
  | le
  | be
  deriving DecidableEq, Repr

def Endian.sCodec : Endian → Codec
  | .le => ⟨leSPack, leSUnpack⟩
  | .be => ⟨beSPack, beSUnpack⟩

def Endian.iCodec : Endian → Codec
  | .le => ⟨leIPack, leIUnpack⟩
  | .be => ⟨beIPack, beIUnpack⟩

def Endian.lCodec : Endian → Codec
  | .le => ⟨leLPack, leLUnpack⟩
  | .be => ⟨beLPack, beLUnpack⟩

inductive Letter
  | b | B | s | S | i | I | l | L | f | D | x | z | Z
  deriving DecidableEq, Repr

def Letter.char : Letter → UInt8
  | .b => 98
  | .B => 66
  | .s => 115
  | .S => 83
  | .i => 105
  | .I => 73
  | .l => 108
  | .L => 76
  | .f => 102
  | .D => 68
  | .x => 120
  | .z => 122
  | .Z => 90

def Letter.all : List Letter := [.b, .B, .x, .z, .Z, .s, .S, .i, .I, .l, .L, .f, .D]

def Letter.size : Letter → Nat
  | .b | .B | .z | .Z => 1
  | .s | .S => 2
  | .i | .I | .f => 4
  | .l | .L | .D => 8
  | .x => 0

def Letter.codec (e : Endian) : Letter → Codec
  | .b | .B => ⟨bPack, bUnpack⟩
  | .x => ⟨xPack, xUnpack⟩
  | .z | .Z => ⟨zPack, zUnpack⟩
  | .s | .S => e.sCodec
  | .i | .I | .f => e.iCodec
  | .l | .L | .D => e.lCodec

/-- `le_packers` and `be_packers` at an index inside the table. -/
def packers (e : Endian) (c : UInt8) : Packer :=
  match Letter.all.find? fun t => t.char = c with
  | some t => ⟨c, t.size, some (t.codec e)⟩
  | none => ⟨0, 0, none⟩

def getpacker (e : Endian) (c : UInt8) : Except Stop (Option Packer) :=
  if 122 < c then .error .tableOob
  else .ok (if (packers e c).typ = c then some (packers e c) else none)

end PortableLib.Pack
