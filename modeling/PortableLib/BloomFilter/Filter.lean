import PortableLib.TypeUtils
import Mathlib.Data.List.Basic

/-! The standard and the scalable filter of `bloom.c`. The floating point that sizes a level and
judges it full is left open: each level comes with its `k`, its number of bits and its salt, and
each probe with the verdict on the last level. An access outside a bitmap or a failed assertion
is `none`. -/

namespace PortableLib.BloomFilter

def mix (h : UInt64) : UInt64 :=
  let h := h ^^^ (h >>> 23)
  let h := h * 0x2127599bf4325c37
  h ^^^ (h >>> 47)

def hashVal (v salt : UInt64) : UInt64 :=
  let m : UInt64 := 0x880355f21e6d1965
  let h := 8 * m
  let h := h ^^^ mix v
  let h := h * m
  mix h ^^^ salt

/-- `struct bloom` without the error rate and the memory flags. -/
structure Bloom where
  m : UInt64
  k : UInt64
  salt : UInt64
  bitmap : List UInt8
  size : UInt64
  bmsize : UInt64
  deriving DecidableEq, Repr

def testbit (bm : List UInt8) (i : UInt64) : Option Bool :=
  bm[(i / 8).toNat]?.map fun x => x &&& (1 <<< (i % 8).toUInt8) ≠ 0

def setbit (bm : List UInt8) (i : UInt64) : Option (List UInt8) :=
  bm[(i / 8).toNat]?.map fun x => bm.set (i / 8).toNat (x ||| (1 <<< (i % 8).toUInt8))

def slot (b : Bloom) (val i : UInt64) : UInt64 :=
  let z := hashVal val b.salt
  let h1 := z &&& 0xffffffff
  let h2 := z >>> 32
  (h1 + i * h2) % b.m + i * b.m

def partitions (b : Bloom) : List UInt64 := (List.range b.k.toNat).map UInt64.ofNat

def standardBloomProbe (b : Bloom) (val : UInt64) : Option Bloom :=
  ((partitions b).foldlM (fun bm i => setbit bm (slot b val i)) b.bitmap).map fun bm =>
    { b with bitmap := bm, size := b.size + 1 }

/-- The loop of `standard_bloom_find`, which stops at the first clear bit. -/
@[simp] def findIn (b : Bloom) (val : UInt64) : List UInt64 → Option Bool
  | [] => some true
  | i :: is => (testbit b.bitmap (slot b val i)).bind fun t =>
      if t then findIn b val is else some false

def standardBloomFind (b : Bloom) (val : UInt64) : Option Bool := findIn b val (partitions b)

/-- What sizes a level: `make_k`, `make_m`, the drawn salt, and the element count that the memory
of the level happens to hold, which `standard_bloom_init` does not reset. -/
structure Level where
  k : UInt64
  m : UInt64
  salt : UInt64
  size : UInt64
  deriving DecidableEq, Repr

def Level.msub (l : Level) : UInt64 := l.m / l.k + if l.m % l.k > 0 then 1 else 0

def standardBloomInit (l : Level) : Bloom :=
  let nbits := TypeUtils.alignUp (l.msub * l.k) 64
  let bytes := nbits / 8
  { m := l.msub, k := l.k, salt := l.salt, bitmap := List.replicate bytes.toNat 0,
    size := l.size, bmsize := bytes }

/-- `struct scalable_bloom`; `bfa` holds the levels in use. -/
structure ScalableBloom where
  bfa : List Bloom
  len : UInt32
  cap : UInt32
  deriving DecidableEq, Repr

def scalableNew (l : Level) : ScalableBloom := ⟨[standardBloomInit l], 1, 8⟩

def maybeGrowFilter (sb : ScalableBloom) (l : Level) : Option ScalableBloom :=
  let bfa := sb.bfa ++ [standardBloomInit l]
  if sb.len = sb.cap then
    let x := sb.cap <<< 1
    if x > sb.cap then some ⟨bfa, sb.len + 1, x⟩ else none
  else some ⟨bfa, sb.len + 1, sb.cap⟩

/-- The last step of `scalable_probe`, on the last level. -/
def probeLast (sb : ScalableBloom) (v : UInt64) : Option ScalableBloom :=
  let i := sb.len - 1
  if i < sb.len then
    sb.bfa[i.toNat]?.bind fun f =>
      (standardBloomProbe f v).map fun f => { sb with bfa := sb.bfa.set i.toNat f }
  else none

/-- `scalable_probe`; `full` sizes the next level if the last one is judged full. -/
def scalableProbe (sb : ScalableBloom) (v : UInt64) (full : Option Level) : Option ScalableBloom :=
  match full with
  | none => probeLast sb v
  | some l => (maybeGrowFilter sb l).bind fun sb => probeLast sb v

def findDown (v : UInt64) : List Bloom → Option Bool
  | [] => some false
  | f :: fs => (standardBloomFind f v).bind fun t => if t then some true else findDown v fs

def scalableFind (sb : ScalableBloom) (v : UInt64) : Option Bool :=
  if sb.len > 0 then findDown v (sb.bfa.take sb.len.toNat).reverse else none

end PortableLib.BloomFilter
