import Mathlib.Data.List.Basic

/-! The xor filter of `xorfilter.c`. A vector that is only pushed and popped at its back is a list
with the back at its head. An access outside of an array and a division by zero end the program
and are `none`. -/

namespace PortableLib.XorFilter
open List

structure FpIdx where
  i : UInt32
  j : UInt32
  k : UInt32
  deriving DecidableEq, Repr

def mix (h : UInt64) : UInt64 :=
  let h := h ^^^ (h >>> 23)
  let h := h * 0x2127599bf4325c37
  h ^^^ (h >>> 47)

def mixRot (h : UInt64) : UInt64 :=
  let h := (h <<< 27) ||| (h >>> (64 - 27))
  h ^^^ (h >>> 32)

def hashkey (v salt : UInt64) : UInt64 :=
  let m : UInt64 := 0x880355f21e6d1965
  let h := salt ^^^ (8 * m)
  let h := h ^^^ mix v
  let h := h * m
  mix h

def geth0 (h : UInt64) (size : UInt32) : UInt32 := (h % size.toUInt64).toUInt32

def geth1 (h : UInt64) (size : UInt32) : UInt32 := (mixRot h % size.toUInt64).toUInt32

def geth2 (h : UInt64) (size : UInt32) : UInt32 := (mixRot (mixRot h) % size.toUInt64).toUInt32

def hash3 (h : UInt64) (size : UInt32) : Option FpIdx :=
  if size = 0 then none
  else some ⟨geth0 h size, geth1 h size + size, geth2 h size + 2 * size⟩

def xfp8 (h : UInt64) : UInt8 := ((0xff : UInt64) &&& (h ^^^ (h >>> 32))).toUInt8

def xfp16 (h : UInt64) : UInt16 := ((0xffff : UInt64) &&& (h ^^^ (h >>> 32))).toUInt16

structure XorSet where
  mask : UInt64
  n : Nat
  deriving DecidableEq, Repr

structure KeyIdx where
  hash : UInt64
  idx : Nat
  deriving DecidableEq, Repr

def tallyAt (H : List XorSet) (i : UInt32) (h : UInt64) : Option (List XorSet) :=
  H[i.toNat]?.map fun x => H.set i.toNat ⟨x.mask ^^^ h, x.n + 1⟩

/-- The body of the loop of `xorfilter_init` over the keys. -/
def tallyKey (size : UInt32) (seed : UInt64) (H : List XorSet) (key : UInt64) :
    Option (List XorSet) := do
  let h := hashkey key seed
  let z ← hash3 h size
  let H ← tallyAt H z.i h
  let H ← tallyAt H z.j h
  tallyAt H z.k h

def firstQ (H : List XorSet) : List KeyIdx :=
  H.zipIdx.foldl (fun q p => if p.1.n = 1 then ⟨p.1.mask, p.2⟩ :: q else q) []

def updateQ (s : List KeyIdx × List XorSet) (i : UInt32) (h : UInt64) :
    Option (List KeyIdx × List XorSet) :=
  s.2[i.toNat]?.map fun x =>
    let x : XorSet := ⟨x.mask ^^^ h, x.n - 1⟩
    (if x.n = 1 then ⟨x.mask, i.toNat⟩ :: s.1 else s.1, s.2.set i.toNat x)

structure Peeling where
  q : List KeyIdx
  H : List XorSet
  stack : List KeyIdx
  deriving DecidableEq, Repr

/-- The body of the peeling loop for the popped entry `ki`, with `s.q` the rest of the queue. -/
def peelStep (size : UInt32) (s : Peeling) (ki : KeyIdx) : Option Peeling :=
  s.H[ki.idx]?.bind fun x =>
    if x.n ≠ 1 then some s
    else do
      let z ← hash3 ki.hash size
      let r ← updateQ (s.q, s.H) z.i ki.hash
      let r ← updateQ r z.j ki.hash
      let r ← updateQ r z.k ki.hash
      some ⟨r.1, r.2, ki :: s.stack⟩

def peel (size : UInt32) : Nat → Peeling → Option Peeling
  | 0, s => if s.q = [] then some s else none
  | rounds + 1, s =>
    match s.q with
    | [] => some s
    | ki :: q => (peelStep size { s with q := q } ki).bind (peel size rounds)

/-- One round of the outer loop of `xorfilter_init`: the stack it ends with. -/
def attempt (size : UInt64) (keys : List UInt64) (seed : UInt64) : Option (List KeyIdx) := do
  let cap := (size * 3).toNat
  let H ← keys.foldlM (tallyKey size.toUInt32 seed) (replicate cap ⟨0, 0⟩)
  let s ← peel size.toUInt32 (cap + 4 * keys.length) ⟨firstQ H, H, []⟩
  some s.stack

def initLoop (size : UInt64) (keys : List UInt64) (seeds : Nat → UInt64) :
    Nat → Nat → Option (List KeyIdx × UInt64)
  | 0, _ => some ([], 0)
  | left + 1, tries =>
    (attempt size keys (seeds tries)).bind fun stack =>
      if stack.length = keys.length then some (stack, seeds tries)
      else initLoop size keys seeds left (tries + 1)

/-- The stack and the seed that `xorfilter_init` ends with. The size is `xorfilter_calc_size n`;
`seeds` are the values that `rand64` returns. -/
def xorfilterInit (size : UInt64) (keys : List UInt64) (seeds : Nat → UInt64) :
    Option (List KeyIdx × UInt64) := initLoop size keys seeds 1000001 0

inductive Fingerprints
  | fp8 (b : List UInt8)
  | fp16 (b : List UInt16)
  deriving DecidableEq, Repr

structure Xorfilter where
  fp : Fingerprints
  seed : UInt64
  size : UInt32
  n : UInt32
  deriving DecidableEq, Repr

section Fill
variable {β : Type} [XorOp β]

def cellsOf (b : List β) (z : FpIdx) : Option (β × β × β) := do
  let bi ← b[z.i.toNat]?
  let bj ← b[z.j.toNat]?
  let bk ← b[z.k.toNat]?
  some (bi, bj, bk)

def fill (fp : UInt64 → β) (size : UInt32) : List β → List KeyIdx → Option (List β)
  | b, [] => some b
  | b, ki :: stack => do
    let z ← hash3 ki.hash size
    let v ← cellsOf b z
    if ki.idx < b.length then
      fill fp size (b.set ki.idx (fp ki.hash ^^^ v.1 ^^^ v.2.1 ^^^ v.2.2)) stack
    else none

def matchFp [DecidableEq β] (fp : β) (b : List β) (z : FpIdx) : Option Bool :=
  (cellsOf b z).map fun v => fp = v.1 ^^^ v.2.1 ^^^ v.2.2

end Fill

/-- Both constructors: `cells` is the length of the fingerprint array for a stack of this length,
which is three times that length in the source. A null pointer is `some none`. -/
def newFilter {β : Type} [XorOp β] [OfNat β 0] (fp : UInt64 → β) (mk : List β → Fingerprints)
    (cells : Nat → Nat) (size : UInt64) (keys : List UInt64) (seeds : Nat → UInt64) :
    Option (Option Xorfilter) :=
  (xorfilterInit size keys seeds).bind fun r =>
    if r.1.length = 0 then some none
    else (fill fp size.toUInt32 (replicate (cells r.1.length) 0) r.1).map fun b =>
      some ⟨mk b, r.2, size.toUInt32, UInt32.ofNat keys.length⟩

def xorfilterNew8 : (Nat → Nat) → UInt64 → List UInt64 → (Nat → UInt64) →
    Option (Option Xorfilter) := newFilter xfp8 .fp8

def xorfilterNew16 : (Nat → Nat) → UInt64 → List UInt64 → (Nat → UInt64) →
    Option (Option Xorfilter) := newFilter xfp16 .fp16

def xorfilterContains (x : Xorfilter) (key : UInt64) : Option Bool :=
  let h := hashkey key x.seed
  (hash3 h x.size).bind fun z =>
    match x.fp with
    | .fp8 b => matchFp (xfp8 h) b z
    | .fp16 b => matchFp (xfp16 h) b z

end PortableLib.XorFilter
