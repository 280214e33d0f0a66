import PortableLib.FastHt.Fingerprint
import PortableLib.TypeUtils

/-! The bags, buckets and tables of `fast-ht.c`. A call that would read past an array or
fail an `assert` is `none`. -/

namespace PortableLib.FastHt

/-- `void *`; `0` is `NULL`. -/
abbrev Ptr := UInt64

structure Bag where
  fp : UInt64
  hk : Vector UInt64 7
  hv : Vector Ptr 7
  deriving DecidableEq, Repr

/-- `__NEWZ(bag)`: the zero fill also clears the control byte, so all seven slots of a
fresh bag read as occupied. -/
def Bag.newz : Bag := ⟨0, Vector.replicate 7 0, Vector.replicate 7 0⟩

structure Hb where
  head : List Bag
  nodes : UInt32
  bags : UInt32
  deriving DecidableEq, Repr

def Hb.newz : Hb := ⟨[], 0, 0⟩

structure Ht where
  b : List Hb
  n : UInt64
  salt : UInt64
  fill : UInt64
  maxfill : UInt64
  nodes : UInt64
  splits : UInt32
  bagmax : UInt32
  maxn : UInt32
  deriving DecidableEq, Repr

def Bag.store (g : Bag) (slot : Fin 7) (k : UInt64) (v : Ptr) : Bag :=
  ⟨updateFp g.fp k slot, g.hk.set slot k, g.hv.set slot v⟩

def Bag.clear (g : Bag) (slot : Fin 7) : Bag :=
  ⟨clearFp g.fp slot, g.hk.set slot 0, g.hv.set slot 0⟩

def Bag.setVal (g : Bag) (slot : Fin 7) (v : Ptr) : Bag := { g with hv := g.hv.set slot v }

def occupiedMatches (mt : Matcher) (g : Bag) (k : UInt64) : UInt16 :=
  (findMatches mt (fpBytes g.fp) (h2 k).toUInt8).toUInt16 &&&
    (~~~(control g.fp).toUInt16 &&& 0x7f)

/-- The loop `while (p)`: each turn takes the lowest set bit of `p` and clears it, so seven
turns exhaust it. -/
def scanMatches (hk : Vector UInt64 7) (k : UInt64) : Nat → UInt16 → Option (Fin 7)
  | 0, _ => none
  | fuel + 1, p =>
    match ctz p.toNat with
    | none => none
    | some j =>
      if hk[j] = k then some j else scanMatches hk k fuel (p &&& ~~~(1 <<< j.val.toUInt16))

def findKey (mt : Matcher) (g : Bag) (k : UInt64) : Option (Fin 7 × Ptr) :=
  (scanMatches g.hk k 7 (occupiedMatches mt g k)).map fun j => (j, g.hv[j])

def findEmptySlot (g : Bag) : Option (Fin 7) := ctz (control g.fp).toNat

def findKeyOrAdd (mt : Matcher) (g : Bag) (k : UInt64) : Ptr ⊕ Option (Fin 7) :=
  match scanMatches g.hk k 7 (occupiedMatches mt g k) with
  | some j => .inl g.hv[j]
  | none => .inr (ctz (control g.fp).toNat)

/-- The walk of `__insert`: `i` is the number of the current bag and `bg` the first free
slot seen so far. -/
def insertScan (mt : Matcher) (k : UInt64) :
    List Bag → Nat → Option (Nat × Fin 7) → Ptr ⊕ Option (Nat × Fin 7)
  | [], _, bg => .inr bg
  | g :: gs, i, bg =>
    match findKeyOrAdd mt g k with
    | .inl val => .inl val
    | .inr slot => insertScan mt k gs (i + 1) (bg <|> slot.map fun s => (i, s))

def insertFresh (b : Hb) (k : UInt64) (v : Ptr) : Hb :=
  ⟨Bag.newz.store 0 k v :: b.head, b.nodes + 1, b.bags + 1⟩

def insert (mt : Matcher) (b : Hb) (k : UInt64) (v : Ptr) : Ptr × Hb :=
  match insertScan mt k b.head 0 none with
  | .inl val => (val, b)
  | .inr none => (0, insertFresh b k v)
  | .inr (some (i, slot)) =>
    (0, ⟨b.head.modify i fun g => g.store slot k v, b.nodes + 1, b.bags⟩)

def insertQuick (b : Hb) (k : UInt64) (v : Ptr) : Option Hb :=
  match b.head with
  | [] => some (insertFresh b k v)
  | g :: gs =>
    match findEmptySlot g with
    | none => some (insertFresh b k v)
    | some j =>
      -- assert(!g->hk[j])
      if g.hk[j] = 0 then some ⟨g.store j k v :: gs, b.nodes + 1, b.bags⟩ else none

def findx (mt : Matcher) (k : UInt64) : List Bag → Nat → Option (Nat × Fin 7 × Ptr)
  | [], _ => none
  | g :: gs, i =>
    match findKey mt g k with
    | some (j, val) => some (i, j, val)
    | none => findx mt k gs (i + 1)

/-- The occupied slots of a bag in the order in which `resize` visits them. -/
def Bag.slots (g : Bag) : List (UInt64 × Ptr) :=
  (List.finRange 7).filterMap fun (i : Fin 7) =>
    if (control g.fp).toNat.testBit i then none
    else if g.hk[i] = 0 then none else some (g.hk[i], g.hv[i])

def Hb.slots (b : Hb) : List (UInt64 × Ptr) := b.head.flatMap Bag.slots

def Ht.slots (h : Ht) : List (UInt64 × Ptr) := h.b.flatMap Hb.slots

/-- The locals of `resize`: the new bucket array and its statistics. -/
structure Rehash where
  b : List Hb
  maxbags : UInt64
  maxn : UInt64
  fill : UInt64

def rehashOne (n salt : UInt64) (r : Rehash) (p : UInt64 × Ptr) : Option Rehash :=
  let j := (hash p.1 n salt).toNat
  r.b[j]?.bind fun x => (insertQuick x p.1 p.2).map fun x =>
    { b := r.b.set j x
      maxbags := if x.bags.toUInt64 > r.maxbags then x.bags.toUInt64 else r.maxbags
      maxn := if x.nodes.toUInt64 > r.maxn then x.nodes.toUInt64 else r.maxn
      fill := if x.nodes = 1 then r.fill + 1 else r.fill }

def resize (salt : UInt64) (h : Ht) : Option Ht :=
  let n := h.n * 2
  (h.slots.foldlM (rehashOne n salt) ⟨List.replicate n.toNat Hb.newz, 0, 0, 0⟩).map fun r =>
    { h with salt := salt, n := n, b := r.b, bagmax := r.maxbags.toUInt32,
             maxn := r.maxn.toUInt32, fill := r.fill }

def htInit (size maxfill : UInt32) (salt : UInt64) : Ht :=
  let size := if size = 0 then 128
    else if size &&& (size - 1) ≠ 0 then (TypeUtils.nextPow2 size.toUInt64).toUInt32 else size
  let maxfill := if maxfill = 0 then 85 else maxfill
  { b := List.replicate size.toNat Hb.newz, n := size.toUInt64, salt := salt, fill := 0,
    maxfill := maxfill.toUInt64, nodes := 0, splits := 0, bagmax := 0, maxn := 0 }

/-- The percentage that the split test of `ht_probe` compares with `maxfill`. -/
def Ht.fpct (h : Ht) : UInt64 := h.fill * 100 / h.n

/-- The split test of `ht_probe`; `salt` is what `rand64` returns if the table doubles. -/
def split (salt : UInt64) (h : Ht) (b : Hb) (k : UInt64) : Option (Ht × Hb) :=
  if b.nodes = 1 then
    let h := { h with fill := h.fill + 1 }
    if h.fpct > h.maxfill then
      (resize salt { h with splits := h.splits + 1 }).bind fun h =>
        h.b[(hash k h.n h.salt).toNat]?.map fun b => (h, b)
    else some (h, b)
  else some (h, b)

def noteMax (h : Ht) (b : Hb) : Ht :=
  { h with bagmax := if b.bags > h.bagmax then b.bags else h.bagmax
           maxn := if b.nodes > h.maxn then b.nodes else h.maxn }

def htProbe (mt : Matcher) (salt : UInt64) (h : Ht) (k : UInt64) (v : Ptr) :
    Option (Ht × Ptr) :=
  let hh := (hash k h.n h.salt).toNat
  h.b[hh]?.bind fun b =>
    let r := insert mt b k v
    if r.1 ≠ 0 then some (h, r.1)
    else
      (split salt { h with b := h.b.set hh r.2, nodes := h.nodes + 1 } r.2 k).map fun p =>
        (noteMax p.1 p.2, 0)

/-- `ht_find`: `some v` is the result 1 with `v` stored through `p_ret`, `none` is 0. -/
def htFind (mt : Matcher) (h : Ht) (k : UInt64) : Option (Option Ptr) :=
  h.b[(hash k h.n h.salt).toNat]?.map fun b => (findx mt k b.head 0).map fun t => t.2.2

def htReplace (mt : Matcher) (h : Ht) (k : UInt64) (v : Ptr) : Option (Ht × Bool) :=
  let hh := (hash k h.n h.salt).toNat
  h.b[hh]?.map fun b =>
    match findx mt k b.head 0 with
    | none => (h, false)
    | some (i, slot, _) =>
      let b := { b with head := b.head.modify i fun g => g.setVal slot v }
      ({ h with b := h.b.set hh b }, true)

def htRemove (mt : Matcher) (h : Ht) (k : UInt64) : Option (Ht × Option Ptr) :=
  let hh := (hash k h.n h.salt).toNat
  h.b[hh]?.map fun b =>
    match findx mt k b.head 0 with
    | none => (h, none)
    | some (i, slot, val) =>
      let b := { b with head := b.head.modify i fun g => g.clear slot, nodes := b.nodes - 1 }
      ({ h with b := h.b.set hh b, nodes := h.nodes - 1 }, some val)

inductive Op
  | probe (salt k : UInt64) (v : Ptr)
  | find (k : UInt64)
  | replace (k : UInt64) (v : Ptr)
  | remove (k : UInt64)
  deriving DecidableEq, Repr

inductive Ret
  | value (v : Ptr)
  | found (v : Option Ptr)
  | replaced (b : Bool)
  deriving DecidableEq, Repr

def step (mt : Matcher) (h : Ht) : Op → Option (Ht × Ret)
  | .probe salt k v => (htProbe mt salt h k v).map fun p => (p.1, .value p.2)
  | .find k => (htFind mt h k).map fun r => (h, .found r)
  | .replace k v => (htReplace mt h k v).map fun p => (p.1, .replaced p.2)
  | .remove k => (htRemove mt h k).map fun p => (p.1, .found p.2)

def Op.key : Op → UInt64
  | .probe _ k _ => k
  | .find k => k
  | .replace k _ => k
  | .remove k => k

end PortableLib.FastHt
