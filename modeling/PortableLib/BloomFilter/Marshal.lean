import PortableLib.BloomFilter.Filter
import PortableLib.Encdec
import PortableLib.Errno
import PortableLib.Lib.Image

/-! The marshalled form of a filter, `bloom_marshal.c`. The writer is given by its stores in
program order, the reader by its loads from the mapped file; a load or a store outside of it is a
fault. Doubles are carried as their 64 bits. Opening, sizing, mapping and renaming the file always
succeed. -/

namespace PortableLib.BloomFilter
open List Encdec Image

/-- `struct scalable_bloom` with its growth parameters. -/
structure ScaleFilter extends ScalableBloom where
  scale : UInt32
  r : UInt64
  deriving DecidableEq, Repr

inductive FilterType
  | counting
  | quick
  | scale
  deriving DecidableEq, Repr

def FilterType.byte : FilterType → UInt8
  | .counting => 0
  | .quick => 1
  | .scale => 2

def filterType (b : UInt8) : Option FilterType :=
  if b = 0 then some .counting else if b = 1 then some .quick else if b = 2 then some .scale
  else none

inductive Variant
  | counting (f : Bloom)
  | quick (f : Bloom)
  | scale (sb : ScaleFilter)
  deriving DecidableEq, Repr

def Variant.typ : Variant → FilterType
  | .counting _ => .counting
  | .quick _ => .quick
  | .scale _ => .scale

def Variant.levels : Variant → List Bloom
  | .counting f => [f]
  | .quick f => [f]
  | .scale sb => sb.bfa.take sb.len.toNat

/-- `struct Bloom` without its function pointers and its name. -/
structure Handle where
  n : UInt64
  e : UInt64
  filter : Variant
  deriving DecidableEq, Repr

inductive CkType
  | sha256
  | blake2b
  deriving DecidableEq, Repr

def CkType.byte : CkType → UInt8
  | .sha256 => 0
  | .blake2b => 1

def isValidCktyp (b : UInt8) : Option CkType :=
  if b = 0 then some .sha256 else if b = 1 then some .blake2b else none

/-- What lies outside of the library: the digests of libsodium, both of 32 bytes, the test
`fabs(a - b) > _EPSILON` on doubles, and which allocations succeed. -/
structure Platform where
  digest : CkType → List UInt8 → List UInt8
  length_digest : ∀ t bs, (digest t bs).length = 32
  exceeds : UInt64 → UInt64 → Bool
  exceeds_self : ∀ a, exceeds a a = false
  alloc : UInt64 → Bool

structure OffPair where
  hdroff : UInt64
  dataoff : UInt64
  deriving DecidableEq, Repr

def layout : UInt64 → List Bloom → List OffPair × UInt64
  | sz, [] => ([], sz)
  | sz, f :: fs =>
    let dataoff := TypeUtils.alignUp (sz + 40) 64
    let rest := layout (TypeUtils.alignUp (dataoff + f.bmsize) 64) fs
    (⟨sz, dataoff⟩ :: rest.1, rest.2)

def tableEnd : Variant → UInt64
  | .scale sb => TypeUtils.alignUp (64 + 16 + (sb.len * 8).toUInt64) 64
  | _ => TypeUtils.alignUp (64 + 16 + 8) 64

def calcMarshalSize (v : Variant) : List OffPair × UInt64 := layout (tableEnd v) v.levels

def magic : List UInt8 := [0x42, 0x4c, 0x4f, 0x4d]

def wrOffs : Nat → List OffPair → List (Nat × List UInt8)
  | _, [] => []
  | p, o :: os => (p, encLEu64 o.hdroff) :: wrOffs (p + 8) os

def wrhdr (h : Handle) (ck : CkType) (datasize : UInt64) (offs : List OffPair) :
    List (Nat × List UInt8) :=
  [(0, replicate 64 0), (0, magic), (4, [0]), (5, [h.filter.typ.byte]), (6, [0]), (7, [ck.byte]),
    (8, encLEu64 h.n), (16, encLEu64 h.e), (24, encLEu64 datasize)] ++
  match h.filter with
  | .scale sb => [(64, encLEu32 sb.len.toUInt64), (68, encLEu32 sb.scale.toUInt64),
      (72, encLEu64 sb.r)] ++ wrOffs 80 offs
  | _ => (64, encLEu32 1) :: wrOffs 80 (offs.take 1)

def wrfilter (o : OffPair) (b : Bloom) : List (Nat × List UInt8) :=
  let h := o.hdroff.toNat
  [(h, encLEu64 b.m), (h + 8, encLEu64 b.k), (h + 16, encLEu64 b.salt), (h + 24, encLEu64 b.size),
    (h + 32, encLEu64 b.bmsize), (o.dataoff.toNat, b.bitmap.take b.bmsize.toNat)]

/-- The bytes of the file that `Bloom_marshal` leaves behind. -/
def bloomMarshal (P : Platform) (h : Handle) : Option (List UInt8) :=
  let offs := (calcMarshalSize h.filter).1
  let datasize := (calcMarshalSize h.filter).2
  let stores := wrhdr h .sha256 datasize offs ++
    (offs.zip h.filter.levels).flatMap fun p => wrfilter p.1 p.2
  (writeAll (replicate (32 + datasize).toNat 0) stores).bind fun img =>
    writeAt img datasize.toNat (P.digest .sha256 (img.take datasize.toNat))

inductive Err
  | errno (e : Errno)
  | fault
  deriving DecidableEq, Repr

def require (c : Bool) (e : Errno) : Except Err Unit :=
  if c then .ok () else .error (.errno e)

def orElse {α : Type} (o : Option α) (e : Err) : Except Err α :=
  match o with
  | some a => .ok a
  | none => .error e

def rd (img : List UInt8) (p n : Nat) : Except Err (List UInt8) := orElse (readAt img p n) .fault

def rdU8 (img : List UInt8) (p : Nat) : Except Err UInt8 := orElse img[p]? .fault

def rdU32 (img : List UInt8) (p : Nat) : Except Err UInt32 :=
  (rd img p 4).map fun bs => (decLEu32 bs).toUInt32

def rdU64 (img : List UInt8) (p : Nat) : Except Err UInt64 := (rd img p 8).map decLEu64

structure Header where
  typ : FilterType
  n : UInt64
  e : UInt64
  len : UInt32
  scale : UInt32
  r : UInt64
  offs : List OffPair
  deriving DecidableEq, Repr

def rdOff (img : List UInt8) (sz : UInt64) (p : Nat) : Except Err OffPair := do
  let hdroff ← rdU64 img p
  let dataoff := TypeUtils.alignUp (hdroff + 40) 64
  require (hdroff < sz) .ebadf
  require (dataoff < sz) .ebadf
  pure ⟨hdroff, dataoff⟩

def rdOffs (img : List UInt8) (sz : UInt64) : Nat → Nat → Except Err (List OffPair)
  | _, 0 => pure []
  | p, n + 1 => do
    let o ← rdOff img sz p
    let os ← rdOffs img sz (p + 8) n
    pure (o :: os)

/-- The part of `rdhdr` that reads the directory of a scalable filter. -/
def rdDirScale (img : List UInt8) (sz : UInt64) :
    Except Err (UInt32 × UInt32 × UInt64 × List OffPair) := do
  let n ← rdU32 img 64
  let scale ← rdU32 img 68
  let r ← rdU64 img 72
  require (n ≤ 1048576) .e2big
  require ((n * 8).toUInt64 ≤ sz - 64 - 16) .ebadf
  let offs ← rdOffs img sz 80 n.toNat
  pure (n, scale, r, offs)

/-- The part of `rdhdr` that reads the directory of a filter with one level. -/
def rdDirSingle (img : List UInt8) (sz : UInt64) :
    Except Err (UInt32 × UInt32 × UInt64 × List OffPair) := do
  let n ← rdU32 img 64
  require (n = 1) .e2big
  let o ← rdOff img sz 80
  pure (n, 0, 0, [o])

def rdDir (typ : FilterType) (img : List UInt8) (sz : UInt64) :
    Except Err (UInt32 × UInt32 × UInt64 × List OffPair) :=
  if typ = .scale then rdDirScale img sz else rdDirSingle img sz

def rdhdr (img : List UInt8) (sz : UInt64) : Except Err Header := do
  require (64 + 16 ≤ sz) .ebadf
  let m ← rd img 0 4
  require (m = magic) .ebadf
  let ver ← rdU8 img 4
  require (ver = 0) .ebadf
  let t ← rdU8 img 5
  let typ ← orElse (filterType t) (.errno .ebadf)
  let hash ← rdU8 img 6
  require (hash = 0) .ebadf
  let n ← rdU64 img 8
  let e ← rdU64 img 16
  let datasize ← rdU64 img 24
  require (datasize = sz) .ebadf
  let d ← rdDir typ img sz
  pure ⟨typ, n, e, d.1, d.2.1, d.2.2.1, d.2.2.2⟩

/-- The filled-in `struct bloom` together with the result, which is an error if there is no memory
for the bitmap: it is then `NULL`. Where the bitmap stays in the mapped file, it ends with it. -/
def rdfilter (P : Platform) (dommap : Bool) (img : List UInt8) (o : OffPair) :
    Except Err (Bloom × Option Errno) := do
  let h := o.hdroff.toNat
  let m ← rdU64 img h
  let k ← rdU64 img (h + 8)
  let salt ← rdU64 img (h + 16)
  let size ← rdU64 img (h + 24)
  let bmsize ← rdU64 img (h + 32)
  if dommap then
    pure (⟨m, k, salt, (img.drop o.dataoff.toNat).take bmsize.toNat, size, bmsize⟩, none)
  else if P.alloc bmsize then do
    let bitmap ← rd img o.dataoff.toNat bmsize.toNat
    pure (⟨m, k, salt, bitmap, size, bmsize⟩, none)
  else pure (⟨m, k, salt, [], size, bmsize⟩, some .enomem)

def rdfilters (P : Platform) (dommap : Bool) (img : List UInt8) :
    List OffPair → Except Err (List Bloom)
  | [] => pure []
  | o :: os => do
    let f ← rdfilter P dommap img o
    require f.2.isNone .enomem
    let fs ← rdfilters P dommap img os
    pure (f.1 :: fs)

def rdVariant (P : Platform) (dommap : Bool) (img : List UInt8) (hd : Header) :
    Except Err Variant :=
  match hd.typ with
  | .scale => do
    let bfa ← rdfilters P dommap img hd.offs
    let cap := (TypeUtils.nextPow2 hd.len.toUInt64).toUInt32
    pure (.scale { bfa := bfa, len := hd.len, cap := cap, scale := hd.scale, r := hd.r })
  | .counting => do
    let o ← orElse hd.offs[0]? .fault
    let f ← rdfilter P dommap img o
    pure (.counting f.1)
  | .quick => do
    let o ← orElse hd.offs[0]? .fault
    let f ← rdfilter P dommap img o
    pure (.quick f.1)

/-- What `Bloom_unmarshal` makes of a file that consists of the bytes `img`. -/
def bloomUnmarshal (P : Platform) (dommap : Bool) (img : List UInt8) : Except Err Handle := do
  require (64 + 16 + 32 ≤ img.length) .eilseq
  let t ← rdU8 img 7
  let ck ← orElse (isValidCktyp t) (.errno .eilseq)
  let dsize := img.length - 32
  require (P.digest ck (img.take dsize) = img.drop dsize) .eilseq
  let hd ← rdhdr img (UInt64.ofNat dsize)
  let v ← rdVariant P dommap img hd
  pure ⟨hd.n, hd.e, v⟩

section Steps
variable {α β : Type} {c : Bool} {e : Errno} {img bs : List UInt8} {p n : Nat}

theorem ok_bind (a : α) (f : α → Except Err β) : ((.ok a : Except Err α) >>= f) = f a := rfl

theorem bind_eq_ok {x : Except Err α} {f : α → Except Err β} {b : β} :
    x >>= f = .ok b ↔ ∃ a, x = .ok a ∧ f a = .ok b := by
  cases x with
  | error e =>
    refine iff_of_false nofun ?_
    rintro ⟨a, ha, -⟩
    cases ha
  | ok a =>
    refine ⟨fun h => ⟨a, rfl, h⟩, ?_⟩
    rintro ⟨a', ha, h⟩
    rwa [Except.ok.inj ha]

theorem require_eq_ok {u : Unit} : require c e = .ok u ↔ c = true := by
  cases c with
  | false => exact iff_of_false nofun nofun
  | true => exact iff_of_true rfl rfl

theorem require_of {q : Prop} [Decidable q] (h : q) : require (decide q) e = .ok () := by
  rw [decide_eq_true h]
  rfl

theorem orElse_eq_ok {o : Option α} {a : α} {e : Err} : orElse o e = .ok a ↔ o = some a := by
  cases o with
  | none => exact iff_of_false nofun nofun
  | some b => exact ⟨fun h => congrArg some (Except.ok.inj h), fun h => by cases h; rfl⟩

theorem rd_eq_ok : rd img p n = .ok bs ↔ readAt img p n = some bs := orElse_eq_ok

theorem rdU64_eq_ok {v : UInt64} :
    rdU64 img p = .ok v ↔ ∃ bs, readAt img p 8 = some bs ∧ decLEu64 bs = v := by
  unfold rdU64 rd
  cases readAt img p 8 with
  | none => exact iff_of_false nofun (by rintro ⟨bs, h, -⟩; cases h)
  | some bs =>
    constructor
    · intro h
      exact ⟨bs, rfl, Except.ok.inj h⟩
    · rintro ⟨bs', h, rfl⟩
      rw [Option.some.inj h]
      rfl

theorem rdU32_eq_ok {v : UInt32} :
    rdU32 img p = .ok v ↔ ∃ bs, readAt img p 4 = some bs ∧ (decLEu32 bs).toUInt32 = v := by
  unfold rdU32 rd
  cases readAt img p 4 with
  | none => exact iff_of_false nofun (by rintro ⟨bs, h, -⟩; cases h)
  | some bs =>
    constructor
    · intro h
      exact ⟨bs, rfl, Except.ok.inj h⟩
    · rintro ⟨bs', h, rfl⟩
      rw [Option.some.inj h]
      rfl

end Steps

def bloomEq (a b : Bloom) : Bool :=
  a.m = b.m && a.k = b.k && a.salt = b.salt && a.size = b.size && a.bmsize = b.bmsize &&
    a.bitmap.take a.bmsize.toNat = b.bitmap.take a.bmsize.toNat

def levelsEq : Nat → List Bloom → List Bloom → Bool
  | 0, _, _ => true
  | n + 1, a :: as, b :: bs => bloomEq a b && levelsEq n as bs
  | _ + 1, _, _ => false

def scaledBloomEq (P : Platform) (a b : ScaleFilter) : Bool :=
  a.len = b.len && a.scale = b.scale && !P.exceeds a.r b.r && levelsEq a.len.toNat a.bfa b.bfa

/-- `Bloom_eq`. -/
def handleEq (P : Platform) (a b : Handle) : Bool :=
  match a.filter, b.filter with
  | .scale x, .scale y => scaledBloomEq P x y
  | .counting x, .counting y => bloomEq x y
  | .quick x, .quick y => bloomEq x y
  | _, _ => false

end PortableLib.BloomFilter
