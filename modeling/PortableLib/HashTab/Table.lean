import PortableLib.Errno
import Mathlib.Data.List.Basic
import Mathlib.Algebra.Ring.Nat

/-! The chained hash table of `hashtab.c`. Every operation also returns the sequence of lock,
unlock and destructor calls it makes. A failed `assert` is `none`. -/

namespace PortableLib.HashTab

/-- `void *`; `0` is `NULL`. -/
abbrev Ptr := UInt64

structure HashNode where
  addr : Ptr
  hash : UInt32
  data : Ptr
  deriving DecidableEq, Repr

/-- `&p->data`: the field follows an 8-byte link and a padded 4-byte hash. -/
def HashNode.dataAddr (p : HashNode) : Ptr := p.addr + 16

structure HashBucket where
  head : List HashNode
  count : Nat
  deriving DecidableEq, Repr

def HashBucket.zero : HashBucket := ⟨[], 0⟩

structure Stat where
  nodes : Nat
  fill : Nat
  maxchainlen : Nat
  splits : Int32
  inserts : Int32
  lookups : Int32
  failedLookups : Int32
  replaces : Int32
  deletes : Int32
  deriving DecidableEq, Repr

structure Policy where
  hash : Ptr → UInt32
  cmp : Ptr → Ptr → Int
  dtor : Bool

structure HashTable where
  buckets : List HashBucket
  size : Nat
  fillmax : Nat
  random : UInt32
  stats : Stat
  deriving DecidableEq, Repr

inductive Lock
  | table
  | bucket (i : Nat)
  deriving DecidableEq, Repr

inductive Event
  | acquire (l : Lock)
  | release (l : Lock)
  | dtor (p : Ptr)
  deriving DecidableEq, Repr

structure Mem where
  node : Option Ptr
  buckets : Bool
  deriving DecidableEq, Repr

def hashfunc (P : Policy) (tab : HashTable) (key : Ptr) : UInt32 := tab.random ^^^ P.hash key

/-- `hash & (tab->size - 1)`. -/
def HashTable.index (tab : HashTable) (hash : UInt32) : Nat := hash.toNat &&& (tab.size - 1)

def Stat.zero : Stat := ⟨0, 0, 0, 0, 0, 0, 0, 0, 0⟩

/-- `hash_table_new` with successful allocations; `random` is the draw of `arc4random`. The
shift `1 << i` is of an `int`, so exponents above 30 are undefined. -/
def hashTableNew (logsize fillmax : Nat) (random : UInt32) : Option HashTable :=
  let i := if logsize = 0 ∨ 64 ≤ logsize then 10 else logsize
  if i ≤ 30 then
    some { buckets := List.replicate (2 ^ i) HashBucket.zero, size := 2 ^ i,
           fillmax := if fillmax = 0 ∨ 100 ≤ fillmax then 80 else fillmax,
           random := random, stats := Stat.zero }
  else none

def isMatch (P : Policy) (hash : UInt32) (key : Ptr) (e : HashNode) : Bool :=
  e.hash = hash && P.cmp key e.data = 0

inductive Mode
  | nodup
  | replace
  | probe
  deriving DecidableEq, Repr

def dtorEvents (P : Policy) (p : Ptr) : List Event := if P.dtor then [.dtor p] else []

structure Resize where
  buckets : List HashBucket
  fill : Nat
  maxchainlen : Nat

def moveNode (newsize : Nat) (r : Resize) (p : HashNode) : Option Resize :=
  let j := p.hash.toNat &&& (newsize - 1)
  r.buckets[j]?.map fun b =>
    let b : HashBucket := ⟨p :: b.head, b.count + 1⟩
    { buckets := r.buckets.set j b
      maxchainlen := if b.count > r.maxchainlen then b.count else r.maxchainlen
      fill := if b.count = 1 then r.fill + 1 else r.fill }

def moveBucket (newsize : Nat) (r : Resize) (b : HashBucket) : Option Resize :=
  b.head.foldlM (moveNode newsize) r

def sweepEvents (n : Nat) : List Event :=
  (List.range n).flatMap fun i => [.acquire (.bucket i), .release (.bucket i)]

def resize (mem : Mem) (tab : HashTable) : Option (Int × HashTable × List Event) :=
  if mem.buckets then
    let newsize := tab.size * 2
    (tab.buckets.foldlM (moveBucket newsize)
        ⟨List.replicate newsize HashBucket.zero, 0, 0⟩).map fun r =>
      (0, { tab with buckets := r.buckets, size := newsize,
                     stats := { tab.stats with splits := tab.stats.splits + 1,
                                               maxchainlen := r.maxchainlen, fill := r.fill } },
        sweepEvents tab.size)
  else some (-Errno.enomem.code, tab, [])

def grow (mem : Mem) (tab : HashTable) (b : HashBucket) : Option (Int × HashTable × List Event) :=
  if b.count = 1 then
    let tab := { tab with stats := { tab.stats with fill := tab.stats.fill + 1 } }
    if tab.stats.fill * 100 / (tab.size + 1) > tab.fillmax then resize mem tab
    else some (0, tab, [])
  else some (0, tab, [])

/-- Result code, item handed back through `p_data`, table and events. -/
abbrev InsertResult := Int × Ptr × HashTable × List Event

/-- The collision branch: it leaves by `goto _done` with the bucket lock still held. -/
def collide (P : Policy) (tab : HashTable) (i : Nat) (b : HashBucket) (hash : UInt32) (data : Ptr)
    (e : HashNode) : Mode → InsertResult
  | .nodup => (-Errno.eexist.code, e.data, tab, [.acquire (.bucket i)])
  | .replace =>
    let head := b.head.modify (b.head.findIdx (isMatch P hash data)) fun e =>
      { e with data := data }
    (0, e.data,
      { tab with buckets := tab.buckets.set i { b with head := head },
                 stats := { tab.stats with replaces := tab.stats.replaces + 1 } },
      .acquire (.bucket i) :: dtorEvents P e.data)
  | .probe => (0, e.data, tab, [.acquire (.bucket i)])

def link (tab : HashTable) (i : Nat) (b : HashBucket) (e : HashNode) : HashTable × HashBucket :=
  let b : HashBucket := ⟨e :: b.head, b.count + 1⟩
  ({ tab with
      buckets := tab.buckets.set i b
      stats := { tab.stats with
        inserts := tab.stats.inserts + 1
        nodes := tab.stats.nodes + 1
        maxchainlen :=
          if b.count > tab.stats.maxchainlen then b.count else tab.stats.maxchainlen } },
    b)

def insertInternal (P : Policy) (mem : Mem) (tab : HashTable) (data : Ptr) (op : Mode) :
    Option InsertResult :=
  let hash := hashfunc P tab data
  let i := tab.index hash
  tab.buckets[i]?.bind fun b =>
    match b.head.find? (isMatch P hash data) with
    | some e => some (collide P tab i b hash data e op)
    | none =>
      match mem.node with
      | none => some (-Errno.enomem.code, data, tab, [.acquire (.bucket i)])
      | some addr =>
        let t := link tab i b ⟨addr, hash, data⟩
        (grow mem t.1 t.2).map fun r =>
          (r.1, data, r.2.1,
            [.acquire (.bucket i), .release (.bucket i), .acquire .table] ++ r.2.2 ++
              [.release .table])

def hashTableInsert (P : Policy) (mem : Mem) (tab : HashTable) (data : Ptr) :
    Option (Int × HashTable × List Event) :=
  if data = 0 then some (-Errno.einval.code, tab, [])
  else (insertInternal P mem tab data .nodup).map fun r => (r.1, r.2.2)

def hashTableReplace (P : Policy) (mem : Mem) (tab : HashTable) (data : Ptr) :
    Option (Int × HashTable × List Event) :=
  if data = 0 then some (-Errno.einval.code, tab, [])
  else (insertInternal P mem tab data .replace).map fun r => (r.1, r.2.2)

def hashTableProbe (P : Policy) (mem : Mem) (tab : HashTable) (data : Ptr) :
    Option (Ptr × HashTable × List Event) :=
  if data = 0 then some (0, tab, [])
  else (insertInternal P mem tab data .probe).map fun r => (if r.1 = 0 then r.2.1 else 0, r.2.2)

def hashTableLookup (P : Policy) (tab : HashTable) (key : Ptr) :
    Option ((Int × Ptr) × HashTable × List Event) :=
  if key = 0 then some ((-Errno.einval.code, 0), tab, [])
  else
    let hash := hashfunc P tab key
    let i := tab.index hash
    tab.buckets[i]?.map fun b =>
      let events := [.acquire (.bucket i), .release (.bucket i)]
      match b.head.find? (isMatch P hash key) with
      | some p =>
        let st := { tab.stats with
          lookups := tab.stats.lookups + 1
          failedLookups := if p.data = 0 then tab.stats.failedLookups + 1
            else tab.stats.failedLookups }
        ((1, p.data), { tab with stats := st }, events)
      | none =>
        ((0, 0), { tab with stats := { tab.stats with
          failedLookups := tab.stats.failedLookups + 1 } }, events)

def removeNode (st : Stat) (count : Nat) (chain : List HashNode) : Option (Stat × Nat) :=
  let st := { st with deletes := st.deletes + 1, nodes := st.nodes - 1 }
  let count := count - 1
  if count = 0 then
    -- assert(!SL_FIRST(&b->head))
    if chain = [] then some ({ st with fill := st.fill - 1 }, count) else none
  else
    -- assert(SL_FIRST(&b->head))
    if chain ≠ [] then some (st, count) else none

/-- The unlinking loops: `kept` is the part of the chain before `p_next`. The last component
holds the removed nodes in order. -/
def unlinkIf (gone : HashNode → Bool) : List HashNode → List HashNode → Stat → Nat →
    Option (List HashNode × Stat × Nat × List HashNode)
  | kept, [], st, count => some (kept, st, count, [])
  | kept, p :: rest, st, count =>
    if gone p then
      (removeNode st count (kept ++ rest)).bind fun q =>
        (unlinkIf gone kept rest q.1 q.2).map fun r => (r.1, r.2.1, r.2.2.1, p :: r.2.2.2)
    else unlinkIf gone (kept ++ [p]) rest st count

def unlinkEvents (P : Policy) (i : Nat) (gone : List HashNode) : List Event :=
  .acquire (.bucket i) :: (gone.flatMap fun p => dtorEvents P p.data) ++ [.release (.bucket i)]

/-- Result code and the item stored through `p_val`, if any. -/
def hashTableRemove (P : Policy) (tab : HashTable) (key : Ptr) :
    Option ((Int × Option Ptr) × HashTable × List Event) :=
  if key = 0 then some ((-Errno.einval.code, none), tab, [])
  else
    let hash := hashfunc P tab key
    let i := tab.index hash
    tab.buckets[i]?.bind fun b =>
      (unlinkIf (isMatch P hash key) [] b.head tab.stats b.count).map fun r =>
        let gone := r.2.2.2
        ((if gone = [] then -Errno.enoent.code else 0, gone.getLast?.map HashNode.data),
          { tab with buckets := tab.buckets.set i ⟨r.1, r.2.2.1⟩, stats := r.2.1 },
          unlinkEvents P i gone)

/-- The loop of `hash_table_remove_if` over the buckets from number `i` on: buckets, number of
removed nodes and events. The predicate is given the address of the node's data field. -/
def removeIfLoop (P : Policy) (pred : Ptr → Bool) : Nat → List HashBucket → Stat → Int32 →
    Option (List HashBucket × Stat × Int32 × List Event)
  | _, [], st, n => some ([], st, n, [])
  | i, b :: bs, st, n =>
    (unlinkIf (fun p => pred p.dataAddr) [] b.head st b.count).bind fun r =>
      let gone := r.2.2.2
      (removeIfLoop P pred (i + 1) bs r.2.1 (n + Int32.ofNat gone.length)).map fun q =>
        (⟨r.1, r.2.2.1⟩ :: q.1, q.2.1, q.2.2.1, unlinkEvents P i gone ++ q.2.2.2)

def hashTableRemoveIf (P : Policy) (tab : HashTable) (pred : Ptr → Bool) :
    Option (Int32 × HashTable × List Event) :=
  (removeIfLoop P pred 0 tab.buckets tab.stats 0).map fun r =>
    (r.2.2.1, { tab with buckets := r.1, stats := r.2.1 },
      .acquire .table :: r.2.2.2 ++ [.release .table])

def hashTableApply (tab : HashTable) : List Ptr × List Event :=
  (tab.buckets.flatMap fun b => b.head.map HashNode.data,
    .acquire .table :: sweepEvents tab.buckets.length ++ [.release .table])

def hashTableStats (tab : HashTable) : (Stat × Nat) × List Event :=
  ((tab.stats, tab.size), [.acquire .table, .release .table])

end PortableLib.HashTab
