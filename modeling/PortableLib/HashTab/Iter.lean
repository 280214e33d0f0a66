import Mathlib.Algebra.Ring.Int.Defs
import PortableLib.HashTab.Table

/-! The iterators of `hashtab_iter.c`. An iterator keeps the chain from its current node on; the
header leaves its use undefined once the table has changed. A `NULL` dereference is `none`. -/

namespace PortableLib.HashTab

def eof : Int := -1

/-- The iterator with the variant of its union that its `op` table uses. The current node is the
head of `cur`, and `[]` is `NULL`. -/
inductive Iter
  | vanilla (bucket : Int32) (cur : List HashNode)
  | sorted (index max : Nat) (nodes : List HashNode)
  | bucket (i : Nat) (cur : List HashNode)
  deriving DecidableEq, Repr

def Iter.atChainEnd : Iter → Bool
  | .bucket _ [] => true
  | _ => false

def curCode (cur : List HashNode) : Int := if cur = [] then eof else 0

/-- The search of `find_next_node` through the buckets from number `i` on. -/
def firstChain : Nat → List HashBucket → Option (Nat × List HashNode)
  | _, [] => none
  | i, b :: bs => if b.head = [] then firstChain (i + 1) bs else some (i, b.head)

/-- `find_next_node` for an iterator whose current node is `NULL`. The bucket number is kept in an
`int`. -/
def findNextNode (tab : HashTable) (bucket : Int32) (i : Nat) : Int32 × List HashNode :=
  match firstChain i (tab.buckets.drop i) with
  | some (j, cur) => (Int32.ofNat j, cur)
  | none => (bucket, [])

def sizeT (n : Int32) : Nat := (n.toInt % 2 ^ 64).toNat

/-- The library's `qsort`: what becomes of an array under a comparison of its elements. -/
abbrev Qsort := (HashNode → HashNode → Int) → List HashNode → List HashNode

def qsortCmp (P : Policy) (p q : HashNode) : Int := P.cmp p.dataAddr q.dataAddr

/-- `sorted_iter_init` with a given `qsort`; `ok` tells whether the node array is allocated. -/
def sortedIterInit (qsort : Qsort) (P : Policy) (tab : HashTable) (ok : Bool) :
    Option (Iter × List Event) :=
  if tab.stats.nodes = 0 then some (.sorted 0 0 [], [.acquire .table, .release .table])
  else if ok then
    let nodes := tab.buckets.flatMap HashBucket.head
    some (.sorted 0 tab.stats.nodes
        (if tab.stats.nodes > 1 then qsort (qsortCmp P) nodes else nodes),
      .acquire .table :: sweepEvents tab.size ++ [.release .table])
  else none

/-- A `qsort` that keeps the order of equal elements. -/
def stableSort : Qsort := fun cmp nodes => nodes.mergeSort fun p q => cmp p q ≤ 0

/-- `bucket_iter_init` hashes the key without the table's randomizer. -/
def bucketIterInit (P : Policy) (tab : HashTable) (key : Ptr) : Option (Iter × List Event) :=
  let i := tab.index (P.hash key)
  tab.buckets[i]?.map fun b => (.bucket i b.head, [])

inductive IterKind
  | vanilla
  | sorted (ok : Bool)
  | bucket (key : Ptr)
  deriving DecidableEq, Repr

/-- The `init` entry of the iterator's `op` table. -/
def iterInit (qsort : Qsort) (P : Policy) (tab : HashTable) :
    IterKind → Option (Iter × List Event)
  | .vanilla => some (.vanilla 0 [], [])
  | .sorted ok => sortedIterInit qsort P tab ok
  | .bucket key => bucketIterInit P tab key

/-- `_mk_iter`: result code, new iterator and events; `ok` tells whether it is allocated. -/
def mkIterBy (qsort : Qsort) (P : Policy) (tab : HashTable) (ok : Bool) (kind : IterKind) :
    Option (Int × Option Iter × List Event) :=
  if ok then
    (iterInit qsort P tab kind).map fun r =>
      (0, some r.1, .acquire .table :: r.2 ++ [.release .table])
  else some (-Errno.enomem.code, none, [.acquire .table, .release .table])

def mkIter (P : Policy) (tab : HashTable) (ok : Bool) (kind : IterKind) :
    Option (Int × Option Iter × List Event) :=
  mkIterBy stableSort P tab ok kind

def iterBegin (tab : HashTable) : Iter → Option (Int × Iter)
  | .vanilla _ _ =>
    let r := findNextNode tab (-1) 0
    some (curCode r.2, .vanilla r.1 r.2)
  | .sorted _ max nodes => some (if 0 < max then 0 else eof, .sorted 0 max nodes)
  | .bucket i _ => tab.buckets[i]?.map fun b => (curCode b.head, .bucket i b.head)

def iterNext (tab : HashTable) : Iter → Option (Int × Iter)
  | .vanilla bucket cur =>
    if cur.tail ≠ [] then some (0, .vanilla bucket cur.tail)
    else
      let r := findNextNode tab bucket (sizeT (bucket + 1))
      some (curCode r.2, .vanilla r.1 r.2)
  | .sorted index max nodes =>
    if max ≤ index + 1 then some (eof, .sorted max max nodes)
    else some (0, .sorted (index + 1) max nodes)
  | .bucket i cur =>
    match cur with
    | [] => none
    | _ :: cur => some (curCode cur, .bucket i cur)

def headData (cur : List HashNode) : Ptr := (cur.head?.map HashNode.data).getD 0

def iterItem : Iter → Option Ptr
  | .vanilla _ cur => some (headData cur)
  | .sorted index max nodes => if index < max then nodes[index]?.map HashNode.data else some 0
  | .bucket _ cur => some (headData cur)

def underLock : List Event := [.acquire .table, .release .table]

/-- `hash_table_iter_first`; a `NULL` iterator is refused without a lock. -/
def hashTableIterFirst (tab : HashTable) : Option Iter → Option (Int × Option Iter × List Event)
  | none => some (-Errno.einval.code, none, [])
  | some it => (iterBegin tab it).map fun r => (r.1, some r.2, underLock)

def hashTableIterNext (tab : HashTable) : Option Iter → Option (Int × Option Iter × List Event)
  | none => some (-Errno.einval.code, none, [])
  | some it => (iterNext tab it).map fun r => (r.1, some r.2, underLock)

def hashTableIterItem : Option Iter → Option (Ptr × List Event)
  | none => some (0, [])
  | some it => (iterItem it).map fun p => (p, underLock)

/-- `hash_table_iter_delete`: the `end` entries only reset and free the iterator. -/
def hashTableIterDelete : Option Iter → List Event
  | none => []
  | some _ => underLock

end PortableLib.HashTab
