import PortableLib.HashTab.Iter
import PortableLib.HashTab.Growth
import PortableLib.Lib.Cursor
import PortableLib.Lib.Qsort

/-! What iterators yield on a table that is left unchanged: `hash_table_iter_first`, then calls of
`hash_table_iter_next`, with `hash_table_iter_item` after each of them. -/

namespace PortableLib.HashTab
open List Chained Run Cursor Qsort

section Visits
variable {P : Policy} {tab : HashTable} {it : Iter} {l l' : List Ptr}

def firstCall (tab : HashTable) (it : Iter) : Option (Int × Option Iter) :=
  (hashTableIterFirst tab (some it)).map fun r => (r.1, r.2.1)

def nextCall (tab : HashTable) (s : Int × Option Iter) : Option (Int × Option Iter) :=
  (hashTableIterNext tab s.2).map fun r => (r.1, r.2.1)

def itemCall (s : Int × Option Iter) : Option (Int × Ptr) :=
  (hashTableIterItem s.2).map fun r => (s.1, r.1)

/-- The result of the first call or of the `k`th call of `next` after it, and the item then. -/
def visit (tab : HashTable) (it : Iter) (k : Nat) : Option (Int × Ptr) :=
  (walk (firstCall tab it) (nextCall tab) k).bind itemCall

def Yields (tab : HashTable) (it : Iter) (l : List Ptr) : Prop :=
  ∀ k ≤ l.length, visit tab it k = some (seen 0 eof 0 l k)

def YieldsJust (tab : HashTable) (it : Iter) (l : List Ptr) : Prop :=
  ∀ k, visit tab it k = some (seen 0 eof 0 l k)

theorem YieldsJust.yields (h : YieldsJust tab it l) : Yields tab it l := fun k _ => h k

theorem Yields.unique (h : Yields tab it l) (h' : Yields tab it l') : l = l' := by
  apply @eq_of_seen Int Ptr 0 eof 0 (by decide) l l' fun k => (visit tab it k).getD (0, 0)
  · intro k hk
    rw [h k hk, Option.getD_some]
  · intro k hk
    rw [h' k hk, Option.getD_some]

section Walks
variable {R : Int × Option Iter → List Ptr → Prop}
  (hitem : ∀ s l, R s l → itemCall s = some (seen 0 eof 0 l 0))
  (hfirst : ∃ s, firstCall tab it = some s ∧ R s l)
include hitem hfirst

theorem yields_of_walk (hnext : ∀ s a l, R s (a :: l) → ∃ s', nextCall tab s = some s' ∧ R s' l) :
    Yields tab it l := by
  intro k hk
  obtain ⟨s, hs, hR⟩ := walk_through hfirst hnext hk
  rw [visit, hs, Option.bind_some, hitem s _ hR, seen_drop]

theorem yieldsJust_of_walk
    (hnext : ∀ s l, R s l → ∃ s', nextCall tab s = some s' ∧ R s' l.tail) :
    YieldsJust tab it l := by
  intro k
  obtain ⟨s, hs, hR⟩ := walk_forever hfirst hnext k
  rw [visit, hs, Option.bind_some, hitem s _ hR, seen_drop]

end Walks
end Visits

section Bucket
variable {P : Policy} {tab : HashTable} {key : Ptr} {i j : Nat}

def HashTable.chain (tab : HashTable) (i : Nat) : List HashNode :=
  (tab.buckets[i]?.map HashBucket.head).getD []

/-- A bucket iterator of this key yields the items of the chain that a lookup searches, and with
them the item the lookup finds. -/
def WalksChain (P : Policy) (tab : HashTable) (key : Ptr) : Prop :=
  ∃ it ev, mkIter P tab true (.bucket key) = some (0, some it, ev) ∧
    Yields tab it ((tab.chain (tab.index (hashfunc P tab key))).map HashNode.data) ∧
    ∀ x tab' ev', hashTableLookup P tab key = some ((1, x), tab', ev') →
      ∃ k, visit tab it k = some (0, x)

theorem chain_eq {b : HashBucket} (hb : tab.buckets[i]? = some b) : tab.chain i = b.head := by
  rw [HashTable.chain, hb]
  rfl

def AtNode (i : Nat) (s : Int × Option Iter) (l : List Ptr) : Prop :=
  ∃ cur : List HashNode, s = (curCode cur, some (.bucket i cur)) ∧ l = cur.map HashNode.data

theorem curCode_headData (cur : List HashNode) :
    (curCode cur, headData cur) = seen 0 eof 0 (cur.map HashNode.data) 0 := by
  cases cur with
  | nil => rfl
  | cons p cur => rfl

theorem bucket_yields {b : HashBucket} (hb : tab.buckets[i]? = some b) (cur : List HashNode) :
    Yields tab (.bucket i cur) (b.head.map HashNode.data) := by
  apply yields_of_walk (R := AtNode i)
  · rintro s l ⟨cur, rfl, rfl⟩
    rw [← curCode_headData]
    rfl
  · refine ⟨_, ?_, b.head, rfl, rfl⟩
    rw [firstCall, hashTableIterFirst, iterBegin, hb]
    rfl
  · rintro s a l ⟨cur, rfl, hl⟩
    cases cur with
    | nil => cases hl
    | cons p cur => exact ⟨_, rfl, cur, rfl, (cons.inj hl).2⟩

theorem chains_agree_iff (hw : tab.WF P) (hi : i < tab.size) (hj : j < tab.size) :
    (tab.chain i).map HashNode.data = (tab.chain j).map HashNode.data ↔
      i = j ∨ tab.chain i = [] ∧ tab.chain j = [] := by
  rw [← hw.len] at hi hj
  have hbi := getElem?_eq_getElem hi
  have hbj := getElem?_eq_getElem hj
  rw [chain_eq hbi, chain_eq hbj]
  constructor
  · intro h
    cases hci : tab.buckets[i].head with
    | nil =>
      rw [hci, map_nil] at h
      exact Or.inr ⟨rfl, map_eq_nil_iff.mp h.symm⟩
    | cons p c =>
      -- the hash of an item, so its bucket, is a function of the item
      cases hcj : tab.buckets[j].head with
      | nil =>
        rw [hci, hcj] at h
        cases h
      | cons q d =>
        rw [hci, hcj, map_cons, map_cons] at h
        have hdata := (cons.inj h).1
        have hp : p ∈ tab.buckets[i].head := by
          rw [hci]
          exact mem_cons_self
        have hq : q ∈ tab.buckets[j].head := by
          rw [hcj]
          exact mem_cons_self
        have hhash : p.hash = q.hash := by
          rw [hw.hashed p (mem_nodes (getElem_mem hi) hp),
            hw.hashed q (mem_nodes (getElem_mem hj) hq), hdata]
        have hpi : tab.index p.hash = i := hw.placed i _ hbi p hp
        have hqj : tab.index q.hash = j := hw.placed j _ hbj q hq
        rw [hhash] at hpi
        exact Or.inl (hpi.symm.trans hqj)
  · rintro (rfl | ⟨hci, hcj⟩)
    · rfl
    · rw [hci, hcj]

theorem HashTable.WF.index_lt (hw : tab.WF P) (h : UInt32) : tab.index h < tab.size :=
  and_pred_lt hw.size_pos _

theorem index_hashfunc (P : Policy) (tab : HashTable) (key : Ptr) :
    tab.index (hashfunc P tab key) = tab.index tab.random ^^^ tab.index (P.hash key) := by
  rw [HashTable.index, hashfunc, UInt32.toNat_xor, Nat.and_xor_distrib_right]
  rfl

/-- A bucket iterator walks the chain of its key if and only if the randomizer does not matter for
this key. -/
theorem bucket_iter_walks_chain_iff (h : Reachable P tab) (key : Ptr) : WalksChain P tab key ↔
    tab.index tab.random = 0 ∨ tab.chain (tab.index (P.hash key)) = [] ∧
      tab.chain (tab.index (hashfunc P tab key)) = [] := by
  have hw := h.wf
  obtain ⟨b, hb⟩ := hw.bucket (P.hash key)
  obtain ⟨c, hc⟩ := hw.bucket (hashfunc P tab key)
  have hmk : mkIter P tab true (.bucket key) =
      some (0, some (.bucket (tab.index (P.hash key)) b.head), underLock) := by
    simp only [mkIter, mkIterBy, if_true, iterInit, bucketIterInit, hb, Option.map_some]
    rfl
  have hyields := bucket_yields hb b.head
  have hsame : tab.index tab.random = 0 ↔
      tab.index (P.hash key) = tab.index (hashfunc P tab key) := by
    rw [index_hashfunc]
    constructor
    · intro h0
      rw [h0, Nat.zero_xor]
    · intro heq
      have hcancel := congrArg (· ^^^ tab.index (P.hash key)) heq
      simpa only [Nat.xor_self, Nat.xor_assoc, Nat.xor_zero] using hcancel.symm
  rw [hsame, ← chains_agree_iff hw (hw.index_lt _) (hw.index_lt _)]
  constructor
  · rintro ⟨it, ev, hit, hchain, -⟩
    rw [hmk] at hit
    obtain rfl : Iter.bucket (tab.index (P.hash key)) b.head = it := by
      simpa only [Option.some.injEq, Prod.mk.injEq, true_and] using
        congrArg (fun r => r.2.1) (Option.some.inj hit)
    rw [chain_eq hb]
    exact hyields.unique hchain
  · intro hagree
    rw [chain_eq hb] at hagree
    rw [hagree] at hyields
    refine ⟨_, _, hmk, hyields, fun x tab' ev' hx => ?_⟩
    -- the item found is one of the chain
    rw [chain_eq hc] at hyields
    simp only [hashTableLookup, hc, Option.map_some] at hx
    split at hx
    · cases hx
    · cases hf : c.head.find? (isMatch P (hashfunc P tab key) key) with
      | none =>
        rw [hf] at hx
        cases hx
      | some p =>
        rw [hf] at hx
        have hdata : p.data = x := congrArg (fun r => r.1.2) (Option.some.inj hx)
        obtain ⟨k, hk, hget⟩ := mem_iff_getElem.mp (mem_map_of_mem (f := HashNode.data)
          (mem_of_find?_eq_some hf))
        refine ⟨k, ?_⟩
        rw [hyields k (Nat.le_of_lt hk), seen, if_pos hk, getD_eq_getElem _ _ hk, hget, hdata]

end Bucket

theorem bucket_iter_walks_chain_two :
    ∃ tab, Reachable nibblePolicy tab ∧
      (tab.chain (tab.index (hashfunc nibblePolicy tab 17))).map HashNode.data = [21, 17] ∧
      WalksChain nibblePolicy tab 17 := by
  have h : ∃ tab, Reachable nibblePolicy tab ∧ tab.index tab.random = 0 ∧
      (tab.chain (tab.index (hashfunc nibblePolicy tab 17))).map HashNode.data = [21, 17] :=
    ⟨_, (Reachable.new (show hashTableNew 2 40 4 = some _ from rfl)).calls
      [.insert ⟨some 64, true⟩ 17, .insert ⟨some 64, true⟩ 21] rfl, rfl, rfl⟩
  obtain ⟨tab, hreach, hrandom, hchain⟩ := h
  exact ⟨tab, hreach, hchain, (bucket_iter_walks_chain_iff hreach 17).mpr (Or.inl hrandom)⟩

/-- With an odd randomizer the only item is in the other of two buckets: it is looked up, but not
yielded. -/
theorem bucket_iter_misses_item :
    ∃ tab, Reachable nibblePolicy tab ∧ tab.items = [17] ∧
      (hashTableLookup nibblePolicy tab 17).map Prod.fst = some (1, 17) ∧
      ¬WalksChain nibblePolicy tab 17 := by
  refine ⟨_, (Reachable.new (show hashTableNew 1 40 5 = some _ from rfl)).calls
    [.insert ⟨some 64, true⟩ 17] rfl, rfl, rfl, ?_⟩
  rintro ⟨it, ev, hmk, hyields, -⟩
  cases hmk
  have hfirst := hyields 0 (Nat.zero_le _)
  revert hfirst
  decide

section Sorted
variable {P : Policy} {tab : HashTable} {qsort : Qsort} {nodes : List HashNode}

/-- Whatever `qsort` it is that sorts with the comparison it is given: a sorted iterator yields all
items, none of them before a smaller one, and then nothing more. -/
def YieldsSorted (P : Policy) (tab : HashTable) : Prop :=
  ∀ qsort, Sorts qsort → ∃ it ev l,
    mkIterBy qsort P tab true (.sorted true) = some (0, some it, ev) ∧ l ~ tab.items ∧
      l.Pairwise (fun x y => P.cmp x y ≤ 0) ∧ YieldsJust tab it l

/-- The comparison of the addresses of data fields arranges the nodes as their items are to be. -/
structure AddressesOrdered (P : Policy) (tab : HashTable) : Prop where
  consistent : Consistent (qsortCmp P) tab.nodes
  agree : ∀ p ∈ tab.nodes, ∀ q ∈ tab.nodes, qsortCmp P p q ≤ 0 → P.cmp p.data q.data ≤ 0

def AtIndex (nodes : List HashNode) (s : Int × Option Iter) (l : List Ptr) : Prop :=
  ∃ i ≤ nodes.length, s = (if i < nodes.length then 0 else eof,
    some (.sorted i nodes.length nodes)) ∧ l = (nodes.map HashNode.data).drop i

theorem sorted_yields (nodes : List HashNode) (i : Nat) :
    YieldsJust tab (.sorted i nodes.length nodes) (nodes.map HashNode.data) := by
  apply yieldsJust_of_walk (R := AtIndex nodes)
  · rintro s l ⟨i, hi, rfl, rfl⟩
    rw [seen_drop, seen, length_map, itemCall, hashTableIterItem, iterItem]
    by_cases hlt : i < nodes.length
    · simp only [if_pos hlt, getElem?_eq_getElem hlt, Option.map_some]
      rw [getD_eq_getElem _ _ (by rwa [length_map]), getElem_map]
    · simp only [if_neg hlt, Option.map_some]
      rw [getD_eq_default _ _ (by rw [length_map]; exact Nat.le_of_not_lt hlt)]
  · exact ⟨_, rfl, 0, Nat.zero_le _, rfl, rfl⟩
  · rintro s l ⟨i, hi, rfl, rfl⟩
    simp only [nextCall, hashTableIterNext, iterNext, tail_drop]
    by_cases hend : nodes.length ≤ i + 1
    · rw [if_pos hend]
      refine ⟨_, rfl, nodes.length, Nat.le_refl _, by rw [if_neg (Nat.lt_irrefl _)], ?_⟩
      rw [drop_eq_nil_of_le (by rwa [length_map]), drop_eq_nil_of_le (by rw [length_map])]
    · rw [if_neg hend]
      have hlt : i + 1 < nodes.length := Nat.lt_of_not_le hend
      exact ⟨_, rfl, i + 1, Nat.le_of_lt hlt, by rw [if_pos hlt], rfl⟩

theorem mkIter_sorted (hw : tab.WF P) (qsort : Qsort) :
    ∃ ev, mkIterBy qsort P tab true (.sorted true) =
      some (0, some (.sorted 0 tab.nodes.length
        (if 1 < tab.nodes.length then qsort (qsortCmp P) tab.nodes else tab.nodes)), ev) := by
  have hnodes := hw.nodes
  simp only [mkIterBy, if_true, iterInit, sortedIterInit, hnodes]
  by_cases h0 : tab.nodes.length = 0
  · rw [if_pos h0, h0, eq_nil_of_length_eq_zero h0, if_neg (by decide)]
    exact ⟨_, rfl⟩
  · rw [if_neg h0]
    exact ⟨_, rfl⟩

theorem YieldsSorted.addressesOrdered (h : YieldsSorted P tab) (hw : tab.WF P)
    (hcmp : Consistent P.cmp tab.items) (hmany : 1 < tab.nodes.length) :
    AddressesOrdered P tab := by
  have hresult : ∀ qsort, Sorts qsort → ∃ l, l ~ tab.items ∧
      l.Pairwise (fun x y => P.cmp x y ≤ 0) ∧
      YieldsJust tab (.sorted 0 tab.nodes.length (qsort (qsortCmp P) tab.nodes)) l := by
    intro qsort hq
    obtain ⟨it, ev, l, hit, hl⟩ := h qsort hq
    obtain ⟨ev', hmk⟩ := mkIter_sorted hw qsort
    rw [hmk, if_pos hmany] at hit
    obtain rfl := Option.some.inj (congrArg (fun r => r.2.1) (Option.some.inj hit))
    exact ⟨l, hl⟩
  have hcons : Consistent (qsortCmp P) tab.nodes := by
    -- on an inconsistent comparison, `qsort` may do anything
    by_contra hno
    obtain ⟨qsort, hq, hjunk⟩ := exists_sorts_junk ([] : List HashNode)
    obtain ⟨l, -, -, hyields⟩ := hresult qsort hq
    rw [hjunk _ _ hno] at hyields
    have hfirst := hyields 0
    have hnone : visit tab (.sorted 0 tab.nodes.length []) 0 = none := by
      rw [visit, walk, firstCall, hashTableIterFirst, iterBegin]
      simp only [Option.map_some, Option.bind_some, itemCall, hashTableIterItem, iterItem,
        if_pos (Nat.lt_trans Nat.zero_lt_one hmany)]
      rfl
    rw [hnone] at hfirst
    cases hfirst
  refine ⟨hcons, fun p hp q hq hle => ?_⟩
  by_contra hgt
  have hne : p ≠ q := by
    rintro rfl
    have hself := hcmp.swap p.data (mem_map_of_mem hp) p.data (mem_map_of_mem hp)
    omega
  -- these two may come out in the order of their addresses
  obtain ⟨qsort, hsort, hsub⟩ := exists_sorts_before hcons hp hq hne hle
  obtain ⟨l, hl, hpair, hyields⟩ := hresult qsort hsort
  have hlen : tab.nodes.length = (qsort (qsortCmp P) tab.nodes).length :=
    ((hsort _ _ hcons).1.length_eq).symm
  rw [hlen] at hyields
  rw [hyields.yields.unique (sorted_yields _ 0).yields] at hpair
  have hpq := hpair.sublist (hsub.map HashNode.data)
  rw [map_cons, map_cons, map_nil, pairwise_pair] at hpq
  exact hgt hpq

/-- A sorted iterator sorts if and only if the comparison, given the addresses of data fields, takes
them for the items in them; the comparison is not used for a single item. -/
theorem sorted_iter_sorts_iff (h : Reachable P tab) (hcmp : Consistent P.cmp tab.items) :
    YieldsSorted P tab ↔ tab.nodes.length ≤ 1 ∨ AddressesOrdered P tab := by
  have hw := h.wf
  constructor
  · intro hsorts
    by_cases hone : tab.nodes.length ≤ 1
    · exact Or.inl hone
    · exact Or.inr (hsorts.addressesOrdered hw hcmp (Nat.lt_of_not_le hone))
  · intro hcond qsort hq
    obtain ⟨ev, hmk⟩ := mkIter_sorted hw qsort
    by_cases hmany : 1 < tab.nodes.length
    · rcases hcond with hone | ⟨hcons, hagree⟩
      · exact absurd hmany (Nat.not_lt_of_le hone)
      obtain ⟨hperm, hpair⟩ := hq _ _ hcons
      rw [if_pos hmany, ← hperm.length_eq] at hmk
      refine ⟨_, ev, _, hmk, hperm.map _, ?_, sorted_yields _ 0⟩
      rw [pairwise_map]
      apply hpair.imp_of_mem
      intro p q hp hq hle
      exact hagree p (hperm.mem_iff.mp hp) q (hperm.mem_iff.mp hq) hle
    · rw [if_neg hmany] at hmk
      refine ⟨_, ev, _, hmk, Perm.refl _, ?_, sorted_yields _ 0⟩
      rw [HashTable.items]
      cases hnodes : tab.nodes with
      | nil => exact Pairwise.nil
      | cons p l =>
        rw [hnodes, length_cons] at hmany
        obtain rfl := eq_nil_of_length_eq_zero (Nat.eq_zero_of_not_pos fun h =>
          hmany (Nat.succ_lt_succ h))
        exact pairwise_singleton _ _

end Sorted

def plainPolicy : Policy where
  hash x := x.toUInt32
  cmp x y := x.toNat - y.toNat
  dtor := false

def twoItems (a b : Ptr) : HashTable :=
  ⟨[⟨[⟨b, 18, 18⟩], 1⟩, ⟨[⟨a, 17, 17⟩], 1⟩], 2, 80, 0, ⟨2, 2, 1, 0, 2, 0, 0, 0, 0⟩⟩

theorem twoItems_consistent (a b : Ptr) :
    Consistent plainPolicy.cmp (twoItems a b).items := by
  have h : Consistent plainPolicy.cmp [18, 17] := by
    constructor
    · simp only [forall_mem_cons, not_mem_nil, IsEmpty.forall_iff, implies_true, and_true]
      decide
    · simp only [forall_mem_cons, not_mem_nil, IsEmpty.forall_iff, implies_true, and_true]
      decide
  exact h

theorem sorted_iter_sorts_two : YieldsSorted plainPolicy (twoItems 64 96) := by
  have h : Reachable plainPolicy (twoItems 64 96) :=
    (Reachable.new (show hashTableNew 1 80 0 = some _ from rfl)).calls
      [.insert ⟨some 64, true⟩ 17, .insert ⟨some 96, true⟩ 18]
      (show _ = some (_, [.code 0, .code 0]) by decide)
  exact (sorted_iter_sorts_iff h (twoItems_consistent 64 96)).mpr
    (Or.inr ⟨⟨by decide, by decide⟩, by decide⟩)

/-- The greater of two items comes first, if its node has the lower address. -/
theorem sorted_iter_unsorted : Reachable plainPolicy (twoItems 96 64) ∧
    Consistent plainPolicy.cmp (twoItems 96 64).items ∧
    (∀ x y, plainPolicy.cmp x y = 0 → x = y) ∧ ¬YieldsSorted plainPolicy (twoItems 96 64) := by
  have h : Reachable plainPolicy (twoItems 96 64) :=
    (Reachable.new (show hashTableNew 1 80 0 = some _ from rfl)).calls
      [.insert ⟨some 96, true⟩ 17, .insert ⟨some 64, true⟩ 18]
      (show _ = some (_, [.code 0, .code 0]) by decide)
  refine ⟨h, twoItems_consistent 96 64, ?_, ?_⟩
  · intro x y h
    exact UInt64.toNat_inj.mp (Int.ofNat_inj.mp (Int.sub_eq_zero.mp h))
  · intro hsorts
    have hord := hsorts.addressesOrdered h.wf (twoItems_consistent 96 64) (by decide)
    exact absurd (hord.agree ⟨64, 18, 18⟩ (by decide) ⟨96, 17, 17⟩ (by decide)) (by decide)

end PortableLib.HashTab
