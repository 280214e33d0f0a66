import Mathlib.Data.Nat.Find
import PortableLib.HashTab.Iteration

/-! The unsorted iterator. It goes through the buckets in order and keeps the number of the bucket
it is in as an `int`, of which the search for the next node makes a `size_t`. -/

namespace PortableLib.HashTab
open List Chained Cursor

section Search
variable {P : Policy} {tab : HashTable} {i j : Nat}

def HashTable.nodesFrom (tab : HashTable) (i : Nat) : List HashNode :=
  entries HashBucket.head (tab.buckets.drop i)

theorem nodesFrom_succ (tab : HashTable) (i : Nat) :
    tab.nodesFrom i = tab.chain i ++ tab.nodesFrom (i + 1) := by
  by_cases hi : i < tab.buckets.length
  · rw [HashTable.nodesFrom, drop_eq_getElem_cons hi, chain_eq (getElem?_eq_getElem hi)]
    rfl
  · have hnone : tab.buckets[i]? = none := getElem?_eq_none (Nat.le_of_not_lt hi)
    have hend := Nat.le_of_not_lt hi
    rw [HashTable.nodesFrom, HashTable.nodesFrom, drop_eq_nil_of_le hend,
      drop_eq_nil_of_le (Nat.le_succ_of_le hend), HashTable.chain, hnone]
    rfl

theorem nodesFrom_suffix (tab : HashTable) (h : i ≤ j) : tab.nodesFrom j <:+ tab.nodesFrom i := by
  induction j, h using Nat.le_induction with
  | base => exact suffix_refl _
  | succ j _ ih =>
    have hstep : tab.nodesFrom (j + 1) <:+ tab.nodesFrom j := by
      rw [nodesFrom_succ tab j]
      exact suffix_append _ _
    exact hstep.trans ih

theorem nodesFrom_eq_nil_iff : tab.nodesFrom i = [] ↔ ∀ j ≥ i, tab.chain j = [] := by
  constructor
  · intro h j hj
    have hsuffix := nodesFrom_suffix tab hj
    rw [h, suffix_nil, nodesFrom_succ] at hsuffix
    exact (append_eq_nil_iff.mp hsuffix).1
  · intro h
    rw [HashTable.nodesFrom, entries, flatMap_eq_nil_iff]
    intro b hb
    obtain ⟨k, hk⟩ := getElem?_of_mem hb
    rw [getElem?_drop] at hk
    rw [← chain_eq hk]
    exact h _ (Nat.le_add_right _ _)

theorem chain_eq_nil_of_le (hw : tab.WF P) (hi : 2 ^ 32 ≤ i) : tab.chain i = [] := by
  cases hb : tab.buckets[i]? with
  | none => rw [HashTable.chain, hb]; rfl
  | some b =>
    rw [chain_eq hb, eq_nil_iff_forall_not_mem]
    intro p hp
    exact absurd (hw.bucket_lt hb hp) (Nat.not_lt_of_le hi)

theorem nodesFrom_of_size_le (hw : tab.WF P) (hi : tab.size ≤ i) : tab.nodesFrom i = [] := by
  rw [HashTable.nodesFrom, drop_eq_nil_of_le (hw.len.trans_le hi)]
  rfl

theorem firstChain_spec (bs : List HashBucket) (i : Nat) :
    (firstChain i bs = none ∧ entries HashBucket.head bs = []) ∨
      ∃ k b, firstChain i bs = some (i + k, b.head) ∧ bs[k]? = some b ∧ b.head ≠ [] ∧
        entries HashBucket.head bs = entries HashBucket.head (bs.drop k) := by
  induction bs generalizing i with
  | nil => exact Or.inl ⟨rfl, rfl⟩
  | cons b bs ih =>
    by_cases hb : b.head = []
    · have hent : entries HashBucket.head (b :: bs) = entries HashBucket.head bs := by
        rw [entries, flatMap_cons, hb, nil_append]
        rfl
      rw [firstChain, if_pos hb, hent]
      rcases ih (i + 1) with ⟨hnone, hnil⟩ | ⟨k, c, hsome, hk, hc, hdrop⟩
      · exact Or.inl ⟨hnone, hnil⟩
      · exact Or.inr ⟨k + 1, c, by rw [hsome, Nat.add_right_comm, Nat.add_assoc], hk, hc, hdrop⟩
    · rw [firstChain, if_neg hb]
      exact Or.inr ⟨0, b, rfl, rfl, hb, rfl⟩

theorem findNextNode_spec (tab : HashTable) (bucket : Int32) (i : Nat) :
    (findNextNode tab bucket i = (bucket, []) ∧ tab.nodesFrom i = []) ∨
      ∃ j ≥ i, findNextNode tab bucket i = (Int32.ofNat j, tab.chain j) ∧ tab.chain j ≠ [] ∧
        tab.nodesFrom i = tab.nodesFrom j := by
  rw [findNextNode]
  rcases firstChain_spec (tab.buckets.drop i) i with ⟨hnone, hnil⟩ | ⟨k, b, hsome, hk, hb, hdrop⟩
  · rw [hnone]
    exact Or.inl ⟨rfl, hnil⟩
  · rw [getElem?_drop] at hk
    rw [drop_drop] at hdrop
    rw [hsome, ← chain_eq hk]
    exact Or.inr ⟨i + k, Nat.le_add_right i k, rfl, by rwa [chain_eq hk], hdrop⟩

theorem findNextNode_eq_nil_iff (bucket : Int32) :
    (findNextNode tab bucket i).2 = [] ↔ tab.nodesFrom i = [] := by
  rcases findNextNode_spec tab bucket i with ⟨hfind, hnil⟩ | ⟨j, -, hfind, hj, hnodes⟩
  · rw [hfind, hnil]
  · rw [hfind, hnodes, nodesFrom_succ, append_eq_nil_iff]
    exact iff_of_false hj fun h => hj h.1

end Search

/-! ## The number of the next bucket -/

theorem toInt_succ (i : Nat) : (Int32.ofNat i + 1).toInt = ((i + 1 : Nat) : Int).bmod (2 ^ 32) := by
  have h : Int32.ofNat i + 1 = Int32.ofNat (i + 1) := (Int32.ofNat_add i 1).symm
  rw [h, Int32.toInt_ofNat']
  rfl

theorem sizeT_succ_of_lt {i : Nat} (h : i < 2 ^ 31 - 1) : sizeT (Int32.ofNat i + 1) = i + 1 := by
  rw [sizeT, toInt_succ, Int.bmod_def]
  omega

theorem le_sizeT_succ {i : Nat} (h : 2 ^ 31 - 1 ≤ i) (hlt : i < 2 ^ 32 - 1) :
    2 ^ 63 ≤ sizeT (Int32.ofNat i + 1) := by
  rw [sizeT, toInt_succ, Int.bmod_def]
  omega

theorem sizeT_succ_max : sizeT (Int32.ofNat (2 ^ 32 - 1) + 1) = 0 := by
  rw [sizeT, toInt_succ, Int.bmod_def]
  omega

/-! ## The walk -/

section Walk
variable {P : Policy} {tab : HashTable} {bucket : Int32} {cur : List HashNode} {i : Nat}

/-- An unsorted iterator on this table, whatever it was used for before, yields every item once and
then nothing more. -/
def YieldsAll (tab : HashTable) : Prop :=
  ∀ bucket cur, ∃ l, l ~ tab.items ∧ YieldsJust tab (.vanilla bucket cur) l

/-- Among the buckets in use at most the last has a number whose successor is not an `int`, and the
successor of its number is not taken for zero. -/
structure NumbersFit (tab : HashTable) : Prop where
  inner : ∀ i j, i < j → tab.chain i ≠ [] → tab.chain j ≠ [] → i < 2 ^ 31 - 1
  last : tab.chain (2 ^ 32 - 1) = []

inductive AtPlace (tab : HashTable) : Int × Option Iter → List Ptr → Prop
  | node {i : Nat} {cur : List HashNode} : tab.chain i ≠ [] → cur ≠ [] →
    AtPlace tab (0, some (.vanilla (Int32.ofNat i) cur))
      ((cur ++ tab.nodesFrom (i + 1)).map HashNode.data)
  | done {bucket : Int32} : tab.nodesFrom (sizeT (bucket + 1)) = [] →
    AtPlace tab (eof, some (.vanilla bucket [])) []

theorem AtPlace.item {s : Int × Option Iter} {l : List Ptr} (h : AtPlace tab s l) :
    itemCall s = some (seen 0 eof 0 l 0) := by
  cases h with
  | @node i cur _ hcur =>
    cases cur with
    | nil => exact absurd rfl hcur
    | cons p cur => rfl
  | done => rfl

theorem next_in_chain {c : Int} (h : cur.tail ≠ []) :
    nextCall tab (c, some (.vanilla bucket cur)) = some (0, some (.vanilla bucket cur.tail)) := by
  simp only [nextCall, hashTableIterNext, iterNext]
  rw [if_pos h]
  rfl

/-- `find_next_node`, and the result of the call that made the search. -/
def searched (tab : HashTable) (bucket : Int32) (i : Nat) : Int × Option Iter :=
  (curCode (findNextNode tab bucket i).2,
    some (.vanilla (findNextNode tab bucket i).1 (findNextNode tab bucket i).2))

theorem next_search {c : Int} (h : cur.tail = []) :
    nextCall tab (c, some (.vanilla bucket cur)) =
      some (searched tab bucket (sizeT (bucket + 1))) := by
  simp only [nextCall, hashTableIterNext, iterNext]
  rw [if_neg (not_not_intro h)]
  rfl

theorem findNextNode_place
    (hend : tab.nodesFrom i = [] → tab.nodesFrom (sizeT (bucket + 1)) = []) :
    AtPlace tab (searched tab bucket i) ((tab.nodesFrom i).map HashNode.data) := by
  rw [searched]
  rcases findNextNode_spec tab bucket i with ⟨hfind, hnil⟩ | ⟨j, -, hfind, hj, hnodes⟩
  · rw [hfind, hnil]
    exact .done (hend hnil)
  · rw [hfind, hnodes, nodesFrom_succ, curCode, if_neg hj]
    exact .node hj hj

theorem yieldsJust_of_numbersFit (hw : tab.WF P) (hsize : tab.size ≤ 2 ^ 63)
    (h : NumbersFit tab) (bucket : Int32) (cur : List HashNode) :
    YieldsJust tab (.vanilla bucket cur) tab.items := by
  -- after a bucket in use the search starts where it should
  have hnext : ∀ i, tab.chain i ≠ [] →
      tab.nodesFrom (sizeT (Int32.ofNat i + 1)) = tab.nodesFrom (i + 1) := by
    intro i hi
    by_cases hlt : i < 2 ^ 31 - 1
    · rw [sizeT_succ_of_lt hlt]
    · have hge := Nat.le_of_not_lt hlt
      have hrest : tab.nodesFrom (i + 1) = [] := by
        rw [nodesFrom_eq_nil_iff]
        intro j hj
        by_contra hlive
        exact hlt (h.inner i j hj hi hlive)
      have hne : i ≠ 2 ^ 32 - 1 := by
        rintro rfl
        exact hi h.last
      have hmax : i < 2 ^ 32 := by
        by_contra hbig
        exact hi (chain_eq_nil_of_le hw (Nat.le_of_not_lt hbig))
      rw [hrest, nodesFrom_of_size_le hw (hsize.trans (le_sizeT_succ hge (by omega)))]
  apply yieldsJust_of_walk fun s l h => AtPlace.item h
  · exact ⟨_, rfl, findNextNode_place id⟩
  · intro s l hplace
    cases hplace with
    | @node i cur hi hcur =>
      obtain ⟨p, cur, rfl⟩ := exists_cons_of_ne_nil hcur
      by_cases htail : cur = []
      · subst htail
        have hplace := @findNextNode_place tab (Int32.ofNat i) _ id
        rw [hnext i hi] at hplace
        exact ⟨_, next_search rfl, hplace⟩
      · exact ⟨_, next_in_chain htail, .node hi htail⟩
    | @done bucket hdone =>
      have hplace := @findNextNode_place tab bucket (sizeT (bucket + 1)) id
      rw [hdone] at hplace
      exact ⟨_, next_search rfl, hplace⟩

def AtPlaceUpTo (tab : HashTable) (i : Nat) (s : Int × Option Iter) (l : List HashNode) : Prop :=
  (∃ bucket cur, s.2 = some (.vanilla bucket cur)) ∧ ((tab.nodesFrom (i + 1)).length < l.length →
    ∃ j ≤ i, ∃ cur, s.2 = some (.vanilla (Int32.ofNat j) cur) ∧ cur ≠ [] ∧
      tab.chain j ≠ [] ∧ l = cur ++ tab.nodesFrom (j + 1))

theorem searched_upTo (i j : Nat) :
    AtPlaceUpTo tab i (searched tab bucket j) (tab.nodesFrom j) := by
  refine ⟨⟨_, _, rfl⟩, fun hlen => ?_⟩
  rcases findNextNode_spec tab bucket j with ⟨-, hnil⟩ | ⟨k, -, hfind, hk, hnodes⟩
  · rw [hnil] at hlen
    cases hlen
  · refine ⟨k, ?_, tab.chain k, by rw [searched, hfind], hk, hk, by rw [hnodes, nodesFrom_succ]⟩
    -- after bucket `i` there are too few nodes
    by_contra hlate
    have hle := (nodesFrom_suffix tab (Nat.lt_of_not_le hlate)).length_le
    rw [hnodes] at hlen
    exact absurd hlen (Nat.not_lt_of_le hle)

theorem next_upTo (hbefore : ∀ j < i, tab.chain j ≠ [] → j < 2 ^ 31 - 1)
    {s : Int × Option Iter} {a : HashNode} {l : List HashNode} (h : AtPlaceUpTo tab i s (a :: l)) :
    ∃ s', nextCall tab s = some s' ∧ AtPlaceUpTo tab i s' l := by
  obtain ⟨c, it⟩ := s
  obtain ⟨⟨bucket, cur, rfl⟩, hplace⟩ := h
  by_cases hlen : (tab.nodesFrom (i + 1)).length < l.length
  · obtain ⟨j, hj, cur', heq, hcur, hchain, hl⟩ := hplace (Nat.lt_succ_of_lt hlen)
    cases heq
    obtain ⟨p, cur, rfl⟩ := exists_cons_of_ne_nil hcur
    rw [cons_append] at hl
    obtain ⟨rfl, rfl⟩ := cons.inj hl
    by_cases htail : cur = []
    · subst htail
      rw [nil_append] at hlen ⊢
      have hne : j ≠ i := by
        rintro rfl
        exact Nat.lt_irrefl _ hlen
      have hsucc := sizeT_succ_of_lt (hbefore j (Nat.lt_of_le_of_ne hj hne) hchain)
      refine ⟨_, next_search rfl, ?_⟩
      rw [hsucc]
      exact searched_upTo i (j + 1)
    · exact ⟨_, next_in_chain htail, ⟨_, _, rfl⟩, fun _ => ⟨j, hj, cur, rfl, htail, hchain, rfl⟩⟩
  · -- nothing is said about what comes after bucket `i`
    by_cases htail : cur.tail = []
    · exact ⟨_, next_search htail, ⟨_, _, rfl⟩, fun h => absurd h hlen⟩
    · exact ⟨_, next_in_chain htail, ⟨_, _, rfl⟩, fun h => absurd h hlen⟩

theorem walk_past_bucket (hi : tab.chain i ≠ [])
    (hbefore : ∀ j < i, tab.chain j ≠ [] → j < 2 ^ 31 - 1) :
    walk (firstCall tab (.vanilla bucket cur)) (nextCall tab)
        (tab.nodes.length - (tab.nodesFrom (i + 1)).length) =
      some (searched tab (Int32.ofNat i) (sizeT (Int32.ofNat i + 1))) := by
  have hle : (tab.nodesFrom i).length ≤ tab.nodes.length :=
    (nodesFrom_suffix tab (Nat.zero_le i)).length_le
  have hsplit := congrArg length (nodesFrom_succ tab i)
  rw [length_append] at hsplit
  have hpos := length_pos_iff.mpr hi
  obtain ⟨k, hk⟩ : ∃ k, tab.nodes.length - (tab.nodesFrom (i + 1)).length = k + 1 :=
    ⟨tab.nodes.length - (tab.nodesFrom (i + 1)).length - 1, by omega⟩
  have hmore : (tab.nodesFrom (i + 1)).length < (tab.nodes.drop k).length := by
    rw [length_drop]
    omega
  obtain ⟨⟨c, it⟩, hs, -, hplace⟩ := walk_through (R := AtPlaceUpTo tab i) (l := tab.nodes)
    ⟨searched tab (-1) 0, rfl, searched_upTo i 0⟩ (fun s a l h => next_upTo hbefore h)
    (show k ≤ tab.nodes.length by omega)
  obtain ⟨j, hj, cur', heq, hcur, -, hl⟩ := hplace hmore
  have hlen := congrArg length hl
  rw [length_drop, length_append] at hlen
  have hcurpos := length_pos_iff.mpr hcur
  have hji : j = i := by
    by_contra hne
    have hlt : j + 1 ≤ i := Nat.lt_of_le_of_ne hj hne
    have hmore := (nodesFrom_suffix tab hlt).length_le
    omega
  subst hji
  have htail : cur'.tail = [] := by
    apply eq_nil_of_length_eq_zero
    rw [length_tail]
    omega
  dsimp only at heq
  subst heq
  rw [hk, walk]
  exact (congrArg (·.bind (nextCall tab)) hs).trans (next_search htail)

theorem YieldsAll.search_iff (h : YieldsAll tab) (hi : tab.chain i ≠ [])
    (hbefore : ∀ j < i, tab.chain j ≠ [] → j < 2 ^ 31 - 1) :
    tab.nodesFrom (sizeT (Int32.ofNat i + 1)) = [] ↔ tab.nodesFrom (i + 1) = [] := by
  obtain ⟨l, hl, hyields⟩ := h 0 []
  have hlen : l.length = tab.nodes.length := hl.length_eq.trans (length_map _)
  have hle : (tab.nodesFrom i).length ≤ tab.nodes.length :=
    (nodesFrom_suffix tab (Nat.zero_le i)).length_le
  have hsplit := congrArg length (nodesFrom_succ tab i)
  rw [length_append] at hsplit
  have hpos := length_pos_iff.mpr hi
  have hvisit := hyields (tab.nodes.length - (tab.nodesFrom (i + 1)).length)
  rw [visit, walk_past_bucket hi hbefore, Option.bind_some] at hvisit
  have hcode : curCode (findNextNode tab (Int32.ofNat i) (sizeT (Int32.ofNat i + 1))).2 =
      if tab.nodes.length - (tab.nodesFrom (i + 1)).length < tab.nodes.length then 0 else eof := by
    have hfst := congrArg Prod.fst (Option.some.inj hvisit)
    rw [seen, hlen] at hfst
    exact hfst
  have hmore : tab.nodes.length - (tab.nodesFrom (i + 1)).length < tab.nodes.length ↔
      ¬tab.nodesFrom (i + 1) = [] := by
    rw [← ne_eq, ← length_pos_iff]
    omega
  rw [← findNextNode_eq_nil_iff (Int32.ofNat i), ← not_iff_not, ← hmore]
  constructor
  · intro hne
    rw [curCode, if_neg hne] at hcode
    by_contra hlast
    rw [if_neg hlast] at hcode
    exact absurd hcode (by decide)
  · intro hlt hnil
    rw [curCode, if_pos hnil, if_pos hlt] at hcode
    exact absurd hcode (by decide)

theorem YieldsAll.numbersFit (h : YieldsAll tab) (hw : tab.WF P) (hsize : tab.size ≤ 2 ^ 63) :
    NumbersFit tab := by
  have hlt : ∀ {j}, tab.chain j ≠ [] → j < 2 ^ 32 := by
    intro j hj
    by_contra hbig
    exact hj (chain_eq_nil_of_le hw (Nat.le_of_not_lt hbig))
  have hinner : ∀ i j, i < j → tab.chain i ≠ [] → tab.chain j ≠ [] → i < 2 ^ 31 - 1 := by
    intro i j hij hi hj
    by_contra hge
    -- the search ends at the first bucket without a successor
    have hex : ∃ k, 2 ^ 31 - 1 ≤ k ∧ tab.chain k ≠ [] := ⟨i, Nat.le_of_not_lt hge, hi⟩
    classical
    obtain ⟨hk, hkchain⟩ := Nat.find_spec hex
    have hki : Nat.find hex ≤ i := Nat.find_min' hex ⟨Nat.le_of_not_lt hge, hi⟩
    have hbefore : ∀ k < Nat.find hex, tab.chain k ≠ [] → k < 2 ^ 31 - 1 := by
      intro k hlt hchain
      by_contra hle
      exact Nat.find_min hex hlt ⟨Nat.le_of_not_lt hle, hchain⟩
    have hjlt := hlt hj
    have hnil := (h.search_iff hkchain hbefore).mp
      (nodesFrom_of_size_le hw (hsize.trans (le_sizeT_succ hk (by omega))))
    exact hj (nodesFrom_eq_nil_iff.mp hnil j (by omega))
  refine ⟨hinner, ?_⟩
  by_contra hlast
  -- after the last bucket there is, the search begins at the first one
  have hsearch := h.search_iff hlast fun j hj hchain => hinner j _ hj hchain hlast
  rw [sizeT_succ_max] at hsearch
  have hnil : tab.nodesFrom (2 ^ 32 - 1 + 1) = [] :=
    nodesFrom_eq_nil_iff.mpr fun j hj => chain_eq_nil_of_le hw hj
  exact hlast (nodesFrom_eq_nil_iff.mp (hsearch.mpr hnil) _ (Nat.zero_le _))

/-- The unsorted iterator yields exactly the items if and only if the numbers of the buckets in use
survive being kept in an `int`. -/
theorem unsorted_iter_yields_all_iff (h : Reachable P tab) : YieldsAll tab ↔ NumbersFit tab := by
  have hsize : tab.size ≤ 2 ^ 63 := h.size_lt.le.trans (by decide)
  constructor
  · intro hall
    exact hall.numbersFit h.wf hsize
  · intro hfit bucket cur
    exact ⟨tab.items, Perm.refl _, yieldsJust_of_numbersFit h.wf hsize hfit bucket cur⟩

theorem numbersFit_of_size_lt (hw : tab.WF P) (h : tab.size < 2 ^ 31) : NumbersFit tab := by
  have hlt : ∀ {i}, tab.chain i ≠ [] → i < tab.size := by
    intro i hi
    by_contra hbig
    have hnil := nodesFrom_of_size_le hw (Nat.le_of_not_lt hbig)
    exact hi (nodesFrom_eq_nil_iff.mp hnil i (Nat.le_refl i))
  constructor
  · intro i j hij _ hj
    have := hlt hj
    omega
  · by_contra hlast
    have := hlt hlast
    omega

end Walk

theorem unsorted_iter_yields_two : YieldsAll (twoItems 64 96) := by
  have h : Reachable plainPolicy (twoItems 64 96) :=
    (Reachable.new (show hashTableNew 1 80 0 = some _ from rfl)).calls
      [.insert ⟨some 64, true⟩ 17, .insert ⟨some 96, true⟩ 18]
      (show _ = some (_, [.code 0, .code 0]) by decide)
  exact (unsorted_iter_yields_all_iff h).mpr (numbersFit_of_size_lt h.wf (by decide))

/-! ## A table of more than `2 ^ 32` buckets -/

section Crowd
variable {P : Policy} {tab : HashTable} {n : Nat} {x : Ptr}

theorem countP_live (bs : List HashBucket) (h : ∀ b ∈ bs, b.head.length ≤ 1) :
    bs.countP HashBucket.live = (entries HashBucket.head bs).length := by
  induction bs with
  | nil => rfl
  | cons b bs ih =>
    have hb := h b mem_cons_self
    rw [countP_cons, ih fun c hc => h c (mem_cons_of_mem b hc), entries, entries, flatMap_cons,
      length_append, Nat.add_comm]
    congr 1
    rw [HashBucket.live]
    cases hhead : b.head with
    | nil => rfl
    | cons p l =>
      rw [hhead, length_cons] at hb
      rw [length_cons, Nat.eq_zero_of_le_zero (Nat.le_of_succ_le_succ hb)]
      rfl

theorem index_plain (hw : tab.WF P) (hrandom : tab.random = 0) (hx : x.toNat < 2 ^ 32)
    (hsize : x.toNat < tab.size) : tab.index (hashfunc plainPolicy tab x) = x.toNat := by
  obtain ⟨e, he⟩ := hw.pow
  have hhash : (hashfunc plainPolicy tab x).toNat = x.toNat := by
    rw [hashfunc, hrandom, UInt32.zero_xor]
    exact (UInt64.toNat_toUInt32 x).trans (Nat.mod_eq_of_lt hx)
  rw [he] at hsize
  rw [HashTable.index, hhash, he, Nat.and_two_pow_sub_one_of_lt_two_pow hsize]

structure Crowd (n : Nat) (tab : HashTable) : Prop where
  reachable : Reachable plainPolicy tab
  random : tab.random = 0
  fillmax : tab.fillmax = 1
  nodup : tab.items.Nodup
  length : tab.items.length = n
  le : ∀ x ∈ tab.items, x.toNat ≤ n
  size : 2 ^ 30 ≤ tab.size
  room : n * 100 / (tab.size + 1) ≤ 1

theorem Crowd.index (h : Crowd n tab) (hn : n < 2 ^ 30) {p : HashNode} (hp : p ∈ tab.nodes) :
    tab.index p.hash = p.data.toNat ∧ p.data.toNat ≤ n := by
  have hw := h.reachable.wf
  have hle := h.le p.data (mem_map_of_mem hp)
  rw [hw.hashed p hp]
  exact ⟨index_plain hw h.random (by omega) (Nat.lt_of_lt_of_le (by omega) h.size), hle⟩

theorem Crowd.fill (h : Crowd n tab) (hn : n < 2 ^ 30) : tab.stats.fill = n := by
  have hw := h.reachable.wf
  rw [hw.fill, countP_live, ← h.length]
  · exact (length_map _).symm
  · intro b hb
    apply Nat.le_of_not_lt
    intro hlen
    obtain ⟨p, q, l, hhead⟩ : ∃ p q l, b.head = p :: q :: l := by
      match b.head, hlen with
      | p :: q :: l, _ => exact ⟨p, q, l, rfl⟩
    -- two numbers in one bucket are the same
    have hp : p ∈ b.head := by
      rw [hhead]
      exact mem_cons_self
    have hq : q ∈ b.head := by
      rw [hhead]
      exact mem_cons_of_mem p mem_cons_self
    obtain ⟨i, hi⟩ := getElem?_of_mem hb
    have hpi : tab.index p.hash = i := hw.placed i b hi p hp
    have hqi : tab.index q.hash = i := hw.placed i b hi q hq
    have hdata : p.data = q.data := by
      apply UInt64.toNat_inj.mp
      rw [← (h.index hn (mem_nodes hb hp)).1, ← (h.index hn (mem_nodes hb hq)).1, hpi, hqi]
    have hsub : b.head.map HashNode.data <+ tab.items := by
      rw [HashTable.items, HashTable.nodes, entries, flatMap_def]
      exact (sublist_flatten_of_mem (mem_map_of_mem hb)).map _
    have hnodup := h.nodup.sublist hsub
    rw [hhead, map_cons, map_cons, hdata] at hnodup
    exact (nodup_cons.mp hnodup).1 mem_cons_self

theorem Crowd.insert (h : Crowd n tab) (hn : n < 2 ^ 30) (hx : n < x.toNat)
    (hx32 : x.toNat < 2 ^ 32) (hsize : x.toNat < tab.size) (addr : Ptr) :
    ∃ tab' ret, step plainPolicy tab (.insert ⟨some addr, true⟩ x) = some (tab', ret) ∧
      tab'.items ~ x :: tab.items ∧ (n + 1) * 100 / (tab'.size + 1) ≤ 1 := by
  have hw := h.reachable.wf
  have hindex := index_plain hw h.random hx32 hsize
  have hxne : x ≠ 0 := by
    rintro rfl
    exact Nat.not_lt_zero n hx
  obtain ⟨i, b, rfl, hb, hins⟩ := insertInternal_spec hw ⟨some addr, true⟩ x .nodup
  -- the numbers stored so far are smaller, so their buckets are other ones
  have hempty : b.head = [] := by
    rw [eq_nil_iff_forall_not_mem]
    intro p hp
    have hpi : tab.index p.hash = tab.index (hashfunc plainPolicy tab x) := hw.placed _ b hb p hp
    obtain ⟨hpd, hle⟩ := h.index hn (mem_nodes (mem_of_getElem? hb) hp)
    rw [hpd, hindex] at hpi
    exact absurd hx (Nat.not_lt_of_le (hpi.symm.trans_le hle))
  have hcount : b.count = 0 := by
    rw [hw.count b (mem_of_getElem? hb), hempty]
    rfl
  have hfind : b.head.find? (isMatch plainPolicy (hashfunc plainPolicy tab x) x) = none := by
    rw [hempty]
    rfl
  rcases hins with ⟨e, he, -⟩ | ⟨-, hnode, -⟩ | ⟨-, _, ret, tab', k, -, hins, -, hperm, -⟩
  · rw [hfind] at he
    cases he
  · cases hnode
  refine ⟨tab', .code ret, ?_, hperm.map HashNode.data, ?_⟩
  · simp only [step, exec, hashTableInsert, if_neg hxne, hins, Option.map_some]
  · -- all buckets in use have one node each
    have hfill := h.fill hn
    have hroom := h.room
    have hbig := h.size
    rw [insertInternal] at hins
    simp only [hb, hfind, Option.bind_some] at hins
    obtain ⟨r, hr, heq⟩ := Option.map_eq_some_iff.mp hins
    obtain rfl : r.2.1 = tab' := congrArg (fun q => q.2.2.1) heq
    rw [← Nat.lt_succ_iff, Nat.div_lt_iff_lt_mul (Nat.succ_pos _)] at hroom ⊢
    rw [grow_eq] at hr
    simp only [link, hcount, hfill, h.fillmax, Nat.zero_add, true_and] at hr
    split at hr
    case isTrue =>
      simp only [resize, if_true, Option.map_eq_some_iff] at hr
      obtain ⟨q, -, rfl⟩ := hr
      dsimp only
      omega
    case isFalse hsparse =>
      obtain rfl := Option.some.inj hr
      rw [gt_iff_lt, Nat.not_lt, ← Nat.lt_succ_iff,
        Nat.div_lt_iff_lt_mul (Nat.succ_pos _)] at hsparse
      exact hsparse

theorem Crowd.succ (h : Crowd n tab) (hn : n + 1 < 2 ^ 30) : ∃ tab', Crowd (n + 1) tab' := by
  have hx : (UInt64.ofNat (n + 1)).toNat = n + 1 := by
    rw [UInt64.toNat_ofNat']
    exact Nat.mod_eq_of_lt (by omega)
  have hbig := h.size
  obtain ⟨tab', ret, hstep, hperm, hroom⟩ := h.insert (Nat.lt_of_succ_lt hn)
    (x := UInt64.ofNat (n + 1)) (by omega) (by omega) (by omega) (UInt64.ofNat (64 * (n + 1)))
  have hgrows := step_grows hstep
  refine ⟨tab', h.reachable.call hstep, hgrows.random.trans h.random,
    hgrows.fillmax.trans h.fillmax, ?_, ?_, ?_, hbig.trans hgrows.size_le, hroom⟩
  · rw [hperm.nodup_iff, nodup_cons]
    refine ⟨fun hmem => ?_, h.nodup⟩
    have := h.le _ hmem
    omega
  · rw [hperm.length_eq, length_cons, h.length]
  · intro y hy
    rcases mem_cons.mp (hperm.mem_iff.mp hy) with rfl | hy
    · exact hx.le
    · exact (h.le y hy).trans (Nat.le_succ n)

theorem exists_crowd (n : Nat) (hn : n < 2 ^ 30) : ∃ tab, Crowd n tab := by
  induction n with
  | zero =>
    obtain ⟨tab, hnew, hrandom, hfillmax, hsize⟩ : ∃ tab, hashTableNew 30 1 0 = some tab ∧
        tab.random = 0 ∧ tab.fillmax = 1 ∧ tab.size = 2 ^ 30 := ⟨_, rfl, rfl, rfl, rfl⟩
    have hitems : tab.items = [] := by
      rw [HashTable.items, (hashTableNew_wf plainPolicy hnew).2, map_nil]
    have hroom : 0 * 100 / (tab.size + 1) ≤ 1 := by
      rw [Nat.zero_mul, Nat.zero_div]
      exact Nat.zero_le 1
    refine ⟨tab, .new hnew, hrandom, hfillmax, ?_, ?_, ?_, hsize.ge, hroom⟩
    · rw [hitems]
      exact nodup_nil
    · rw [hitems]
      rfl
    · intro x hx
      rw [hitems] at hx
      cases hx
  | succ n ih =>
    obtain ⟨tab, h⟩ := ih (Nat.lt_of_succ_lt hn)
    exact h.succ hn

end Crowd

/-- With the number `2 ^ 32 - 1` in the last of `2 ^ 32` buckets the iterator starts again. -/
theorem unsorted_iter_starts_again : ∃ tab, Reachable plainPolicy tab ∧ ¬YieldsAll tab := by
  obtain ⟨tab, h⟩ := exists_crowd (2 ^ 27) (by decide)
  have hbig : 2 ^ 32 ≤ tab.size := by
    have hroom := h.room
    rw [← Nat.lt_succ_iff, Nat.div_lt_iff_lt_mul (Nat.succ_pos _)] at hroom
    omega
  have hx : (4294967295 : Ptr).toNat = 2 ^ 32 - 1 := rfl
  obtain ⟨tab', ret, hstep, hperm, -⟩ := h.insert (x := 4294967295) (by decide)
    (by rw [hx]; decide) (by rw [hx]; decide) (by rw [hx]; omega) (2 ^ 40)
  have hreach := h.reachable.call hstep
  have hw := hreach.wf
  refine ⟨tab', hreach, fun hall => ?_⟩
  have hgrows := step_grows hstep
  obtain ⟨p, hp, hdata⟩ := mem_map.mp (hperm.mem_iff.mpr mem_cons_self)
  have hindex : tab'.index p.hash = 2 ^ 32 - 1 := by
    rw [hw.hashed p hp, hdata, index_plain hw (hgrows.random.trans h.random) (by rw [hx]; decide)]
    · exact hx
    · have hle : tab.size ≤ tab'.size := hgrows.size_le
      rw [hx]
      omega
  obtain ⟨b, hb⟩ := hw.bucket p.hash
  have hmem : p ∈ b.head := (hw.placed.mem_iff hb rfl).mp hp
  have hlast := (hall.numbersFit hw (hreach.size_lt.le.trans (by decide))).last
  rw [← hindex, chain_eq hb] at hlast
  rw [hlast] at hmem
  cases hmem

end PortableLib.HashTab
