import PortableLib.HashTab.Table
import PortableLib.Lib.Chained
import PortableLib.Lib.Run

/-! The representation and statistics invariant of `hashtab.c` and what the chain operations do
to it. -/

namespace PortableLib.HashTab
open List Chained Run

def HashBucket.live (b : HashBucket) : Bool := !b.head.isEmpty

def HashTable.nodes (tab : HashTable) : List HashNode := entries HashBucket.head tab.buckets

structure HashTable.WF (P : Policy) (tab : HashTable) : Prop where
  pow : ∃ e, tab.size = 2 ^ e
  len : tab.buckets.length = tab.size
  placed : Placed HashBucket.head (fun p => tab.index p.hash) tab.buckets
  hashed : ∀ p ∈ tab.nodes, p.hash = hashfunc P tab p.data
  count : ∀ b ∈ tab.buckets, b.count = b.head.length
  nodes : tab.stats.nodes = tab.nodes.length
  fill : tab.stats.fill = tab.buckets.countP HashBucket.live
  maxchainlen : ∀ b ∈ tab.buckets, b.head.length ≤ tab.stats.maxchainlen

theorem and_pred_lt {n : Nat} (hn : 0 < n) (h : Nat) : h &&& (n - 1) < n :=
  Nat.lt_of_le_of_lt Nat.and_le_right (Nat.sub_lt hn Nat.one_pos)

section Basic
variable {P : Policy} {tab : HashTable}

theorem HashTable.WF.size_pos (hw : tab.WF P) : 0 < tab.size := by
  obtain ⟨e, he⟩ := hw.pow
  rw [he]
  exact Nat.two_pow_pos e

theorem HashTable.WF.bucket (hw : tab.WF P) (h : UInt32) :
    ∃ b, tab.buckets[tab.index h]? = some b := by
  have : tab.index h < tab.buckets.length := by
    rw [hw.len]
    exact and_pred_lt hw.size_pos _
  exact ⟨_, getElem?_eq_getElem this⟩

theorem mem_nodes {b : HashBucket} (hb : b ∈ tab.buckets)
    {p : HashNode} (hp : p ∈ b.head) : p ∈ tab.nodes := mem_flatMap_of_mem hb hp

theorem HashTable.WF.congr {tab' : HashTable} (hw : tab.WF P) (hb : tab'.buckets = tab.buckets)
    (hs : tab'.size = tab.size) (hr : tab'.random = tab.random)
    (hn : tab'.stats.nodes = tab.stats.nodes) (hf : tab'.stats.fill = tab.stats.fill)
    (hm : tab'.stats.maxchainlen = tab.stats.maxchainlen) : tab'.WF P where
  pow := by rw [hs]; exact hw.pow
  len := by rw [hb, hs, hw.len]
  placed := by
    simp only [HashTable.index, hb, hs]
    exact hw.placed
  hashed := by
    simp only [HashTable.nodes, hashfunc, hb, hr]
    exact hw.hashed
  count := by rw [hb]; exact hw.count
  nodes := by rw [hn, HashTable.nodes, hb]; exact hw.nodes
  fill := by rw [hf, hb]; exact hw.fill
  maxchainlen := by rw [hb, hm]; exact hw.maxchainlen

end Basic

theorem hashTableNew_wf (P : Policy) {logsize fillmax : Nat} {random : UInt32} {tab : HashTable}
    (h : hashTableNew logsize fillmax random = some tab) : tab.WF P ∧ tab.nodes = [] := by
  simp only [hashTableNew] at h
  generalize (if logsize = 0 ∨ 64 ≤ logsize then 10 else logsize) = i at h
  by_cases hi : i ≤ 30
  · rw [if_pos hi] at h
    obtain rfl := Option.some.inj h
    have hnodes : entries HashBucket.head (replicate (2 ^ i) HashBucket.zero) = [] :=
      entries_replicate _ rfl
    refine ⟨⟨⟨_, rfl⟩, length_replicate, placed_replicate _ rfl, ?_, ?_, ?_, ?_, ?_⟩, hnodes⟩
    · intro p hp
      rw [HashTable.nodes, hnodes] at hp
      cases hp
    · exact forall_mem_replicate _ rfl
    · rw [HashTable.nodes, hnodes]
      rfl
    · exact (countP_replicate.trans (if_neg (by decide))).symm
    · exact forall_mem_replicate _ (Nat.zero_le _)
  · rw [if_neg hi] at h
    cases h

def occupancy (l : List HashNode) : Nat := if l.isEmpty then 0 else 1

theorem removeNode_spec {st : Stat} {chain : List HashNode} {c d : Nat}
    (hn : st.nodes = c + (chain.length + 1)) (hf : st.fill = d + 1) :
    ∃ st', removeNode st (chain.length + 1) chain = some (st', chain.length) ∧
      st'.nodes = c + chain.length ∧ st'.fill = d + occupancy chain ∧
      st'.maxchainlen = st.maxchainlen := by
  cases chain with
  | nil =>
    refine ⟨{ st with deletes := st.deletes + 1, nodes := st.nodes - 1, fill := st.fill - 1 },
      by simp [removeNode], ?_, ?_, rfl⟩
    · simp only [hn, length_nil, Nat.zero_add, Nat.add_sub_cancel, Nat.add_zero]
    · simp only [hf, occupancy, isEmpty_nil, if_true, Nat.add_sub_cancel, Nat.add_zero]
  | cons p chain =>
    refine ⟨{ st with deletes := st.deletes + 1, nodes := st.nodes - 1 },
      by simp [removeNode], ?_, ?_, rfl⟩
    · simp only [hn, length_cons]
      omega
    · exact hf

theorem unlinkIf_spec (gone : HashNode → Bool) (rest kept : List HashNode) (st : Stat) {c d : Nat}
    (hn : st.nodes = c + (kept ++ rest).length) (hf : st.fill = d + occupancy (kept ++ rest)) :
    ∃ st', unlinkIf gone kept rest st (kept ++ rest).length =
        some (kept ++ rest.filter (fun p => !gone p), st',
          (kept ++ rest.filter fun p => !gone p).length, rest.filter gone) ∧
      st'.nodes = c + (kept ++ rest.filter fun p => !gone p).length ∧
      st'.fill = d + occupancy (kept ++ rest.filter fun p => !gone p) ∧
      st'.maxchainlen = st.maxchainlen := by
  -- on the part of the chain that is still to be walked
  induction rest generalizing kept st with
  | nil => exact ⟨st, by simp only [append_nil, filter_nil, unlinkIf], hn, hf, rfl⟩
  | cons p rest ih =>
    have hlen : (kept ++ p :: rest).length = (kept ++ rest).length + 1 := by
      simp only [length_append, length_cons]
      omega
    by_cases hp : gone p = true
    · have hocc : occupancy (kept ++ p :: rest) = 1 := by simp [occupancy]
      rw [hlen] at hn
      rw [hocc] at hf
      obtain ⟨st₁, h₁, hn₁, hf₁, hm₁⟩ := removeNode_spec hn hf
      obtain ⟨st₂, h₂, hn₂, hf₂, hm₂⟩ := ih kept st₁ hn₁ hf₁
      have hfil : (p :: rest).filter (fun p => !gone p) = rest.filter fun p => !gone p := by
        simp [hp]
      rw [hfil, filter_cons_of_pos hp]
      refine ⟨st₂, ?_, hn₂, hf₂, hm₂.trans hm₁⟩
      simp only [hlen, unlinkIf, hp, if_true, h₁, Option.bind_some, h₂, Option.map_some]
    · have hsplit : kept ++ p :: rest = kept ++ [p] ++ rest := by simp
      rw [hsplit] at hn hf ⊢
      obtain ⟨st₁, h₁, hn₁, hf₁, hm₁⟩ := ih (kept ++ [p]) st hn hf
      have hfil : kept ++ (p :: rest).filter (fun p => !gone p) =
          kept ++ [p] ++ rest.filter fun p => !gone p := by simp [hp]
      rw [hfil, filter_cons_of_neg hp]
      refine ⟨st₁, ?_, hn₁, hf₁, hm₁⟩
      simp only [unlinkIf, hp, h₁, Bool.false_eq_true, if_false]

theorem occupancy_of_count {b : HashBucket} (h : b.count = b.head.length) :
    occupancy b.head = if b.count + 1 = 1 then 0 else 1 := by
  rw [h]
  cases b.head <;> simp [occupancy]

theorem occupancy_eq_live (b : HashBucket) : occupancy b.head = if b.live then 1 else 0 := by
  unfold occupancy HashBucket.live
  cases b.head.isEmpty <;> rfl

theorem HashTable.WF.set {P : Policy} {tab tad : HashTable} {i : Nat} {b d : HashBucket}
    (hw : tab.WF P) (hi : tab.buckets[i]? = some b) (hb : tad.buckets = tab.buckets.set i d)
    (hsize : tad.size = tab.size) (hrandom : tad.random = tab.random)
    (hplace : ∀ p ∈ d.head, tab.index p.hash = i)
    (hhash : ∀ p ∈ d.head, p.hash = hashfunc P tab p.data) (hcount : d.count = d.head.length)
    (hnodes : tad.stats.nodes + b.head.length = tab.stats.nodes + d.head.length)
    (hfill : tad.stats.fill + occupancy b.head = tab.stats.fill + occupancy d.head)
    (hmax : tab.stats.maxchainlen ≤ tad.stats.maxchainlen)
    (hmax' : d.head.length ≤ tad.stats.maxchainlen) : tad.WF P where
  pow := by rw [hsize]; exact hw.pow
  len := by rw [hb, hsize, length_set, hw.len]
  placed := by
    simp only [HashTable.index, hb, hsize]
    exact hw.placed.set hplace
  hashed := by
    intro p hp
    obtain ⟨c, hc, hpc⟩ := mem_flatMap.mp hp
    rw [hb] at hc
    have h : ∀ c ∈ tab.buckets.set i d, ∀ p ∈ c.head, p.hash = hashfunc P tab p.data :=
      forall_mem_set (fun c hc p hp => hw.hashed p (mem_nodes hc hp)) hhash
    rw [h c hc p hpc, hashfunc, hashfunc, hrandom]
  count := by
    rw [hb]
    exact forall_mem_set hw.count hcount
  nodes := by
    have h1 := hw.nodes
    obtain ⟨l₁, l₂, hl, rfl⟩ := exists_split hi
    rw [HashTable.nodes, entries, hl] at h1
    rw [HashTable.nodes, entries, hb, hl, set_split]
    simp only [flatMap_append, flatMap_cons, length_append] at h1 ⊢
    omega
  fill := by
    have h1 := hw.fill
    have h2 := countP_set_add HashBucket.live hi d
    rw [occupancy_eq_live, occupancy_eq_live] at hfill
    rw [hb]
    omega
  maxchainlen := by
    rw [hb]
    exact forall_mem_set (fun c hc => Nat.le_trans (hw.maxchainlen c hc) hmax) hmax'

structure Moved (newsize : Nat) (r : Resize) (ps : List HashNode) : Prop where
  len : r.buckets.length = newsize
  placed : Placed HashBucket.head (fun p => p.hash.toNat &&& (newsize - 1)) r.buckets
  perm : entries HashBucket.head r.buckets ~ ps
  count : ∀ b ∈ r.buckets, b.count = b.head.length
  fill : r.fill = r.buckets.countP HashBucket.live
  maxchainlen : ∀ b ∈ r.buckets, b.head.length ≤ r.maxchainlen

theorem moved_init (newsize : Nat) :
    Moved newsize ⟨replicate newsize HashBucket.zero, 0, 0⟩ [] where
  len := length_replicate
  placed := placed_replicate _ rfl
  perm := by rw [entries_replicate _ rfl]
  count := forall_mem_replicate _ rfl
  fill := (countP_replicate.trans (if_neg (by decide))).symm
  maxchainlen := forall_mem_replicate _ (Nat.zero_le _)

theorem moveNode_spec {newsize : Nat} (hpos : 0 < newsize) {r : Resize} {ps : List HashNode}
    {p : HashNode} (h : Moved newsize r ps) :
    ∃ r', moveNode newsize r p = some r' ∧ Moved newsize r' (p :: ps) := by
  have hj : p.hash.toNat &&& (newsize - 1) < r.buckets.length := by
    rw [h.len]
    exact and_pred_lt hpos _
  obtain ⟨b, hb⟩ : ∃ b, r.buckets[p.hash.toNat &&& (newsize - 1)]? = some b :=
    ⟨_, getElem?_eq_getElem hj⟩
  have hcount := h.count b (mem_of_getElem? hb)
  refine ⟨_, by simp only [moveNode, hb, Option.map_some]; rfl, ?_⟩
  exact
    { len := by simp only [length_set, h.len]
      placed := by
        refine h.placed.set fun e he => ?_
        rcases mem_cons.mp he with rfl | he
        · rfl
        · exact h.placed _ b hb e he
      perm := (entries_set_perm_cons hb (Perm.refl _)).trans (h.perm.cons p)
      count := forall_mem_set h.count (by simp only [length_cons, hcount])
      fill := by
        have h1 := countP_set_add HashBucket.live hb ⟨p :: b.head, b.count + 1⟩
        have h2 : HashBucket.live ⟨p :: b.head, b.count + 1⟩ = true := rfl
        rw [h2, if_pos rfl, ← occupancy_eq_live] at h1
        have h3 := h.fill
        rw [occupancy_of_count hcount] at h1
        dsimp only
        split_ifs at h1 ⊢ <;> omega
      maxchainlen := by
        refine forall_mem_set (fun c hc => ?_) ?_
        · have := h.maxchainlen c hc
          dsimp only
          split_ifs <;> omega
        · simp only [length_cons, hcount]
          split_ifs <;> omega }

theorem resize_spec {P : Policy} {tab : HashTable} (hw : tab.WF P) {mem : Mem}
    (hm : mem.buckets = true) :
    ∃ tab', resize mem tab = some (0, tab', sweepEvents tab.size) ∧ tab'.WF P ∧
      tab'.nodes ~ tab.nodes ∧ tab'.random = tab.random := by
  have hpos : 0 < tab.size * 2 := Nat.mul_pos hw.size_pos (by decide)
  obtain ⟨r, hr, hok⟩ := foldlM_invariant (P := fun _ => True)
    (fun r ps p hr _ => moveNode_spec hpos (p := p) hr) (moved_init (tab.size * 2))
    (show ∀ p ∈ tab.nodes, True from fun _ _ => trivial)
  have hperm : entries HashBucket.head r.buckets ~ tab.nodes := by
    refine hok.perm.trans ?_
    rw [append_nil]
    exact reverse_perm _
  -- the source walks bucket by bucket, the invariant node by node
  rw [HashTable.nodes, entries, foldlM_flatMap] at hr
  refine ⟨{ tab with buckets := r.buckets, size := tab.size * 2,
                     stats := { tab.stats with splits := tab.stats.splits + 1,
                                               maxchainlen := r.maxchainlen, fill := r.fill } },
    ?_, ?_, hperm, rfl⟩
  · simp only [resize, hm, if_true]
    exact congrArg (Option.map _) hr
  · obtain ⟨e, he⟩ := hw.pow
    exact
      { pow := ⟨e + 1, by rw [he, Nat.pow_succ]⟩
        len := hok.len
        placed := hok.placed
        hashed := fun p hp => hw.hashed p (hperm.mem_iff.mp hp)
        count := hok.count
        nodes := hw.nodes.trans hperm.length_eq.symm
        fill := hok.fill
        maxchainlen := hok.maxchainlen }

end PortableLib.HashTab
