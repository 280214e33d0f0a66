import PortableLib.HashTab.Invariant

/-! One specification for each operation of `hashtab.c`: every operation keeps the invariant. -/

namespace PortableLib.HashTab
open List Chained Run

section Insert
variable {P : Policy} {tab : HashTable} {mem : Mem} {i : Nat} {b : HashBucket}

theorem grow_link_spec (mem : Mem) (hw : tab.WF P) (hi : tab.buckets[i]? = some b) {e : HashNode}
    (hhash : e.hash = hashfunc P tab e.data) (hplace : tab.index e.hash = i) :
    ∃ ret tab' ev, grow mem (link tab i b e).1 (link tab i b e).2 = some (ret, tab', ev) ∧
      tab'.WF P ∧ tab'.nodes ~ e :: tab.nodes ∧ tab'.random = tab.random ∧
      (mem.buckets = true → ret = 0) ∧ ∃ n, ev = sweepEvents n := by
  have hbm := mem_of_getElem? hi
  have hcount := hw.count b hbm
  have hocc := occupancy_of_count hcount
  -- the invariant for any statistics that count the new node
  have hset : ∀ st' : Stat, st'.nodes = tab.stats.nodes + 1 →
      st'.fill = tab.stats.fill + (if b.count + 1 = 1 then 1 else 0) →
      st'.maxchainlen = (link tab i b e).1.stats.maxchainlen →
      ({ (link tab i b e).1 with stats := st' } : HashTable).WF P := by
    intro st' hn hf hm
    have hmax := hw.maxchainlen b hbm
    simp only [link, hcount] at hm
    refine hw.set (d := ⟨e :: b.head, b.count + 1⟩) hi rfl rfl rfl ?_ ?_ ?_ ?_ ?_ ?_ ?_
    · intro p hp
      rcases mem_cons.mp hp with rfl | hp
      · exact hplace
      · exact hw.placed i b hi p hp
    · intro p hp
      rcases mem_cons.mp hp with rfl | hp
      · exact hhash
      · exact hw.hashed p (mem_nodes hbm hp)
    · simp only [length_cons, hcount]
    · simp only [hn, length_cons]
      omega
    · rw [hocc]
      simp only [hf, occupancy, isEmpty_cons, Bool.false_eq_true, if_false]
      split_ifs <;> rfl
    · simp only [hm]
      split_ifs <;> omega
    · simp only [hm, length_cons]
      split_ifs <;> omega
  have hnodes : entries HashBucket.head (tab.buckets.set i ⟨e :: b.head, b.count + 1⟩) ~
      e :: tab.nodes := entries_set_perm_cons hi (Perm.refl _)
  simp only [grow]
  split_ifs with h1 h2
  · have hw' := hset { (link tab i b e).1.stats with fill := tab.stats.fill + 1 } rfl
      (by rw [if_pos (show b.count + 1 = 1 from h1)]) rfl
    cases hmem : mem.buckets with
    | true =>
      obtain ⟨tab', hr, hw'', hp, hrand⟩ := resize_spec hw' hmem
      exact ⟨0, tab', _, hr, hw'', hp.trans hnodes, hrand, fun _ => rfl, _, rfl⟩
    -- no larger table: the failure leaves the linked node behind
    | false =>
      refine ⟨-Errno.enomem.code, _, [], ?_, hw', hnodes, rfl, fun h => (by cases h), 0, rfl⟩
      simp only [resize, hmem]
      rfl
  · have hw' := hset { (link tab i b e).1.stats with fill := tab.stats.fill + 1 } rfl
      (by rw [if_pos (show b.count + 1 = 1 from h1)]) rfl
    exact ⟨0, _, [], rfl, hw', hnodes, rfl, fun _ => rfl, 0, rfl⟩
  · have hw' := hset (link tab i b e).1.stats rfl
      (by rw [if_neg (show ¬ b.count + 1 = 1 from h1)]; rfl) rfl
    exact ⟨0, _, [], rfl, hw', hnodes, rfl, fun _ => rfl, 0, rfl⟩

theorem exists_match {hash : UInt32} {data : Ptr} {e : HashNode} {l : List HashNode}
    (h : l.find? (isMatch P hash data) = some e) :
    l[l.findIdx (isMatch P hash data)]? = some e ∧ e.hash = hash ∧ P.cmp data e.data = 0 := by
  have hm := find?_some h
  rw [isMatch, Bool.and_eq_true, decide_eq_true_eq, decide_eq_true_eq] at hm
  exact ⟨by rw [← find?_eq_getElem?_findIdx, h], hm⟩

theorem collide_replace_spec (hw : tab.WF P) (hi : tab.buckets[i]? = some b) {data : Ptr}
    {e : HashNode} (he : b.head.find? (isMatch P (hashfunc P tab data) data) = some e) :
    ∃ tab' rest, collide P tab i b (hashfunc P tab data) data e .replace =
        (0, e.data, tab', .acquire (.bucket i) :: dtorEvents P e.data) ∧
      tab'.WF P ∧ tab.nodes ~ e :: rest ∧ tab'.nodes ~ { e with data := data } :: rest ∧
      tab'.random = tab.random := by
  have hbm := mem_of_getElem? hi
  obtain ⟨hj, hhash, -⟩ := exists_match he
  obtain ⟨l₁, l₂, hl, hlen⟩ := exists_split hj
  have hmod : b.head.modify (b.head.findIdx (isMatch P (hashfunc P tab data) data))
      (fun e => { e with data := data }) = l₁ ++ { e with data := data } :: l₂ := by
    rw [← hlen, hl, modify_split]
  have hold : ∀ p ∈ l₁ ++ l₂, p ∈ b.head := by
    intro p hp
    rw [hl, mem_append, mem_cons]
    rcases mem_append.mp hp with h | h <;> simp [h]
  obtain ⟨rest, h1, h2⟩ := entries_set_exchange (E := HashBucket.head) hi
    (show b.head ~ e :: (l₁ ++ l₂) by rw [hl]; exact perm_middle)
    (show HashBucket.head ⟨l₁ ++ { e with data := data } :: l₂, b.count⟩ ~ _ from perm_middle)
  refine ⟨{ tab with
      buckets := tab.buckets.set i ⟨l₁ ++ { e with data := data } :: l₂, b.count⟩
      stats := { tab.stats with replaces := tab.stats.replaces + 1 } },
    rest, by simp only [collide, hmod], ?_, h1.symm, h2, rfl⟩
  -- every node of the bucket but one is an old one
  have hmem : ∀ p ∈ l₁ ++ { e with data := data } :: l₂,
      p = { e with data := data } ∨ p ∈ b.head := by
    intro p hp
    rcases mem_cons.mp (perm_middle.mem_iff.mp hp) with rfl | hp
    · exact .inl rfl
    · exact .inr (hold p hp)
  have hlen' : (l₁ ++ { e with data := data } :: l₂).length = b.head.length := by
    rw [hl]
    simp only [length_append, length_cons]
  refine hw.set (d := ⟨l₁ ++ { e with data := data } :: l₂, b.count⟩) hi rfl rfl rfl ?_ ?_ ?_ ?_ ?_
    (Nat.le_refl _) ?_
  · intro p hp
    rcases hmem p hp with rfl | hp
    · exact hw.placed i b hi e (mem_of_getElem? hj)
    · exact hw.placed i b hi p hp
  · intro p hp
    rcases hmem p hp with rfl | hp
    · exact hhash
    · exact hw.hashed p (mem_nodes hbm hp)
  · simp only [hlen', hw.count b hbm]
  · simp only [hlen']
  · rw [hl]
    simp [occupancy]
  · rw [hlen']
    exact hw.maxchainlen b hbm

theorem insertInternal_spec (hw : tab.WF P) (mem : Mem) (data : Ptr) (op : Mode) :
    ∃ i b, i = tab.index (hashfunc P tab data) ∧ tab.buckets[i]? = some b ∧
      ((∃ e, b.head.find? (isMatch P (hashfunc P tab data) data) = some e ∧
          insertInternal P mem tab data op =
            some (collide P tab i b (hashfunc P tab data) data e op)) ∨
        (b.head.find? (isMatch P (hashfunc P tab data) data) = none ∧ mem.node = none ∧
          insertInternal P mem tab data op =
            some (-Errno.enomem.code, data, tab, [.acquire (.bucket i)])) ∨
        (b.head.find? (isMatch P (hashfunc P tab data) data) = none ∧
          ∃ addr ret tab' n, mem.node = some addr ∧
          insertInternal P mem tab data op = some (ret, data, tab',
            [.acquire (.bucket i), .release (.bucket i), .acquire .table] ++ sweepEvents n ++
              [.release .table]) ∧
          tab'.WF P ∧ tab'.nodes ~ ⟨addr, hashfunc P tab data, data⟩ :: tab.nodes ∧
          tab'.random = tab.random ∧ (mem.buckets = true → ret = 0))) := by
  obtain ⟨b, hb⟩ := hw.bucket (hashfunc P tab data)
  refine ⟨_, b, rfl, hb, ?_⟩
  cases hf : b.head.find? (isMatch P (hashfunc P tab data) data) with
  | some e => exact .inl ⟨e, rfl, by simp only [insertInternal, hb, hf, Option.bind_some]⟩
  | none =>
    refine .inr ?_
    cases hn : mem.node with
    | none => exact .inl ⟨rfl, rfl, by simp only [insertInternal, hb, hf, hn, Option.bind_some]⟩
    | some addr =>
      obtain ⟨ret, tab', ev, hg, hw', hp, hr, hret, n, rfl⟩ := grow_link_spec mem hw hb
        (e := ⟨addr, hashfunc P tab data, data⟩) rfl rfl
      refine .inr ⟨rfl, addr, ret, tab', n, rfl, ?_, hw', hp, hr, hret⟩
      simp only [insertInternal, hb, hf, hn, Option.bind_some, hg, Option.map_some]

end Insert

section Remove
variable {P : Policy} {tab : HashTable}

theorem index_of_isMatch {hash : UInt32} {key : Ptr} {p : HashNode}
    (h : isMatch P hash key p = true) : tab.index p.hash = tab.index hash := by
  rw [isMatch, Bool.and_eq_true, decide_eq_true_eq] at h
  rw [h.1]

theorem find?_nodes (hw : tab.WF P) {key : Ptr} {b : HashBucket}
    (hb : tab.buckets[tab.index (hashfunc P tab key)]? = some b) :
    b.head.find? (isMatch P (hashfunc P tab key) key) =
      tab.nodes.find? (isMatch P (hashfunc P tab key) key) := by
  rw [← head?_filter, ← head?_filter]
  exact congrArg head? (hw.placed.filter_eq hb fun e he => index_of_isMatch he).symm

theorem hashTableLookup_spec (hw : tab.WF P) {key : Ptr} (hk : key ≠ 0) :
    ∃ tab', hashTableLookup P tab key =
        some (match tab.nodes.find? (isMatch P (hashfunc P tab key) key) with
          | some p => (1, p.data)
          | none => (0, 0), tab',
          [.acquire (.bucket (tab.index (hashfunc P tab key))),
            .release (.bucket (tab.index (hashfunc P tab key)))]) ∧
      tab'.WF P ∧ tab'.nodes = tab.nodes ∧ tab'.random = tab.random := by
  obtain ⟨b, hb⟩ := hw.bucket (hashfunc P tab key)
  rw [← find?_nodes hw hb]
  cases hf : b.head.find? (isMatch P (hashfunc P tab key) key) with
  | some p =>
    refine ⟨{ tab with stats := { tab.stats with
        lookups := tab.stats.lookups + 1
        failedLookups := if p.data = 0 then tab.stats.failedLookups + 1
          else tab.stats.failedLookups } }, ?_, hw.congr rfl rfl rfl rfl rfl rfl, rfl, rfl⟩
    simp only [hashTableLookup, hk, if_false, hb, Option.map_some, hf]
  | none =>
    refine ⟨{ tab with stats := { tab.stats with
        failedLookups := tab.stats.failedLookups + 1 } }, ?_, hw.congr rfl rfl rfl rfl rfl rfl,
      rfl, rfl⟩
    simp only [hashTableLookup, hk, if_false, hb, Option.map_some, hf]

theorem hashTableRemove_spec (hw : tab.WF P) {key : Ptr} (hk : key ≠ 0) :
    ∃ tab' ev, hashTableRemove P tab key =
        some ((if tab.nodes.filter (isMatch P (hashfunc P tab key) key) = []
            then -Errno.enoent.code else 0,
          (tab.nodes.filter (isMatch P (hashfunc P tab key) key)).getLast?.map HashNode.data),
          tab', ev) ∧
      tab'.WF P ∧ tab'.nodes = tab.nodes.filter (fun p => !isMatch P (hashfunc P tab key) key p) ∧
      tab'.random = tab.random := by
  obtain ⟨b, hb⟩ := hw.bucket (hashfunc P tab key)
  have hbm := mem_of_getElem? hb
  set gone := isMatch P (hashfunc P tab key) key with hgone
  obtain ⟨l₁, l₂, hl, hlen⟩ := exists_split hb
  have hsum := hw.nodes
  have hfill := hw.fill
  rw [HashTable.nodes, entries, hl] at hsum
  rw [hl] at hfill
  simp only [flatMap_append, flatMap_cons, length_append, countP_append, countP_cons] at hsum hfill
  rw [← occupancy_eq_live] at hfill
  -- the other buckets contribute a constant to both counters
  obtain ⟨st', hu, hn', hf', hm'⟩ := unlinkIf_spec gone b.head [] tab.stats
    (c := (l₁.flatMap HashBucket.head).length + (l₂.flatMap HashBucket.head).length)
    (d := l₁.countP HashBucket.live + l₂.countP HashBucket.live)
    (by simp only [nil_append]; omega) (by simp only [nil_append]; omega)
  simp only [nil_append] at hu hn' hf'
  rw [← hw.count b hbm] at hu
  have hfil : tab.nodes.filter gone = b.head.filter gone :=
    hw.placed.filter_eq hb fun e he => index_of_isMatch he
  rw [hfil]
  refine ⟨{ tab with
      buckets := tab.buckets.set (tab.index (hashfunc P tab key))
        ⟨b.head.filter (fun p => !gone p), (b.head.filter fun p => !gone p).length⟩
      stats := st' }, _, by simp only [hashTableRemove, hk, if_false, hb, Option.bind_some,
        ← hgone, hu, Option.map_some]; rfl, ?_, ?_, rfl⟩
  · have hle : (b.head.filter fun p => !gone p).length ≤ b.head.length := length_filter_le ..
    refine hw.set (d := ⟨b.head.filter (fun p => !gone p), _⟩) hb rfl rfl rfl ?_ ?_ rfl ?_ ?_
      (Nat.le_of_eq hm'.symm) ?_
    · exact fun p hp => hw.placed _ b hb p (mem_of_mem_filter hp)
    · exact fun p hp => hw.hashed p (mem_nodes hbm (mem_of_mem_filter hp))
    · simp only [hn']
      omega
    · simp only [hf']
      omega
    · rw [hm']
      exact Nat.le_trans hle (hw.maxchainlen b hbm)
  · exact hw.placed.entries_set_filter hb (fun e he => index_of_isMatch he) rfl

def purge (pred : Ptr → Bool) (b : HashBucket) : HashBucket :=
  ⟨b.head.filter (fun p => !pred p.dataAddr), (b.head.filter fun p => !pred p.dataAddr).length⟩

theorem removeIfLoop_spec (P : Policy) (pred : Ptr → Bool) (bs : List HashBucket) (i : Nat)
    (st : Stat) (n : Int32) {c d : Nat} (hcount : ∀ b ∈ bs, b.count = b.head.length)
    (hn : st.nodes = c + (entries HashBucket.head bs).length)
    (hf : st.fill = d + bs.countP HashBucket.live) :
    ∃ st' ev, removeIfLoop P pred i bs st n = some (bs.map (purge pred), st',
        n + Int32.ofNat ((entries HashBucket.head bs).countP fun p => pred p.dataAddr), ev) ∧
      st'.nodes = c + (entries HashBucket.head (bs.map (purge pred))).length ∧
      st'.fill = d + (bs.map (purge pred)).countP HashBucket.live ∧
      st'.maxchainlen = st.maxchainlen := by
  -- `c` and `d` are what the buckets before `i` hold
  induction bs generalizing i st n c d with
  | nil =>
    refine ⟨st, [], ?_, hn, hf, rfl⟩
    simp [removeIfLoop, entries]
  | cons b bs ih =>
    simp only [entries, flatMap_cons, length_append] at hn
    rw [countP_cons, ← occupancy_eq_live] at hf
    obtain ⟨st₁, h₁, hn₁, hf₁, hm₁⟩ := unlinkIf_spec (fun p => pred p.dataAddr) b.head [] st
      (c := c + (bs.flatMap HashBucket.head).length) (d := d + bs.countP HashBucket.live)
      (by simp only [nil_append]; omega) (by simp only [nil_append]; omega)
    simp only [nil_append] at h₁ hn₁ hf₁
    obtain ⟨st₂, ev, h₂, hn₂, hf₂, hm₂⟩ := ih (i + 1) st₁
      (n + Int32.ofNat (b.head.filter fun p => pred p.dataAddr).length)
      (c := c + (purge pred b).head.length) (d := d + occupancy (purge pred b).head)
      (fun c hc => hcount c (mem_cons_of_mem _ hc))
      (by simp only [hn₁, entries, purge]; omega) (by simp only [hf₁, purge]; omega)
    refine ⟨st₂, unlinkEvents P i (b.head.filter fun p => pred p.dataAddr) ++ ev, ?_, ?_, ?_,
      hm₂.trans hm₁⟩
    · simp only [removeIfLoop, hcount b mem_cons_self, h₁, Option.bind_some, h₂, Option.map_some,
        map_cons, entries, flatMap_cons, countP_eq_length_filter, filter_append, length_append,
        Int32.ofNat_add, Int32.add_assoc, purge]
    · rw [hn₂]
      simp only [entries, map_cons, flatMap_cons, length_append]
      omega
    · rw [hf₂, map_cons, countP_cons, ← occupancy_eq_live]
      omega

theorem entries_map_purge (pred : Ptr → Bool) (bs : List HashBucket) :
    entries HashBucket.head (bs.map (purge pred)) =
      (entries HashBucket.head bs).filter fun p => !pred p.dataAddr := by
  simp only [entries, flatMap_map, filter_flatMap, purge]

theorem hashTableRemoveIf_spec (hw : tab.WF P) (pred : Ptr → Bool) :
    ∃ tab' ev, hashTableRemoveIf P tab pred =
        some (Int32.ofNat (tab.nodes.countP fun p => pred p.dataAddr), tab', ev) ∧
      tab'.WF P ∧ tab'.nodes = tab.nodes.filter (fun p => !pred p.dataAddr) ∧
      tab'.random = tab.random := by
  obtain ⟨st', ev, h, hn, hf, hm⟩ := removeIfLoop_spec P pred tab.buckets 0 tab.stats 0
    (c := 0) (d := 0) hw.count (by rw [hw.nodes, Nat.zero_add]; rfl)
    (by rw [hw.fill, Nat.zero_add])
  refine ⟨{ tab with buckets := tab.buckets.map (purge pred), stats := st' },
    .acquire .table :: ev ++ [.release .table], ?_, ?_, entries_map_purge pred tab.buckets, rfl⟩
  · simp only [hashTableRemoveIf, h, Option.map_some, Int32.zero_add]
    rfl
  · exact
      { pow := hw.pow
        len := by simp only [length_map, hw.len]
        placed := by
          intro j c hc p hp
          rw [getElem?_map, Option.map_eq_some_iff] at hc
          obtain ⟨b, hb, rfl⟩ := hc
          exact hw.placed j b hb p (mem_of_mem_filter hp)
        hashed := by
          intro p hp
          rw [HashTable.nodes, entries_map_purge] at hp
          exact hw.hashed p (mem_of_mem_filter hp)
        count := by
          intro c hc
          obtain ⟨b, -, rfl⟩ := mem_map.mp hc
          rfl
        nodes := by rw [hn, Nat.zero_add]; rfl
        fill := by rw [hf, Nat.zero_add]
        maxchainlen := by
          intro c hc
          obtain ⟨b, hb, rfl⟩ := mem_map.mp hc
          rw [hm]
          exact Nat.le_trans (length_filter_le ..) (hw.maxchainlen b hb) }

end Remove

end PortableLib.HashTab
