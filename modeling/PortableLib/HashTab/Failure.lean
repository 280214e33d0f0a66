import PortableLib.HashTab.Growth

/-! What an insertion that reports a failure leaves behind. The node is allocated before anything
is changed, the larger bucket array only after the new node is linked and counted. -/

namespace PortableLib.HashTab
open List

variable {P : Policy} {mem : Mem} {tab : HashTable} {x : Ptr}

/-- `hash_table_insert`, `hash_table_replace` or `hash_table_probe`: whether the result is a
failure, and the table after the call. -/
def insertion (P : Policy) (mem : Mem) (tab : HashTable) (x : Ptr) :
    Mode → Option (Bool × HashTable)
  | .nodup => (hashTableInsert P mem tab x).map fun r => (decide (r.1 < 0), r.2.1)
  | .replace => (hashTableReplace P mem tab x).map fun r => (decide (r.1 < 0), r.2.1)
  | .probe => (hashTableProbe P mem tab x).map fun r => (decide (r.1 = 0), r.2.1)

/-- A new item gets its node, in an empty bucket, and with this bucket the table is too full; but
there is no memory for twice the buckets. -/
def GrowthFails (P : Policy) (mem : Mem) (tab : HashTable) (x : Ptr) : Prop :=
  x ≠ 0 ∧ mem.node ≠ none ∧ mem.buckets = false ∧
    (∃ b, tab.buckets[tab.index (hashfunc P tab x)]? = some b ∧
      b.head.find? (isMatch P (hashfunc P tab x) x) = none ∧ b.count = 0) ∧
    (tab.stats.fill + 1) * 100 / (tab.size + 1) > tab.fillmax

theorem insertion_eq (hx : x ≠ 0) (m : Mode) : insertion P mem tab x m =
    (insertInternal P mem tab x m).map fun r =>
      (if m = .probe then decide (r.1 = 0 → r.2.1 = 0) else decide (r.1 < 0), r.2.2.1) := by
  cases m with
  | nodup =>
    simp only [insertion, hashTableInsert, if_neg hx, Option.map_map]
    rfl
  | replace =>
    simp only [insertion, hashTableReplace, if_neg hx, Option.map_map]
    rfl
  | probe =>
    simp only [insertion, hashTableProbe, if_neg hx, Option.map_map, if_true]
    congr 1
    funext r
    by_cases hr : r.1 = 0
    · simp only [Function.comp_apply, hr, if_true, true_imp_iff]
    · simp only [Function.comp_apply, hr, if_false, false_imp_iff]

theorem grow_code {t : HashTable} {b : HashBucket} {r : Int × HashTable × List Event}
    (hr : grow mem t b = some r) (h : ¬(mem.buckets = false ∧ b.count = 1 ∧
      (t.stats.fill + 1) * 100 / (t.size + 1) > t.fillmax)) : r.1 = 0 := by
  rw [grow_eq] at hr
  split at hr
  case isTrue hfull =>
    rw [resize] at hr
    cases hmem : mem.buckets with
    | false => exact absurd ⟨hmem, hfull⟩ h
    | true =>
      rw [hmem, if_pos rfl] at hr
      obtain ⟨q, -, rfl⟩ := Option.map_eq_some_iff.mp hr
      rfl
  case isFalse =>
    obtain rfl := Option.some.inj hr
    rfl

theorem grow_fails {t : HashTable} {b : HashBucket} (hmem : mem.buckets = false)
    (hfull : b.count = 1 ∧ (t.stats.fill + 1) * 100 / (t.size + 1) > t.fillmax) :
    grow mem t b = some (-Errno.enomem.code,
      { t with stats := { t.stats with fill := t.stats.fill + 1 } }, []) := by
  rw [grow_eq, if_pos hfull, resize, hmem]
  rfl

section Cases
variable {b : HashBucket}

theorem insertion_null {m : Mode} {t : HashTable} (ht : insertion P mem tab 0 m = some (true, t)) :
    t = tab := by
  cases m <;>
  · simp only [insertion, hashTableInsert, hashTableReplace, hashTableProbe, if_true,
      Option.map_some] at ht
    exact (Prod.mk.inj (Option.some.inj ht)).2.symm

theorem insertion_found {e : HashNode} {m : Mode} {t : HashTable} (hx : x ≠ 0)
    (hb : tab.buckets[tab.index (hashfunc P tab x)]? = some b)
    (hf : b.head.find? (isMatch P (hashfunc P tab x) x) = some e)
    (ht : insertion P mem tab x m = some (true, t)) : t = tab := by
  rw [insertion_eq hx] at ht
  simp only [insertInternal, hb, hf, Option.bind_some, Option.map_some] at ht
  obtain ⟨hfail, rfl⟩ := Prod.mk.inj (Option.some.inj ht)
  cases m with
  | nodup => rfl
  | probe => rfl
  | replace =>
    rw [if_neg (by decide)] at hfail
    exact absurd (of_decide_eq_true hfail) (Int.lt_irrefl 0)

theorem growthFails_iff {addr : Ptr} (hx : x ≠ 0)
    (hb : tab.buckets[tab.index (hashfunc P tab x)]? = some b)
    (hf : b.head.find? (isMatch P (hashfunc P tab x) x) = none) (hn : mem.node = some addr) :
    GrowthFails P mem tab x ↔ mem.buckets = false ∧ b.count + 1 = 1 ∧
      (tab.stats.fill + 1) * 100 / (tab.size + 1) > tab.fillmax := by
  constructor
  · rintro ⟨-, -, hmem, ⟨b', hb', -, hc⟩, hfull⟩
    obtain rfl := Option.some.inj (hb.symm.trans hb')
    exact ⟨hmem, by rw [hc], hfull⟩
  · rintro ⟨hmem, hc, hfull⟩
    exact ⟨hx, by rw [hn]; exact Option.some_ne_none addr, hmem, ⟨b, hb, hf, Nat.succ.inj hc⟩,
      hfull⟩

end Cases

/-- A failed insertion leaves the table exactly as it was, unless it has failed to grow it. -/
theorem failed_insertion_unchanged_iff (P : Policy) (mem : Mem) (tab : HashTable) (x : Ptr)
    (m : Mode) : (∀ t, insertion P mem tab x m = some (true, t) → t = tab) ↔
      ¬GrowthFails P mem tab x := by
  by_cases hx : x = 0
  · subst hx
    exact iff_of_true (fun t => insertion_null) fun h => h.1 rfl
  cases hb : tab.buckets[tab.index (hashfunc P tab x)]? with
  | none =>
    refine iff_of_true ?_ ?_
    · intro t ht
      rw [insertion_eq hx] at ht
      simp only [insertInternal, hb, Option.bind_none, Option.map_none] at ht
      cases ht
    · rintro ⟨-, -, -, ⟨b, hb', -⟩, -⟩
      rw [hb] at hb'
      cases hb'
  | some b =>
    cases hf : b.head.find? (isMatch P (hashfunc P tab x) x) with
    | some e =>
      refine iff_of_true (fun t => insertion_found hx hb hf) ?_
      rintro ⟨-, -, -, ⟨b', hb', hf', -⟩, -⟩
      obtain rfl := Option.some.inj (hb.symm.trans hb')
      rw [hf] at hf'
      cases hf'
    | none =>
      rw [insertion_eq hx]
      cases hn : mem.node with
      | none =>
        refine iff_of_true ?_ fun h => h.2.1 hn
        intro t ht
        simp only [insertInternal, hb, hf, hn, Option.bind_some, Option.map_some] at ht
        exact (Prod.mk.inj (Option.some.inj ht)).2.symm
      | some addr =>
        rw [growthFails_iff hx hb hf hn]
        simp only [insertInternal, hb, hf, hn, Option.bind_some, Option.map_map]
        generalize hlink : link tab (tab.index (hashfunc P tab x)) b ⟨addr, hashfunc P tab x, x⟩ = t
        have hcount : t.2.count = b.count + 1 := by rw [← hlink, link]
        have hfill : t.1.stats.fill = tab.stats.fill := by rw [← hlink, link]
        have hsize : t.1.size = tab.size := by rw [← hlink, link]
        have hmax : t.1.fillmax = tab.fillmax := by rw [← hlink, link]
        have hnodes : t.1.stats.nodes = tab.stats.nodes + 1 := by rw [← hlink, link]
        rw [← hcount, ← hfill, ← hsize, ← hmax]
        constructor
        · rintro hunch ⟨hmem, hfull⟩
          -- the node stays, although the result is -ENOMEM
          have heq := hunch { t.1 with stats := { t.1.stats with fill := t.1.stats.fill + 1 } } (by
            rw [grow_fails hmem hfull, Option.map_some]
            cases m <;> rfl)
          have hstats := congrArg (fun t : HashTable => t.stats.nodes) heq
          dsimp only at hstats
          omega
        · intro hroom u hu
          obtain ⟨r, hr, hu⟩ := Option.map_eq_some_iff.mp hu
          have hzero := grow_code hr hroom
          have hfail := (Prod.mk.inj hu).1
          dsimp only [Function.comp_apply] at hfail
          rw [hzero] at hfail
          split at hfail
          · exact absurd (of_decide_eq_true hfail rfl) hx
          · exact absurd (of_decide_eq_true hfail) (Int.lt_irrefl 0)

/-- The first item of a table that is to be at most 1% full: it is in the table, although the result
says that there was no memory. -/
theorem insert_fails_with_item_stored :
    ∃ tab tab' ev, hashTableNew 1 1 5 = some tab ∧
      hashTableInsert nibblePolicy ⟨some 64, false⟩ tab 17 = some (-12, tab', ev) ∧
      tab.items = [] ∧ tab'.items = [17] ∧ tab' ≠ tab :=
  ⟨_, _, _, rfl, rfl, rfl, rfl, by decide⟩

end PortableLib.HashTab
