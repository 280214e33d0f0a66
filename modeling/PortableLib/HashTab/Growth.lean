import PortableLib.HashTab.Refinement

/-! How a table grows: it doubles when one more bucket in use would be too many of them, so its size
stays within reach of the number of hashes. -/

namespace PortableLib.HashTab
open List Chained Run

section Step
variable {P : Policy} {mem : Mem} {tab tab' : HashTable} {b : HashBucket}

theorem grow_eq (tab : HashTable) (b : HashBucket) : grow mem tab b =
    if b.count = 1 ∧ (tab.stats.fill + 1) * 100 / (tab.size + 1) > tab.fillmax then
      resize mem { tab with stats := { tab.stats with fill := tab.stats.fill + 1 } }
    else some (0, if b.count = 1 then
      { tab with stats := { tab.stats with fill := tab.stats.fill + 1 } } else tab, []) := by
  simp only [grow]
  by_cases h1 : b.count = 1
  · by_cases h2 : (tab.stats.fill + 1) * 100 / (tab.size + 1) > tab.fillmax
    · simp only [h1, h2, if_true, and_self]
    · simp only [h1, h2, if_true, if_false, and_false]
  · simp only [h1, if_false, false_and]

/-- Doubled only if it would be too full otherwise, and with the parameters it was made with. -/
structure Grows (tab tab' : HashTable) : Prop where
  fillmax : tab'.fillmax = tab.fillmax
  random : tab'.random = tab.random
  size : tab'.size = tab.size ∨ tab'.size = tab.size * 2 ∧
    (tab.stats.fill + 1) * 100 / (tab.size + 1) > tab.fillmax

theorem Grows.refl (tab : HashTable) : Grows tab tab := ⟨rfl, rfl, Or.inl rfl⟩

theorem Grows.size_le (h : Grows tab tab') : tab.size ≤ tab'.size := by
  rcases h.size with hs | ⟨hs, -⟩
  · exact hs.ge
  · rw [hs]
    exact Nat.le_mul_of_pos_right _ (by decide)

theorem grow_grows {r : Int × HashTable × List Event} (h : grow mem tab b = some r) :
    Grows tab r.2.1 := by
  rw [grow_eq] at h
  split at h
  case isTrue hfull =>
    rw [resize] at h
    split at h
    · obtain ⟨q, -, rfl⟩ := Option.map_eq_some_iff.mp h
      exact ⟨rfl, rfl, Or.inr ⟨rfl, hfull.2⟩⟩
    · obtain rfl := Option.some.inj h
      exact ⟨rfl, rfl, Or.inl rfl⟩
  case isFalse =>
    obtain rfl := Option.some.inj h
    dsimp only
    split
    · exact ⟨rfl, rfl, Or.inl rfl⟩
    · exact Grows.refl tab

theorem insertInternal_grows {x : Ptr} {op : Mode} {r : InsertResult}
    (h : insertInternal P mem tab x op = some r) : Grows tab r.2.2.1 := by
  simp only [insertInternal, Option.bind_eq_some_iff] at h
  obtain ⟨b, -, h⟩ := h
  split at h
  · obtain rfl := Option.some.inj h
    cases op <;> exact ⟨rfl, rfl, Or.inl rfl⟩
  · split at h
    · obtain rfl := Option.some.inj h
      exact Grows.refl tab
    · obtain ⟨q, hq, rfl⟩ := Option.map_eq_some_iff.mp h
      have := grow_grows hq
      exact ⟨this.fillmax, this.random, this.size⟩

theorem inserts_grows {α : Type*} {x : Ptr} {op : Mode} {a : α} {f : InsertResult → α}
    {q : α × HashTable × List Event} (hq : (if x = 0 then some (a, tab, [])
      else (insertInternal P mem tab x op).map fun r => (f r, r.2.2)) = some q) :
    Grows tab q.2.1 := by
  split_ifs at hq
  · obtain rfl := Option.some.inj hq
    exact Grows.refl tab
  · obtain ⟨r, hr, rfl⟩ := Option.map_eq_some_iff.mp hq
    exact insertInternal_grows hr

theorem exec_grows {op : Op} {r : HashTable × Ret × List Event} (h : exec P tab op = some r) :
    Grows tab r.1 := by
  cases op with
  | insert mem x =>
    obtain ⟨q, hq, rfl⟩ := Option.map_eq_some_iff.mp h
    exact inserts_grows hq
  | replace mem x =>
    obtain ⟨q, hq, rfl⟩ := Option.map_eq_some_iff.mp h
    exact inserts_grows hq
  | probe mem x =>
    obtain ⟨q, hq, rfl⟩ := Option.map_eq_some_iff.mp h
    exact inserts_grows hq
  | lookup x =>
    obtain ⟨q, hq, rfl⟩ := Option.map_eq_some_iff.mp h
    unfold hashTableLookup at hq
    split_ifs at hq
    · obtain rfl := Option.some.inj hq
      exact Grows.refl tab
    · obtain ⟨b, -, rfl⟩ := Option.map_eq_some_iff.mp hq
      dsimp only
      split <;> exact ⟨rfl, rfl, Or.inl rfl⟩
  | remove x =>
    obtain ⟨q, hq, rfl⟩ := Option.map_eq_some_iff.mp h
    unfold hashTableRemove at hq
    split_ifs at hq
    · obtain rfl := Option.some.inj hq
      exact Grows.refl tab
    · simp only [Option.bind_eq_some_iff, Option.map_eq_some_iff] at hq
      obtain ⟨b, -, u, -, rfl⟩ := hq
      exact ⟨rfl, rfl, Or.inl rfl⟩
  | removeIf pred =>
    simp only [exec, hashTableRemoveIf, Option.map_eq_some_iff] at h
    obtain ⟨q, ⟨u, -, rfl⟩, rfl⟩ := h
    exact ⟨rfl, rfl, Or.inl rfl⟩

theorem step_grows {op : Op} {p : HashTable × Ret} (h : step P tab op = some p) :
    Grows tab p.1 := by
  obtain ⟨r, hr, rfl⟩ := Option.map_eq_some_iff.mp h
  exact exec_grows hr

end Step

/-- What calls can make of a table from `hash_table_new`. -/
inductive Reachable (P : Policy) : HashTable → Prop
  | new {logsize fillmax : Nat} {random : UInt32} {tab : HashTable} :
    hashTableNew logsize fillmax random = some tab → Reachable P tab
  | call {tab tab' : HashTable} {op : Op} {ret : Ret} :
    Reachable P tab → step P tab op = some (tab', ret) → Reachable P tab'

section Bounds
variable {P : Policy} {tab tab' : HashTable} {i : Nat} {p : HashNode}

theorem Reachable.calls {rets : List Ret} (h : Reachable P tab) (ops : List Op)
    (hrun : run (step P) tab ops = some (tab', rets)) : Reachable P tab' := by
  induction ops generalizing tab rets with
  | nil =>
    obtain rfl := (Prod.mk.inj (Option.some.inj hrun)).1
    exact h
  | cons op ops ih =>
    simp only [run, Option.bind_eq_some_iff, Option.map_eq_some_iff] at hrun
    obtain ⟨p, hp, q, hq, heq⟩ := hrun
    obtain rfl := (Prod.mk.inj heq).1
    exact ih (h.call hp) hq

theorem Reachable.wf (h : Reachable P tab) : tab.WF P := by
  induction h with
  | new hnew => exact (hashTableNew_wf P hnew).1
  | call _ hstep ih =>
    obtain ⟨q, hq, hw⟩ := step_wf ih _
    rw [hstep] at hq
    obtain rfl := Option.some.inj hq
    exact hw

theorem HashTable.WF.bucket_lt {b : HashBucket} (hw : tab.WF P) (hb : tab.buckets[i]? = some b)
    (hp : p ∈ b.head) : i < 2 ^ 32 := by
  have hi : tab.index p.hash = i := hw.placed i b hb p hp
  rw [← hi]
  exact Nat.lt_of_le_of_lt Nat.and_le_left p.hash.toNat_lt

theorem HashTable.WF.fill_le (hw : tab.WF P) : tab.stats.fill ≤ 2 ^ 32 := by
  have hdrop : (tab.buckets.drop (2 ^ 32)).countP HashBucket.live = 0 := by
    rw [countP_eq_zero]
    intro b hb hlive
    obtain ⟨k, hk⟩ := getElem?_of_mem hb
    rw [getElem?_drop] at hk
    rw [HashBucket.live, Bool.not_eq_true', List.isEmpty_eq_false_iff] at hlive
    obtain ⟨p, hp⟩ := exists_mem_of_ne_nil _ hlive
    have := hw.bucket_lt hk hp
    omega
  rw [hw.fill, ← take_append_drop (2 ^ 32) tab.buckets, countP_append, hdrop, Nat.add_zero]
  exact countP_le_length.trans (length_take_le _ _)

theorem Reachable.fillmax_pos (h : Reachable P tab) : 1 ≤ tab.fillmax := by
  induction h with
  | @new logsize fillmax random tab hnew =>
    simp only [hashTableNew] at hnew
    generalize (if logsize = 0 ∨ 64 ≤ logsize then 10 else logsize) = i at hnew
    split_ifs at hnew with hi hf
    · obtain rfl := Option.some.inj hnew
      exact show 1 ≤ 80 by decide
    · obtain rfl := Option.some.inj hnew
      dsimp only
      omega
  | call _ hstep ih => exact (step_grows hstep).fillmax.symm ▸ ih

theorem Reachable.size_lt (h : Reachable P tab) : tab.size < 2 ^ 39 := by
  induction h with
  | @new logsize fillmax random tab hnew =>
    simp only [hashTableNew] at hnew
    generalize (if logsize = 0 ∨ 64 ≤ logsize then 10 else logsize) = i at hnew
    by_cases hi : i ≤ 30
    · rw [if_pos hi] at hnew
      obtain rfl := Option.some.inj hnew
      exact Nat.pow_lt_pow_right (by decide) (Nat.lt_of_le_of_lt hi (by decide))
    · rw [if_neg hi] at hnew
      cases hnew
  | @call tab tab' op ret h hstep ih =>
    rcases (step_grows hstep).size with hs | ⟨hs, hfull⟩
    · exact hs.symm ▸ ih
    · have hfill := h.wf.fill_le
      have hmax := h.fillmax_pos
      have htwo : 2 ≤ (tab.stats.fill + 1) * 100 / (tab.size + 1) :=
        Nat.lt_of_le_of_lt hmax hfull
      rw [Nat.le_div_iff_mul_le (Nat.succ_pos _)] at htwo
      dsimp only at hs
      omega

end Bounds

end PortableLib.HashTab
