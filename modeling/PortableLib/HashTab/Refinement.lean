import PortableLib.HashTab.Operations

/-! Runs of the hash table: the invariant of every reachable state, and the refinement of a set
of items that are told apart by the comparison function. -/

namespace PortableLib.HashTab
open List Chained Run

inductive Op
  | insert (mem : Mem) (data : Ptr)
  | replace (mem : Mem) (data : Ptr)
  | probe (mem : Mem) (data : Ptr)
  | lookup (key : Ptr)
  | remove (key : Ptr)
  | removeIf (pred : Ptr → Bool)

inductive Ret
  | code (c : Int)
  | item (p : Ptr)
  | looked (c : Int) (p : Ptr)
  | removed (c : Int) (p : Option Ptr)
  | count (n : Int)
  deriving DecidableEq, Repr

def exec (P : Policy) (tab : HashTable) : Op → Option (HashTable × Ret × List Event)
  | .insert mem x => (hashTableInsert P mem tab x).map fun r => (r.2.1, .code r.1, r.2.2)
  | .replace mem x => (hashTableReplace P mem tab x).map fun r => (r.2.1, .code r.1, r.2.2)
  | .probe mem x => (hashTableProbe P mem tab x).map fun r => (r.2.1, .item r.1, r.2.2)
  | .lookup x => (hashTableLookup P tab x).map fun r => (r.2.1, .looked r.1.1 r.1.2, r.2.2)
  | .remove x => (hashTableRemove P tab x).map fun r => (r.2.1, .removed r.1.1 r.1.2, r.2.2)
  | .removeIf pred => (hashTableRemoveIf P tab pred).map fun r => (r.2.1, .count r.1.toInt, r.2.2)

def step (P : Policy) (tab : HashTable) (op : Op) : Option (HashTable × Ret) :=
  (exec P tab op).map fun r => (r.1, r.2.1)

section Invariant
variable {P : Policy} {tab : HashTable}

theorem insertInternal_wf (hw : tab.WF P) (mem : Mem) (data : Ptr) (op : Mode) :
    ∃ r, insertInternal P mem tab data op = some r ∧ r.2.2.1.WF P := by
  obtain ⟨i, b, -, hb, h⟩ := insertInternal_spec hw mem data op
  rcases h with ⟨e, he, h⟩ | ⟨-, -, h⟩ | ⟨-, addr, ret, tab', n, -, h, hw', -⟩
  · refine ⟨_, h, ?_⟩
    cases op with
    | nodup => exact hw
    | probe => exact hw
    | replace =>
      obtain ⟨tab', rest, hc, hw', -⟩ := collide_replace_spec hw hb he
      rw [hc]
      exact hw'
  · exact ⟨_, h, hw⟩
  · exact ⟨_, h, hw'⟩

theorem exec_wf (hw : tab.WF P) (op : Op) : ∃ r, exec P tab op = some r ∧ r.1.WF P := by
  cases op with
  | insert mem x =>
    by_cases hx : x = 0
    · exact ⟨_, by simp only [exec, hashTableInsert, if_pos hx, Option.map_some]; rfl, hw⟩
    · obtain ⟨r, hr, hw'⟩ := insertInternal_wf hw mem x .nodup
      exact ⟨_, by simp only [exec, hashTableInsert, if_neg hx, hr, Option.map_some]; rfl, hw'⟩
  | replace mem x =>
    by_cases hx : x = 0
    · exact ⟨_, by simp only [exec, hashTableReplace, if_pos hx, Option.map_some]; rfl, hw⟩
    · obtain ⟨r, hr, hw'⟩ := insertInternal_wf hw mem x .replace
      exact ⟨_, by simp only [exec, hashTableReplace, if_neg hx, hr, Option.map_some]; rfl, hw'⟩
  | probe mem x =>
    by_cases hx : x = 0
    · exact ⟨_, by simp only [exec, hashTableProbe, if_pos hx, Option.map_some]; rfl, hw⟩
    · obtain ⟨r, hr, hw'⟩ := insertInternal_wf hw mem x .probe
      exact ⟨_, by simp only [exec, hashTableProbe, if_neg hx, hr, Option.map_some]; rfl, hw'⟩
  | lookup x =>
    by_cases hx : x = 0
    · exact ⟨_, by simp only [exec, hashTableLookup, if_pos hx, Option.map_some]; rfl, hw⟩
    · obtain ⟨tab', h, hw', -⟩ := hashTableLookup_spec hw hx
      exact ⟨_, by simp only [exec, h, Option.map_some]; rfl, hw'⟩
  | remove x =>
    by_cases hx : x = 0
    · exact ⟨_, by simp only [exec, hashTableRemove, if_pos hx, Option.map_some]; rfl, hw⟩
    · obtain ⟨tab', ev, h, hw', -⟩ := hashTableRemove_spec hw hx
      exact ⟨_, by simp only [exec, h, Option.map_some]; rfl, hw'⟩
  | removeIf pred =>
    obtain ⟨tab', ev, h, hw', -⟩ := hashTableRemoveIf_spec hw pred
    exact ⟨_, by simp only [exec, h, Option.map_some]; rfl, hw'⟩

theorem step_wf (hw : tab.WF P) (op : Op) : ∃ p, step P tab op = some p ∧ p.1.WF P := by
  obtain ⟨r, hr, hw'⟩ := exec_wf hw op
  exact ⟨_, by simp only [step, hr, Option.map_some]; rfl, hw'⟩

/-- From `hash_table_new` on, every sequence of calls completes, so that no assertion of
`remove_node` fails, and leaves a table whose placement, hashes and counters are right. -/
theorem run_wf (P : Policy) {logsize fillmax : Nat} {random : UInt32}
    (hnew : hashTableNew logsize fillmax random = some tab) (ops : List Op) :
    ∃ tab' rets, run (step P) tab ops = some (tab', rets) ∧ tab'.WF P := by
  have hC : StepsMeet (step P) (fun _ _ => True) tab ops :=
    stepsMeet_of_forall fun _ _ _ => trivial
  obtain ⟨q, hq, hw⟩ := run_invariant (I := fun tab => tab.WF P)
    (fun _ op hw _ => step_wf hw op) (hashTableNew_wf P hnew).1 hC
  exact ⟨q.1, q.2, hq, hw⟩

end Invariant

theorem run_wf_two_items :
    ∃ tab tab' rets, hashTableNew 1 40 5 = some tab ∧
      run (step ⟨fun x => (x &&& 3).toUInt32, fun x y => x.toNat - y.toNat, true⟩) tab
        [.insert ⟨some 64, true⟩ 17, .insert ⟨some 96, false⟩ 21, .remove 17,
          .removeIf fun _ => true] = some (tab', rets) ∧
      tab'.WF ⟨fun x => (x &&& 3).toUInt32, fun x y => x.toNat - y.toNat, true⟩ := by
  obtain ⟨tab', rets, h⟩ := run_wf _ (show hashTableNew 1 40 5 = some _ from rfl) _
  exact ⟨_, tab', rets, rfl, h⟩

/-- What the table relies on: items that compare equal hash alike. -/
structure Policy.Lawful (P : Policy) : Prop where
  equiv : Equivalence fun x y => P.cmp x y = 0
  hash : ∀ x y, P.cmp x y = 0 → P.hash x = P.hash y

def same (P : Policy) (x y : Ptr) : Bool := P.cmp x y = 0

def setStep (P : Policy) (s : List Ptr) : Op → List Ptr × Ret
  | .insert _ x => if s.any (same P x) then (s, .code (-Errno.eexist.code)) else (x :: s, .code 0)
  | .replace _ x => (x :: s.filter (fun y => !same P x y), .code 0)
  | .probe _ x =>
    match s.find? (same P x) with
    | some y => (s, .item y)
    | none => (x :: s, .item x)
  | .lookup x =>
    match s.find? (same P x) with
    | some y => (s, .looked 1 y)
    | none => (s, .looked 0 0)
  | .remove x =>
    match s.find? (same P x) with
    | some y => (s.filter fun z => !same P x z, .removed 0 (some y))
    | none => (s, .removed (-Errno.enoent.code) none)
  | .removeIf pred => (s.filter fun y => !pred y, .count (s.countP pred))

def Op.NonNull : Op → Prop
  | .insert _ x | .replace _ x | .probe _ x | .lookup x | .remove x => x ≠ 0
  | .removeIf _ => True

def Op.Allocates : Op → Prop
  | .insert mem _ | .replace mem _ | .probe mem _ => mem.node ≠ none ∧ mem.buckets = true
  | _ => True

/-- A predicate sees the address of a node's data field. It tells the items apart if it answers
there as it does on the item; the count of removed nodes is an `int`. -/
def PredOnItems (tab : HashTable) : Op → Prop
  | .removeIf pred =>
    (∀ p ∈ tab.nodes, pred p.dataAddr = pred p.data) ∧
      tab.nodes.countP (fun p => pred p.data) < 2 ^ 31
  | _ => True

instance : DecidablePred Op.NonNull
  | .insert _ x | .replace _ x | .probe _ x | .lookup x | .remove x =>
    inferInstanceAs (Decidable (x ≠ 0))
  | .removeIf _ => isTrue trivial

instance : DecidablePred Op.Allocates
  | .insert mem _ | .replace mem _ | .probe mem _ =>
    inferInstanceAs (Decidable (mem.node ≠ none ∧ mem.buckets = true))
  | .lookup _ | .remove _ | .removeIf _ => isTrue trivial

instance (tab : HashTable) : DecidablePred (PredOnItems tab)
  | .removeIf pred => inferInstanceAs (Decidable
      ((∀ p ∈ tab.nodes, pred p.dataAddr = pred p.data) ∧
        tab.nodes.countP (fun p => pred p.data) < 2 ^ 31))
  | .insert _ _ | .replace _ _ | .probe _ _ | .lookup _ | .remove _ => isTrue trivial

def HashTable.items (tab : HashTable) : List Ptr := tab.nodes.map HashNode.data

def Distinct (P : Policy) (s : List Ptr) : Prop := s.Pairwise fun x y => same P x y = false

structure Holds (P : Policy) (tab : HashTable) (s : List Ptr) : Prop where
  wf : tab.WF P
  items : tab.items ~ s
  distinct : Distinct P s

section Refinement
variable {P : Policy} {tab : HashTable} {s : List Ptr}

theorem Policy.Lawful.same_comm (hP : P.Lawful) (x y : Ptr) : same P x y = same P y x := by
  simp only [same, decide_eq_decide]
  exact ⟨hP.equiv.symm, hP.equiv.symm⟩

theorem Policy.Lawful.same_of_same (hP : P.Lawful) {x y z : Ptr} (hy : same P x y = true)
    (hz : same P x z = true) : same P y z = true := by
  simp only [same, decide_eq_true_eq] at hy hz ⊢
  exact hP.equiv.trans (hP.equiv.symm hy) hz

theorem isMatch_eq_same (hP : P.Lawful) (hw : tab.WF P) (x : Ptr) {p : HashNode}
    (hp : p ∈ tab.nodes) : isMatch P (hashfunc P tab x) x p = same P x p.data := by
  rw [isMatch, same, hw.hashed p hp, Bool.and_eq_right_iff_imp]
  intro h
  rw [decide_eq_true_eq] at h ⊢
  rw [hashfunc, hashfunc, hP.hash x p.data h]

theorem filter_isMatch (hP : P.Lawful) (hw : tab.WF P) (x : Ptr) :
    (tab.nodes.filter (isMatch P (hashfunc P tab x) x)).map HashNode.data =
      tab.items.filter (same P x) := by
  rw [HashTable.items, filter_map, filter_congr fun p hp => isMatch_eq_same hP hw x hp]
  rfl

theorem filter_not_isMatch (hP : P.Lawful) (hw : tab.WF P) (x : Ptr) :
    (tab.nodes.filter fun p => !isMatch P (hashfunc P tab x) x p).map HashNode.data =
      tab.items.filter fun y => !same P x y := by
  rw [HashTable.items, filter_map,
    filter_congr fun p hp => congrArg (!·) (isMatch_eq_same hP hw x hp)]
  rfl

theorem find?_same_iff (hP : P.Lawful) (hs : Distinct P s) {x y : Ptr} :
    s.find? (same P x) = some y ↔ y ∈ s ∧ same P x y = true := by
  refine ⟨fun h => ⟨mem_of_find?_eq_some h, find?_some h⟩, ?_⟩
  rintro ⟨hy, hxy⟩
  induction s with
  | nil => cases hy
  | cons z s ih =>
    rw [Distinct, pairwise_cons] at hs
    rcases mem_cons.mp hy with rfl | hy
    · exact find?_cons_of_pos hxy
    · rw [find?_cons_of_neg]
      · exact ih hs.2 hy
      · intro hxz
        have := hs.1 y hy
        rw [hP.same_of_same hxz hxy] at this
        cases this

theorem Distinct.perm (hP : P.Lawful) {l : List Ptr} (hs : Distinct P s) (h : l ~ s) :
    Distinct P l :=
  (h.pairwise_iff fun {x y} hxy => (hP.same_comm y x).trans hxy).mpr hs

theorem find?_perm (hP : P.Lawful) {l : List Ptr} (hs : Distinct P s) (h : l ~ s) (x : Ptr) :
    l.find? (same P x) = s.find? (same P x) := by
  refine Option.ext fun y => ?_
  rw [find?_same_iff hP hs, find?_same_iff hP (hs.perm hP h), h.mem_iff]

theorem Holds.find?_eq (hP : P.Lawful) (h : Holds P tab s) (x : Ptr) :
    (tab.nodes.find? (isMatch P (hashfunc P tab x) x)).map HashNode.data =
      s.find? (same P x) := by
  rw [← find?_perm hP h.distinct h.items, ← head?_filter, ← head?_filter, ← head?_map,
    filter_isMatch hP h.wf]

theorem filter_same (hP : P.Lawful) (hs : Distinct P s) (x : Ptr) :
    s.filter (same P x) = (s.find? (same P x)).toList := by
  have hle : (s.filter (same P x)).Pairwise fun _ _ => False :=
    (hs.filter _).imp_of_mem fun {y z} hy hz hyz => by
      rw [hP.same_of_same (mem_filter.mp hy).2 (mem_filter.mp hz).2] at hyz
      cases hyz
  rw [← head?_filter]
  match h : s.filter (same P x) with
  | [] => rfl
  | [y] => rfl
  | y :: z :: l =>
    rw [h] at hle
    exact absurd (rel_of_pairwise_cons hle mem_cons_self) id

theorem Distinct.cons (hs : Distinct P s) {x : Ptr} (hx : s.find? (same P x) = none) :
    Distinct P (x :: s) :=
  pairwise_cons.mpr ⟨fun y hy => Bool.eq_false_iff.mpr (find?_eq_none.mp hx y hy), hs⟩

theorem not_same_of_find?_eq_none {x : Ptr} (hx : s.find? (same P x) = none) :
    s.filter (fun y => !same P x y) = s :=
  filter_eq_self.mpr fun y hy => by rw [Bool.eq_false_iff.mpr (find?_eq_none.mp hx y hy)]; rfl

theorem exchange_same (hP : P.Lawful) (hs : Distinct P s) {x y : Ptr} {l : List Ptr}
    (h : s ~ y :: l) (hxy : same P x y = true) :
    s.filter (fun z => !same P x z) ~ l ∧ Distinct P (x :: l) := by
  have hd := hs.perm hP h.symm
  rw [Distinct, pairwise_cons] at hd
  have hl : ∀ z ∈ l, same P x z = false := by
    intro z hz
    rw [Bool.eq_false_iff]
    intro hxz
    have := hd.1 z hz
    rw [hP.same_of_same hxy hxz] at this
    cases this
  refine ⟨(h.filter _).trans ?_, pairwise_cons.mpr ⟨hl, hd.2⟩⟩
  rw [filter_cons_of_neg (by simp [hxy]), filter_eq_self.mpr fun z hz => by rw [hl z hz]; rfl]

def collideItems (P : Policy) (s : List Ptr) (x : Ptr) : Mode → List Ptr
  | .replace => x :: s.filter fun y => !same P x y
  | _ => s

theorem collide_refines (hP : P.Lawful) (h : Holds P tab s) {x : Ptr} {b : HashBucket}
    {e : HashNode} (hb : tab.buckets[tab.index (hashfunc P tab x)]? = some b)
    (he : b.head.find? (isMatch P (hashfunc P tab x) x) = some e) (op : Mode) :
    ∃ tab' ev, collide P tab (tab.index (hashfunc P tab x)) b (hashfunc P tab x) x e op =
        (if op = .nodup then -Errno.eexist.code else 0, e.data, tab', ev) ∧
      Holds P tab' (collideItems P s x op) := by
  cases op with
  | nodup => exact ⟨tab, _, rfl, h⟩
  | probe => exact ⟨tab, _, rfl, h⟩
  | replace =>
    obtain ⟨tab', rest, hc, hw, h1, h2, hr⟩ := collide_replace_spec h.wf hb he
    have hs : s ~ e.data :: rest.map HashNode.data := h.items.symm.trans (h1.map HashNode.data)
    obtain ⟨hf, hd⟩ := exchange_same hP h.distinct hs (x := x)
      (decide_eq_true (exists_match he).2.2)
    refine ⟨tab', _, hc, hw, (h2.map HashNode.data).trans (hf.symm.cons x), ?_⟩
    exact hd.perm hP (hf.cons x)

theorem insertInternal_refines (hP : P.Lawful) (h : Holds P tab s) {mem : Mem}
    (hm : mem.node ≠ none ∧ mem.buckets = true) (x : Ptr) (op : Mode) :
    (∃ y tab' ev, s.find? (same P x) = some y ∧
      insertInternal P mem tab x op =
        some (if op = .nodup then -Errno.eexist.code else 0, y, tab', ev) ∧
      Holds P tab' (collideItems P s x op)) ∨
    (∃ tab' ev, s.find? (same P x) = none ∧
      insertInternal P mem tab x op = some (0, x, tab', ev) ∧ Holds P tab' (x :: s)) := by
  have hfind := h.find?_eq hP x
  obtain ⟨i, b, rfl, hb, hcase⟩ := insertInternal_spec h.wf mem x op
  rw [← find?_nodes h.wf hb] at hfind
  rcases hcase with ⟨e, he, hi⟩ | ⟨-, hnode, -⟩ |
    ⟨hnone, addr, ret, tab', n, hnode, hi, hw, hp, hr, hret⟩
  · obtain ⟨tab', ev, hc, hh⟩ := collide_refines hP h hb he op
    rw [he] at hfind
    exact .inl ⟨e.data, tab', ev, hfind.symm, by rw [hi, hc], hh⟩
  · exact absurd hnode hm.1
  · rw [hnone] at hfind
    rw [hret hm.2] at hi
    refine .inr ⟨tab', _, hfind.symm, hi, hw, ?_, h.distinct.cons hfind.symm⟩
    exact (hp.map HashNode.data).trans (h.items.cons x)

theorem Holds.removed_eq (hP : P.Lawful) (h : Holds P tab s) (x : Ptr) :
    (tab.nodes.filter (isMatch P (hashfunc P tab x) x)).map HashNode.data =
      (s.find? (same P x)).toList := by
  rw [filter_isMatch hP h.wf, filter_same hP (h.distinct.perm hP h.items),
    find?_perm hP h.distinct h.items]

theorem countP_predOnItems {pred : Ptr → Bool} (hpred : PredOnItems tab (.removeIf pred)) :
    tab.nodes.countP (fun p => pred p.dataAddr) = tab.items.countP pred := by
  rw [HashTable.items, countP_map]
  exact countP_congr fun p hp => by rw [hpred.1 p hp]; rfl

theorem filter_predOnItems {pred : Ptr → Bool} (hpred : PredOnItems tab (.removeIf pred)) :
    (tab.nodes.filter fun p => !pred p.dataAddr).map HashNode.data =
      tab.items.filter fun y => !pred y := by
  rw [HashTable.items, filter_map, filter_congr fun p hp => congrArg (!·) (hpred.1 p hp)]
  rfl

def StepRefines (P : Policy) (tab : HashTable) (s : List Ptr) (op : Op) : Prop :=
  ∃ p, step P tab op = some p ∧ Holds P p.1 (setStep P s op).1 ∧ p.2 = (setStep P s op).2

theorem insert_refines (hP : P.Lawful) (h : Holds P tab s) {mem : Mem}
    (hm : mem.node ≠ none ∧ mem.buckets = true) {x : Ptr} (hx : x ≠ 0) :
    StepRefines P tab s (.insert mem x) := by
  have hany : s.any (same P x) = (s.find? (same P x)).isSome := isSome_find?.symm
  rcases insertInternal_refines hP h hm x .nodup with
    ⟨y, tab', ev, hs, hi, hh⟩ | ⟨tab', ev, hs, hi, hh⟩
  · refine ⟨(tab', .code (-Errno.eexist.code)), ?_, ?_⟩
    · simp only [step, exec, hashTableInsert, if_neg hx, hi, Option.map_some, if_true]
    · simp only [setStep, hany, hs, Option.isSome_some, if_true]
      exact ⟨hh, trivial⟩
  · refine ⟨(tab', .code 0), ?_, ?_⟩
    · simp only [step, exec, hashTableInsert, if_neg hx, hi, Option.map_some]
    · simp only [setStep, hany, hs, Option.isSome_none, Bool.false_eq_true, if_false]
      exact ⟨hh, trivial⟩

theorem replace_refines (hP : P.Lawful) (h : Holds P tab s) {mem : Mem}
    (hm : mem.node ≠ none ∧ mem.buckets = true) {x : Ptr} (hx : x ≠ 0) :
    StepRefines P tab s (.replace mem x) := by
  rcases insertInternal_refines hP h hm x .replace with
    ⟨y, tab', ev, hs, hi, hh⟩ | ⟨tab', ev, hs, hi, hh⟩
  · refine ⟨(tab', .code 0), ?_, hh, rfl⟩
    simp only [step, exec, hashTableReplace, if_neg hx, hi, Option.map_some, reduceCtorEq,
      if_false]
  · refine ⟨(tab', .code 0), ?_, ?_, rfl⟩
    · simp only [step, exec, hashTableReplace, if_neg hx, hi, Option.map_some]
    · simp only [setStep, not_same_of_find?_eq_none hs]
      exact hh

theorem probe_refines (hP : P.Lawful) (h : Holds P tab s) {mem : Mem}
    (hm : mem.node ≠ none ∧ mem.buckets = true) {x : Ptr} (hx : x ≠ 0) :
    StepRefines P tab s (.probe mem x) := by
  rcases insertInternal_refines hP h hm x .probe with
    ⟨y, tab', ev, hs, hi, hh⟩ | ⟨tab', ev, hs, hi, hh⟩
  · refine ⟨(tab', .item y), ?_, ?_⟩
    · simp only [step, exec, hashTableProbe, if_neg hx, hi, Option.map_some, reduceCtorEq,
        if_false, if_true]
    · simp only [setStep, hs]
      exact ⟨hh, trivial⟩
  · refine ⟨(tab', .item x), ?_, ?_⟩
    · simp only [step, exec, hashTableProbe, if_neg hx, hi, Option.map_some, if_true]
    · simp only [setStep, hs]
      exact ⟨hh, trivial⟩

theorem lookup_refines (hP : P.Lawful) (h : Holds P tab s) {x : Ptr} (hx : x ≠ 0) :
    StepRefines P tab s (.lookup x) := by
  obtain ⟨tab', hl, hw, hn, hr⟩ := hashTableLookup_spec h.wf hx
  have hfind := h.find?_eq hP x
  have hh : Holds P tab' s := ⟨hw, by rw [HashTable.items, hn]; exact h.items, h.distinct⟩
  cases hf : tab.nodes.find? (isMatch P (hashfunc P tab x) x) with
  | some p =>
    rw [hf] at hl hfind
    refine ⟨(tab', .looked 1 p.data), by simp only [step, exec, hl, Option.map_some], ?_⟩
    simp only [setStep, ← hfind, Option.map_some]
    exact ⟨hh, trivial⟩
  | none =>
    rw [hf] at hl hfind
    refine ⟨(tab', .looked 0 0), by simp only [step, exec, hl, Option.map_some], ?_⟩
    simp only [setStep, ← hfind, Option.map_none]
    exact ⟨hh, trivial⟩

theorem remove_refines (hP : P.Lawful) (h : Holds P tab s) {x : Ptr} (hx : x ≠ 0) :
    StepRefines P tab s (.remove x) := by
  obtain ⟨tab', ev, hl, hw, hn, hr⟩ := hashTableRemove_spec h.wf hx
  have hitems : tab'.items ~ s.filter fun y => !same P x y := by
    rw [HashTable.items, hn, filter_not_isMatch hP h.wf]
    exact h.items.filter _
  have hh : Holds P tab' (s.filter fun y => !same P x y) := ⟨hw, hitems, h.distinct.filter _⟩
  have hgone := h.removed_eq hP x
  have hnil : tab.nodes.filter (isMatch P (hashfunc P tab x) x) = [] ↔
      (s.find? (same P x)).toList = [] := by rw [← hgone, map_eq_nil_iff]
  simp only [← getLast?_map, hgone, hnil] at hl
  cases hf : s.find? (same P x) with
  | some y =>
    rw [hf] at hl
    refine ⟨(tab', .removed 0 (some y)), ?_, ?_⟩
    · simp only [step, exec, hl, Option.map_some, Option.toList_some, cons_ne_nil, if_false,
        getLast?_singleton]
    · simp only [setStep, hf]
      exact ⟨hh, trivial⟩
  | none =>
    rw [hf] at hl
    refine ⟨(tab', .removed (-Errno.enoent.code) none), ?_, ?_⟩
    · simp only [step, exec, hl, Option.map_some, Option.toList_none, if_true, getLast?_nil]
    · simp only [setStep, hf]
      rw [not_same_of_find?_eq_none hf] at hh
      exact ⟨hh, trivial⟩

theorem removeIf_refines (h : Holds P tab s) {pred : Ptr → Bool}
    (hpred : PredOnItems tab (.removeIf pred)) :
    StepRefines P tab s (.removeIf pred) := by
  obtain ⟨tab', ev, hl, hw, hn, hr⟩ := hashTableRemoveIf_spec h.wf pred
  have hitems : tab'.items ~ s.filter fun y => !pred y := by
    rw [HashTable.items, hn, filter_predOnItems hpred]
    exact h.items.filter _
  have hlt : s.countP pred < 2 ^ 31 := by
    rw [← h.items.countP_eq, HashTable.items, countP_map]
    exact hpred.2
  refine ⟨(tab', .count (s.countP pred)), ?_, ⟨hw, hitems, h.distinct.filter _⟩, rfl⟩
  simp only [step, exec, hl, Option.map_some, countP_predOnItems hpred, h.items.countP_eq,
    Int32.toInt_ofNat_of_lt hlt]

theorem step_refines (hP : P.Lawful) (h : Holds P tab s) (op : Op)
    (hC : PredOnItems tab op ∧ op.NonNull ∧ op.Allocates) : StepRefines P tab s op := by
  obtain ⟨hpred, hx, hm⟩ := hC
  cases op with
  | insert mem x => exact insert_refines hP h hm hx
  | replace mem x => exact replace_refines hP h hm hx
  | probe mem x => exact probe_refines hP h hm hx
  | lookup x => exact lookup_refines hP h hx
  | remove x => exact remove_refines hP h hx
  | removeIf pred => exact removeIf_refines h hpred

/-- Every sequence of calls that meets the condition returns what a set of distinct items would,
and leaves the table with the items of that set. -/
theorem run_refines_set (hP : P.Lawful) {logsize fillmax : Nat} {random : UInt32}
    (hnew : hashTableNew logsize fillmax random = some tab) (ops : List Op)
    (hnull : ∀ op ∈ ops, op.NonNull) (halloc : ∀ op ∈ ops, op.Allocates)
    (hpred : StepsMeet (step P) PredOnItems tab ops) :
    ∃ tab' rets, run (step P) tab ops = some (tab', rets) ∧
      rets = (runTotal (setStep P) [] ops).2 ∧
      tab'.items ~ (runTotal (setStep P) [] ops).1 ∧ Distinct P tab'.items := by
  obtain ⟨hw, hn⟩ := hashTableNew_wf P hnew
  have hinit : Holds P tab [] := ⟨hw, by rw [HashTable.items, hn]; exact Perm.refl _, Pairwise.nil⟩
  obtain ⟨q, hq, hh, hrets⟩ := run_simulates (R := Holds P) (f := setStep P)
    (fun _ _ op hs hC => step_refines hP hs op hC) hinit
    (hpred.and_forall fun op hop => ⟨hnull op hop, halloc op hop⟩)
  exact ⟨q.1, q.2, hq, hrets, hh.items, hh.distinct.perm hP hh.items⟩

end Refinement

def nibblePolicy : Policy where
  hash x := (x &&& 15).toUInt32
  cmp x y := (x &&& 15).toNat - (y &&& 15).toNat
  dtor := false

theorem nibblePolicy_lawful : nibblePolicy.Lawful where
  equiv :=
    { refl := fun x => by simp only [nibblePolicy, sub_self]
      symm := fun {x y} h => by
        simp only [nibblePolicy] at h ⊢
        omega
      trans := fun {x y z} h h' => by
        simp only [nibblePolicy] at h h' ⊢
        omega }
  hash x y h := by
    simp only [nibblePolicy] at h ⊢
    rw [UInt64.toNat_inj.mp (Int.ofNat_inj.mp (Int.sub_eq_zero.mp h))]

def nibbleTable : HashTable := ⟨[.zero, .zero], 2, 40, 5, Stat.zero⟩

theorem run_refines_set_doubling :
    ∃ tab' rets, run (step nibblePolicy) nibbleTable
        [.insert ⟨some 64, true⟩ 17, .insert ⟨some 96, true⟩ 33, .replace ⟨some 96, true⟩ 49,
          .probe ⟨some 128, true⟩ 18, .insert ⟨some 160, true⟩ 20, .lookup 1, .remove 2,
          .removeIf fun _ => true] = some (tab', rets) ∧
      rets = [.code 0, .code (-17), .code 0, .item 18, .code 0, .looked 1 49,
        .removed 0 (some 18), .count 2] := by
  obtain ⟨tab', rets, hrun, hrets, -⟩ := run_refines_set nibblePolicy_lawful
    (show hashTableNew 1 40 5 = some nibbleTable from rfl)
    [.insert ⟨some 64, true⟩ 17, .insert ⟨some 96, true⟩ 33, .replace ⟨some 96, true⟩ 49,
      .probe ⟨some 128, true⟩ 18, .insert ⟨some 160, true⟩ 20, .lookup 1, .remove 2,
      .removeIf fun _ => true]
    (by decide) (by decide) (by decide)
  exact ⟨tab', rets, hrun, hrets.trans (by decide)⟩

/-- A predicate that picks out the only item removes nothing: it is asked about the address of
the node's data field. -/
theorem removeIf_misses_item :
    nibblePolicy.Lawful ∧ hashTableNew 1 40 5 = some nibbleTable ∧
    ∃ ops : List Op, (∀ op ∈ ops, op.NonNull) ∧ (∀ op ∈ ops, op.Allocates) ∧
      (run (step nibblePolicy) nibbleTable ops).map Prod.snd = some [.code 0, .count 0] ∧
      (runTotal (setStep nibblePolicy) [] ops).2 = [.code 0, .count 1] :=
  ⟨nibblePolicy_lawful, rfl, [.insert ⟨some 64, true⟩ 17, .removeIf fun x => x = 17],
    by decide, by decide, by decide, by decide⟩

end PortableLib.HashTab
