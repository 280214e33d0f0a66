import PortableLib.HashTab.Growth
import PortableLib.HashTab.Iter
import PortableLib.Lib.LockTrace

/-! Lock discipline of the hash table and its iterators: which calls take and give back their
locks in order. -/

namespace PortableLib.HashTab
open List Chained Run LockTrace

def Event.lockStep : Event → Option (Step Lock)
  | .acquire l => some (.acquire l)
  | .release l => some (.release l)
  | .dtor _ => none

def lockSteps (ev : List Event) : List (Step Lock) := ev.filterMap Event.lockStep

/-- One call takes only free locks and leaves every lock free. -/
def LockSafe (ev : List Event) : Prop := Neutral [] (lockSteps ev)

instance (ev : List Event) : Decidable (LockSafe ev) := inferInstanceAs (Decidable (Neutral _ _))

structure State where
  tab : HashTable
  iters : List (Option Iter)

/-- The handle that the caller holds under number `j`; a deleted iterator's handle is `NULL`. -/
def State.iter (s : State) (j : Nat) : Option Iter := s.iters[j]?.join

inductive Call
  | op (op : Op)
  | apply
  | stats
  | iterNew (ok : Bool) (kind : IterKind)
  | iterFirst (j : Nat)
  | iterNext (j : Nat)
  | iterItem (j : Nat)
  | iterDelete (j : Nat)

def perform (P : Policy) (s : State) : Call → Option (State × List Event)
  | .op op => (exec P s.tab op).map fun r => ({ s with tab := r.1 }, r.2.2)
  | .apply => some (s, (hashTableApply s.tab).2)
  | .stats => some (s, (hashTableStats s.tab).2)
  | .iterNew ok kind =>
    (mkIter P s.tab ok kind).map fun r => ({ s with iters := s.iters ++ [r.2.1] }, r.2.2)
  | .iterFirst j =>
    (hashTableIterFirst s.tab (s.iter j)).map fun r =>
      ({ s with iters := s.iters.set j r.2.1 }, r.2.2)
  | .iterNext j =>
    (hashTableIterNext s.tab (s.iter j)).map fun r =>
      ({ s with iters := s.iters.set j r.2.1 }, r.2.2)
  | .iterItem j => (hashTableIterItem (s.iter j)).map fun r => (s, r.2)
  | .iterDelete j =>
    some ({ s with iters := s.iters.set j none }, hashTableIterDelete (s.iter j))

def Inserts (P : Policy) (tab : HashTable) (mem : Mem) (x : Ptr) : Prop :=
  x = 0 ∨ tab.nodes.find? (isMatch P (hashfunc P tab x) x) = none ∧ mem.node ≠ none

def Disciplined (P : Policy) (s : State) : Call → Prop
  | .op (.insert mem x) | .op (.replace mem x) | .op (.probe mem x) => Inserts P s.tab mem x
  | .iterNew ok kind => ok = true → kind ≠ .sorted true ∧ kind ≠ .sorted false
  | .iterNext j => ∀ it ∈ s.iter j, it.atChainEnd = false
  | _ => True

instance (P : Policy) (tab : HashTable) (mem : Mem) (x : Ptr) : Decidable (Inserts P tab mem x) :=
  inferInstanceAs (Decidable (_ ∨ _ ∧ _))

instance (P : Policy) (s : State) : DecidablePred (Disciplined P s)
  | .op (.insert mem x) | .op (.replace mem x) | .op (.probe mem x) =>
    inferInstanceAs (Decidable (Inserts P s.tab mem x))
  | .iterNew ok kind =>
    inferInstanceAs (Decidable (ok = true → kind ≠ .sorted true ∧ kind ≠ .sorted false))
  | .iterNext j => inferInstanceAs (Decidable (∀ it ∈ s.iter j, it.atChainEnd = false))
  | .op (.lookup _) | .op (.remove _) | .op (.removeIf _) | .apply | .stats | .iterFirst _
  | .iterItem _ | .iterDelete _ => isTrue trivial

section Traces

theorem lockSteps_append (ev fv : List Event) :
    lockSteps (ev ++ fv) = lockSteps ev ++ lockSteps fv := filterMap_append ..

theorem lockSteps_dtorEvents (P : Policy) (p : Ptr) : lockSteps (dtorEvents P p) = [] := by
  unfold dtorEvents
  split_ifs <;> rfl

theorem lockSteps_unlinkEvents (P : Policy) (i : Nat) (gone : List HashNode) :
    lockSteps (unlinkEvents P i gone) = [.acquire (.bucket i), .release (.bucket i)] := by
  have h : lockSteps (gone.flatMap fun p => dtorEvents P p.data) = [] := by
    induction gone with
    | nil => rfl
    | cons p gone ih => rw [flatMap_cons, lockSteps_append, lockSteps_dtorEvents, ih]; rfl
  rw [unlinkEvents, lockSteps_append]
  change .acquire (.bucket i) :: lockSteps (gone.flatMap fun p => dtorEvents P p.data) ++ _ = _
  rw [h]
  rfl

theorem neutral_bucket {held : List Lock} {i : Nat} (h : .bucket i ∉ held) :
    Neutral held [.acquire (.bucket i), .release (.bucket i)] :=
  Neutral.section h (neutral_nil _)

theorem neutral_sweepEvents {held : List Lock} (h : ∀ i, .bucket i ∉ held) (n : Nat) :
    Neutral held (lockSteps (sweepEvents n)) := by
  rw [lockSteps, sweepEvents, filterMap_flatMap]
  exact neutral_flatMap fun i _ => neutral_bucket (h i)

theorem lockSafe_table {ev : List Event} (h : Neutral [Lock.table] (lockSteps ev)) :
    LockSafe (.acquire .table :: ev ++ [.release .table]) := by
  rw [LockSafe, lockSteps_append]
  exact Neutral.section (List.not_mem_nil) h

theorem not_bucket_mem_table (i : Nat) : Lock.bucket i ∉ [Lock.table] := by simp

theorem removeIfLoop_neutral {P : Policy} {pred : Ptr → Bool} {bs : List HashBucket} {i : Nat}
    {st : Stat} {n : Int32} {r : List HashBucket × Stat × Int32 × List Event}
    (h : removeIfLoop P pred i bs st n = some r) :
    Neutral [Lock.table] (lockSteps r.2.2.2) := by
  induction bs generalizing i st n r with
  | nil =>
    obtain rfl := Option.some.inj h
    exact neutral_nil _
  | cons b bs ih =>
    simp only [removeIfLoop, Option.bind_eq_some_iff, Option.map_eq_some_iff] at h
    obtain ⟨u, -, q, hq, rfl⟩ := h
    rw [lockSteps_append, lockSteps_unlinkEvents]
    exact (neutral_bucket (not_bucket_mem_table i)).append (ih hq)

theorem lockSafe_nil : LockSafe [] := neutral_nil _

theorem lockSafe_underLock : LockSafe underLock := by decide

/-- An insertion is lock safe exactly if it links a new node: the other ways out of
`insert_internal` keep the bucket lock. -/
theorem insertInternal_lockSafe_iff {P : Policy} {tab : HashTable} (hw : tab.WF P) (mem : Mem)
    (x : Ptr) (op : Mode) {r : InsertResult} (hr : insertInternal P mem tab x op = some r) :
    LockSafe r.2.2.2 ↔
      tab.nodes.find? (isMatch P (hashfunc P tab x) x) = none ∧ mem.node ≠ none := by
  obtain ⟨i, b, rfl, hb, hcase⟩ := insertInternal_spec hw mem x op
  rw [← find?_nodes hw hb]
  rcases hcase with ⟨e, he, hi⟩ | ⟨hnone, hnode, hi⟩ | ⟨hnone, addr, ret, tab', n, hnode, hi, -⟩
  · obtain rfl := Option.some.inj (hr.symm.trans hi)
    -- all three modes leave by `goto _done` with the bucket lock held
    have hheld : ∃ p,
        (collide P tab (tab.index (hashfunc P tab x)) b (hashfunc P tab x) x e op).2.2.2 =
        .acquire (.bucket (tab.index (hashfunc P tab x))) :: p ∧ lockSteps p = [] := by
      cases op with
      | nodup => exact ⟨[], rfl, rfl⟩
      | probe => exact ⟨[], rfl, rfl⟩
      | replace => exact ⟨_, rfl, lockSteps_dtorEvents P e.data⟩
    obtain ⟨p, hp, hp'⟩ := hheld
    have hsteps : lockSteps (.acquire (.bucket (tab.index (hashfunc P tab x))) :: p) =
        .acquire (.bucket (tab.index (hashfunc P tab x))) :: lockSteps p := rfl
    rw [hp, LockSafe, hsteps, hp', he]
    simp [Neutral, locks]
  · obtain rfl := Option.some.inj (hr.symm.trans hi)
    simp [LockSafe, Neutral, lockSteps, Event.lockStep, locks, hnode]
  · obtain rfl := Option.some.inj (hr.symm.trans hi)
    have hsafe : LockSafe ([.acquire (.bucket (tab.index (hashfunc P tab x))),
        .release (.bucket (tab.index (hashfunc P tab x)))] ++
          (.acquire .table :: sweepEvents n ++ [.release .table])) := by
      rw [LockSafe, lockSteps_append]
      exact (neutral_bucket (by simp)).append
        (lockSafe_table (neutral_sweepEvents not_bucket_mem_table n))
    simpa [hnone, hnode] using hsafe

theorem lockSafe_iff_inserts {α : Type*} {P : Policy} {tab : HashTable} (hw : tab.WF P) {mem : Mem}
    {x : Ptr} {op : Mode} {a : α} {f : InsertResult → α} {q : α × HashTable × List Event}
    (hq : (if x = 0 then some (a, tab, [])
      else (insertInternal P mem tab x op).map fun r => (f r, r.2.2)) = some q) :
    LockSafe q.2.2 ↔ Inserts P tab mem x := by
  split_ifs at hq with hx
  · obtain rfl := Option.some.inj hq
    exact iff_of_true (neutral_nil _) (.inl hx)
  · obtain ⟨r, hr, rfl⟩ := Option.map_eq_some_iff.mp hq
    rw [Inserts, or_iff_right hx]
    exact insertInternal_lockSafe_iff hw mem x op hr

theorem exec_lockSafe_iff {P : Policy} {s : State} (hw : s.tab.WF P) (op : Op)
    {r : HashTable × Ret × List Event} (hr : exec P s.tab op = some r) :
    LockSafe r.2.2 ↔ Disciplined P s (.op op) := by
  cases op with
  | insert mem x =>
    obtain ⟨q, hq, rfl⟩ := Option.map_eq_some_iff.mp hr
    exact lockSafe_iff_inserts hw hq
  | replace mem x =>
    obtain ⟨q, hq, rfl⟩ := Option.map_eq_some_iff.mp hr
    exact lockSafe_iff_inserts hw hq
  | probe mem x =>
    obtain ⟨q, hq, rfl⟩ := Option.map_eq_some_iff.mp hr
    exact lockSafe_iff_inserts hw hq
  | lookup x =>
    refine iff_of_true ?_ trivial
    by_cases hx : x = 0
    · simp only [exec, hashTableLookup, if_pos hx, Option.map_some] at hr
      obtain rfl := Option.some.inj hr
      exact neutral_nil _
    · obtain ⟨tab', h, -⟩ := hashTableLookup_spec hw hx
      simp only [exec, h, Option.map_some] at hr
      obtain rfl := Option.some.inj hr
      exact neutral_bucket (by simp)
  | remove x =>
    refine iff_of_true ?_ trivial
    simp only [exec, hashTableRemove, Option.map_eq_some_iff] at hr
    obtain ⟨q, hq, rfl⟩ := hr
    split_ifs at hq with hx
    · obtain rfl := Option.some.inj hq
      exact neutral_nil _
    · simp only [Option.bind_eq_some_iff, Option.map_eq_some_iff] at hq
      obtain ⟨b, -, u, -, rfl⟩ := hq
      rw [LockSafe, lockSteps_unlinkEvents]
      exact neutral_bucket (by simp)
  | removeIf pred =>
    refine iff_of_true ?_ trivial
    simp only [exec, hashTableRemoveIf, Option.map_eq_some_iff] at hr
    obtain ⟨q, ⟨u, hu, rfl⟩, rfl⟩ := hr
    exact lockSafe_table (removeIfLoop_neutral hu)

end Traces

section States
variable {P : Policy} {s : State}

def Iter.WF (tab : HashTable) : Iter → Prop
  | .vanilla _ _ => True
  | .sorted _ max nodes => nodes.length = max
  | .bucket i _ => i < tab.size

structure State.WF (P : Policy) (s : State) : Prop where
  tab : s.tab.WF P
  iters : ∀ it, some it ∈ s.iters → it.WF s.tab

theorem Iter.WF.mono {tab tab' : HashTable} {it : Iter} (h : it.WF tab)
    (hsize : tab.size ≤ tab'.size) : it.WF tab' := by
  cases it with
  | vanilla _ _ => trivial
  | sorted _ _ _ => exact h
  | bucket _ _ => exact Nat.lt_of_lt_of_le h hsize

theorem State.WF.iter (hs : s.WF P) {j : Nat} {it : Iter} (h : s.iter j = some it) :
    it.WF s.tab := by
  rw [State.iter, Option.join_eq_some_iff] at h
  exact hs.iters it (mem_of_getElem? h)

theorem State.WF.set (hs : s.WF P) (j : Nat) {it : Option Iter} (h : ∀ i ∈ it, i.WF s.tab) :
    State.WF P { s with iters := s.iters.set j it } where
  tab := hs.tab
  iters := by
    intro i hi
    rcases mem_or_eq_of_mem_set hi with hi | rfl
    · exact hs.iters i hi
    · exact h i rfl

theorem State.WF.set_null (hs : s.WF P) (j : Nat) :
    State.WF P { s with iters := s.iters.set j none } :=
  hs.set j fun i hi => by cases hi

theorem iterBegin_spec (hs : s.WF P) {it : Iter} (h : it.WF s.tab) :
    ∃ r, iterBegin s.tab it = some r ∧ r.2.WF s.tab := by
  cases it with
  | vanilla _ _ => exact ⟨_, rfl, trivial⟩
  | sorted _ _ _ => exact ⟨_, rfl, h⟩
  | bucket i _ =>
    have hi : i < s.tab.buckets.length := by
      rw [hs.tab.len]
      exact h
    exact ⟨_, by simp only [iterBegin, getElem?_eq_getElem hi, Option.map_some]; rfl, h⟩

theorem iterNext_spec {it : Iter} (h : it.WF s.tab) (hnext : it.atChainEnd = false) :
    ∃ r, iterNext s.tab it = some r ∧ r.2.WF s.tab := by
  cases it with
  | vanilla bucket cur =>
    simp only [iterNext]
    split_ifs
    · exact ⟨_, rfl, trivial⟩
    · exact ⟨_, rfl, trivial⟩
  | sorted index max nodes =>
    simp only [iterNext]
    split_ifs
    · exact ⟨_, rfl, h⟩
    · exact ⟨_, rfl, h⟩
  | bucket i cur =>
    cases cur with
    | nil => cases hnext
    | cons p cur => exact ⟨_, rfl, h⟩

theorem iterItem_spec {it : Iter} (h : it.WF s.tab) : ∃ p, iterItem it = some p := by
  cases it with
  | vanilla bucket cur => exact ⟨_, rfl⟩
  | bucket i cur => exact ⟨_, rfl⟩
  | sorted index max nodes =>
    simp only [iterItem]
    split_ifs with hlt
    · have : index < nodes.length := by
        rw [show nodes.length = max from h]
        exact hlt
      exact ⟨_, by simp only [getElem?_eq_getElem this, Option.map_some]; rfl⟩
    · exact ⟨_, rfl⟩

theorem mkIter_spec (hs : s.WF P) {ok : Bool} {kind : IterKind}
    (h : Disciplined P s (.iterNew ok kind)) :
    ∃ r, mkIter P s.tab ok kind = some r ∧ LockSafe r.2.2 ∧ ∀ it ∈ r.2.1, it.WF s.tab := by
  cases ok with
  | false => exact ⟨_, rfl, lockSafe_underLock, fun it hit => by cases hit⟩
  | true =>
    cases kind with
    | vanilla =>
      exact ⟨_, rfl, lockSafe_underLock, fun it hit => by cases hit; trivial⟩
    | sorted ok =>
      cases ok with
      | true => exact absurd rfl (h rfl).1
      | false => exact absurd rfl (h rfl).2
    | bucket key =>
      obtain ⟨b, hb⟩ := hs.tab.bucket (P.hash key)
      refine ⟨(0, some (.bucket (s.tab.index (P.hash key)) b.head), underLock), ?_,
        lockSafe_underLock, fun it hit => ?_⟩
      · simp only [mkIter, mkIterBy, if_true, iterInit, bucketIterInit, hb, Option.map_some]
        rfl
      · cases hit
        exact and_pred_lt hs.tab.size_pos _

theorem mkIter_sorted_not_lockSafe {tab : HashTable} {ok : Bool}
    {r : Int × Option Iter × List Event} (h : mkIter P tab true (.sorted ok) = some r) :
    ¬ LockSafe r.2.2 := by
  have hev : ∃ ev, r.2.2 = .acquire .table :: .acquire .table :: ev := by
    simp only [mkIter, mkIterBy, if_true, iterInit, sortedIterInit,
      Option.map_eq_some_iff] at h
    obtain ⟨q, hq, rfl⟩ := h
    split_ifs at hq
    all_goals
      obtain rfl := Option.some.inj hq
      exact ⟨_, rfl⟩
  obtain ⟨ev, hev⟩ := hev
  rw [hev]
  simp [LockSafe, Neutral, lockSteps, Event.lockStep, locks]

theorem perform_spec (hs : s.WF P) {c : Call} (hc : Disciplined P s c) :
    ∃ p, perform P s c = some p ∧ p.1.WF P ∧ LockSafe p.2 := by
  cases c with
  | op op =>
    obtain ⟨r, hr, hw⟩ := exec_wf hs.tab op
    refine ⟨({ s with tab := r.1 }, r.2.2), by simp only [perform, hr, Option.map_some], ?_,
      (exec_lockSafe_iff hs.tab op hr).mpr hc⟩
    exact ⟨hw, fun it hit => (hs.iters it hit).mono (exec_grows hr).size_le⟩
  | apply =>
    exact ⟨_, rfl, hs, lockSafe_table (neutral_sweepEvents not_bucket_mem_table _)⟩
  | stats => exact ⟨_, rfl, hs, lockSafe_underLock⟩
  | iterNew ok kind =>
    obtain ⟨r, hr, hsafe, hit⟩ := mkIter_spec hs hc
    refine ⟨({ s with iters := s.iters ++ [r.2.1] }, r.2.2),
      by simp only [perform, hr, Option.map_some], ⟨hs.tab, ?_⟩, hsafe⟩
    intro it h
    rcases mem_append.mp h with h | h
    · exact hs.iters it h
    · exact hit it (mem_singleton.mp h).symm
  | iterFirst j =>
    cases hj : s.iter j with
    | none =>
      refine ⟨({ s with iters := s.iters.set j none }, []), ?_, hs.set_null j, lockSafe_nil⟩
      simp only [perform, hj, hashTableIterFirst, Option.map_some]
    | some it =>
      obtain ⟨r, hr, hw⟩ := iterBegin_spec hs (hs.iter hj)
      refine ⟨({ s with iters := s.iters.set j (some r.2) }, underLock), ?_,
        hs.set j fun i hi => ?_, lockSafe_underLock⟩
      · simp only [perform, hj, hashTableIterFirst, hr, Option.map_some]
      · cases hi
        exact hw
  | iterNext j =>
    cases hj : s.iter j with
    | none =>
      refine ⟨({ s with iters := s.iters.set j none }, []), ?_, hs.set_null j, lockSafe_nil⟩
      simp only [perform, hj, hashTableIterNext, Option.map_some]
    | some it =>
      obtain ⟨r, hr, hw⟩ := iterNext_spec (hs.iter hj) (hc it hj)
      refine ⟨({ s with iters := s.iters.set j (some r.2) }, underLock), ?_,
        hs.set j fun i hi => ?_, lockSafe_underLock⟩
      · simp only [perform, hj, hashTableIterNext, hr, Option.map_some]
      · cases hi
        exact hw
  | iterItem j =>
    cases hj : s.iter j with
    | none =>
      refine ⟨(s, []), ?_, hs, lockSafe_nil⟩
      simp only [perform, hj, hashTableIterItem, Option.map_some]
    | some it =>
      obtain ⟨p, hp⟩ := iterItem_spec (hs.iter hj)
      refine ⟨(s, underLock), ?_, hs, lockSafe_underLock⟩
      simp only [perform, hj, hashTableIterItem, hp, Option.map_some]
  | iterDelete j =>
    refine ⟨_, rfl, hs.set_null j, ?_⟩
    cases s.iter j with
    | none => exact lockSafe_nil
    | some it => exact lockSafe_underLock

theorem disciplined_of_lockSafe (hs : s.WF P) {c : Call} {p : State × List Event}
    (hp : perform P s c = some p) (hsafe : LockSafe p.2) : Disciplined P s c := by
  cases c with
  | op op =>
    obtain ⟨r, hr, rfl⟩ := Option.map_eq_some_iff.mp hp
    exact (exec_lockSafe_iff hs.tab op hr).mp hsafe
  | iterNew ok kind =>
    obtain ⟨r, hr, rfl⟩ := Option.map_eq_some_iff.mp hp
    rintro rfl
    constructor
    · rintro rfl
      exact mkIter_sorted_not_lockSafe hr hsafe
    · rintro rfl
      exact mkIter_sorted_not_lockSafe hr hsafe
  | iterNext j =>
    obtain ⟨r, hr, rfl⟩ := Option.map_eq_some_iff.mp hp
    intro it hj
    rw [Option.mem_def.mp hj] at hr
    match it with
    | .vanilla _ _ => rfl
    | .sorted _ _ _ => rfl
    | .bucket _ (_ :: _) => rfl
    | .bucket _ [] => cases hr
  | apply => trivial
  | stats => trivial
  | iterFirst j => trivial
  | iterItem j => trivial
  | iterDelete j => trivial

theorem lockSafe_flatten {evs : List (List Event)} (h : ∀ ev ∈ evs, LockSafe ev) :
    LockSafe evs.flatten := by
  rw [LockSafe, lockSteps, filterMap_flatten, ← flatMap_def]
  exact neutral_flatMap h

end States

end PortableLib.HashTab
