import PortableLib.JobManager.Threads

/-! What holds of all threads together. Each queue of a manager is used as `syncq.h` has it, and
if all jobs are submitted before the call that waits, then the null pointers come last in every
queue. -/

namespace PortableLib.JobManager
open List SyncQ Interleave

variable {S Q J : Type} {n : Nat}

def Event.queued : Event Q J → List (Q × Option J)
  | .queue q e => e.queues.map fun x => (q, x)
  | _ => []

def Event.taken : Event Q J → List (Q × Option J)
  | .queue q e => e.takes.map fun x => (q, x)
  | _ => []

def queued (tr : List (Thread S n × Event Q J)) : List (Q × Option J) :=
  tr.flatMap fun e => e.2.queued

def taken (tr : List (Thread S n × Event Q J)) : List (Q × Option J) :=
  tr.flatMap fun e => e.2.taken

variable [DecidableEq Q] {L : Layout Q n}

@[simp] def place (L : Layout Q n) (q : Q) : Thread S n → Pc Q J n → Place (Option J)
  | .submitter _, .submit q' p => if q' = q then p else .out
  | .worker i, .get _ p => if L.src i = q then p else .out
  | .waiter, .flag q' p _ _ => if q' = q then p else .out
  | _, _ => .out

/-! ## Queues -/

section Queues

variable {m : Manager S Q J n} {t : Thread S n} {pc : Pc Q J n} {q q' : Q}
  {r : Manager S Q J n × Pc Q J n × Event Q J} {p : Place (Option J)}
  {s : Queue (Thread S n) (Option J) × Place (Option J) × SyncQ.Event (Option J)}

theorem on_map_key (q q' : Q) (xs : List (Option J)) :
    on q' (xs.map fun x => (q, x)) = if q = q' then xs else [] := by
  induction xs with
  | nil => exact (ite_self _).symm
  | cons x xs ih =>
    rw [map_cons, on_cons, ih]
    split_ifs
    · rfl
    · rfl

inductive Uses (L : Layout Q n) (t : Thread S n) (m : Manager S Q J n) (pc : Pc Q J n)
    (r : Manager S Q J n × Pc Q J n × Event Q J) : Prop
  | call (q : Q)
      (s : Queue (Thread S n) (Option J) × Place (Option J) × SyncQ.Event (Option J))
      (hnext : SyncQ.next t (m.q q) (place L q t pc) = some s)
      (hq : r.1.q = Function.update m.q q s.1)
      (hev : r.2.2 = .queue q s.2.2) (hplace : place L q t r.2.1 = s.2.1)
      (hothers : ∀ q', q ≠ q' → place L q' t r.2.1 = place L q' t pc)
  | other (hq : r.1.q = m.q) (hqueued : r.2.2.queued = []) (htaken : r.2.2.taken = [])
      (hplace : ∀ q, place L q t r.2.1 = place L q t pc ∨ place L q t pc = .out ∧
        (place L q t r.2.1 = .deqWait ∨ ∃ x, place L q t r.2.1 = .enqWait x))

theorem Uses.inv [Fintype S] [DecidableEq S] {pc : Thread S n → Pc Q J n}
    {E D : List (Q × Option J)}
    (h : Uses L t m (pc t) r) (q : Q)
    (hinv : SyncQ.Inv (m.q q) (fun u => place L q u (pc u)) (on q E) (on q D)) :
    SyncQ.Inv (r.1.q q) (fun u => place L q u (Function.update pc t r.2.1 u))
      (on q (E ++ r.2.2.queued)) (on q (D ++ r.2.2.taken)) := by
  have hupdate : (fun u => place L q u (Function.update pc t r.2.1 u)) =
      Function.update (fun u => place L q u (pc u)) t (place L q t r.2.1) := by
    funext u
    by_cases hu : u = t
    · rw [hu, Function.update_self, Function.update_self]
    · rw [Function.update_of_ne hu, Function.update_of_ne hu]
  rw [hupdate, on_append, on_append]
  cases h with
  | call q₀ s hnext hq hev hplace hothers =>
    rw [hq, hev, Event.queued, Event.taken, on_map_key, on_map_key]
    by_cases h : q₀ = q
    · subst h
      rw [Function.update_self, if_pos rfl, if_pos rfl, hplace]
      exact inv_next hinv hnext
    · rw [Function.update_of_ne (Ne.symm h), if_neg h, if_neg h, append_nil, append_nil,
        hothers q h]
      rw [Function.update_eq_self t fun u => place L q u (pc u)]
      exact hinv
  | other hq hqueued htaken hplace =>
    rw [hq, hqueued, htaken, on_nil, append_nil, append_nil]
    rcases hplace q with hsame | ⟨hout, hbegin⟩
    · rw [hsame, Function.update_eq_self t fun u => place L q u (pc u)]
      exact hinv
    · exact hinv.begin hout hbegin

theorem uses_call {pc' : Pc Q J n} (hs : SyncQ.next t (m.q q) p = some s)
    (hp : ∀ q', place L q' t pc = if q = q' then p else .out)
    (hp' : ∀ q', place L q' t pc' = if q = q' then s.2.1 else .out) :
    Uses L t m pc (m.setQueue q s.1, pc', .queue q s.2.2) := by
  refine .call q s ?_ rfl rfl ?_ fun q' hne => ?_
  · rw [hp, if_pos rfl]
    exact hs
  · exact (hp' q).trans (if_pos rfl)
  · rw [hp, if_neg hne]
    exact (hp' q').trans (if_neg hne)

theorem uses_other (hq : r.1.q = m.q) (hev : r.2.2 = .tau) (hpc : ∀ q, place L q t pc = .out)
    (hpc' : ∀ q, place L q t r.2.1 = .out) : Uses L t m pc r := by
  refine .other hq ?_ ?_ fun q => .inl ?_
  · rw [hev]
    rfl
  · rw [hev]
    rfl
  · rw [hpc, hpc']

theorem uses_begin (hq : r.1.q = m.q) (hqueued : r.2.2.queued = []) (htaken : r.2.2.taken = [])
    (hpc : ∀ q, place L q t pc = .out) (hp : p = .deqWait ∨ ∃ x, p = .enqWait x)
    (hpc' : ∀ q', place L q' t r.2.1 = if q = q' then p else .out) : Uses L t m pc r := by
  refine .other hq hqueued htaken fun q' => ?_
  rw [hpc, hpc' q']
  split_ifs
  · exact .inr ⟨rfl, hp⟩
  · exact .inl rfl

theorem place_afterPut {m₀ : Queue (Thread S n) (Option J)} {done rest : Pc Q J n}
    (hs : SyncQ.next t m₀ p = some s) (hp : p.enqueuing = true)
    (hdone : ∀ q', place L q' t done = .out)
    (hrest : ∀ q', place L q' t rest = if q = q' then s.2.1 else .out) (q' : Q) :
    place L q' t (afterPut done rest s.2.2) = if q = q' then s.2.1 else .out := by
  obtain ⟨-, -, ⟨hout, hend⟩ | ⟨-, hne⟩⟩ := next_enqueuing hp hs
  · rw [hend, hout, ite_self]
    exact hdone q'
  · rw [afterPut_of_ne hne]
    exact hrest q'

theorem place_afterGet {i : Fin n} {m₀ : Queue (Thread S n) (Option J)} {err : Int}
    (hs : SyncQ.next (.worker i) m₀ p = some s) (hp : p.dequeuing = true) (q' : Q) :
    place L q' (.worker i : Thread S n) (afterGet err s.2.1 s.2.2) =
      if L.src i = q' then s.2.1 else .out := by
  obtain ⟨-, -, ⟨hout, z, hend⟩ | ⟨-, hreturns⟩⟩ := next_dequeuing hp hs
  · rw [hend, hout, ite_self]
    cases z with
    | none => rfl
    | some j => rfl
  · rw [afterGet_of_returns hreturns]
    rfl

theorem uses_trans {a : Act J} (htyped : Typed t pc) (hr : trans L t m pc a = some r) :
    Uses L t m pc r := by
  obtain ⟨m', pc', ev⟩ := r
  have htrans : Trans L m t pc a m' pc' ev := trans_inv hr
  cases htrans with
  | submit | balanceUnlock =>
    exact uses_begin rfl rfl rfl (fun _ => rfl) (.inr ⟨some _, rfl⟩) fun _ => rfl
  | beginFlag => exact uses_begin rfl rfl rfl (fun _ => rfl) (.inr ⟨none, rfl⟩) fun _ => rfl
  | run => exact uses_begin rfl rfl rfl (fun _ => rfl) (.inl rfl) fun _ => rfl
  | put hs =>
    exact uses_call hs (fun _ => rfl)
      (place_afterPut hs htyped.1 (fun _ => rfl) fun _ => rfl)
  | get hs => exact uses_call hs (fun _ => rfl) (place_afterGet hs htyped)
  | flag hs =>
    exact uses_call hs (fun _ => rfl)
      (place_afterPut hs htyped.1 (fun _ => rfl) fun _ => rfl)
  | submitAny => exact .other rfl rfl rfl fun _ => .inl rfl
  | balanceLock | balance | post | exit | wait | acknowledge | reap | finish =>
    exact uses_other rfl rfl (fun _ => rfl) fun _ => rfl

theorem mem_payload_of_queued {x : Q × Option J} (h : Uses L t m pc r) (hx : x ∈ r.2.2.queued) :
    x.2 ∈ (place L x.1 t pc).payload := by
  cases h with
  | call q s hnext hq hev hplace hothers =>
    rw [hev] at hx
    obtain ⟨y, hy, rfl⟩ := mem_map.mp hx
    exact mem_payload_of_queues hnext hy
  | other hq hqueued htaken hplace =>
    rw [hqueued] at hx
    exact absurd hx not_mem_nil

theorem payload_submitter {k : S} {x : Option J} (h : Typed (.submitter k : Thread S n) pc)
    (hx : x ∈ (place L q (.submitter k : Thread S n) pc).payload) : x ≠ none := by
  cases pc with
  | submit q' p =>
    simp only [place] at hx
    split_ifs at hx
    · exact h.2 x hx
    · exact absurd hx not_mem_nil
  | _ => exact absurd hx not_mem_nil

theorem payload_waiter {x : Option J} (h : Typed (.waiter : Thread S n) pc)
    (hx : x ∈ (place L q (.waiter : Thread S n) pc).payload) : x = none := by
  cases pc with
  | flag q' p todo err =>
    simp only [place] at hx
    split_ifs at hx
    · exact h.2 x hx
    · exact absurd hx not_mem_nil
  | _ => exact absurd hx not_mem_nil

theorem payload_worker {i : Fin n} {x : Option J} (h : Typed (.worker i : Thread S n) pc) :
    x ∉ (place L q (.worker i : Thread S n) pc).payload := by
  intro hx
  cases pc with
  | get err p =>
    simp only [place] at hx
    split_ifs at hx
    · rw [payload_of_dequeuing h] at hx
      exact absurd hx not_mem_nil
    · exact absurd hx not_mem_nil
  | _ => exact absurd hx not_mem_nil

theorem place_dequeuing (h : Typed t pc) (hp : (place L q t pc).dequeuing = true) :
    ∃ i, t = .worker i ∧ L.src i = q := by
  cases t with
  | worker i =>
    cases pc with
    | get err p =>
      simp only [place] at hp
      split_ifs at hp with hq
      · exact ⟨i, rfl, hq⟩
      · exact Bool.noConfusion hp
    | _ => exact Bool.noConfusion hp
  | submitter k =>
    cases pc with
    | submit q' p =>
      simp only [place] at hp
      split_ifs at hp
      · exact absurd hp (Bool.eq_false_iff.mp (Place.not_dequeuing h.1))
      · exact Bool.noConfusion hp
    | _ => exact Bool.noConfusion hp
  | waiter =>
    cases pc with
    | flag q' p todo err =>
      simp only [place] at hp
      split_ifs at hp
      · exact absurd hp (Bool.eq_false_iff.mp (Place.not_dequeuing h.1))
      · exact Bool.noConfusion hp
    | _ => exact Bool.noConfusion hp

theorem taker_of_taken {x : Q × Option J} (h : Uses L t m pc r) (htyped : Typed t pc)
    (hx : x ∈ r.2.2.taken) : ∃ i, t = .worker i ∧ L.src i = x.1 := by
  cases h with
  | call q s hnext hq hev hplace hothers =>
    rw [hev] at hx
    obtain ⟨y, hy, rfl⟩ := mem_map.mp hx
    exact place_dequeuing htyped (dequeuing_of_takes hnext hy)
  | other hq hqueued htaken hplace =>
    rw [htaken] at hx
    exact absurd hx not_mem_nil

end Queues

/-! ## Any run -/

section Sound

variable [Fintype S] [DecidableEq S] {w : World (Thread S n) (Manager S Q J n) (Pc Q J n)}
  {tr : List (Thread S n × Event Q J)}

structure Sound (L : Layout Q n) (w : World (Thread S n) (Manager S Q J n) (Pc Q J n))
    (tr : List (Thread S n × Event Q J)) : Prop where
  threads : ∀ t, Local L t (w.pc t) (on t tr)
  queues : ∀ q, SyncQ.Inv (w.shared.q q) (fun t => place L q t (w.pc t)) (on q (queued tr))
    (on q (taken tr))
  takers : ∀ e ∈ tr, ∀ x ∈ e.2.taken, ∃ i, e.1 = .worker i ∧ L.src i = x.1

theorem sound_new (L : Layout Q n) (sz : Nat) :
    Sound L (new L sz : World (Thread S n) (Manager S Q J n) (Pc Q J n)) [] where
  threads := local_new L sz
  queues q := by
    apply inv_init
    intro t
    cases t with
    | worker i =>
      change (if L.src i = q then _ else _) = _ ∨ (if L.src i = q then _ else _) = _
      split_ifs
      · exact .inr rfl
      · exact .inl rfl
    | _ => exact .inl rfl
  takers e he := absurd he not_mem_nil

theorem sound_step {t : Thread S n} {a : Act J} {r : Manager S Q J n × Pc Q J n × Event Q J}
    (h : Sound L w tr) (hr : trans L t w.shared (w.pc t) a = some r) :
    Sound L ⟨r.1, Function.update w.pc t r.2.1⟩ (tr ++ [(t, r.2.2)]) where
  threads := by
    refine forall_update (Q := fun u p => Local L u p (on u (tr ++ [(t, r.2.2)]))) ?_ ?_
    · rw [on_append, on_self]
      exact local_trans (h.threads t) hr
    · intro u hu
      rw [on_append, on_of_ne hu.symm, append_nil]
      exact h.threads u
  queues q := by
    have huses := uses_trans (h.threads t).typed hr
    have hinv := huses.inv q (h.queues q)
    unfold queued taken at hinv ⊢
    rw [flatMap_append, flatMap_append, flatMap_singleton, flatMap_singleton]
    exact hinv
  takers := by
    have htyped := (h.threads t).typed
    intro e he x hx
    rcases mem_append.mp he with he | he
    · exact h.takers e he x hx
    · rw [mem_singleton.mp he] at hx ⊢
      exact taker_of_taken (uses_trans htyped hr) htyped hx

omit [Fintype S] [DecidableEq S] in
theorem countP_on_queued (q : Q) (tr : List (Thread S n × Event Q J)) :
    (on q (queued tr)).countP Option.isNone = (tr.map fun e => e.2.flags q).sum := by
  induction tr with
  | nil => rfl
  | cons e tr ih =>
    have hhead : (on q e.2.queued).countP Option.isNone = e.2.flags q := by
      cases e.2 with
      | queue q' ev =>
        rw [Event.queued, on_map_key, Event.flags]
        split_ifs
        · rfl
        · rfl
      | _ => rfl
    rw [map_cons, sum_cons, ← ih, ← hhead, ← countP_append, ← on_append]
    rfl

omit [Fintype S] [DecidableEq S] in
theorem countP_on_taken (q : Q) (tr : List (Thread S n × Event Q J)) :
    (on q (taken tr)).countP Option.isNone = (tr.map fun e => e.2.stops q).sum := by
  induction tr with
  | nil => rfl
  | cons e tr ih =>
    have hhead : (on q e.2.taken).countP Option.isNone = e.2.stops q := by
      cases e.2 with
      | queue q' ev =>
        rw [Event.taken, on_map_key, Event.stops]
        split_ifs
        · rfl
        · rfl
      | _ => rfl
    rw [map_cons, sum_cons, ← ih, ← hhead, ← countP_append, ← on_append]
    rfl

theorem Sound.count_none_queued (h : Sound L w tr) (q : Q) :
    (on q (queued tr)).countP Option.isNone +
      flagsLeft L q (.waiter : Thread S n) (w.pc .waiter) = L.wait.count (.flag q) := by
  have hothers : ∀ t ∈ Finset.univ, t ≠ .waiter → ((on t tr).map (Event.flags q)).sum = 0 := by
    intro t _ ht
    have hflags := (h.threads t).flags q
    cases t with
    | waiter => exact absurd rfl ht
    | _ => exact Nat.add_eq_right.mp hflags
  rw [countP_on_queued, sum_on (Event.flags q),
    Finset.sum_eq_single Thread.waiter hothers fun hne => absurd (Finset.mem_univ _) hne]
  exact (h.threads .waiter).flags q

theorem Sound.count_none_taken (h : Sound L w tr) (q : Q) :
    (on q (taken tr)).countP Option.isNone = ∑ t, stopped L q t (w.pc t) := by
  rw [countP_on_taken, sum_on (Event.stops q)]
  apply Finset.sum_congr rfl
  intro t _
  exact (h.threads t).stops q

end Sound

/-! ## Runs in which the waiting comes last -/

/-- All submitters have returned when the waiting begins, and none is called afterwards. -/
def Disciplined (w : World (Thread S n) (Manager S Q J n) (Pc Q J n)) (i : Thread S n × Act J) :
    Prop :=
  match i.2 with
  | .submit _ _ => w.pc .waiter = .idle
  | .wait => ∀ k, w.pc (.submitter k) = .idle
  | _ => True

instance decidableDisciplined [Fintype S] [DecidableEq J]
    (w : World (Thread S n) (Manager S Q J n) (Pc Q J n)) : ∀ i, Decidable (Disciplined w i)
  | (_, .submit _ _) => inferInstanceAs (Decidable (w.pc .waiter = .idle))
  | (_, .wait) => inferInstanceAs (Decidable (∀ k, w.pc (.submitter k) = .idle))
  | (_, .run _) => isTrue trivial
  | (_, .step) => isTrue trivial

def Flushed (xs : List (Option J)) : Prop := xs.Pairwise fun x y => x = none → y = none

theorem Flushed.append_none {xs ys : List (Option J)} (h : Flushed xs) (hys : ∀ y ∈ ys, y = none) :
    Flushed (xs ++ ys) := by
  refine pairwise_append.mpr ⟨h, ?_, fun _ _ y hy _ => hys y hy⟩
  apply pairwise_of_forall_mem_list
  intro _ _ y hy _
  exact hys y hy

theorem Flushed.append_some {xs ys : List (Option J)}
    (hxs : xs.countP Option.isNone = 0) (hys : ∀ y ∈ ys, y ≠ none) : Flushed (xs ++ ys) := by
  have hxs' : ∀ x ∈ xs ++ ys, x ≠ none := by
    intro x hx
    rcases mem_append.mp hx with hx | hx
    · intro hnone
      exact countP_eq_zero.mp hxs x hx (Option.isNone_iff_eq_none.mpr hnone)
    · exact hys x hx
  apply pairwise_of_forall_mem_list
  intro x hx _ _ hnone
  exact absurd hnone (hxs' x hx)

theorem Flushed.eq_of_initial {xs ys : List (Option J)} (h : Flushed xs) (hpre : ys <+: xs)
    (hcount : ys.countP Option.isNone = xs.countP Option.isNone)
    (hpos : 0 < xs.countP Option.isNone) : ys = xs := by
  obtain ⟨zs, rfl⟩ := hpre
  rw [← hcount] at hpos
  rw [countP_append] at hcount
  obtain ⟨y, hy, hnone⟩ := countP_pos_iff.mp hpos
  have hzs : ∀ z ∈ zs, z = none := fun z hz =>
    (pairwise_append.mp h).2.2 y hy z hz (Option.isNone_iff_eq_none.mp hnone)
  have hzero : zs.countP Option.isNone = zs.length := by
    rw [countP_eq_length]
    intro z hz
    rw [hzs z hz]
    rfl
  have hnil : zs = [] := by
    apply eq_nil_of_length_eq_zero
    omega
  rw [hnil, append_nil]

def Pc.isGone : Pc Q J n → Bool
  | .gone _ => true
  | _ => false

def Reaping (pcs : Fin n → Pc Q J n) (todo : List (Instr Q n)) (err : Int) : Prop :=
  ∃ rs, finRange n = rs ++ todo.filterMap Instr.reaped ∧ (∀ i ∈ rs, (pcs i).isGone = true) ∧
    err = (rs.map fun i => (pcs i).err).sum

def Reaped (pcs : Fin n → Pc Q J n) : Pc Q J n → Prop
  | .wait todo err => Reaping pcs todo err
  | .flag _ _ todo err => Reaping pcs todo err
  | .returned r => (∀ i, (pcs i).isGone = true) ∧ r = cint (∑ i, (pcs i).err)
  | _ => True

omit [DecidableEq Q] in
theorem Reaped.mono {pcs pcs' : Fin n → Pc Q J n} {pc : Pc Q J n} (h : Reaped pcs pc)
    (hsame : ∀ i, (pcs i).isGone = true → pcs' i = pcs i) : Reaped pcs' pc := by
  have hreaping : ∀ todo err, Reaping pcs todo err → Reaping pcs' todo err := by
    rintro todo err ⟨rs, hrs, hgone, herr⟩
    refine ⟨rs, hrs, fun i hi => ?_, ?_⟩
    · rw [hsame i (hgone i hi)]
      exact hgone i hi
    · rw [herr]
      apply congrArg
      apply map_congr_left
      intro i hi
      rw [hsame i (hgone i hi)]
  cases pc with
  | wait todo err => exact hreaping todo err h
  | flag q p todo err => exact hreaping todo err h
  | returned r =>
    have heq : pcs' = pcs := by
      funext i
      exact hsame i (h.1 i)
    rw [heq]
    exact h
  | _ => trivial

section Orderly

variable [Fintype S] [DecidableEq S] {w : World (Thread S n) (Manager S Q J n) (Pc Q J n)}
  {tr : List (Thread S n × Event Q J)} {m : Manager S Q J n} {pc : Pc Q J n}
  {r : Manager S Q J n × Pc Q J n × Event Q J}

structure Orderly (L : Layout Q n) (w : World (Thread S n) (Manager S Q J n) (Pc Q J n))
    (tr : List (Thread S n × Event Q J)) : Prop extends Sound L w tr where
  quiet : w.pc .waiter = .idle ∨ ∀ k, w.pc (.submitter k) = .idle
  flushed : ∀ q, Flushed (on q (queued tr))
  status : ∀ i e, w.shared.status i = some e → w.pc (.worker i) = .gone e
  reaped : Reaped (fun i => w.pc (.worker i)) (w.pc .waiter)

/-! ### Submitters -/

omit [Fintype S] [DecidableEq S] in
theorem trans_submitter {k : S} {a : Act J} (hr : trans L (.submitter k) m pc a = some r) :
    r.1.status = m.status ∧ (pc ≠ .idle ∨ ∃ next j, a = .submit next j) := by
  obtain ⟨m', pc', ev⟩ := r
  have htrans : Trans L m (.submitter k) pc a m' pc' ev := trans_inv hr
  cases htrans with
  | submit | submitAny => exact ⟨rfl, .inr ⟨_, _, rfl⟩⟩
  | balanceLock | balance | balanceUnlock | put =>
    refine ⟨rfl, .inl ?_⟩
    intro hidle
    cases hidle

omit [Fintype S] [DecidableEq S] in
theorem on_queued_snoc (q : Q) (tr : List (Thread S n × Event Q J)) (e : Thread S n × Event Q J) :
    on q (queued (tr ++ [e])) = on q (queued tr) ++ on q e.2.queued := by
  unfold queued
  rw [flatMap_append, flatMap_singleton, on_append]

theorem Orderly.submitter {k : S} {a : Act J} (h : Orderly L w tr)
    (hd : Disciplined w (.submitter k, a))
    (hr : trans L (.submitter k) w.shared (w.pc (.submitter k)) a = some r) :
    Orderly L ⟨r.1, Function.update w.pc (.submitter k) r.2.1⟩ (tr ++ [(.submitter k, r.2.2)]) := by
  obtain ⟨hstatus, hwork⟩ := trans_submitter hr
  have hidle : w.pc .waiter = .idle := by
    rcases hwork with hne | ⟨next, j, rfl⟩
    · exact h.quiet.resolve_right fun hall => hne (hall k)
    · exact hd
  have hwaiter : Function.update w.pc (.submitter k) r.2.1 .waiter = w.pc .waiter := by simp
  have hworker : ∀ i, Function.update w.pc (.submitter k) r.2.1 (.worker i) = w.pc (.worker i) := by
    simp
  have htyped := (h.threads (.submitter k)).typed
  refine ⟨sound_step h.toSound hr, .inl (hwaiter.trans hidle), fun q => ?_, fun i e he => ?_, ?_⟩
  · have hcount := h.count_none_queued q
    rw [hidle] at hcount
    rw [on_queued_snoc]
    refine Flushed.append_some (Nat.add_eq_right.mp hcount) fun y hy => ?_
    obtain ⟨x, hx, rfl⟩ := mem_of_mem_on hy
    exact payload_submitter htyped (mem_payload_of_queued (uses_trans htyped hr) hx)
  · have hold := h.status i e (hstatus ▸ he)
    exact (hworker i).trans hold
  · simp only [hwaiter, hworker]
    exact h.reaped

/-! ### Workers -/

omit [Fintype S] [DecidableEq S] in
theorem trans_worker {i : Fin n} {a : Act J} (hr : trans L (.worker i) m pc a = some r) :
    pc.isGone = false ∧ (r.1.status = m.status ∨
      ∃ e, r.2.1 = .gone e ∧ r.1.status = Function.update m.status i (some e)) := by
  obtain ⟨m', pc', ev⟩ := r
  have htrans : Trans L m (.worker i) pc a m' pc' ev := trans_inv hr
  cases htrans with
  | get | run | post => exact ⟨rfl, .inl rfl⟩
  | exit => exact ⟨rfl, .inr ⟨_, rfl, rfl⟩⟩

theorem Orderly.worker {i : Fin n} {a : Act J} (h : Orderly L w tr)
    (hr : trans L (.worker i) w.shared (w.pc (.worker i)) a = some r) :
    Orderly L ⟨r.1, Function.update w.pc (.worker i) r.2.1⟩ (tr ++ [(.worker i, r.2.2)]) := by
  obtain ⟨hgone, hstatus⟩ := trans_worker hr
  have hwaiter : Function.update w.pc (.worker i) r.2.1 .waiter = w.pc .waiter := by simp
  have hsubmitter : ∀ k,
      Function.update w.pc (.worker i) r.2.1 (.submitter k) = w.pc (.submitter k) := by
    simp
  have hworker : ∀ j, (w.pc (.worker j)).isGone = true →
      Function.update w.pc (.worker i) r.2.1 (.worker j) = w.pc (.worker j) := by
    intro j hj
    refine Function.update_of_ne (fun heq => ?_) _ _
    rw [heq, hgone] at hj
    exact absurd hj nofun
  have htyped := (h.threads (.worker i)).typed
  refine ⟨sound_step h.toSound hr, ?_, fun q => ?_, fun j e he => ?_, ?_⟩
  · simp only [hwaiter, hsubmitter]
    exact h.quiet
  · rw [on_queued_snoc]
    refine (h.flushed q).append_none fun y hy => ?_
    obtain ⟨x, hx, rfl⟩ := mem_of_mem_on hy
    exact absurd (mem_payload_of_queued (uses_trans htyped hr) hx) (payload_worker htyped)
  · have hold : w.shared.status j = some e →
        Function.update w.pc (.worker i) r.2.1 (.worker j) = .gone e := by
      intro hj
      have hpc := h.status j e hj
      rw [hworker j (by rw [hpc]; rfl), hpc]
    rcases hstatus with hsame | ⟨e', hpc, hnew⟩
    · exact hold (hsame ▸ he)
    · by_cases hji : j = i
      · subst hji
        rw [hnew, Function.update_self] at he
        rw [← Option.some.inj he, ← hpc]
        exact Function.update_self _ _ _
      · rw [hnew, Function.update_of_ne hji] at he
        exact hold he
  · simp only [hwaiter]
    exact h.reaped.mono hworker

/-! ### The waiting thread -/

omit [Fintype S] [DecidableEq S] in
theorem trans_waiter {pcs : Fin n → Pc Q J n} {a : Act J}
    (hr : trans L .waiter m pc a = some r) (hreaped : Reaped pcs pc)
    (hstatus : ∀ i e, m.status i = some e → pcs i = .gone e) :
    r.1.status = m.status ∧ Reaped pcs r.2.1 ∧ (pc ≠ .idle ∨ a = .wait) := by
  obtain ⟨m', pc', ev⟩ := r
  have htrans : Trans L m .waiter pc a m' pc' ev := trans_inv hr
  cases htrans with
  | wait => exact ⟨rfl, ⟨[], L.reaps.symm, fun _ hi => absurd hi not_mem_nil, rfl⟩, .inr rfl⟩
  | beginFlag | acknowledge => exact ⟨rfl, hreaped, .inl (by simp)⟩
  | @flag q p todo err s =>
    refine ⟨rfl, ?_, .inl (by simp)⟩
    cases s.2.2 with
    | enqDone => exact hreaped
    | _ => exact hreaped
  | @reap i todo err e he =>
    -- a worker that has ended joins those added up so far
    obtain ⟨rs, hrs, hgone, rfl⟩ := hreaped
    have hi := hstatus i e he
    refine ⟨rfl, ⟨rs ++ [i], ?_, fun j hj => ?_, ?_⟩, .inl (by simp)⟩
    · rw [append_assoc]
      exact hrs
    · rcases mem_append.mp hj with hj | hj
      · exact hgone j hj
      · rw [mem_singleton.mp hj, hi]
        rfl
    · rw [map_append, sum_append, map_singleton, sum_singleton, hi]
      rfl
  | finish =>
    -- every worker has been reaped, so the sum is over all of them
    obtain ⟨rs, hrs, hgone, rfl⟩ := hreaped
    rw [filterMap_nil, append_nil] at hrs
    subst hrs
    refine ⟨rfl, ⟨fun i => hgone i (mem_finRange i), ?_⟩, .inl (by simp)⟩
    rw [← Fin.sum_univ_def]

theorem Orderly.waiter {a : Act J} (h : Orderly L w tr) (hd : Disciplined w (.waiter, a))
    (hr : trans L .waiter w.shared (w.pc .waiter) a = some r) :
    Orderly L ⟨r.1, Function.update w.pc .waiter r.2.1⟩ (tr ++ [(.waiter, r.2.2)]) := by
  obtain ⟨hstatus, hreaped, hwork⟩ := trans_waiter hr h.reaped h.status
  have hidle : ∀ k, w.pc (.submitter k) = .idle := by
    rcases hwork with hne | rfl
    · exact h.quiet.resolve_left hne
    · exact hd
  have hsubmitter : ∀ k,
      Function.update w.pc .waiter r.2.1 (.submitter k) = w.pc (.submitter k) := by
    simp
  have hworker : ∀ i, Function.update w.pc .waiter r.2.1 (.worker i) = w.pc (.worker i) := by
    simp
  have htyped := (h.threads .waiter).typed
  refine ⟨sound_step h.toSound hr, .inr fun k => (hsubmitter k).trans (hidle k), fun q => ?_,
    fun i e he => ?_, ?_⟩
  · rw [on_queued_snoc]
    refine (h.flushed q).append_none fun y hy => ?_
    obtain ⟨x, hx, rfl⟩ := mem_of_mem_on hy
    exact payload_waiter htyped (mem_payload_of_queued (uses_trans htyped hr) hx)
  · have hold := h.status i e (hstatus ▸ he)
    exact (hworker i).trans hold
  · simp only [Function.update_self, hworker]
    exact hreaped

/-! ### All threads -/

theorem orderly_step {t : Thread S n} {a : Act J} (h : Orderly L w tr)
    (hd : Disciplined w (t, a)) (hr : trans L t w.shared (w.pc t) a = some r) :
    Orderly L ⟨r.1, Function.update w.pc t r.2.1⟩ (tr ++ [(t, r.2.2)]) := by
  cases t with
  | submitter k => exact h.submitter hd hr
  | worker i => exact h.worker hr
  | waiter => exact h.waiter hd hr

theorem orderly_new (L : Layout Q n) (sz : Nat) :
    Orderly L (new L sz : World (Thread S n) (Manager S Q J n) (Pc Q J n)) [] where
  toSound := sound_new L sz
  quiet := .inl rfl
  flushed _ := Pairwise.nil
  status _ _ h := absurd h nofun
  reaped := trivial

end Orderly
end PortableLib.JobManager
