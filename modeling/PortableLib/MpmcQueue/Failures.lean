import PortableLib.MpmcQueue.Rest

/-! The operations that do not wait fail only for a reason: at some instant of the call the slot of
the next ticket was not yet released, or not yet published. -/

namespace PortableLib.MpmcQueue
open List Interleave Tickets

variable {α Tid : Type} {sz n : Nat}

def InCall (t : Tid) (op : Op α) (tr pre during : List (Tid × Event α)) : Prop :=
  tr = pre ++ (t, .call op) :: during ∧ ∀ d ∈ during, d.1 = t → d.2 = .tau

def FullAt (sz : Nat) (tr : List (Tid × Event α)) : Prop :=
  ∃ hd, tr.filterMap enqNo = range hd ∧ sz ≤ hd ∧ ∀ u x, (u, .deqDone (hd - sz) x) ∉ tr

def EmptyAt (tr : List (Tid × Event α)) : Prop :=
  ∃ tl, tr.filterMap deqNo = range tl ∧ ∀ u, (u, .enqDone tl) ∉ tr

/-- A failure has its reason at some instant of the call. -/
def FailsJustly (sz : Nat) (tr : List (Tid × Event α)) (e : Tid × Event α) : Prop :=
  match e.2 with
  | .enqFull => ∃ x pre during, InCall e.1 (.enq x) tr pre during ∧
      ∃ now, now <+: during ∧ FullAt sz (pre ++ (e.1, .call (.enq x)) :: now)
  | .deqEmpty => ∃ pre during, InCall e.1 .deq tr pre during ∧
      ∃ now, now <+: during ∧ EmptyAt (pre ++ (e.1, .call .deq) :: now)
  | _ => True

def PcHist (sz : Nat) (q : Queue α) (tr : List (Tid × Event α)) (t : Tid) : Pc α → Prop
  | .enqLoad x => ∃ pre during, InCall t (.enq x) tr pre during
  | .enqTurn x hd => (∃ pre during, InCall t (.enq x) tr pre during) ∧ hd ≤ q.head
  | .enqCas x _ => ∃ pre during, InCall t (.enq x) tr pre during
  | .enqReload x hd => ∃ pre during, InCall t (.enq x) tr pre during ∧
      ∃ now, now <+: during ∧ ∃ k, (pre ++ (t, .call (.enq x)) :: now).filterMap enqNo = range k ∧
        hd ≤ k ∧ (k = hd → FullAt sz (pre ++ (t, .call (.enq x)) :: now))
  | .deqLoad => ∃ pre during, InCall t .deq tr pre during
  | .deqTurn tl => (∃ pre during, InCall t .deq tr pre during) ∧ tl ≤ q.tail
  | .deqCas _ => ∃ pre during, InCall t .deq tr pre during
  | .deqReload tl => ∃ pre during, InCall t .deq tr pre during ∧
      ∃ now, now <+: during ∧ ∃ k, (pre ++ (t, .call .deq) :: now).filterMap deqNo = range k ∧
        tl ≤ k ∧ (k = tl → EmptyAt (pre ++ (t, .call .deq) :: now))
  | _ => True

section Calls
variable {q q' : Queue α} {tr pre during : List (Tid × Event α)} {t u : Tid} {op : Op α} {p : Pc α}
  {e : Event α}

theorem InCall.start : InCall t op (tr ++ [(t, .call op)]) tr [] := ⟨rfl, nofun⟩

theorem InCall.snoc (h : InCall t op tr pre during) (he : u = t → e = .tau) :
    InCall t op (tr ++ [(u, e)]) pre (during ++ [(u, e)]) := by
  obtain ⟨rfl, hquiet⟩ := h
  refine ⟨by rw [append_assoc, cons_append], fun d hd => ?_⟩
  rcases mem_snoc.mp hd with hd | rfl
  · exact hquiet d hd
  · exact he

theorem exists_inCall_snoc (h : ∃ pre during, InCall t op tr pre during) (he : u = t → e = .tau) :
    ∃ pre during, InCall t op (tr ++ [(u, e)]) pre during := by
  obtain ⟨pre, during, hcall⟩ := h
  exact ⟨pre, _, hcall.snoc he⟩

theorem PcHist.others (h : PcHist sz q tr t p) (hu : u ≠ t) (hhead : q.head ≤ q'.head)
    (htail : q.tail ≤ q'.tail) : PcHist sz q' (tr ++ [(u, e)]) t p := by
  have he : u = t → e = .tau := fun h => absurd h hu
  cases p with
  | enqLoad x => exact exists_inCall_snoc h he
  | enqTurn x hd => exact ⟨exists_inCall_snoc h.1 he, h.2.trans hhead⟩
  | enqCas x hd => exact exists_inCall_snoc h he
  | enqReload x hd =>
    obtain ⟨pre, during, hcall, now, hnow, hseen⟩ := h
    exact ⟨pre, _, hcall.snoc he, now, hnow.trans (prefix_append ..), hseen⟩
  | deqLoad => exact exists_inCall_snoc h he
  | deqTurn tl => exact ⟨exists_inCall_snoc h.1 he, h.2.trans htail⟩
  | deqCas tl => exact exists_inCall_snoc h he
  | deqReload tl =>
    obtain ⟨pre, during, hcall, now, hnow, hseen⟩ := h
    exact ⟨pre, _, hcall.snoc he, now, hnow.trans (prefix_append ..), hseen⟩
  | _ => trivial

theorem InCall.count_le (h : InCall t op tr pre during) {now : List (Tid × Event α)}
    (hnow : now <+: during) {no : Tid × Event α → Option Nat} {i k : Nat}
    (hi : (pre ++ (t, .call op) :: now).filterMap no = range i)
    (hk : tr.filterMap no = range k) : i ≤ k := by
  have hpre : pre ++ (t, .call op) :: now <+: tr := by
    rw [h.1, prefix_append_right_inj, cons_prefix_cons]
    exact ⟨rfl, hnow⟩
  have hle := (hpre.filterMap no).length_le
  rwa [hi, hk, length_range, length_range] at hle

end Calls

section Steps
variable {w : World Tid (Queue α) (Pc α)} {tr : List (Tid × Event α)} {t : Tid}

theorem fullAt_of_turn (h : Tracked (2 ^ n) w tr)
    (hturn : w.shared.turn (w.shared.head % 2 ^ n) ≠ 2 * (w.shared.head / 2 ^ n)) :
    FullAt (2 ^ n) tr := by
  have hunpub : ¬ Published (2 ^ n) w.shared w.shared.head := fun hpub =>
    Nat.lt_irrefl _ (h.enq.done _ hpub)
  have hbusy := (free_iff (Nat.two_pow_pos n) hunpub).not.mp hturn
  obtain ⟨hle, hnot⟩ := Classical.not_imp.mp hbusy
  exact ⟨w.shared.head, h.inv.enqNos, hle, fun u x hmem => hnot (h.inv.done u _ x hmem)⟩

theorem emptyAt_of_turn (h : Tracked (2 ^ n) w tr)
    (hturn : w.shared.turn (w.shared.tail % 2 ^ n) ≠ 2 * (w.shared.tail / 2 ^ n) + 1) :
    EmptyAt tr := by
  have hnot : ¬ Released (2 ^ n) w.shared w.shared.tail := fun hrel =>
    Nat.lt_irrefl _ (h.deq.done _ hrel)
  refine ⟨w.shared.tail, h.inv.deqNos, fun u hmem => ?_⟩
  have hpub := h.published u _ hmem
  rw [Published] at hpub
  rw [Released] at hnot
  omega

structure Watched (sz : Nat) (w : World Tid (Queue α) (Pc α)) (tr : List (Tid × Event α)) :
    Prop where
  tracked : Tracked sz w tr
  calls : ∀ t, PcHist sz w.shared tr t (w.pc t)
  fails : Justified (FailsJustly sz) tr

theorem watched_own (h : Watched (2 ^ n) w tr) {a : Act α} {r : Queue α × Pc α × Event α}
    (hr : trans (2 ^ n) t w.shared (w.pc t) a = some r) :
    PcHist (2 ^ n) r.1 (tr ++ [(t, r.2.2)]) t r.2.1 ∧ FailsJustly (2 ^ n) tr (t, r.2.2) := by
  obtain ⟨q', p', ev⟩ := r
  have hstep := trans_inv hr
  have hist := h.calls t
  simp only at hstep ⊢
  generalize w.pc t = pc at hstep hist
  cases hstep with
  | call op =>
    refine ⟨?_, trivial⟩
    cases op with
    | enq x => exact ⟨tr, [], InCall.start⟩
    | deq => exact ⟨tr, [], InCall.start⟩
    | enqWait x => trivial
    | deqWait => trivial
  | enqLoad => exact ⟨⟨exists_inCall_snoc hist fun _ => rfl, Nat.le_refl _⟩, trivial⟩
  | enqFree hturn => exact ⟨exists_inCall_snoc hist.1 fun _ => rfl, trivial⟩
  | enqBusy hturn =>
    rw [idx_two_pow, lap, Nat.mul_comm] at hturn
    obtain ⟨⟨pre, during, hcall⟩, hle⟩ := hist
    refine ⟨⟨pre, _, hcall.snoc fun _ => rfl, during, prefix_append .., w.shared.head, ?_, hle, ?_⟩,
      trivial⟩
    · rw [← hcall.1]
      exact h.tracked.inv.enqNos
    · -- the turn that was read is that of the head still
      rintro rfl
      rw [← hcall.1]
      exact fullAt_of_turn h.tracked hturn
  | enqLose => exact ⟨⟨exists_inCall_snoc hist fun _ => rfl, Nat.le_refl _⟩, trivial⟩
  | enqFail heq =>
    obtain ⟨pre, during, hcall, now, hnow, k, hk, hle, hfull⟩ := hist
    -- the head has not moved since it was loaded
    have hke : k = w.shared.head :=
      Nat.le_antisymm (hcall.count_le hnow hk h.tracked.inv.enqNos) (heq ▸ hle)
    exact ⟨trivial, _, pre, during, hcall, now, hnow, hfull (hke.trans heq.symm)⟩
  | enqRetry =>
    obtain ⟨pre, during, hcall, -⟩ := hist
    exact ⟨⟨⟨pre, _, hcall.snoc fun _ => rfl⟩, Nat.le_refl _⟩, trivial⟩
  | deqLoad => exact ⟨⟨exists_inCall_snoc hist fun _ => rfl, Nat.le_refl _⟩, trivial⟩
  | deqFilled hturn => exact ⟨exists_inCall_snoc hist.1 fun _ => rfl, trivial⟩
  | deqVacant hturn =>
    rw [idx_two_pow, lap, Nat.mul_comm, Nat.add_comm] at hturn
    obtain ⟨⟨pre, during, hcall⟩, hle⟩ := hist
    refine ⟨⟨pre, _, hcall.snoc fun _ => rfl, during, prefix_append .., w.shared.tail, ?_, hle, ?_⟩,
      trivial⟩
    · rw [← hcall.1]
      exact h.tracked.inv.deqNos
    · rintro rfl
      rw [← hcall.1]
      exact emptyAt_of_turn h.tracked hturn
  | deqLose => exact ⟨⟨exists_inCall_snoc hist fun _ => rfl, Nat.le_refl _⟩, trivial⟩
  | deqFail heq =>
    obtain ⟨pre, during, hcall, now, hnow, k, hk, hle, hempty⟩ := hist
    have hke : k = w.shared.tail :=
      Nat.le_antisymm (hcall.count_le hnow hk h.tracked.inv.deqNos) (heq ▸ hle)
    exact ⟨trivial, pre, during, hcall, now, hnow, hempty (hke.trans heq.symm)⟩
  | deqRetry =>
    obtain ⟨pre, during, hcall, -⟩ := hist
    exact ⟨⟨⟨pre, _, hcall.snoc fun _ => rfl⟩, Nat.le_refl _⟩, trivial⟩
  | _ => exact ⟨trivial, trivial⟩

theorem watched_new (n : Nat) (x₀ : α) :
    Watched (2 ^ n) (new x₀ : World Tid (Queue α) (Pc α)) [] :=
  ⟨tracked_new n x₀, fun _ => trivial, justified_nil _⟩

variable [DecidableEq Tid]

theorem watched_step (h : Watched (2 ^ n) w tr) {a : Act α} {r : Queue α × Pc α × Event α}
    (hr : trans (2 ^ n) t w.shared (w.pc t) a = some r) :
    Watched (2 ^ n) ⟨r.1, Function.update w.pc t r.2.1⟩ (tr ++ [(t, r.2.2)]) := by
  obtain ⟨hown, hjust⟩ := watched_own h hr
  obtain ⟨henq, hdeq⟩ := trans_moves (h.tracked.inv.thread t) hr
  exact ⟨tracked_step h.tracked hr, forall_update hown fun u hu =>
    (h.calls u).others (Ne.symm hu) henq.le hdeq.le, h.fails.snoc hjust⟩

end Steps

/-- A thread calls `op` and runs alone until the call returns with the event `e`. -/
def CallReturns [DecidableEq Tid] (sz : Nat) (w : World Tid (Queue α) (Pc α)) (t : Tid) (op : Op α)
    (e : Event α) : Prop :=
  ∃ m w' tr, exec (trans sz) w ((t, .call op) :: replicate m (t, .step)) =
    some (w', tr ++ [(t, e)]) ∧ w'.pc t = .idle

section Alone
variable [DecidableEq Tid] {w : World Tid (Queue α) (Pc α)} {t : Tid} {op : Op α} {e : Event α}

theorem exec_solo (m : Nat) (w : World Tid (Queue α) (Pc α)) (t : Tid) :
    exec (trans sz) w (replicate m (t, .step)) = (solo sz m w.shared (w.pc t)).map fun s =>
      (⟨s.1, Function.update w.pc t s.2.1⟩, s.2.2.map (Prod.mk t)) := by
  induction m generalizing w with
  | zero =>
    rw [solo, Option.map_some, Function.update_eq_self]
    rfl
  | succ m ih =>
    have hstep : step (trans sz) w (t, .step) = (next sz w.shared (w.pc t)).map fun r =>
        (⟨r.1, Function.update w.pc t r.2.1⟩, (t, r.2.2)) := rfl
    simp only [exec] at ih
    rw [exec, replicate_succ, Run.run, hstep, solo]
    cases next sz w.shared (w.pc t) with
    | none => rfl
    | some r =>
      rw [Option.map_some, Option.bind_some, Option.bind_some, ih, Option.map_map, Option.map_map]
      simp only [Function.update_self, Function.update_idem]
      rfl

theorem start_ne_idle (op : Op α) : op.start ≠ .idle := by
  cases op <;> exact nofun

theorem exec_call (hidle : w.pc t = .idle) (m : Nat) :
    exec (trans sz) w ((t, .call op) :: replicate m (t, .step)) =
      (solo sz m w.shared op.start).map fun s =>
        (⟨s.1, Function.update w.pc t s.2.1⟩, (t, .call op) :: s.2.2.map (Prod.mk t)) := by
  have hstep : step (trans sz) w (t, .call op) =
      some (⟨w.shared, Function.update w.pc t op.start⟩, (t, .call op)) := by
    rw [step, hidle]
    rfl
  have hsolo := @exec_solo _ _ sz _ m ⟨w.shared, Function.update w.pc t op.start⟩ t
  rw [exec] at hsolo
  rw [exec, Run.run, hstep, Option.bind_some, hsolo, Option.map_map]
  simp only [Function.update_self, Function.update_idem]
  rfl

theorem callReturns_iff (hidle : w.pc t = .idle) :
    CallReturns sz w t op e ↔ Returns sz w.shared op e := by
  constructor
  · rintro ⟨m, w', tr, hrun, hend⟩
    rw [exec_call hidle] at hrun
    obtain ⟨⟨q', p, es⟩, hs, heq⟩ := Option.map_eq_some_iff.mp hrun
    obtain ⟨rfl, htr⟩ := Prod.mk.inj heq
    have hp : Function.update w.pc t p t = .idle := hend
    rw [Function.update_self] at hp
    subst hp
    rcases eq_nil_or_concat es with rfl | ⟨es', e', rfl⟩
    · -- no step has been taken
      cases m with
      | zero =>
        simp only [solo, Option.some.injEq, Prod.mk.injEq] at hs
        exact absurd hs.2.1 (start_ne_idle op)
      | succ m =>
        rw [solo] at hs
        obtain ⟨r, -, hr⟩ := Option.bind_eq_some_iff.mp hs
        obtain ⟨s, -, hcons⟩ := Option.map_eq_some_iff.mp hr
        cases (Prod.mk.inj (Prod.mk.inj hcons).2).2
    · rw [concat_eq_append, map_append, ← cons_append] at htr
      obtain ⟨-, he⟩ := append_inj' htr rfl
      obtain ⟨-, rfl⟩ := Prod.mk.inj (cons.inj he).1
      rw [concat_eq_append] at hs
      exact ⟨m, q', es', hs⟩
  · rintro ⟨m, q', es, hs⟩
    refine ⟨m, ⟨q', Function.update w.pc t .idle⟩, (t, .call op) :: es.map (Prod.mk t), ?_, ?_⟩
    · rw [exec_call hidle, hs, Option.map_some, map_append]
      rfl
    · exact Function.update_self ..

end Alone

section Runs
variable [DecidableEq Tid] {x₀ : α} {w : World Tid (Queue α) (Pc α)} {tr : List (Tid × Event α)}
  {sched : List (Tid × Act α)}

/-- Failures have their reason at some instant of the call; and with nobody else at work, an
enqueue fails exactly on a queue with `sz` items, and a dequeue exactly on an empty one. -/
theorem mpmc_failures_justified (hrun : exec (trans (2 ^ n)) (new x₀) sched = some (w, tr)) :
    Justified (FailsJustly (2 ^ n)) tr ∧
      ((∀ u, w.pc u = .idle) → ∀ t,
        (∀ x, CallReturns (2 ^ n) w t (.enq x) .enqFull ↔ stored (2 ^ n) w.shared = 2 ^ n) ∧
        (∀ x, CallReturns (2 ^ n) w t (.enq x) (.enqDone w.shared.head) ↔
          stored (2 ^ n) w.shared ≠ 2 ^ n) ∧
        (CallReturns (2 ^ n) w t .deq .deqEmpty ↔ stored (2 ^ n) w.shared = 0) ∧
        ((∃ x, CallReturns (2 ^ n) w t .deq (.deqDone w.shared.tail x)) ↔
          stored (2 ^ n) w.shared ≠ 0)) := by
  have hwatched : Watched (2 ^ n) w tr :=
    exec_invariant (I := Watched (2 ^ n)) (fun _ _ _ _ _ h hr => watched_step h hr)
      (watched_new n x₀) hrun
  refine ⟨hwatched.fails, fun hidle t => ?_⟩
  have hpos := Nat.two_pow_pos n
  have hsettled := settled_of_idle hwatched.tracked (hidle ·)
  have hput := hsettled.put_le hpos
  have hgot := hsettled.got_le
  have hhead := hsettled.turn_even_iff hpos (Nat.le_refl _)
  have htail := hsettled.turn_odd_iff (k := w.shared.tail)
  rw [Nat.mul_comm] at hhead htail
  rw [Nat.add_comm] at htail
  simp only [callReturns_iff (hidle t), returns_enqFull_iff, returns_enqDone_iff,
    returns_deqEmpty_iff, returns_deqDone_iff, idx_two_pow, lap, hsettled.stored_eq hpos, ne_eq,
    hhead, htail]
  exact ⟨fun _ => by omega, fun _ => by omega, by omega, by omega⟩

theorem mpmc_failures_justified_empty :
    ∃ w tr, exec (trans 2) (new 0 : World Nat (Queue Nat) (Pc Nat))
      ((0, .call .deq) :: replicate 3 (0, .step)) = some (w, tr ++ [(0, .deqEmpty)]) ∧
      FailsJustly 2 tr (0, .deqEmpty) ∧ CallReturns 2 w 1 .deq .deqEmpty := by
  obtain ⟨w, hrun, hpc, hstored⟩ : ∃ w, exec (trans (2 ^ 1))
      (new 0 : World Nat (Queue Nat) (Pc Nat)) ((0, .call .deq) :: replicate 3 (0, .step)) =
      some (w, [(0, .call .deq), (0, .tau), (0, .tau)] ++ [(0, .deqEmpty)]) ∧
      w.pc = Function.update (Function.update (Function.update (Function.update
        (fun _ => .idle) 0 .deqLoad) 0 (.deqTurn 0)) 0 (.deqReload 0)) 0 .idle ∧
      stored (2 ^ 1) w.shared = 0 := ⟨_, rfl, rfl, rfl⟩
  obtain ⟨hfails, halone⟩ := mpmc_failures_justified hrun
  have hidle : ∀ u, w.pc u = .idle := by
    intro u
    rw [hpc]
    simp only [Function.update_idem]
    exact forall_update (Q := fun _ (p : Pc Nat) => p = .idle) rfl (fun _ _ => rfl) u
  exact ⟨w, _, hrun, hfails _ _ [] rfl, (halone hidle 1).2.2.1.mpr hstored⟩

end Runs
end PortableLib.MpmcQueue
