import Mathlib.Order.Interval.Finset.Nat
import PortableLib.Lib.Tickets
import PortableLib.MpmcQueue.Delivery

/-! The queue at rest: no thread is at work, though some may be blocked in a wait. The tickets of
each end are issued by its counter; a ticket of the head is done once its item is published, a
ticket of the tail once its slot is released. -/

namespace PortableLib.MpmcQueue
open List Interleave Tickets

variable {α Tid : Type} {sz : Nat}

def Published (sz : Nat) (q : Queue α) (k : Nat) : Prop := 2 * (k / sz) + 1 ≤ q.turn (k % sz)

def Released (sz : Nat) (q : Queue α) (k : Nat) : Prop := 2 * (k / sz) + 2 ≤ q.turn (k % sz)

def Event.published : Event α → Option Nat
  | .enqDone k => some k
  | _ => none

def Event.released : Event α → Option Nat
  | .deqDone k _ => some k
  | _ => none

section Turns
variable {q : Queue α} {i k v : Nat}

theorem published_update (hv : v = q.turn (k % sz) + 1) :
    Published sz { q with turn := Function.update q.turn (k % sz) v } i ↔
      Published sz q i ∨ i % sz = k % sz ∧ 2 * (i / sz) + 1 = v := by
  simp only [Published]
  by_cases hik : i % sz = k % sz
  · rw [hik, Function.update_self]
    omega
  · rw [Function.update_of_ne hik]
    exact ⟨.inl, fun h => h.resolve_right fun h => hik h.1⟩

theorem released_update (hv : v = q.turn (k % sz) + 1) :
    Released sz { q with turn := Function.update q.turn (k % sz) v } i ↔
      Released sz q i ∨ i % sz = k % sz ∧ 2 * (i / sz) + 2 = v := by
  simp only [Released]
  by_cases hik : i % sz = k % sz
  · rw [hik, Function.update_self]
    omega
  · rw [Function.update_of_ne hik]
    exact ⟨.inl, fun h => h.resolve_right fun h => hik h.1⟩

theorem same_ticket_iff (sz i k : Nat) : i % sz = k % sz ∧ i / sz = k / sz ↔ i = k :=
  ⟨fun h => ticket_eq h.1 h.2, fun h => h ▸ ⟨rfl, rfl⟩⟩

end Turns

section Steps
variable {n : Nat} {q : Queue α} {tr : List (Tid × Event α)} {t : Tid} {p : Pc α} {a : Act α}
  {r : Queue α × Pc α × Event α}

theorem moves_keep {q' : Queue α} {p' : Pc α} {e : Event α} (hhead : q'.head = q.head)
    (htail : q'.tail = q.tail) (hturn : q'.turn = q.turn) (henq : p'.enqHolds = p.enqHolds)
    (hdeq : p'.deqHolds = p.deqHolds) (hpub : e.published = none) (hrel : e.released = none) :
    Move q.head q'.head p.enqHolds p'.enqHolds (Published sz q) (Published sz q') e.published ∧
      Move q.tail q'.tail p.deqHolds p'.deqHolds (Released sz q) (Released sz q') e.released := by
  rw [hpub, hrel]
  exact ⟨.keep hhead henq fun k => by rw [Published, Published, hturn],
    .keep htail hdeq fun k => by rw [Released, Released, hturn]⟩

theorem trans_moves (h : PcInv (2 ^ n) q tr t p) (hr : trans (2 ^ n) t q p a = some r) :
    Move q.head r.1.head p.enqHolds r.2.1.enqHolds (Published (2 ^ n) q) (Published (2 ^ n) r.1)
        r.2.2.published ∧
      Move q.tail r.1.tail p.deqHolds r.2.1.deqHolds (Released (2 ^ n) q) (Released (2 ^ n) r.1)
        r.2.2.released := by
  obtain ⟨q', p', ev⟩ := r
  have hstep := trans_inv hr
  simp only at hstep ⊢
  cases hstep with
  | call op => cases op <;> exact moves_keep rfl rfl rfl rfl rfl rfl rfl
  | enqTake heq =>
    subst heq
    exact ⟨.take rfl rfl rfl fun _ => Iff.rfl, .keep rfl rfl fun _ => Iff.rfl⟩
  | enqAdd => exact ⟨.take rfl rfl rfl fun _ => Iff.rfl, .keep rfl rfl fun _ => Iff.rfl⟩
  | @enqStore x hd =>
    rw [idx_two_pow, lap]
    obtain ⟨-, hturn, -⟩ := h
    refine ⟨.finish hd rfl rfl rfl fun i => ?_, .keep rfl rfl fun i => ?_⟩
    · rw [published_update (by omega), ← same_ticket_iff (2 ^ n) i hd]
      refine or_congr_right (and_congr_right fun _ => ?_)
      omega
    · -- the turn of a published item is odd
      rw [released_update (by omega), or_iff_left]
      rintro ⟨-, hi⟩
      omega
  | deqTake heq =>
    subst heq
    exact ⟨.keep rfl rfl fun _ => Iff.rfl, .take rfl rfl rfl fun _ => Iff.rfl⟩
  | deqAdd => exact ⟨.keep rfl rfl fun _ => Iff.rfl, .take rfl rfl rfl fun _ => Iff.rfl⟩
  | @deqStore tl x =>
    rw [idx_two_pow, lap]
    obtain ⟨-, hturn, -⟩ := h
    refine ⟨.keep rfl rfl fun i => ?_, .finish tl rfl rfl rfl fun i => ?_⟩
    · -- and that of a released slot is even
      rw [published_update (by omega), or_iff_left]
      rintro ⟨-, hi⟩
      omega
    · rw [released_update (by omega), ← same_ticket_iff (2 ^ n) i tl]
      refine or_congr_right (and_congr_right fun _ => ?_)
      omega
  | _ => exact moves_keep rfl rfl rfl rfl rfl rfl rfl

structure Tracked (sz : Nat) (w : World Tid (Queue α) (Pc α)) (tr : List (Tid × Event α)) :
    Prop where
  inv : Inv sz w tr
  enq : Issued w.shared.head (Pc.enqHolds ∘ w.pc) (Published sz w.shared)
  deq : Issued w.shared.tail (Pc.deqHolds ∘ w.pc) (Released sz w.shared)
  published : ∀ u k, (u, .enqDone k) ∈ tr → Published sz w.shared k

theorem tracked_new (n : Nat) (x₀ : α) :
    Tracked (2 ^ n) (new x₀ : World Tid (Queue α) (Pc α)) [] := by
  have hpub : Published (2 ^ n) (new x₀ : World Tid (Queue α) (Pc α)).shared = fun _ => False :=
    funext fun _ => propext ⟨nofun, False.elim⟩
  have hrel : Released (2 ^ n) (new x₀ : World Tid (Queue α) (Pc α)).shared = fun _ => False :=
    funext fun _ => propext ⟨nofun, False.elim⟩
  exact ⟨inv_new n x₀, hpub ▸ issued_none, hrel ▸ issued_none, nofun⟩

variable [DecidableEq Tid]

theorem tracked_step {w : World Tid (Queue α) (Pc α)} (h : Tracked (2 ^ n) w tr)
    (hr : trans (2 ^ n) t w.shared (w.pc t) a = some r) :
    Tracked (2 ^ n) ⟨r.1, Function.update w.pc t r.2.1⟩ (tr ++ [(t, r.2.2)]) := by
  obtain ⟨henq, hdeq⟩ := trans_moves (h.inv.thread t) hr
  refine ⟨inv_step h.inv hr, ?_, ?_, fun u k hmem => ?_⟩
  · rw [Function.comp_update]
    exact h.enq.move henq
  · rw [Function.comp_update]
    exact h.deq.move hdeq
  · rcases mem_snoc.mp hmem with hmem | heq
    · exact henq.mono (h.published u k hmem)
    · have hpub : r.2.2.published = some k := by rw [← (Prod.mk.inj heq).2]; rfl
      rw [hpub] at henq
      exact henq.finished

theorem tracked_of_exec {x₀ : α} {w : World Tid (Queue α) (Pc α)} {sched : List (Tid × Act α)}
    (hrun : exec (trans (2 ^ n)) (new x₀) sched = some (w, tr)) : Tracked (2 ^ n) w tr :=
  exec_invariant (fun _ _ _ _ _ => tracked_step) (tracked_new n x₀) hrun

end Steps

@[simp] def Pc.Blocked (sz : Nat) (q : Queue α) : Pc α → Prop
  | .enqSpin _ hd => lap sz hd * 2 ≠ q.turn (idx sz hd)
  | .deqSpin tl => 1 + lap sz tl * 2 ≠ q.turn (idx sz tl)
  | _ => False

def AtRest (sz : Nat) (w : World Tid (Queue α) (Pc α)) : Prop :=
  ∀ t, w.pc t = .idle ∨ (w.pc t).Blocked sz w.shared

structure Settled (sz : Nat) (q : Queue α) (put got : Nat) : Prop where
  published : ∀ k, Published sz q k ↔ k < put
  released : ∀ k, Released sz q k ↔ k < got

section Rest
variable {q : Queue α} {k put got : Nat}

theorem Released.published (h : Released sz q k) : Published sz q k := Nat.le_of_succ_le h

theorem released_sub (hpos : 0 < sz) (hle : sz ≤ k) :
    Released sz q (k - sz) ↔ 2 * (k / sz) ≤ q.turn (k % sz) := by
  obtain ⟨hmod, hdiv⟩ := sub_ticket hpos hle
  rw [Released, hmod, hdiv, Nat.mul_succ]

theorem Published.sub (hpos : 0 < sz) (h : Published sz q k) (hle : sz ≤ k) :
    Released sz q (k - sz) :=
  (released_sub hpos hle).mpr (Nat.le_of_succ_le h)

theorem free_iff (hpos : 0 < sz) (h : ¬ Published sz q k) :
    q.turn (k % sz) = 2 * (k / sz) ↔ (sz ≤ k → Released sz q (k - sz)) := by
  rw [Published] at h
  constructor
  · intro hturn hle
    rw [released_sub hpos hle, hturn]
  · intro hfree
    rcases Nat.lt_or_ge k sz with hlt | hle
    · rw [Nat.div_eq_of_lt hlt] at h ⊢
      omega
    · have hrel := (released_sub hpos hle).mp (hfree hle)
      omega

section World
variable {n : Nat} {w : World Tid (Queue α) (Pc α)} {tr : List (Tid × Event α)} {t : Tid}

theorem turn_ne_of_enqHolds (hrest : AtRest (2 ^ n) w) (ht : (w.pc t).enqHolds = some k) :
    w.shared.turn (k % 2 ^ n) ≠ 2 * (k / 2 ^ n) := by
  have hpc := hrest t
  cases hp : w.pc t with
  | enqSpin x hd =>
    rw [hp] at ht hpc
    obtain rfl := Option.some.inj ht
    rcases hpc with hidle | hturn
    · cases hidle
    · rw [Pc.Blocked, idx_two_pow, lap] at hturn
      omega
  | enqWrite x hd =>
    rw [hp] at hpc
    rcases hpc with hidle | hblocked
    · cases hidle
    · exact hblocked.elim
  | enqStore x hd =>
    rw [hp] at hpc
    rcases hpc with hidle | hblocked
    · cases hidle
    · exact hblocked.elim
  | _ =>
    rw [hp] at ht
    cases ht

theorem turn_ne_of_deqHolds (hrest : AtRest (2 ^ n) w) (ht : (w.pc t).deqHolds = some k) :
    w.shared.turn (k % 2 ^ n) ≠ 2 * (k / 2 ^ n) + 1 := by
  have hpc := hrest t
  cases hp : w.pc t with
  | deqSpin tl =>
    rw [hp] at ht hpc
    obtain rfl := Option.some.inj ht
    rcases hpc with hidle | hturn
    · cases hidle
    · rw [Pc.Blocked, idx_two_pow, lap] at hturn
      omega
  | deqRead tl =>
    rw [hp] at hpc
    rcases hpc with hidle | hblocked
    · cases hidle
    · exact hblocked.elim
  | deqStore tl x =>
    rw [hp] at hpc
    rcases hpc with hidle | hblocked
    · cases hidle
    · exact hblocked.elim
  | _ =>
    rw [hp] at ht
    cases ht

theorem waits_for (h : Tracked (2 ^ n) w tr) (hrest : AtRest (2 ^ n) w)
    (hhead : k < w.shared.head) (hunpub : ¬ Published (2 ^ n) w.shared k) :
    2 ^ n ≤ k ∧ ¬ Released (2 ^ n) w.shared (k - 2 ^ n) := by
  obtain ⟨t, ht⟩ := (h.enq.taken k hhead).resolve_right hunpub
  have hbusy := (free_iff (Nat.two_pow_pos n) hunpub).not.mp (turn_ne_of_enqHolds hrest ht)
  exact Classical.not_imp.mp hbusy

/-- At rest no consumer holds a ticket below the head: it would wait for a producer that waits for
the consumer one lap before, and so on. -/
theorem released_of_rest (h : Tracked (2 ^ n) w tr) (hrest : AtRest (2 ^ n) w)
    (htail : k < w.shared.tail) (hhead : k < w.shared.head) : Released (2 ^ n) w.shared k := by
  have hpos : 0 < 2 ^ n := Nat.two_pow_pos n
  induction k using Nat.strongRecOn with
  | ind k ih =>
    rcases h.deq.taken k htail with ⟨t, ht⟩ | hrel
    · have hturn := turn_ne_of_deqHolds hrest ht
      have hnot := (h.deq.held t k ht).2
      have hunpub : ¬ Published (2 ^ n) w.shared k := by
        rw [Released] at hnot
        rw [Published]
        omega
      obtain ⟨hle, hearlier⟩ := waits_for h hrest hhead hunpub
      exact absurd (ih (k - 2 ^ n) (by omega) (by omega) (by omega)) hearlier
    · exact hrel

theorem published_of_rest (h : Tracked (2 ^ n) w tr) (hrest : AtRest (2 ^ n) w)
    (hhead : k < w.shared.head) (hroom : k < w.shared.tail + 2 ^ n) :
    Published (2 ^ n) w.shared k := by
  by_contra hunpub
  obtain ⟨hle, hearlier⟩ := waits_for h hrest hhead hunpub
  have hlt : k - 2 ^ n < w.shared.head := Nat.lt_of_le_of_lt (Nat.sub_le k _) hhead
  exact hearlier (released_of_rest h hrest (by omega) hlt)

theorem settled_of_rest (h : Tracked (2 ^ n) w tr) (hrest : AtRest (2 ^ n) w) :
    Settled (2 ^ n) w.shared (min w.shared.head (w.shared.tail + 2 ^ n))
      (min w.shared.tail w.shared.head) where
  published k := by
    rw [Nat.lt_min]
    refine ⟨fun hpub => ⟨h.enq.done k hpub, ?_⟩, fun hk => published_of_rest h hrest hk.1 hk.2⟩
    rcases Nat.lt_or_ge k (2 ^ n) with hlt | hle
    · exact Nat.lt_add_left _ hlt
    · have hrel := h.deq.done _ (hpub.sub (Nat.two_pow_pos n) hle)
      omega
  released k := by
    rw [Nat.lt_min]
    exact ⟨fun hrel => ⟨h.deq.done k hrel, h.enq.done k hrel.published⟩,
      fun hk => released_of_rest h hrest hk.1 hk.2⟩

theorem settled_of_idle (h : Tracked (2 ^ n) w tr) (hidle : ∀ u, w.pc u = .idle) :
    Settled (2 ^ n) w.shared w.shared.head w.shared.tail where
  published k := h.enq.done_iff fun u hu => by
    rw [Function.comp_apply, hidle] at hu
    cases hu
  released k := h.deq.done_iff fun u hu => by
    rw [Function.comp_apply, hidle] at hu
    cases hu

end World

def stored (sz : Nat) (q : Queue α) : Nat :=
  ((Finset.range sz).filter fun j => q.turn j % 2 = 1).card

theorem Settled.put_le (hpos : 0 < sz) (h : Settled sz q put got) : put ≤ got + sz := by
  by_contra hlt
  have hpub := (h.published (got + sz)).mpr (Nat.not_le.mp hlt)
  have hrel := hpub.sub hpos (Nat.le_add_left sz got)
  rw [h.released] at hrel
  omega

theorem Settled.got_le (h : Settled sz q put got) : got ≤ put := by
  by_contra hlt
  have hrel := (h.released put).mpr (Nat.not_le.mp hlt)
  exact Nat.lt_irrefl _ ((h.published put).mp hrel.published)

theorem Settled.turn_odd_iff (h : Settled sz q put got) :
    q.turn (k % sz) = 2 * (k / sz) + 1 ↔ got ≤ k ∧ k < put := by
  rw [← h.published k, ← Nat.not_lt, ← h.released k, Published, Released]
  omega

theorem Settled.turn_even_iff (hpos : 0 < sz) (h : Settled sz q put got) (hk : put ≤ k) :
    q.turn (k % sz) = 2 * (k / sz) ↔ k < got + sz := by
  have hunpub : ¬ Published sz q k := fun hpub => Nat.not_le.mpr ((h.published k).mp hpub) hk
  rw [free_iff hpos hunpub, h.released]
  omega

theorem Settled.stored_eq (hpos : 0 < sz) (h : Settled sz q put got) :
    stored sz q = put - got := by
  have hput := h.put_le hpos
  have himage : (Finset.Ico got put).image (· % sz) =
      (Finset.range sz).filter fun j => q.turn j % 2 = 1 := by
    ext j
    simp only [Finset.mem_image, Finset.mem_Ico, Finset.mem_filter, Finset.mem_range]
    constructor
    · rintro ⟨k, hk, rfl⟩
      have hturn := h.turn_odd_iff.mpr hk
      exact ⟨Nat.mod_lt k hpos, by omega⟩
    · rintro ⟨hj, hodd⟩
      have hmod : (j + sz * (q.turn j / 2)) % sz = j := by
        rw [Nat.add_mul_mod_self_left, Nat.mod_eq_of_lt hj]
      have hdiv : (j + sz * (q.turn j / 2)) / sz = q.turn j / 2 := by
        rw [Nat.add_mul_div_left _ _ hpos, Nat.div_eq_of_lt hj, Nat.zero_add]
      refine ⟨j + sz * (q.turn j / 2), h.turn_odd_iff.mp ?_, hmod⟩
      rw [hmod, hdiv]
      omega
  have hinj : Set.InjOn (· % sz) (Finset.Ico got put : Finset Nat) := by
    intro a ha b hb hab
    rw [Finset.coe_Ico, Set.mem_Ico] at ha hb
    have hsub := Nat.sub_mod_eq_zero_of_mod_eq hab
    have hsub' := Nat.sub_mod_eq_zero_of_mod_eq hab.symm
    rw [Nat.mod_eq_of_lt (by omega)] at hsub hsub'
    omega
  rw [stored, ← himage, Finset.card_image_of_injOn hinj, Nat.card_Ico]

end Rest

@[simp] def solo (sz : Nat) : Nat → Queue α → Pc α → Option (Queue α × Pc α × List (Event α))
  | 0, q, p => some (q, p, [])
  | m + 1, q, p => (next sz q p).bind fun r =>
    (solo sz m r.1 r.2.1).map fun s => (s.1, s.2.1, r.2.2 :: s.2.2)

def Returns (sz : Nat) (q : Queue α) (op : Op α) (e : Event α) : Prop :=
  ∃ m q' es, solo sz m q op.start = some (q', .idle, es ++ [e])

section Solo
variable {q : Queue α} {p : Pc α} {x : α}

theorem solo_unique {m m' : Nat} {q₁ q₂ : Queue α} {es₁ es₂ : List (Event α)}
    (h : solo sz m q p = some (q₁, .idle, es₁)) (h' : solo sz m' q p = some (q₂, .idle, es₂)) :
    es₁ = es₂ := by
  -- an idle thread has no next step, so the longer run does not go on after the shorter one
  have hidle : ∀ k, solo sz (k + 1) q (.idle : Pc α) = none := fun _ => rfl
  induction m generalizing m' q p es₁ es₂ with
  | zero =>
    simp only [solo, Option.some.injEq, Prod.mk.injEq] at h
    obtain ⟨rfl, rfl, rfl⟩ := h
    cases m' with
    | zero =>
      simp only [solo, Option.some.injEq, Prod.mk.injEq] at h'
      exact h'.2.2
    | succ m' =>
      rw [hidle] at h'
      cases h'
  | succ m ih =>
    cases m' with
    | zero =>
      simp only [solo, Option.some.injEq, Prod.mk.injEq] at h'
      rw [h'.2.1, hidle] at h
      cases h
    | succ m' =>
      rw [solo] at h h'
      obtain ⟨r, hr, hrest⟩ := Option.bind_eq_some_iff.mp h
      rw [hr, Option.bind_some] at h'
      obtain ⟨s, hs, heq⟩ := Option.map_eq_some_iff.mp hrest
      obtain ⟨s', hs', heq'⟩ := Option.map_eq_some_iff.mp h'
      obtain ⟨q₁', p₁, es⟩ := s
      obtain ⟨q₂', p₂, es'⟩ := s'
      simp only [Prod.mk.injEq] at heq heq'
      obtain ⟨rfl, rfl, rfl⟩ := heq
      obtain ⟨rfl, rfl, rfl⟩ := heq'
      rw [ih hs hs' fun _ => rfl]

theorem Returns.unique {op : Op α} {e e' : Event α} (h : Returns sz q op e)
    (h' : Returns sz q op e') : e = e' := by
  obtain ⟨m, q₁, es, hm⟩ := h
  obtain ⟨m', q₂, es', hm'⟩ := h'
  obtain ⟨-, he⟩ := append_inj' (solo_unique hm hm') rfl
  exact (cons.inj he).1

theorem returns_enqDone (hturn : q.turn (idx sz q.head) = lap sz q.head * 2) :
    Returns sz q (.enq x) (.enqDone q.head) := by
  refine ⟨5, ⟨q.head + 1, q.tail, Function.update q.turn (idx sz q.head) (lap sz q.head * 2 + 1),
    Function.update q.data (idx sz q.head) x⟩,
    [.tau, .tau, .enqTicket q.head x, .wrote q.head x], ?_⟩
  simp only [solo, Op.start, next, hturn, if_true, Option.bind_some, Option.map_some]
  rfl

theorem returns_enqFull (hturn : q.turn (idx sz q.head) ≠ lap sz q.head * 2) :
    Returns sz q (.enq x) .enqFull := by
  refine ⟨3, q, [.tau, .tau], ?_⟩
  simp only [solo, Op.start, next, if_neg hturn, if_true, Option.bind_some, Option.map_some]
  rfl

theorem returns_deqDone (hturn : q.turn (idx sz q.tail) = 1 + lap sz q.tail * 2) :
    Returns sz q .deq (.deqDone q.tail (q.data (idx sz q.tail))) := by
  refine ⟨5, ⟨q.head, q.tail + 1,
    Function.update q.turn (idx sz q.tail) (1 + lap sz q.tail * 2 + 1), q.data⟩,
    [.tau, .tau, .deqTicket q.tail, .read q.tail (q.data (idx sz q.tail))], ?_⟩
  simp only [solo, Op.start, next, hturn, if_true, Option.bind_some, Option.map_some]
  rfl

theorem returns_deqEmpty (hturn : q.turn (idx sz q.tail) ≠ 1 + lap sz q.tail * 2) :
    Returns sz q .deq .deqEmpty := by
  refine ⟨3, q, [.tau, .tau], ?_⟩
  simp only [solo, Op.start, next, if_neg hturn, if_true, Option.bind_some, Option.map_some]
  rfl

theorem returns_enqFull_iff :
    Returns sz q (.enq x) .enqFull ↔ q.turn (idx sz q.head) ≠ lap sz q.head * 2 := by
  refine ⟨fun hfull hturn => ?_, returns_enqFull⟩
  cases hfull.unique (returns_enqDone hturn)

theorem returns_deqEmpty_iff :
    Returns sz q .deq .deqEmpty ↔ q.turn (idx sz q.tail) ≠ 1 + lap sz q.tail * 2 := by
  refine ⟨fun hempty hturn => ?_, returns_deqEmpty⟩
  cases hempty.unique (returns_deqDone hturn)

theorem returns_enqDone_iff :
    Returns sz q (.enq x) (.enqDone q.head) ↔ q.turn (idx sz q.head) = lap sz q.head * 2 := by
  refine ⟨fun hdone => ?_, returns_enqDone⟩
  by_contra hturn
  cases hdone.unique (returns_enqFull hturn)

theorem returns_deqDone_iff :
    (∃ y, Returns sz q .deq (.deqDone q.tail y)) ↔
      q.turn (idx sz q.tail) = 1 + lap sz q.tail * 2 := by
  refine ⟨fun ⟨y, hdone⟩ => ?_, fun hturn => ⟨_, returns_deqDone hturn⟩⟩
  by_contra hturn
  cases hdone.unique (returns_deqEmpty hturn)

end Solo
end PortableLib.MpmcQueue
