import PortableLib.Lib.Tally
import PortableLib.SyncQ.Queue

/-! The semaphores count the free slots and the items, less what the calls in flight have already
taken or not yet given back. So a thread that has waited for a slot finds one, and a thread that
has waited for an item finds one, whatever the other threads do. -/

namespace PortableLib.SyncQ
open List Interleave Circular

variable {Tid α : Type}

def Event.queues : Event α → List α
  | .queued x => [x]
  | _ => []

def Event.takes : Event α → List α
  | .took z => [z]
  | _ => []

def Event.returns : Event α → List α
  | .deqDone z => [z]
  | _ => []

def Place.payload : Place α → List α
  | .enqWait x => [x]
  | .enqLock x => [x]
  | .enqMove x => [x]
  | .enqWrite x _ => [x]
  | _ => []

def Place.result : Place α → List α
  | .deqUnlock z => [z]
  | .deqPost z => [z]
  | _ => []

def Place.enqueuing : Place α → Bool
  | .enqWait _ => true
  | .enqLock _ => true
  | .enqMove _ => true
  | .enqWrite _ _ => true
  | .enqUnlock => true
  | .enqPost => true
  | _ => false

def Place.dequeuing : Place α → Bool
  | .deqWait => true
  | .deqLock => true
  | .deqMove => true
  | .deqRead _ => true
  | .deqUnlock _ => true
  | .deqPost _ => true
  | _ => false

theorem Place.eq_out {p : Place α} (henq : p.enqueuing = false) (hdeq : p.dequeuing = false) :
    p = .out := by
  cases p with
  | out => rfl
  | _ => first | exact Bool.noConfusion henq | exact Bool.noConfusion hdeq

section Calls

variable {s : Queue Tid α} {t : Tid} {p : Place α} {q : Queue Tid α × Place α × Event α}

theorem next_enqueuing (hp : p.enqueuing = true) (hq : next t s p = some q) :
    q.2.2.queues ++ q.2.1.payload = p.payload ∧ q.2.2.takes = [] ∧
      ((q.2.1 = .out ∧ q.2.2 = .enqDone) ∨ (q.2.1.enqueuing = true ∧ q.2.2 ≠ .enqDone)) := by
  obtain ⟨s', p', e⟩ := q
  have htrans : Trans t s p s' p' e := next_inv hq
  cases htrans with
  | enqPost => exact ⟨rfl, rfl, .inl ⟨rfl, rfl⟩⟩
  | enqWait | enqLock | enqMove | enqWrite | enqUnlock =>
    refine ⟨rfl, rfl, .inr ⟨rfl, ?_⟩⟩
    intro heq
    cases heq
  | _ => cases hp

theorem next_dequeuing (hp : p.dequeuing = true) (hq : next t s p = some q) :
    p.result ++ q.2.2.takes = q.2.1.result ++ q.2.2.returns ∧ q.2.2.queues = [] ∧
      ((q.2.1 = .out ∧ ∃ z, q.2.2 = .deqDone z) ∨
        (q.2.1.dequeuing = true ∧ q.2.2.returns = [])) := by
  obtain ⟨s', p', e⟩ := q
  have htrans : Trans t s p s' p' e := next_inv hq
  cases htrans with
  | deqPost => exact ⟨rfl, rfl, .inl ⟨rfl, _, rfl⟩⟩
  | deqWait | deqLock | deqMove | deqRead | deqUnlock =>
    exact ⟨rfl, rfl, .inr ⟨rfl, rfl⟩⟩
  | _ => cases hp

theorem payload_of_dequeuing (hp : p.dequeuing = true) : p.payload = [] := by
  cases p with
  | out => rfl
  | _ => first | exact Bool.noConfusion hp | rfl

theorem mem_payload_of_queues {x : α} (hq : next t s p = some q) (hx : x ∈ q.2.2.queues) :
    x ∈ p.payload := by
  cases henq : p.enqueuing with
  | true =>
    rw [← (next_enqueuing henq hq).1]
    exact mem_append_left _ hx
  | false =>
    cases hdeq : p.dequeuing with
    | true =>
      rw [(next_dequeuing hdeq hq).2.1] at hx
      exact absurd hx not_mem_nil
    | false =>
      rw [Place.eq_out henq hdeq] at hq
      exact absurd hq nofun

theorem dequeuing_of_takes {x : α} (hq : next t s p = some q) (hx : x ∈ q.2.2.takes) :
    p.dequeuing = true := by
  cases hdeq : p.dequeuing with
  | true => rfl
  | false =>
    cases henq : p.enqueuing with
    | true =>
      rw [(next_enqueuing henq hq).2.1] at hx
      exact absurd hx not_mem_nil
    | false =>
      rw [Place.eq_out henq hdeq] at hq
      exact absurd hq nofun

theorem Place.not_dequeuing (hp : p.enqueuing = true) : p.dequeuing = false := by
  cases p with
  | out => rfl
  | _ => first | exact Bool.noConfusion hp | rfl

end Calls

@[simp] def Place.slotTaken : Place α → Nat
  | .enqLock _ => 1
  | .enqMove _ => 1
  | .enqWrite _ _ => 1
  | _ => 0

@[simp] def Place.itemHidden : Place α → Nat
  | .enqUnlock => 1
  | .enqPost => 1
  | _ => 0

@[simp] def Place.itemTaken : Place α → Nat
  | .deqLock => 1
  | .deqMove => 1
  | .deqRead _ => 1
  | _ => 0

@[simp] def Place.slotHidden : Place α → Nat
  | .deqUnlock _ => 1
  | .deqPost _ => 1
  | _ => 0

def Indexed (s : Queue Tid α) (E D : List α) : Place α → Prop
  | .enqMove _ => s.wr = E.length % s.sz ∧ s.rd = D.length % s.sz
  | .enqWrite _ w => w = E.length % s.sz ∧ s.wr = bump s.sz w ∧ s.rd = D.length % s.sz
  | .enqUnlock => s.wr = E.length % s.sz ∧ s.rd = D.length % s.sz
  | .deqMove => s.wr = E.length % s.sz ∧ s.rd = D.length % s.sz
  | .deqRead r => r = D.length % s.sz ∧ s.rd = bump s.sz r ∧ s.wr = E.length % s.sz
  | .deqUnlock _ => s.wr = E.length % s.sz ∧ s.rd = D.length % s.sz
  | _ => False

def Place.locked : Place α → Bool
  | .enqMove _ => true
  | .enqWrite _ _ => true
  | .enqUnlock => true
  | .deqMove => true
  | .deqRead _ => true
  | .deqUnlock _ => true
  | _ => false

theorem Indexed.locked {s : Queue Tid α} {E D : List α} {p : Place α} (h : Indexed s E D p) :
    p.locked = true := by
  cases p with
  | enqMove _ => rfl
  | enqWrite _ _ => rfl
  | enqUnlock => rfl
  | deqMove => rfl
  | deqRead _ => rfl
  | deqUnlock _ => rfl
  | _ => exact h.elim

/-- The queue and the places of all threads, after the items `E` have been written and the items
`D` read. -/
structure Inv [Fintype Tid] (s : Queue Tid α) (pl : Tid → Place α) (E D : List α) : Prop where
  slots : s.notfull + tally (fun _ p => p.slotTaken) pl + tally (fun _ p => p.slotHidden) pl +
    E.length = s.sz + D.length
  items : s.notempty + tally (fun _ p => p.itemTaken) pl + tally (fun _ p => p.itemHidden) pl +
    D.length = E.length
  owner : ∀ t, (pl t).locked = true → s.lock = some t
  free : s.lock = none → s.wr = E.length % s.sz ∧ s.rd = D.length % s.sz
  index : ∀ t, s.lock = some t → Indexed s E D (pl t)
  taken : D = E.take D.length
  holds : Holds s.sz s.e E D.length

section Steps

variable [Fintype Tid] {s s' : Queue Tid α} {pl : Tid → Place α} {E D E' D' : List α} {t : Tid}
  {p : Place α} {x : α} {w r : Nat}

theorem inv_init (n : Nat) (e : Nat → α) (hpl : ∀ t, pl t = .out ∨ pl t = .deqWait) :
    Inv (init n e) pl [] [] := by
  have hzero : ∀ f : Place α → Nat, f .out = 0 → f .deqWait = 0 →
      tally (fun _ p => f p) pl = 0 := by
    intro f hout hwait
    apply Finset.sum_eq_zero
    intro t _
    change f (pl t) = 0
    rcases hpl t with ht | ht
    · rw [ht, hout]
    · rw [ht, hwait]
  refine ⟨?_, ?_, fun t ht => ?_, fun _ => ?_, nofun, rfl, fun i _ hi => ?_⟩
  · rw [hzero _ rfl rfl, hzero _ rfl rfl]
    rfl
  · rw [hzero _ rfl rfl, hzero _ rfl rfl]
    rfl
  · rcases hpl t with hp | hp
    all_goals
      rw [hp] at ht
      exact absurd ht nofun
  · exact ⟨(Nat.zero_mod _).symm, (Nat.zero_mod _).symm⟩
  · exact absurd hi (Nat.not_lt_zero i)

theorem Inv.le (h : Inv s pl E D) : D.length ≤ E.length := by
  rw [h.taken]
  exact length_take_le' _ _

theorem Inv.others_of_locked (h : Inv s pl E D) (ht : (pl t).locked = true) :
    ∀ u, u ≠ t → s.lock ≠ some u :=
  fun _ hu heq => hu (Option.some.inj (heq.symm.trans (h.owner t ht)))

variable [DecidableEq Tid]

theorem Inv.room (h : Inv s pl E D) (ht : (pl t).slotTaken = 1) : E.length < D.length + s.sz := by
  have hshare := le_tally (fun _ p => p.slotTaken) pl t
  have hslots := h.slots
  omega

theorem Inv.some_item (h : Inv s pl E D) (ht : (pl t).itemTaken = 1) : D.length < E.length := by
  have hshare := le_tally (fun _ p => p.itemTaken) pl t
  have hitems := h.items
  omega

theorem Inv.slots_update (h : Inv s pl E D) (s' : Queue Tid α)
    (hstep : s'.notfull + p.slotTaken + p.slotHidden + E'.length + (s.sz + D.length) =
      s.notfull + (pl t).slotTaken + (pl t).slotHidden + E.length + (s'.sz + D'.length)) :
    s'.notfull + tally (fun _ p => p.slotTaken) (Function.update pl t p) +
      tally (fun _ p => p.slotHidden) (Function.update pl t p) + E'.length =
        s'.sz + D'.length := by
  have htaken : tally (fun _ p => p.slotTaken) (Function.update pl t p) + (pl t).slotTaken =
      tally (fun _ p => p.slotTaken) pl + p.slotTaken := tally_update
  have hhidden : tally (fun _ p => p.slotHidden) (Function.update pl t p) + (pl t).slotHidden =
      tally (fun _ p => p.slotHidden) pl + p.slotHidden := tally_update
  have hslots := h.slots
  omega

theorem Inv.items_update (h : Inv s pl E D) (s' : Queue Tid α)
    (hstep : s'.notempty + p.itemTaken + p.itemHidden + D'.length + E.length =
      s.notempty + (pl t).itemTaken + (pl t).itemHidden + D.length + E'.length) :
    s'.notempty + tally (fun _ p => p.itemTaken) (Function.update pl t p) +
      tally (fun _ p => p.itemHidden) (Function.update pl t p) + D'.length = E'.length := by
  have htaken : tally (fun _ p => p.itemTaken) (Function.update pl t p) + (pl t).itemTaken =
      tally (fun _ p => p.itemTaken) pl + p.itemTaken := tally_update
  have hhidden : tally (fun _ p => p.itemHidden) (Function.update pl t p) + (pl t).itemHidden =
      tally (fun _ p => p.itemHidden) pl + p.itemHidden := tally_update
  have hitems := h.items
  omega

theorem Inv.outside {a b : Nat} (h : Inv s pl E D) (hpt : (pl t).locked = false)
    (hp : p.locked = false)
    (hslots : b + p.slotTaken + p.slotHidden =
      s.notfull + (pl t).slotTaken + (pl t).slotHidden)
    (hitems : a + p.itemTaken + p.itemHidden =
      s.notempty + (pl t).itemTaken + (pl t).itemHidden) :
    Inv { s with notempty := a, notfull := b } (Function.update pl t p) E D where
  slots := by
    have hstep : b + p.slotTaken + p.slotHidden + E.length + (s.sz + D.length) =
        s.notfull + (pl t).slotTaken + (pl t).slotHidden + E.length + (s.sz + D.length) := by
      rw [hslots]
    exact h.slots_update { s with notempty := a, notfull := b } hstep
  items := by
    have hstep : a + p.itemTaken + p.itemHidden + D.length + E.length =
        s.notempty + (pl t).itemTaken + (pl t).itemHidden + D.length + E.length := by
      rw [hitems]
    exact h.items_update { s with notempty := a, notfull := b } hstep
  owner := by
    refine forall_update (Q := fun u p => Place.locked p = true → s.lock = some u) ?_ ?_
    · intro hlocked
      exact absurd (hp.symm.trans hlocked) nofun
    · intro u _ hlocked
      exact h.owner u hlocked
  free := h.free
  index := by
    refine forall_update (Q := fun u p => s.lock = some u → Indexed _ E D p) ?_ ?_
    · intro hlock
      exact absurd (hpt.symm.trans (h.index t hlock).locked) nofun
    · intro u _ hlock
      exact h.index u hlock
  taken := h.taken
  holds := h.holds

theorem Inv.inside (h : Inv s pl E D) (hothers : ∀ u, u ≠ t → s.lock ≠ some u)
    (hslots : s'.notfull + p.slotTaken + p.slotHidden + E'.length + (s.sz + D.length) =
      s.notfull + (pl t).slotTaken + (pl t).slotHidden + E.length + (s'.sz + D'.length))
    (hitems : s'.notempty + p.itemTaken + p.itemHidden + D'.length + E.length =
      s.notempty + (pl t).itemTaken + (pl t).itemHidden + D.length + E'.length)
    (hlock : (p.locked = true ∧ s'.lock = some t ∧ Indexed s' E' D' p) ∨
      (p.locked = false ∧ s'.lock = none ∧ s'.wr = E'.length % s'.sz ∧
        s'.rd = D'.length % s'.sz))
    (htaken : D' = E'.take D'.length) (hholds : Holds s'.sz s'.e E' D'.length) :
    Inv s' (Function.update pl t p) E' D' where
  slots := h.slots_update s' hslots
  items := h.items_update s' hitems
  owner := by
    refine forall_update (Q := fun u p => Place.locked p = true → s'.lock = some u) ?_ ?_
    · intro hp
      rcases hlock with ⟨-, hown, -⟩ | ⟨hnot, -⟩
      · exact hown
      · exact absurd (hnot.symm.trans hp) nofun
    · intro u hu hlocked
      exact absurd (h.owner u hlocked) (hothers u hu)
  free := by
    intro hnone
    rcases hlock with ⟨-, hown, -⟩ | ⟨-, -, hidx⟩
    · exact absurd (hnone.symm.trans hown) nofun
    · exact hidx
  index := by
    intro u hu
    rcases hlock with ⟨-, hown, hidx⟩ | ⟨-, hnone, -⟩
    · obtain rfl := Option.some.inj (hown.symm.trans hu)
      rw [Function.update_self]
      exact hidx
    · exact absurd (hnone.symm.trans hu) nofun
  taken := htaken
  holds := hholds

theorem Inv.write_fresh (h : Inv s pl E D) (ht : pl t = .enqWrite x w) :
    w < s.sz ∧ ∀ i, D.length ≤ i → i < E.length → i % s.sz ≠ w := by
  have hroom := h.room (t := t) (by rw [ht]; rfl)
  have hle := h.le
  have hindex := h.index t (h.owner t (by rw [ht]; rfl))
  rw [ht] at hindex
  obtain ⟨rfl, -⟩ := hindex
  refine ⟨Nat.mod_lt _ (by omega), ?_⟩
  intro i hi hlt
  exact mod_ne_of_window hi hlt hroom

theorem Inv.enqWrite (h : Inv s pl E D) (ht : pl t = .enqWrite x w) :
    Inv { s with e := Function.update s.e w x } (Function.update pl t .enqUnlock) (E ++ [x]) D := by
  have hroom := h.room (t := t) (by rw [ht]; rfl)
  have hle := h.le
  have hlock := h.owner t (by rw [ht]; rfl)
  have hindex := h.index t hlock
  rw [ht] at hindex
  obtain ⟨rfl, hwr, hrd⟩ := hindex
  have hlen : (E ++ [x]).length = E.length + 1 := length_append
  apply h.inside
  · exact h.others_of_locked (by rw [ht]; rfl)
  · simp only [ht, Place.slotTaken, Place.slotHidden, hlen]
    omega
  · simp only [ht, Place.itemTaken, Place.itemHidden, hlen]
    omega
  · refine .inl ⟨rfl, hlock, ?_, hrd⟩
    change s.wr = (E ++ [x]).length % s.sz
    rw [hwr, bump_mod (by omega), hlen]
  · rw [take_append_of_le_length hle]
    exact h.taken
  · exact (h.holds.write hroom).snoc (Function.update_self _ _ _)

theorem Inv.deqRead (h : Inv s pl E D) (ht : pl t = .deqRead r) :
    Inv s (Function.update pl t (.deqUnlock (s.e r))) E (D ++ [s.e r]) := by
  have hlt := h.some_item (t := t) (by rw [ht]; rfl)
  have hlock := h.owner t (by rw [ht]; rfl)
  have hindex := h.index t hlock
  rw [ht] at hindex
  obtain ⟨rfl, hrd, hwr⟩ := hindex
  have hlen : (D ++ [s.e (D.length % s.sz)]).length = D.length + 1 := length_append
  have hslots := h.slots
  apply h.inside
  · exact h.others_of_locked (by rw [ht]; rfl)
  · simp only [ht, Place.slotTaken, Place.slotHidden, hlen]
    omega
  · simp only [ht, Place.itemTaken, Place.itemHidden, hlen]
    omega
  · refine .inl ⟨rfl, hlock, hwr, ?_⟩
    have hpos : 0 < s.sz := by
      have hle := h.le
      omega
    rw [hrd, bump_mod hpos, hlen]
  · rw [hlen, h.holds.take_succ hlt, ← h.taken]
  · apply h.holds.mono
    rw [hlen]
    exact Nat.le_succ _

theorem Inv.acquire (h : Inv s pl E D) (hfree : s.lock = none)
    (hp : (∃ x, pl t = .enqLock x ∧ p = .enqMove x) ∨ (pl t = .deqLock ∧ p = .deqMove)) :
    Inv { s with lock := some t } (Function.update pl t p) E D := by
  have hothers : ∀ u, u ≠ t → s.lock ≠ some u := by
    intro u _ heq
    exact absurd (hfree.symm.trans heq) nofun
  rcases hp with ⟨x, ht, rfl⟩ | ⟨ht, rfl⟩
  all_goals
    refine h.inside hothers ?_ ?_ (.inl ⟨rfl, rfl, h.free hfree⟩) h.taken h.holds
    · simp only [ht, Place.slotTaken, Place.slotHidden]
    · simp only [ht, Place.itemTaken, Place.itemHidden]

theorem Inv.release (h : Inv s pl E D)
    (hp : (pl t = .enqUnlock ∧ p = .enqPost) ∨ ∃ z, pl t = .deqUnlock z ∧ p = .deqPost z) :
    Inv { s with lock := none } (Function.update pl t p) E D := by
  have hlocked : (pl t).locked = true := by
    rcases hp with ⟨ht, -⟩ | ⟨z, ht, -⟩
    · rw [ht]; rfl
    · rw [ht]; rfl
  have hindex := h.index t (h.owner t hlocked)
  rcases hp with ⟨ht, rfl⟩ | ⟨z, ht, rfl⟩
  all_goals
    rw [ht] at hindex
    refine h.inside (h.others_of_locked hlocked) ?_ ?_ (.inr ⟨rfl, rfl, hindex⟩) h.taken h.holds
    · simp only [ht, Place.slotTaken, Place.slotHidden]
    · simp only [ht, Place.itemTaken, Place.itemHidden]

theorem Inv.enqMove (h : Inv s pl E D) (ht : pl t = .enqMove x) :
    Inv { s with wr := bump s.sz s.wr } (Function.update pl t (.enqWrite x s.wr)) E D := by
  have hlocked : (pl t).locked = true := by rw [ht]; rfl
  have hlock := h.owner t hlocked
  have hindex := h.index t hlock
  rw [ht] at hindex
  refine h.inside (h.others_of_locked hlocked) ?_ ?_ (.inl ⟨rfl, hlock, hindex.1, rfl, hindex.2⟩)
    h.taken h.holds
  · simp only [ht, Place.slotTaken, Place.slotHidden]
  · simp only [ht, Place.itemTaken, Place.itemHidden]

theorem Inv.deqMove (h : Inv s pl E D) (ht : pl t = .deqMove) :
    Inv { s with rd := bump s.sz s.rd } (Function.update pl t (.deqRead s.rd)) E D := by
  have hlocked : (pl t).locked = true := by rw [ht]; rfl
  have hlock := h.owner t hlocked
  have hindex := h.index t hlock
  rw [ht] at hindex
  refine h.inside (h.others_of_locked hlocked) ?_ ?_ (.inl ⟨rfl, hlock, hindex.2, rfl, hindex.1⟩)
    h.taken h.holds
  · simp only [ht, Place.slotTaken, Place.slotHidden]
  · simp only [ht, Place.itemTaken, Place.itemHidden]

theorem inv_next {q : Queue Tid α × Place α × Event α} (h : Inv s pl E D)
    (hq : next t s (pl t) = some q) :
    Inv q.1 (Function.update pl t q.2.1) (E ++ q.2.2.queues) (D ++ q.2.2.takes) := by
  obtain ⟨s', p', e⟩ := q
  have htrans : Trans t s (pl t) s' p' e := next_inv hq
  generalize ht : pl t = p at htrans
  cases htrans with
  | enqWait hroom =>
    simp only [Event.queues, Event.takes, append_nil]
    refine h.outside (a := s.notempty) (by rw [ht]; rfl) rfl ?_ (by rw [ht]; rfl)
    simp only [ht, Place.slotTaken, Place.slotHidden]
    omega
  | enqLock hfree =>
    simp only [Event.queues, Event.takes, append_nil]
    exact h.acquire hfree (.inl ⟨_, ht, rfl⟩)
  | enqMove =>
    simp only [Event.queues, Event.takes, append_nil]
    exact h.enqMove ht
  | enqWrite =>
    simp only [Event.queues, Event.takes, append_nil]
    exact h.enqWrite ht
  | enqUnlock =>
    simp only [Event.queues, Event.takes, append_nil]
    exact h.release (.inl ⟨ht, rfl⟩)
  | enqPost =>
    simp only [Event.queues, Event.takes, append_nil]
    refine h.outside (b := s.notfull) (by rw [ht]; rfl) rfl (by rw [ht]; rfl) ?_
    simp only [ht, Place.itemTaken, Place.itemHidden]
  | deqWait hitem =>
    simp only [Event.queues, Event.takes, append_nil]
    refine h.outside (b := s.notfull) (by rw [ht]; rfl) rfl (by rw [ht]; rfl) ?_
    simp only [ht, Place.itemTaken, Place.itemHidden]
    omega
  | deqLock hfree =>
    simp only [Event.queues, Event.takes, append_nil]
    exact h.acquire hfree (.inr ⟨ht, rfl⟩)
  | deqMove =>
    simp only [Event.queues, Event.takes, append_nil]
    exact h.deqMove ht
  | deqRead =>
    simp only [Event.queues, Event.takes, append_nil]
    exact h.deqRead ht
  | deqUnlock =>
    simp only [Event.queues, Event.takes, append_nil]
    exact h.release (.inr ⟨_, ht, rfl⟩)
  | deqPost =>
    simp only [Event.queues, Event.takes, append_nil]
    refine h.outside (a := s.notempty) (by rw [ht]; rfl) rfl ?_ (by rw [ht]; rfl)
    simp only [ht, Place.slotTaken, Place.slotHidden]

theorem Inv.begin (h : Inv s pl E D) (ht : pl t = .out) (hp : p = .deqWait ∨ ∃ x, p = .enqWait x) :
    Inv s (Function.update pl t p) E D := by
  rcases hp with rfl | ⟨x, rfl⟩
  all_goals
    exact h.outside (a := s.notempty) (b := s.notfull) (by rw [ht]; rfl) rfl (by rw [ht]; rfl)
      (by rw [ht]; rfl)

end Steps
end PortableLib.SyncQ
