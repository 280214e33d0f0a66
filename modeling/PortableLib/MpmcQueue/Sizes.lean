import PortableLib.MpmcQueue.Rest

/-! The size of the queue and its two predicates, on a queue at rest. They look at the counters
alone, and a thread that is blocked in a wait has already moved one of them. -/

namespace PortableLib.MpmcQueue
open List Interleave Tickets

variable {α Tid : Type} {sz n : Nat}

def len (q : Queue α) : UInt64 :=
  let hd := UInt64.ofNat q.head
  let tl := UInt64.ofNat q.tail
  if hd < tl then
    -- wraparound
    let diff := ~~~(0 : UInt64) - tl
    diff + hd
  else hd - tl

def fullP (sz : Nat) (q : Queue α) : Bool := (len q).toNat = sz

def emptyP (q : Queue α) : Bool := len q = 0

/-- The size is the number of items, and the predicates tell whether a call would fail. -/
structure SizesRight (sz : Nat) (q : Queue α) : Prop where
  size : (len q).toNat = stored sz q ∧ stored sz q ≤ sz
  empty : emptyP q = true ↔ Returns sz q .deq .deqEmpty
  full : ∀ x, fullP sz q = true ↔ Returns sz q (.enq x) .enqFull

theorem toNat_len {q : Queue α} (hhead : q.head < 2 ^ 64) (htail : q.tail < 2 ^ 64) :
    (len q).toNat =
      if q.head < q.tail then 2 ^ 64 - 1 - q.tail + q.head else q.head - q.tail := by
  have hhd : (UInt64.ofNat q.head).toNat = q.head := UInt64.toNat_ofNat_of_lt' hhead
  have htl : (UInt64.ofNat q.tail).toNat = q.tail := UInt64.toNat_ofNat_of_lt' htail
  have hmax : (~~~(0 : UInt64)).toNat = 2 ^ 64 - 1 := by decide
  simp only [len, UInt64.lt_iff_toNat_lt, hhd, htl]
  split_ifs with hlt
  · have hle : UInt64.ofNat q.tail ≤ ~~~(0 : UInt64) := by
      rw [UInt64.le_iff_toNat_le, hmax, htl]
      omega
    rw [UInt64.toNat_add, UInt64.toNat_sub_of_le _ _ hle, hmax, hhd, htl, Nat.mod_eq_of_lt]
    omega
  · have hle : UInt64.ofNat q.tail ≤ UInt64.ofNat q.head := by
      rw [UInt64.le_iff_toNat_le, hhd, htl]
      omega
    rw [UInt64.toNat_sub_of_le _ _ hle, hhd, htl]

section Runs
variable {w : World Tid (Queue α) (Pc α)} {tr : List (Tid × Event α)}

theorem sizesRight_of_idle (h : Tracked (2 ^ n) w tr) (hidle : ∀ t, w.pc t = .idle)
    (hhead : w.shared.head < 2 ^ 64) (htail : w.shared.tail < 2 ^ 64) :
    SizesRight (2 ^ n) w.shared := by
  have hpos := Nat.two_pow_pos n
  have hsettled := settled_of_idle h hidle
  have hput := hsettled.put_le hpos
  have hgot := hsettled.got_le
  have hlen : (len w.shared).toNat = w.shared.head - w.shared.tail := by
    rw [toNat_len hhead htail, if_neg (by omega)]
  have hturnHead := hsettled.turn_even_iff hpos (Nat.le_refl _)
  have hturnTail := hsettled.turn_odd_iff (k := w.shared.tail)
  rw [Nat.mul_comm] at hturnHead hturnTail
  rw [Nat.add_comm] at hturnTail
  refine ⟨?_, ?_, fun x => ?_⟩
  · rw [hlen, hsettled.stored_eq hpos]
    omega
  · rw [returns_deqEmpty_iff, idx_two_pow, lap, ne_eq, hturnTail, emptyP, decide_eq_true_eq,
      ← UInt64.toNat_inj, hlen, UInt64.toNat_zero]
    omega
  · rw [returns_enqFull_iff, idx_two_pow, lap, ne_eq, hturnHead, fullP, decide_eq_true_eq, hlen]
    omega

theorem idle_of_size (h : Tracked (2 ^ n) w tr) (hrest : AtRest (2 ^ n) w)
    (hhead : w.shared.head < 2 ^ 63) (htail : w.shared.tail < 2 ^ 63)
    (hsize : (len w.shared).toNat = stored (2 ^ n) w.shared) (t : Tid) : w.pc t = .idle := by
  have hpos := Nat.two_pow_pos n
  have hsettled := settled_of_rest h hrest
  rw [toNat_len (by omega) (by omega), hsettled.stored_eq hpos] at hsize
  have hbetween : w.shared.tail ≤ w.shared.head ∧ w.shared.head ≤ w.shared.tail + 2 ^ n := by
    split_ifs at hsize with hlt
    all_goals omega
  rw [Nat.min_eq_left hbetween.1, Nat.min_eq_left hbetween.2] at hsettled
  have hfree : (w.pc t).enqHolds = none ∧ (w.pc t).deqHolds = none := by
    constructor
    · by_contra hne
      obtain ⟨k, hk⟩ := Option.ne_none_iff_exists'.mp hne
      obtain ⟨hlt, hnot⟩ := h.enq.held t k hk
      exact hnot ((hsettled.published k).mpr hlt)
    · by_contra hne
      obtain ⟨k, hk⟩ := Option.ne_none_iff_exists'.mp hne
      obtain ⟨hlt, hnot⟩ := h.deq.held t k hk
      exact hnot ((hsettled.released k).mpr hlt)
  rcases hrest t with hidle | hblocked
  · exact hidle
  · cases hp : w.pc t with
    | idle => rfl
    | enqSpin x hd =>
      rw [hp] at hfree
      cases hfree.1
    | deqSpin tl =>
      rw [hp] at hfree
      cases hfree.2
    | _ =>
      rw [hp] at hblocked
      exact hblocked.elim

variable [DecidableEq Tid] {x₀ : α} {sched : List (Tid × Act α)}

/-- On a queue at rest, the size and the predicates are right exactly if no thread is blocked in a
wait. -/
theorem sizes_right_iff (hrun : exec (trans (2 ^ n)) (new x₀) sched = some (w, tr))
    (hops : tr.countP isCall < 2 ^ 63) (hrest : AtRest (2 ^ n) w) :
    SizesRight (2 ^ n) w.shared ↔ ∀ t, w.pc t = .idle := by
  obtain ⟨hhead, htail, -⟩ := counters_fit hrun hops
  have htracked := tracked_of_exec hrun
  constructor
  · exact fun h => idle_of_size htracked hrest hhead htail h.size.1
  · exact fun hidle => sizesRight_of_idle htracked hidle (by omega) (by omega)

theorem sizes_right_one : ∃ w tr, exec (trans 2) (new 0 : World Nat (Queue Nat) (Pc Nat))
    ((0, .call (.enq 5)) :: replicate 5 (0, .step)) = some (w, tr) ∧ stored 2 w.shared = 1 ∧
      SizesRight 2 w.shared := by
  obtain ⟨w, tr, hrun, hpc, hstored, hops⟩ : ∃ w tr, exec (trans (2 ^ 1))
      (new 0 : World Nat (Queue Nat) (Pc Nat)) ((0, .call (.enq 5)) :: replicate 5 (0, .step)) =
      some (w, tr) ∧ w.pc = Function.update (Function.update (Function.update (Function.update
        (Function.update (Function.update (fun _ => .idle) 0 (.enqLoad 5)) 0 (.enqTurn 5 0)) 0
        (.enqCas 5 0)) 0 (.enqWrite 5 0)) 0 (.enqStore 5 0)) 0 .idle ∧
      stored (2 ^ 1) w.shared = 1 ∧ tr.countP isCall = 1 := ⟨_, _, rfl, rfl, rfl, rfl⟩
  have hidle : ∀ t, w.pc t = .idle := by
    intro t
    rw [hpc]
    simp only [Function.update_idem]
    exact forall_update (Q := fun _ (p : Pc Nat) => p = .idle) rfl (fun _ _ => rfl) t
  have hfew : tr.countP isCall < 2 ^ 63 := hops ▸ by decide
  exact ⟨w, tr, hrun, hstored, (sizes_right_iff hrun hfew fun t => .inl (hidle t)).mpr hidle⟩

/-- A thread waits for an item of a new queue. -/
theorem size_of_empty : ∃ w tr, exec (trans 2) (new 0 : World Nat (Queue Nat) (Pc Nat))
    [(0, .call .deqWait), (0, .step)] = some (w, tr) ∧ AtRest 2 w ∧ stored 2 w.shared = 0 ∧
      (len w.shared).toNat = 2 ^ 64 - 2 ∧ emptyP w.shared = false ∧
      Returns 2 w.shared .deq .deqEmpty ∧ ¬ SizesRight 2 w.shared := by
  obtain ⟨w, tr, hrun, hpc, hturn, hstored, hlen, hempty, hreturns⟩ : ∃ w tr, exec (trans 2)
      (new 0 : World Nat (Queue Nat) (Pc Nat)) [(0, .call .deqWait), (0, .step)] = some (w, tr) ∧
      w.pc = Function.update (Function.update (fun _ => .idle) 0 .deqAdd) 0 (.deqSpin 0) ∧
      w.shared.turn 0 = 0 ∧ stored 2 w.shared = 0 ∧ (len w.shared).toNat = 2 ^ 64 - 2 ∧
      emptyP w.shared = false ∧ Returns 2 w.shared .deq .deqEmpty :=
    ⟨_, _, rfl, rfl, rfl, rfl, by decide, by decide, returns_deqEmpty (by decide)⟩
  have hrest : AtRest 2 w := by
    intro t
    rw [hpc]
    simp only [Function.update_idem]
    refine forall_update (Q := fun _ (p : Pc Nat) => p = .idle ∨ p.Blocked 2 w.shared) (.inr ?_)
      (fun _ _ => .inl rfl) t
    intro hturn'
    rw [show idx 2 0 = 0 from rfl, hturn] at hturn'
    cases hturn'
  refine ⟨w, tr, hrun, hrest, hstored, hlen, hempty, hreturns, fun hright => ?_⟩
  have hsize := hright.size.1
  rw [hlen, hstored] at hsize
  exact absurd hsize (by decide)

end Runs
end PortableLib.MpmcQueue
