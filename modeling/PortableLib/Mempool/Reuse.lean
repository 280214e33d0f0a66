import PortableLib.Mempool.Safety

/-! The order in which freed blocks are used again. -/

namespace PortableLib.Mempool
open List PortableLib.Run

def Setup.taken (s : State) : Setup → Nat × Nat
  | .init _ _ _ _ _ answer => (answer, s.pool.allocSize)
  | .new _ _ _ _ _ _ answer => (answer, s.pool.allocSize)
  | .initFromMem _ _ pool poolsz => (pool, poolsz.toNat)
  | .newFromMem _ _ pool poolsz => (align pool + mempoolSize, (innerSize pool poolsz).toNat)

/-- A new pool, where nobody else writes into the bytes that it takes for its own. -/
def Setup.start (s : State) (u : Setup) : World := ⟨s, ⟨[], [], [u.taken s]⟩⟩

/-- `mempool_alloc` returns the block that was freed last. -/
def ReusesLatest (debug : Bool) (answer : Nat) (w : World) : Prop :=
  ∃ r, mempoolAlloc debug answer w.state = some r ∧ w.ledger.freed.head? = some r.ptr

section reuse
variable {debug : Bool} {m : Nat → UInt8} {s : State} {w : World} {answer : Nat}

theorem kept_start {u : Setup} (hmake : u.make m = some (.ok s))
    (hreal : (u.granted s).1 + (u.granted s).2 ≤ 2 ^ 63) : Kept (u.start s) := by
  cases u with
  | newFromMem pa blockSize pool poolsz =>
    have hreal' : pool + poolsz.toNat ≤ 2 ^ 63 := hreal
    have hself : mempoolSize = 72 := rfl
    have hle := align_bounds (p := pool) (by omega)
    have hlt := (innerSize pool poolsz).toNat_lt
    obtain ⟨c, hinv, -⟩ := initFromMem_inv
      (r := (align pool + mempoolSize, (innerSize pool poolsz).toNat))
      (mempoolNewFromMem_eq_ok hmake hreal') (by omega) (Nat.le_refl _) (Nat.le_refl _)
      (show align pool + mempoolSize + (innerSize pool poolsz).toNat < 2 ^ 64 by omega)
    exact ⟨c, [], hinv⟩
  | _ => exact kept_of_fits hmake hreal trivial

theorem Kept.reuses_earliest (h : Kept w) (debug : Bool) (answer : Nat)
    (hfreed : w.ledger.freed ≠ []) :
    ∃ r t, mempoolAlloc debug answer w.state = some r ∧ w.ledger.freed = t ++ [r.ptr] ∧
      r.ptr ∉ t := by
  obtain ⟨c, cs, hinv⟩ := h
  have hlast : w.state.pool.last ≠ 0 := fun hzero => hfreed (hinv.links.eq_nil hzero)
  obtain ⟨r, t, hr, ht, -⟩ := hinv.mempoolAlloc_of_freed debug answer hlast
  refine ⟨r, t, hr, ht, fun hmem => ?_⟩
  have hnodup := hinv.links.nodup
  rw [ht] at hnodup
  exact (nodup_append.mp hnodup).2.2 _ hmem _ mem_cons_self rfl

theorem Kept.reuses_latest_iff (h : Kept w) (debug : Bool) (answer : Nat)
    (hfreed : w.ledger.freed ≠ []) :
    ReusesLatest debug answer w ↔ w.ledger.freed.length = 1 := by
  obtain ⟨r, t, hr, ht, hnot⟩ := h.reuses_earliest debug answer hfreed
  cases t with
  | nil => exact iff_of_true ⟨r, hr, by rw [ht]; rfl⟩ (by rw [ht]; rfl)
  | cons x t =>
    refine iff_of_false ?_ ?_
    · rintro ⟨r', hr', hhead⟩
      obtain rfl := Option.some.inj (hr.symm.trans hr')
      rw [ht] at hhead
      exact hnot (Option.some.inj hhead ▸ mem_cons_self)
    · rw [ht, length_append, length_cons, length_singleton]
      omega

/-- In every state that a run reaches, a call of `mempool_alloc` returns the block that was freed
last exactly if it is the only one. -/
theorem reuse_latest_iff (debug : Bool) {u : Setup} (hmake : u.make m = some (.ok s))
    (hreal : (u.granted s).1 + (u.granted s).2 ≤ 2 ^ 63) {ops : List Op}
    (hops : StepsMeet (step debug) (Allowed debug) (u.start s) ops) :
    ∃ q, run (step debug) (u.start s) ops = some q ∧ (q.1.ledger.freed ≠ [] →
      ∀ answer, ReusesLatest debug answer q.1 ↔ q.1.ledger.freed.length = 1) := by
  obtain ⟨q, hq, hkept⟩ := run_invariant (I := Kept) (fun _ _ hw hop => kept_step hw hop)
    (kept_start hmake hreal) hops
  exact ⟨q, hq, fun hfreed answer => hkept.reuses_latest_iff debug answer hfreed⟩

theorem ledger_of_free {ptr : Nat} {p : World × Nat} (h : step debug w (.free ptr) = some p) :
    p.1.ledger = w.ledger.free ptr := by
  obtain ⟨t, -, rfl⟩ := Option.map_eq_some_iff.mp h
  rfl

end reuse

def fourBlocks : Setup := .initFromMem 8 16 4096 100

theorem reuse_latest_iff_fourBlocks :
    ∃ s q, fourBlocks.make (fun _ => 0) = some (.ok s) ∧
      run (step true) (fourBlocks.start s) [.alloc 0, .free 4120] = some q ∧
      q.1.ledger.freed = [4120] ∧ ReusesLatest true 0 q.1 := by
  have hfirst : (session true fourBlocks [.alloc 0]).map (fun q => q.1.ledger) =
      some ⟨[4120], [], [(4096, 100)]⟩ := by decide
  have hboth : (session true fourBlocks [.alloc 0, .free 4120]).map (fun q => q.1.ledger) =
      some ⟨[], [4120], [(4096, 100)]⟩ := by decide
  obtain ⟨q, hq, hledger⟩ := Option.map_eq_some_iff.mp hfirst
  obtain ⟨s, hs, hrun⟩ := session_eq_some hq
  have hlive : 4120 ∈ q.1.ledger.live := by
    rw [hledger]
    exact mem_cons_self
  have hops : StepsMeet (step true) (Allowed true) (fourBlocks.start s)
      ([.alloc 0] ++ [.free 4120]) :=
    StepsMeet.append ⟨allowed_null _, fun _ _ => trivial⟩ hrun ⟨hlive, fun _ _ => trivial⟩
  obtain ⟨q', hq', hiff⟩ := reuse_latest_iff true hs (show 4096 + 100 ≤ 2 ^ 63 by decide) hops
  have hfreed : q'.1.ledger.freed = [4120] := by
    rw [session_of_make _ hs, show run (step true) (fourBlocks.world s) [.alloc 0, .free 4120] =
      some q' from hq', Option.map_some] at hboth
    rw [Option.some.inj hboth]
  refine ⟨s, q', hs, hq', hfreed, (hiff ?_ 0).mpr ?_⟩
  · rw [hfreed]
    exact cons_ne_nil _ _
  · rw [hfreed]
    rfl

/-- Of two freed blocks the one that was freed first is used again. -/
theorem reuse_is_not_latest :
    ¬ ∀ (debug : Bool) (m : Nat → UInt8) (u : Setup) (s : State), u.make m = some (.ok s) →
      (u.granted s).1 + (u.granted s).2 ≤ 2 ^ 63 → ∀ ops : List Op,
      StepsMeet (step debug) (Allowed debug) (u.start s) ops → ∀ q,
      run (step debug) (u.start s) ops = some q → q.1.ledger.freed ≠ [] →
      ∀ answer, ReusesLatest debug answer q.1 := by
  intro hall
  have hallocs : (session true fourBlocks [.alloc 0, .alloc 0]).map (fun q => q.1.ledger) =
      some ⟨[4136, 4120], [], [(4096, 100)]⟩ := by decide
  have hfrees : (session true fourBlocks [.alloc 0, .alloc 0, .free 4120, .free 4136]).map
      (fun q => q.1.ledger) = some ⟨[], [4136, 4120], [(4096, 100)]⟩ := by decide
  obtain ⟨q, hq, hledger⟩ := Option.map_eq_some_iff.mp hallocs
  obtain ⟨s, hs, hrun⟩ := session_eq_some hq
  obtain ⟨q', hq', hledger'⟩ := Option.map_eq_some_iff.mp hfrees
  rw [session_of_make _ hs] at hq'
  have hreal : 4096 + 100 ≤ 2 ^ 63 := by decide
  have hops : StepsMeet (step true) (Allowed true) (fourBlocks.start s)
      ([.alloc 0, .alloc 0] ++ [.free 4120, .free 4136]) := by
    refine StepsMeet.append ⟨allowed_null _, fun _ _ => ⟨allowed_null _, fun _ _ => trivial⟩⟩ hrun
      ⟨?_, fun p hp => ⟨?_, fun _ _ => trivial⟩⟩
    · show 4120 ∈ q.1.ledger.live
      rw [hledger]
      exact mem_cons_of_mem _ mem_cons_self
    · show 4136 ∈ p.1.ledger.live
      rw [ledger_of_free hp, hledger]
      exact mem_cons_self
  have hfreed : q'.1.ledger.freed = [4136, 4120] := by rw [hledger']
  have hne : q'.1.ledger.freed ≠ [] := hfreed ▸ cons_ne_nil _ _
  have hlatest := hall true _ fourBlocks s hs hreal _ hops q' hq' hne 0
  obtain ⟨q'', hq'', hkept⟩ := run_invariant (I := Kept) (fun _ _ hw hop => kept_step hw hop)
    (kept_start hs hreal) hops
  obtain rfl := Option.some.inj (hq'.symm.trans hq'')
  have hlen := (hkept.reuses_latest_iff true 0 hne).mp hlatest
  rw [hfreed] at hlen
  exact absurd hlen (by decide)

end PortableLib.Mempool
