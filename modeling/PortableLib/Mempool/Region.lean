import PortableLib.Mempool.Safety

/-! Pools in memory of the caller, for regions of any size at any address. -/

namespace PortableLib.Mempool
open List PortableLib.Image PortableLib.Bytes PortableLib.Run

/-- `mempool_new_from_mem`, or else `mempool_init_from_mem`. -/
def fromMem (new : Bool) (p : Nat) (blockSize : UInt32) (pool : Nat) (poolsz : UInt32) : Setup :=
  if new then .newFromMem p blockSize pool poolsz else .initFromMem p blockSize pool poolsz

/-- The `struct mempool` that is put into the region, the header of the chunk, and all that
`mempool_alloc` returns in any run are in the region. -/
structure Inside (debug new : Bool) (pool : Nat) (poolsz : UInt32) (s : State) : Prop where
  self : new → Within (align pool, mempoolSize) (pool, poolsz.toNat)
  chunk : Within (s.pool.chunks, chunkHeader) (pool, poolsz.toNat)
  blocks : ∀ ops, StepsMeet (step debug) (Allowed debug) ⟨s, ⟨[], [], [(pool, poolsz.toNat)]⟩⟩ ops →
    ∃ q, run (step debug) ⟨s, ⟨[], [], [(pool, poolsz.toNat)]⟩⟩ ops = some q ∧
      ∀ p ∈ q.2, p ≠ 0 → Within (p, s.pool.blockSize) (pool, poolsz.toNat)

/-- There is an error, or a pool inside the region. -/
def StaysInside (debug : Bool) (m : Nat → UInt8) (new : Bool) (p : Nat) (blockSize : UInt32)
    (pool : Nat) (poolsz : UInt32) : Prop :=
  (fromMem new p blockSize pool poolsz).make m = some (.error .einval) ∨
    (fromMem new p blockSize pool poolsz).make m = some (.error .enomem) ∨
    ∃ s, (fromMem new p blockSize pool poolsz).make m = some (.ok s) ∧
      Inside debug new pool poolsz s

/-- The `poolsize` of `mempool_init_from_mem` after the padding. -/
def unpadded (pool : Nat) (poolsz : UInt32) : Nat :=
  (((poolsz.toNat : Int) - ptrDiff (align pool) pool) % 2 ^ 64).toNat

def Refused (a : Nat) (blockSize : UInt32) (pool : Nat) (poolsz : UInt32) : Prop :=
  a = 0 ∨ pool = 0 ∨ poolsz = 0 ∨
    unpadded pool poolsz < roundSize blockSize + minAlignment + chunkHeader

/-- The address can be aligned without leaving the region, and the block size can be rounded up. -/
def Sized (blockSize : UInt32) (pool : Nat) (poolsz : UInt32) : Prop :=
  pool ≤ align pool ∧ align pool ≤ pool + poolsz.toNat ∧ blockSize.toNat ≤ 2 ^ 32 - 8

def Suits : (new : Bool) → (p : Nat) → (blockSize : UInt32) → (pool : Nat) → UInt32 → Prop
  | false, a, blockSize, pool, poolsz =>
    Refused a blockSize pool poolsz ∨ Sized blockSize pool poolsz
  | true, pa, blockSize, pool, poolsz =>
    pa = 0 ∨ pool = 0 ∨ poolsz = 0 ∨
      Refused (align pool) blockSize ((align pool + mempoolSize) % 2 ^ 64)
        (innerSize pool poolsz) ∨
      (pool ≤ align pool ∧ align pool + mempoolSize ≤ pool + poolsz.toNat ∧
        Sized blockSize (align pool + mempoolSize) (innerSize pool poolsz))

section calls
variable {debug : Bool} {s t : State} {answer : Nat}

def State.Same (s t : State) : Prop :=
  t.pool.blockSize = s.pool.blockSize ∧ t.pool.maxBlocks = s.pool.maxBlocks

theorem State.Same.trans {u : State} (h : s.Same t) (h' : t.Same u) : s.Same u :=
  ⟨h'.1.trans h.1, h'.2.trans h.2⟩

theorem same_setMemory (b : UInt8) (p : Nat) : s.Same (setMemory debug b p s) := by
  unfold setMemory
  split <;> exact ⟨rfl, rfl⟩

theorem same_dlRemoveTail : s.Same (dlRemoveTail s).2 := by
  simp only [dlRemoveTail]
  split_ifs <;> exact ⟨rfl, rfl⟩

theorem same_dlInsertHead (p : Nat) : s.Same (dlInsertHead p s) := by
  unfold dlInsertHead
  split_ifs <;> exact ⟨rfl, rfl⟩

theorem same_allocFromChunk : s.Same (allocFromChunk s).2 := by
  simp only [allocFromChunk]
  split_ifs <;> exact ⟨rfl, rfl⟩

theorem same_finish (asked : Option Nat) (r : Nat × State) :
    r.2.Same (finish debug asked r).state := by
  unfold finish
  split_ifs
  · exact same_setMemory 0xaa r.1
  · exact ⟨rfl, rfl⟩

theorem mempoolAlloc_same {r : Alloc} (h : mempoolAlloc debug answer s = some r) :
    s.Same r.state ∧ (s.pool.maxBlocks ≠ 0 → r.asked = none) := by
  have hremove := @same_dlRemoveTail s
  have hcarve := hremove.trans (@same_allocFromChunk (dlRemoveTail s).2)
  simp only [mempoolAlloc] at h
  generalize dlRemoveTail s = blk at h hremove hcarve
  generalize allocFromChunk blk.2 = area at h hcarve
  by_cases hfreed : blk.1 ≠ 0
  · rw [if_pos hfreed] at h
    obtain rfl := Option.some.inj h
    exact ⟨hremove.trans (same_finish none blk), fun _ => rfl⟩
  · rw [if_neg hfreed] at h
    by_cases hlimit : area.1 ≠ 0 ∨ area.2.pool.maxBlocks ≠ 0
    · rw [if_pos hlimit] at h
      obtain rfl := Option.some.inj h
      exact ⟨hcarve.trans (same_finish none area), fun _ => rfl⟩
    · -- only a pool without a limit asks for more
      rw [if_neg hlimit] at h
      have hmax : s.pool.maxBlocks = 0 := hcarve.2 ▸ not_not.mp (not_or.mp hlimit).2
      refine ⟨?_, fun hne => absurd hmax hne⟩
      rcases hnew : newChunk answer area.2 with _ | _ | t
      · rw [hnew] at h
        cases h
      · rw [hnew] at h
        obtain rfl := Option.some.inj h
        exact hcarve.trans (same_finish _ (0, area.2))
      · rw [hnew] at h
        obtain rfl := Option.some.inj h
        obtain ⟨-, -, -, hpool⟩ := newChunk_eq_some hnew
        have hsame : area.2.Same t := by
          rw [State.Same, hpool]
          exact ⟨rfl, rfl⟩
        exact ((hcarve.trans hsame).trans same_allocFromChunk).trans (same_finish _ _)

theorem mempoolFree_same {fuel ptr : Nat} (h : mempoolFree debug fuel ptr s = some t) :
    s.Same t := by
  have hall : s.Same (dlInsertHead ptr (setMemory debug 0x77 ptr s)) :=
    (same_setMemory 0x77 ptr).trans (same_dlInsertHead ptr)
  unfold mempoolFree at h
  split_ifs at h
  · split at h
    · obtain rfl := Option.some.inj h
      exact hall
    · cases h
  · obtain rfl := Option.some.inj h
    exact hall

end calls

section runs
variable {debug : Bool} {w : World} {r : Nat × Nat} {s : State}

structure Confined (r : Nat × Nat) (s : State) (w : World) : Prop where
  kept : Kept w
  granted : w.ledger.granted = [r]
  same : s.Same w.state
  limit : s.pool.maxBlocks ≠ 0

theorem Confined.live_within (h : Confined r s w) {p : Nat} (hp : p ∈ w.ledger.live) :
    Within (p, s.pool.blockSize) r := by
  obtain ⟨c, cs, hinv⟩ := h.kept
  obtain ⟨d, hd, hpd⟩ := hinv.block_in (mem_append_left _ hp)
  have hregion : d.region ∈ w.ledger.granted := hinv.granted ▸ mem_map_of_mem hd
  rw [h.granted, mem_singleton] at hregion
  rw [← hregion, ← h.same.1]
  exact (hinv.fits d hd).block_within hpd

theorem Confined.step (h : Confined r s w) {op : Op} (hop : Allowed debug w op) :
    ∃ p, step debug w op = some p ∧ Confined r s p.1 ∧
      (p.2 ≠ 0 → Within (p.2, s.pool.blockSize) r) := by
  obtain ⟨p, hp, hkept⟩ := kept_step h.kept hop
  cases op with
  | alloc answer =>
    obtain ⟨a, ha, rfl⟩ := Option.map_eq_some_iff.mp hp
    obtain ⟨hsame, hasked⟩ := mempoolAlloc_same ha
    have hgranted : (w.ledger.alloc answer a).granted = w.ledger.granted := by
      rw [Ledger.alloc, hasked (h.same.2 ▸ h.limit)]
    have hconfined : Confined r s ⟨a.state, w.ledger.alloc answer a⟩ :=
      ⟨hkept, hgranted.trans h.granted, h.same.trans hsame, h.limit⟩
    refine ⟨_, hp, hconfined, fun hne => hconfined.live_within ?_⟩
    change a.ptr ∈ (w.ledger.alloc answer a).live
    rw [Ledger.alloc, if_pos hne]
    exact mem_cons_self
  | free ptr =>
    obtain ⟨t, ht, rfl⟩ := Option.map_eq_some_iff.mp hp
    exact ⟨_, hp, ⟨hkept, h.granted, h.same.trans (mempoolFree_same ht), h.limit⟩,
      fun hne => absurd rfl hne⟩
  | poke x b =>
    obtain rfl := Option.some.inj hp
    exact ⟨_, hp, ⟨hkept, h.granted, h.same, h.limit⟩, fun hne => absurd rfl hne⟩

theorem inside_of_inv {new : Bool} {pool : Nat} {poolsz : UInt32} {c : Chunk}
    (hinv : Inv [c] s ⟨[], [], [(pool, poolsz.toNat)]⟩) (hmax : s.pool.maxBlocks ≠ 0)
    (hself : new → Within (align pool, mempoolSize) (pool, poolsz.toNat)) :
    Inside debug new pool poolsz s where
  self := hself
  chunk := by
    have hregion : c.region = (pool, poolsz.toNat) := by
      have hgranted := hinv.granted
      rw [map_singleton] at hgranted
      exact (singleton_inj.mp hgranted).symm
    rw [show s.pool.chunks = c.head from hinv.heads.1, ← hregion]
    exact (hinv.fits c mem_cons_self).head_within
  blocks ops hops := by
    obtain ⟨q, hq, -, hall⟩ := run_good (I := Confined (pool, poolsz.toNat) s)
      (G := fun p => p ≠ 0 → Within (p, s.pool.blockSize) (pool, poolsz.toNat))
      (fun _ _ hw hop => hw.step hop) ⟨⟨c, [], hinv⟩, rfl, ⟨rfl, rfl⟩, hmax⟩ hops
    exact ⟨q, hq, hall⟩

end runs

section init
variable {debug new : Bool} {m : Nat → UInt8} {a p pool : Nat} {blockSize poolsz : UInt32}
  {s : State}

theorem initFromMem_refused (h : Refused a blockSize pool poolsz) :
    mempoolInitFromMem m a blockSize pool poolsz = some (.error .einval) ∨
      mempoolInitFromMem m a blockSize pool poolsz = some (.error .enomem) := by
  by_cases hargs : a = 0 ∨ pool = 0 ∨ poolsz = 0
  · exact Or.inl (if_pos hargs)
  · have hsmall : unpadded pool poolsz < roundSize blockSize + minAlignment + chunkHeader := by
      rcases h with h | h | h | h
      · exact absurd (.inl h) hargs
      · exact absurd (.inr (.inl h)) hargs
      · exact absurd (.inr (.inr h)) hargs
      · exact h
    exact Or.inr ((if_neg hargs).trans (if_pos hsmall))

theorem initFromMem_not_refused (h : ¬ Refused a blockSize pool poolsz) {r : Except Errno State}
    (hr : mempoolInitFromMem m a blockSize pool poolsz = some r) :
    ∃ s, r = .ok s ∧ s.pool.chunks = align pool ∧ roundSize blockSize ≠ 0 ∧
      s.pool.blockSize = roundSize blockSize := by
  have hargs : ¬ (a = 0 ∨ pool = 0 ∨ poolsz = 0) := by
    rintro (h' | h' | h')
    · exact h (.inl h')
    · exact h (.inr (.inl h'))
    · exact h (.inr (.inr (.inl h')))
  have hsmall : ¬ unpadded pool poolsz < roundSize blockSize + minAlignment + chunkHeader :=
    fun h' => h (.inr (.inr (.inr h')))
  rw [mempoolInitFromMem, if_neg hargs] at hr
  unfold unpadded at hsmall
  simp only [hsmall, if_false] at hr
  split_ifs at hr with hbs hend
  obtain rfl := Option.some.inj hr
  exact ⟨_, rfl, rfl, hbs, rfl⟩

theorem initFromMem_ne_error (h : ¬ Refused a blockSize pool poolsz) (e : Errno) :
    mempoolInitFromMem m a blockSize pool poolsz ≠ some (.error e) := by
  intro he
  obtain ⟨s, hs, -⟩ := initFromMem_not_refused h he
  cases hs

theorem initFromMem_answer (h : ¬ Refused a blockSize pool poolsz) {P : State → Prop}
    (hany : mempoolInitFromMem m a blockSize pool poolsz = some (.error .einval) ∨
      mempoolInitFromMem m a blockSize pool poolsz = some (.error .enomem) ∨
      ∃ s, mempoolInitFromMem m a blockSize pool poolsz = some (.ok s) ∧ P s) :
    ∃ s, P s ∧ s.pool.chunks = align pool ∧ roundSize blockSize ≠ 0 := by
  rcases hany with h' | h' | ⟨s, hs, hP⟩
  · exact absurd h' (initFromMem_ne_error h .einval)
  · exact absurd h' (initFromMem_ne_error h .enomem)
  · obtain ⟨t, ht, hchunks, hbs, -⟩ := initFromMem_not_refused h hs
    obtain rfl := Except.ok.inj ht
    exact ⟨s, hP, hchunks, hbs⟩

theorem unpadded_of_le (hle : pool ≤ align pool) (hroom : align pool ≤ pool + poolsz.toNat)
    (hregion : pool + poolsz.toNat < 2 ^ 64) :
    unpadded pool poolsz = poolsz.toNat - (align pool - pool) := by
  have hsz := poolsz.toNat_lt
  have hpad : align pool - pool ≤ 7 := by
    rcases align_cases (show pool < 2 ^ 64 by omega) with h' | h'
    · omega
    · omega
  rw [unpadded, ptrDiff_of_le hle (by omega), toNat_sub_mod hsz hpad, if_pos (by omega)]

theorem initFromMem_sized (m : Nat → UInt8) (h : ¬ Refused a blockSize pool poolsz)
    (hsized : Sized blockSize pool poolsz) {r : Nat × Nat} (hlow : r.1 ≤ pool)
    (hhigh : pool + poolsz.toNat ≤ r.1 + r.2) (hsmall : r.1 + r.2 < 2 ^ 64) :
    ∃ s c, mempoolInitFromMem m a blockSize pool poolsz = some (.ok s) ∧
      Inv [c] s ⟨[], [], [r]⟩ ∧ s.pool.maxBlocks ≠ 0 := by
  obtain ⟨hle, hroom, hbs⟩ := hsized
  have hpool : pool ≠ 0 := fun h' => h (.inr (.inl h'))
  have hleft := unpadded_of_le hle hroom (by omega)
  have hfits : roundSize blockSize + 32 ≤ unpadded pool poolsz :=
    Nat.le_of_not_lt fun h' => h (.inr (.inr (.inr h')))
  exact initFromMem_roomy m (fun h' => h (.inl h')) hpool (roundSize_ne_zero_iff.mpr hbs) hle
    (by omega) hlow hhigh hsmall

theorem sized_of_within {low len : Nat} (hpool : pool < 2 ^ 64) (hlow : 0 < low)
    (hend : low + len = pool + poolsz.toNat) (hbs : roundSize blockSize ≠ 0)
    (h : Within (align pool, chunkHeader) (low, len)) : Sized blockSize pool poolsz := by
  have hheader : chunkHeader = 24 := rfl
  unfold Within at h
  simp only at h
  rcases align_cases hpool with h' | h'
  · exact ⟨h'.1, by omega, roundSize_ne_zero_iff.mp hbs⟩
  · omega

theorem initFromMem_inside_iff (debug : Bool) (m : Nat → UInt8) (a : Nat) (blockSize : UInt32)
    (hregion : pool + poolsz.toNat < 2 ^ 64) :
    StaysInside debug m false a blockSize pool poolsz ↔ Suits false a blockSize pool poolsz := by
  by_cases href : Refused a blockSize pool poolsz
  · refine iff_of_true ?_ (Or.inl href)
    exact (initFromMem_refused href).imp id Or.inl
  · refine Iff.trans ?_ (or_iff_right href).symm
    constructor
    · intro h
      obtain ⟨s, hin, hchunks, hbs⟩ := initFromMem_answer href h
      have hpool : 0 < pool := Nat.pos_of_ne_zero fun h => href (.inr (.inl h))
      exact sized_of_within (by omega) hpool rfl hbs (hchunks ▸ hin.chunk)
    · intro hsized
      obtain ⟨s, c, hs, hinv, hmax⟩ := initFromMem_sized m href hsized
        (r := (pool, poolsz.toNat)) (Nat.le_refl _) (Nat.le_refl _) hregion
      exact .inr (.inr ⟨s, hs, inside_of_inv hinv hmax fun h => by cases h⟩)

theorem newFromMem_inside_iff (debug : Bool) (m : Nat → UInt8) (pa : Nat) (blockSize : UInt32)
    (hregion : pool + poolsz.toNat < 2 ^ 64) :
    StaysInside debug m true pa blockSize pool poolsz ↔ Suits true pa blockSize pool poolsz := by
  have hself : mempoolSize = 72 := rfl
  by_cases hargs : pa = 0 ∨ pool = 0 ∨ poolsz = 0
  · exact iff_of_true (Or.inl (if_pos hargs)) (by
      rcases hargs with h | h | h
      · exact .inl h
      · exact .inr (.inl h)
      · exact .inr (.inr (.inl h)))
  · obtain ⟨hpa, hpool, hsz⟩ := not_or.mp hargs |>.imp_right not_or.mp
    have hmake : (fromMem true pa blockSize pool poolsz).make m = _ :=
      mempoolNewFromMem_eq blockSize hpa hpool hsz
    rw [StaysInside, hmake, Suits, or_iff_right hpa, or_iff_right hpool, or_iff_right hsz]
    by_cases href : Refused (align pool) blockSize ((align pool + mempoolSize) % 2 ^ 64)
        (innerSize pool poolsz)
    · refine iff_of_true ?_ (Or.inl href)
      exact (initFromMem_refused href).imp id Or.inl
    · rw [or_iff_right href]
      constructor
      · intro h
        obtain ⟨s, hin, hchunks, hbs⟩ := initFromMem_answer href h
        obtain ⟨hle, hroom⟩ := hin.self rfl
        simp only at hle hroom
        have hinner := @toNat_innerSize pool poolsz hle (by omega)
        have hptr : (align pool + mempoolSize) % 2 ^ 64 = align pool + mempoolSize :=
          Nat.mod_eq_of_lt (by omega)
        rw [hptr] at hchunks
        refine ⟨hle, hroom, sized_of_within (by omega) (Nat.pos_of_ne_zero hpool) ?_ hbs
          (hchunks ▸ hin.chunk)⟩
        omega
      · rintro ⟨hle, hroom, hsized⟩
        have hinner := @toNat_innerSize pool poolsz hle (by omega)
        have hptr : (align pool + mempoolSize) % 2 ^ 64 = align pool + mempoolSize :=
          Nat.mod_eq_of_lt (by omega)
        rw [hptr] at href ⊢
        obtain ⟨s, c, hs, hinv, hmax⟩ := initFromMem_sized m href hsized
          (r := (pool, poolsz.toNat)) (show pool ≤ align pool + mempoolSize by omega)
          (show align pool + mempoolSize + (innerSize pool poolsz).toNat ≤
            pool + poolsz.toNat by omega) hregion
        exact .inr (.inr ⟨s, hs, inside_of_inv hinv hmax fun _ => ⟨hle, hroom⟩⟩)

/-- `mempool_init_from_mem` and `mempool_new_from_mem` keep a pool inside the region exactly if
their guards refuse it or there is room for what comes before the blocks. -/
theorem fromMem_inside_iff (debug : Bool) (m : Nat → UInt8) (new : Bool) (p : Nat)
    (blockSize : UInt32) (hregion : pool + poolsz.toNat < 2 ^ 64) :
    StaysInside debug m new p blockSize pool poolsz ↔ Suits new p blockSize pool poolsz := by
  cases new with
  | false => exact initFromMem_inside_iff debug m p blockSize hregion
  | true => exact newFromMem_inside_iff debug m p blockSize hregion

end init

theorem fromMem_inside_iff_page :
    StaysInside true (fun _ => 0) true 1 16 4096 200 ↔ Suits true 1 16 4096 200 :=
  fromMem_inside_iff true (fun _ => 0) true 1 16 (by decide)

instance decidableRefused (a : Nat) (blockSize : UInt32) (pool : Nat) (poolsz : UInt32) :
    Decidable (Refused a blockSize pool poolsz) :=
  inferInstanceAs (Decidable (_ ∨ _ ∨ _ ∨ _ < _))

/-- Ten bytes are not enough for the `struct mempool`. -/
theorem newFromMem_leaves_region :
    ¬ ∀ (debug : Bool) (m : Nat → UInt8) (new : Bool) (p : Nat) (blockSize : UInt32) (pool : Nat)
      (poolsz : UInt32), pool + poolsz.toNat < 2 ^ 64 →
      StaysInside debug m new p blockSize pool poolsz := by
  intro hall
  have hsuits := (newFromMem_inside_iff true (fun _ => 0) 1 16 (by decide)).mp
    (hall true (fun _ => 0) true 1 16 4096 10 (by decide))
  rcases hsuits with h | h | h | h | ⟨-, h, -⟩
  · exact absurd h (by decide)
  · exact absurd h (by decide)
  · exact absurd h (by decide)
  · exact absurd h (by decide)
  · exact absurd h (by decide)

end PortableLib.Mempool
