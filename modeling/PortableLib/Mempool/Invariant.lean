import PortableLib.Mempool.Pool
import PortableLib.Lib.Links
import PortableLib.Lib.Slots
import Mathlib.Data.List.Pairwise
import Mathlib.Data.List.Perm.Basic

/-! The blocks of a pool. Every block that was ever carved out of a chunk is in the hands of the
caller or in the list of freed blocks. -/

namespace PortableLib.Mempool
open List PortableLib.Image PortableLib.Bytes PortableLib.Links PortableLib.Slots

/-- What the caller holds, what it gave back, and the bytes obtained for the chunks, with the
newest first. -/
structure Ledger where
  live : List Nat
  freed : List Nat
  granted : List (Nat × Nat)
  deriving DecidableEq, Repr

structure Chunk where
  region : Nat × Nat
  head : Nat
  start : Nat
  count : Nat
  carved : Nat

def Chunk.fin (size : Nat) (c : Chunk) : Nat := c.start + c.count * size

def Chunk.blocks (size : Nat) (c : Chunk) : List Nat := slots c.start size c.carved

structure Chunk.Fits (size : Nat) (c : Chunk) : Prop where
  nonnull : 0 < c.head
  low : c.region.1 ≤ c.head
  header : c.head + 24 ≤ c.start
  aligned : 8 ∣ c.start
  high : c.fin size ≤ c.region.1 + c.region.2
  small : c.region.1 + c.region.2 < 2 ^ 64
  carved : c.carved ≤ c.count

structure Inv (cs : List Chunk) (s : State) (l : Ledger) : Prop where
  sizeMin : 16 ≤ s.pool.blockSize
  sizeDvd : 8 ∣ s.pool.blockSize
  sizeLt : s.pool.blockSize < 2 ^ 32
  unitsLt : s.pool.minUnits < 2 ^ 32
  fits : ∀ c ∈ cs, c.Fits s.pool.blockSize
  granted : l.granted = cs.map Chunk.region
  apart : cs.Pairwise fun c d => Apart c.region d.region
  heads : Threads (next s.mem) s.pool.chunks (cs.map Chunk.head) 0
  areas : ∀ c ∈ cs, freeArea s.mem c.head = c.start + c.carved * s.pool.blockSize
  ends : ∀ c ∈ cs, chunkEnd s.mem c.head = c.fin s.pool.blockSize
  older : ∀ c ∈ cs.tail, c.carved = c.count
  blocks : (l.live ++ l.freed).Perm (cs.flatMap (Chunk.blocks s.pool.blockSize))
  links : Dlist 0 (next s.mem) (prev s.mem) s.pool.first s.pool.last l.freed
  /-- A pool with a limit has all its blocks in one chunk. -/
  bounded : s.pool.maxBlocks ≠ 0 → s.pool.minUnits = s.pool.maxBlocks ∧ cs.length ≤ 1 ∧
    ∀ c ∈ cs, c.count = s.pool.maxBlocks
  grows : s.pool.maxBlocks = 0 → s.pool.guarded ∧ s.pool.traits.alloc.isSome

variable {cs : List Chunk} {c d : Chunk} {s : State} {l : Ledger} {p q size : Nat}
  {m' : Nat → UInt8}

/-! ## Where the blocks are -/

theorem Chunk.Fits.block_bounds (h : c.Fits size) (hp : p ∈ c.blocks size) :
    c.head + 24 ≤ p ∧ p + size ≤ c.fin size := by
  have hslot := slot_bounds hp
  have hcarved : c.carved * size ≤ c.count * size := Nat.mul_le_mul_right size h.carved
  have hheader := h.header
  unfold Chunk.fin
  omega

theorem Chunk.Fits.head_within (h : c.Fits size) : Within (c.head, 24) c.region := by
  have hlow := h.low
  have hheader := h.header
  have hhigh := h.high
  unfold Chunk.fin at hhigh
  unfold Within
  simp only
  omega

theorem Chunk.Fits.block_within (h : c.Fits size) (hp : p ∈ c.blocks size) :
    Within (p, size) c.region := by
  have hbounds := h.block_bounds hp
  have hlow := h.low
  have hhigh := h.high
  unfold Within
  simp only
  omega

theorem Inv.block_in (h : Inv cs s l) (hp : p ∈ l.live ++ l.freed) :
    ∃ c ∈ cs, p ∈ c.blocks s.pool.blockSize :=
  mem_flatMap.mp (h.blocks.subset hp)

theorem Inv.regions_apart (h : Inv cs s l) (hc : c ∈ cs) (hd : d ∈ cs) (hne : c ≠ d) :
    Apart c.region d.region := by
  have hsymm : Std.Symm fun c d : Chunk => Apart c.region d.region := ⟨fun _ _ => Apart.symm⟩
  exact h.apart.forall hc hd hne

theorem Inv.head_block_apart (h : Inv cs s l) (hc : c ∈ cs) (hp : p ∈ l.live ++ l.freed) :
    Apart (c.head, 24) (p, s.pool.blockSize) := by
  obtain ⟨d, hd, hpd⟩ := h.block_in hp
  by_cases heq : c = d
  · subst heq
    exact .inl ((h.fits c hc).block_bounds hpd).1
  · exact (h.regions_apart hc hd heq).mono (h.fits c hc).head_within
      ((h.fits d hd).block_within hpd)

theorem Inv.blocks_apart (h : Inv cs s l) :
    (l.live ++ l.freed).Pairwise fun p q => Apart (p, s.pool.blockSize) (q, s.pool.blockSize) := by
  refine (h.blocks.pairwise_iff fun hpq => hpq.symm).mpr (pairwise_flatMap.mpr ⟨?_, ?_⟩)
  · intro c _
    exact slots_apart
  · refine h.apart.imp_of_mem fun {c d} hc hd hcd p hp q hq => ?_
    exact hcd.mono ((h.fits c hc).block_within hp) ((h.fits d hd).block_within hq)

theorem ne_of_apart (hsize : 0 < size) (h : Apart (p, size) (q, size)) : p ≠ q := by
  unfold Apart at h
  simp only at h
  omega

theorem Inv.nodup (h : Inv cs s l) : (l.live ++ l.freed).Nodup := by
  have hpos : 0 < s.pool.blockSize := Nat.lt_of_lt_of_le (by decide) h.sizeMin
  exact h.blocks_apart.imp fun hpq => ne_of_apart hpos hpq

theorem Inv.block_apart (h : Inv cs s l) (hp : p ∈ l.live ++ l.freed) (hq : q ∈ l.live ++ l.freed)
    (hne : p ≠ q) : Apart (p, s.pool.blockSize) (q, s.pool.blockSize) := by
  have hsymm : Std.Symm fun p q => Apart (p, s.pool.blockSize) (q, s.pool.blockSize) :=
    ⟨fun _ _ => Apart.symm⟩
  exact h.blocks_apart.forall hp hq hne

theorem Inv.live_ne_freed (h : Inv cs s l) (hp : p ∈ l.live) (hq : q ∈ l.freed) : p ≠ q :=
  (nodup_append.mp h.nodup).2.2 p hp q hq

theorem Inv.block_lt (h : Inv cs s l) (hp : p ∈ l.live ++ l.freed) :
    0 < p ∧ p + s.pool.blockSize < 2 ^ 64 := by
  obtain ⟨c, hc, hpc⟩ := h.block_in hp
  have hfits := h.fits c hc
  have hbounds := hfits.block_bounds hpc
  have hhigh := hfits.high
  have hsmall := hfits.small
  omega

/-! ## The pool's own bytes -/

theorem links_of_agree {m : Nat → UInt8} {first last : Nat} {freed : List Nat}
    (h : Dlist 0 (next m) (prev m) first last freed) (hfreed : ∀ p ∈ freed, Agree m m' (p, 16)) :
    Dlist 0 (next m') (prev m') first last freed := by
  apply h.congr
  · intro p hp
    exact next_of_agree (hfreed p hp) (by decide)
  · intro p hp
    exact prev_of_agree (hfreed p hp)

theorem Inv.relink (h : Inv cs s l) {first last : Nat} {live freed : List Nat}
    (hheads : ∀ c ∈ cs, Agree s.mem m' (c.head, 24))
    (hblocks : (live ++ freed).Perm (l.live ++ l.freed))
    (hlinks : Dlist 0 (next m') (prev m') first last freed) :
    Inv cs ⟨{ s.pool with first := first, last := last }, m'⟩ ⟨live, freed, l.granted⟩ := by
  refine { h with heads := ?_, areas := ?_, ends := ?_, blocks := hblocks.trans h.blocks,
                  links := hlinks }
  · apply h.heads.congr
    intro x hx
    obtain ⟨c, hc, rfl⟩ := mem_map.mp hx
    exact next_of_agree (hheads c hc) (by decide)
  · intro c hc
    exact (freeArea_of_agree (hheads c hc)).trans (h.areas c hc)
  · intro c hc
    exact (chunkEnd_of_agree (hheads c hc)).trans (h.ends c hc)

theorem Inv.frame (h : Inv cs s l) (hheads : ∀ c ∈ cs, Agree s.mem m' (c.head, 24))
    (hfreed : ∀ p ∈ l.freed, Agree s.mem m' (p, 16)) : Inv cs { s with mem := m' } l := by
  apply h.relink hheads (Perm.refl _)
  exact links_of_agree h.links hfreed

theorem Inv.setMemory_spec (h : Inv cs s l) (hp : p ∈ l.live) (debug : Bool) (b : UInt8) :
    Inv cs (setMemory debug b p s) l := by
  unfold setMemory
  split
  · apply h.frame
    · intro c hc
      exact agree_fill (h.head_block_apart hc (mem_append_left _ hp))
    · intro q hq
      have hapart := h.block_apart (mem_append_right l.live hq) (mem_append_left _ hp)
        (h.live_ne_freed hp hq).symm
      exact agree_fill (hapart.mono ⟨Nat.le_refl q, Nat.add_le_add_left h.sizeMin q⟩
        ⟨Nat.le_refl p, Nat.le_refl _⟩)
  · exact h

/-! ## The list of freed blocks -/

theorem within_next (p : Nat) : Within (p, 8) (p, 16) :=
  ⟨Nat.le_refl p, Nat.add_le_add_left (show 8 ≤ 16 by decide) p⟩

theorem within_prev (p : Nat) : Within (p + 8, 8) (p, 16) :=
  ⟨Nat.le_add_right p 8, Nat.le_refl (p + 16)⟩

theorem Inv.links_within (h : Inv cs s l) {x : Nat} (hx : Within (x, 8) (p, 16)) :
    Within (x, 8) (p, s.pool.blockSize) :=
  ⟨hx.1, Nat.le_trans hx.2 (Nat.add_le_add_left h.sizeMin p)⟩

section Stores
variable {m : Nat → UInt8} {v x y : Nat}

theorem Inv.agree_head (h : Inv cs s l) (hq : q ∈ l.live ++ l.freed)
    (hy : Within (y, 8) (q, 16)) (hc : c ∈ cs) : Agree m (store 8 m y v) (c.head, 24) := by
  apply agree_store
  exact (h.head_block_apart hc hq).mono ⟨Nat.le_refl _, Nat.le_refl _⟩ (h.links_within hy)

theorem Inv.load_link (h : Inv cs s l) (hp : p ∈ l.live ++ l.freed) (hq : q ∈ l.live ++ l.freed)
    (hne : p ≠ q) (hx : Within (x, 8) (p, 16)) (hy : Within (y, 8) (q, 16)) :
    load 8 (store 8 m y v) x = load 8 m x := by
  apply load_store_of_apart
  exact (h.block_apart hp hq hne).mono (h.links_within hx) (h.links_within hy)

theorem Inv.links_store (h : Inv cs s l) (hp : p ∈ l.live ++ l.freed)
    (hq : q ∈ l.live ++ l.freed) (hne : p ≠ q) (hy : Within (y, 8) (q, 16)) :
    next (store 8 m y v) p = next m p ∧ prev (store 8 m y v) p = prev m p :=
  ⟨h.load_link hp hq hne (within_next p) hy, h.load_link hp hq hne (within_prev p) hy⟩

end Stores

theorem Inv.dlRemoveTail_spec (h : Inv cs s l) (hlast : s.pool.last ≠ 0) :
    ∃ t s', l.freed = t ++ [s.pool.last] ∧ dlRemoveTail s = (s.pool.last, s') ∧
      Inv cs s' ⟨s.pool.last :: l.live, t, l.granted⟩ := by
  obtain ⟨t, ht⟩ := h.links.eq_snoc hlast
  have hperm : (s.pool.last :: l.live ++ t).Perm (l.live ++ l.freed) := by
    rw [ht, ← append_assoc, cons_append]
    exact (perm_append_singleton _ _).symm
  have hlinks := h.links
  rw [ht] at hlinks
  have hmem : ∀ y ∈ t, y ∈ l.live ++ l.freed := fun y hy =>
    mem_append_right _ (ht ▸ mem_append_left _ hy)
  by_cases hprev : prev s.mem s.pool.last = 0
  · refine ⟨t, _, ht, dlRemoveTail_of_single hlast hprev, ?_⟩
    apply h.relink (fun c _ x _ _ => rfl) hperm
    have hempty : Dlist 0 (next s.mem) (prev s.mem) 0 (prev s.mem s.pool.last) t :=
      hlinks.removeTail (fun y _ _ => rfl) (fun hne => absurd hprev hne) (fun y _ => rfl)
        (fun _ => rfl) (fun hne => absurd hprev hne)
    rwa [hprev] at hempty
  · refine ⟨t, _, ht, dlRemoveTail_of_prev hlast hprev, ?_⟩
    have hprevMem := hmem _ (hlinks.prv_mem hprev)
    apply h.relink (fun c hc => h.agree_head hprevMem (within_next _) hc) hperm
    apply hlinks.removeTail
    · intro y hy hne
      exact (h.links_store (hmem y hy) hprevMem hne (within_next _)).1
    · exact fun _ => next_store_self (by decide)
    · intro y hy
      by_cases heq : y = prev s.mem s.pool.last
      · rw [heq]
        exact prev_store_next
      · exact (h.links_store (hmem y hy) hprevMem heq (within_next _)).2
    · exact fun hzero => absurd hzero hprev
    · exact fun _ => rfl

theorem Inv.dlInsertHead_spec (h : Inv cs s l) (hp : p ∈ l.live) :
    Inv cs (dlInsertHead p s) ⟨l.live.erase p, p :: l.freed, l.granted⟩ := by
  have hpMem : p ∈ l.live ++ l.freed := mem_append_left _ hp
  have hpLt := h.block_lt hpMem
  have hpNe : p ≠ 0 := Nat.pos_iff_ne_zero.mp hpLt.1
  have hmem : ∀ y ∈ l.freed, y ∈ l.live ++ l.freed := fun y hy => mem_append_right _ hy
  have hne : ∀ y ∈ l.freed, y ≠ p := fun y hy => (h.live_ne_freed hp hy).symm
  have hfresh : p ∉ l.freed := fun hpf => hne p hpf rfl
  have hperm : (l.live.erase p ++ p :: l.freed).Perm (l.live ++ l.freed) :=
    perm_middle.trans ((perm_cons_erase hp).symm.append_right l.freed)
  -- the first and the last store are in the block itself
  have hkeep : ∀ y ∈ l.freed, ∀ (m : Nat → UInt8) v x, Within (x, 8) (p, 16) →
      next (store 8 m x v) y = next m y ∧ prev (store 8 m x v) y = prev m y :=
    fun y hy m v x hx => h.links_store (hmem y hy) hpMem (hne y hy) hx
  by_cases hfirst : s.pool.first = 0
  · rw [dlInsertHead_of_empty p hfirst]
    apply h.relink _ hperm
    · apply h.links.insertHead hfresh hpNe
      · rw [next_store_prev, next_store_self (by decide), hfirst]
      · exact prev_store_self (by decide)
      · intro y hy
        exact (hkeep y hy _ _ _ (within_prev p)).1.trans (hkeep y hy _ _ _ (within_next p)).1
      · intro y hy _
        exact (hkeep y hy _ _ _ (within_prev p)).2.trans (hkeep y hy _ _ _ (within_next p)).2
      · exact fun hne => absurd hfirst hne
      · exact fun _ => rfl
      · exact fun hne => absurd hfirst hne
    · intro c hc
      exact (h.agree_head hpMem (within_next p) hc).trans (h.agree_head hpMem (within_prev p) hc)
  · have hfirstMem := h.links.first_mem hfirst
    have hfirstLt := h.block_lt (hmem _ hfirstMem)
    have hfirstStore : ∀ y ∈ l.live ++ l.freed, y ≠ s.pool.first → ∀ (m : Nat → UInt8) v,
        next (store 8 m (s.pool.first + 8) v) y = next m y ∧
        prev (store 8 m (s.pool.first + 8) v) y = prev m y :=
      fun y hy hyne m v => h.links_store hy (hmem _ hfirstMem) hyne (within_prev _)
    rw [dlInsertHead_of_first p hfirst]
    apply h.relink _ hperm
    · apply h.links.insertHead hfresh hpNe
      · rw [next_store_prev, (hfirstStore p hpMem (hne _ hfirstMem).symm _ _).1]
        exact next_store_self (by omega)
      · exact prev_store_self (by decide)
      · intro y hy
        rw [(hkeep y hy _ _ _ (within_prev p)).1]
        by_cases heq : y = s.pool.first
        · rw [heq, next_store_prev]
          exact (hkeep _ hfirstMem _ _ _ (within_next p)).1
        · rw [(hfirstStore y (hmem y hy) heq _ _).1]
          exact (hkeep y hy _ _ _ (within_next p)).1
      · intro y hy heq
        rw [(hkeep y hy _ _ _ (within_prev p)).2, (hfirstStore y (hmem y hy) heq _ _).2]
        exact (hkeep y hy _ _ _ (within_next p)).2
      · intro _
        rw [(hkeep _ hfirstMem _ _ _ (within_prev p)).2]
        exact prev_store_self (by omega)
      · exact fun hzero => absurd hzero hfirst
      · exact fun _ => rfl
    · intro c hc
      exact ((h.agree_head hpMem (within_next p) hc).trans
        (h.agree_head (hmem _ hfirstMem) (within_prev _) hc)).trans
        (h.agree_head hpMem (within_prev p) hc)

/-! ## Chunks -/

theorem inv_nil {a : Pool} (m : Nat → UInt8) (hmin : 16 ≤ a.blockSize) (hdvd : 8 ∣ a.blockSize)
    (hsize : a.blockSize < 2 ^ 32) (hunits : a.minUnits < 2 ^ 32) (hchunks : a.chunks = 0)
    (hfirst : a.first = 0) (hlast : a.last = 0) (hmax : a.maxBlocks ≠ 0 → a.minUnits = a.maxBlocks)
    (hgrows : a.maxBlocks = 0 → a.guarded ∧ a.traits.alloc.isSome) :
    Inv [] ⟨a, m⟩ ⟨[], [], []⟩ where
  sizeMin := hmin
  sizeDvd := hdvd
  sizeLt := hsize
  unitsLt := hunits
  fits := fun c hc => absurd hc not_mem_nil
  granted := rfl
  apart := Pairwise.nil
  heads := hchunks
  areas := fun c hc => absurd hc not_mem_nil
  ends := fun c hc => absurd hc not_mem_nil
  older := fun c hc => absurd hc not_mem_nil
  blocks := Perm.nil
  links := by
    simp only [hfirst, hlast]
    exact dlist_nil
  bounded := fun hne => ⟨hmax hne, Nat.zero_le 1, fun c hc => absurd hc not_mem_nil⟩
  grows := hgrows

theorem Inv.addChunk (h : Inv cs s l) (hfits : c.Fits s.pool.blockSize) (hcarved : c.carved = 0)
    (hapart : ∀ d ∈ cs, Apart c.region d.region) (hfull : ∀ d ∈ cs, d.carved = d.count)
    (hmax : s.pool.maxBlocks ≠ 0 → cs = [] ∧ c.count = s.pool.maxBlocks) :
    Inv (c :: cs) ⟨{ s.pool with chunks := c.head },
      header s.mem c.head s.pool.chunks c.start (c.fin s.pool.blockSize)⟩
      { l with granted := c.region :: l.granted } := by
  have hlow := hfits.low
  have hheader := hfits.header
  have hhigh := hfits.high
  have hsmall := hfits.small
  have hstart : c.start ≤ c.fin s.pool.blockSize := Nat.le_add_right _ _
  have hchunks : s.pool.chunks < 2 ^ 64 := by
    have hheads := h.heads
    cases cs with
    | nil =>
      rw [show s.pool.chunks = 0 from hheads]
      decide
    | cons d cs =>
      have hd := h.fits d mem_cons_self
      have hwithin := hd.head_within
      have hdsmall := hd.small
      rw [show s.pool.chunks = d.head from hheads.1]
      unfold Within at hwithin
      simp only at hwithin
      omega
  -- the header is written apart from the older chunks and from every block
  have hothers : ∀ d ∈ cs, Agree s.mem
      (header s.mem c.head s.pool.chunks c.start (c.fin s.pool.blockSize)) (d.head, 24) := by
    intro d hd
    exact agree_header ((hapart d hd).symm.mono (h.fits d hd).head_within hfits.head_within)
  have hfreed : ∀ p ∈ l.freed, Agree s.mem
      (header s.mem c.head s.pool.chunks c.start (c.fin s.pool.blockSize)) (p, 16) := by
    intro p hp
    obtain ⟨d, hd, hpd⟩ := h.block_in (mem_append_right l.live hp)
    have hblock : Apart (p, s.pool.blockSize) (c.head, 24) :=
      (hapart d hd).symm.mono ((h.fits d hd).block_within hpd) hfits.head_within
    exact agree_header (hblock.mono ⟨Nat.le_refl p, Nat.add_le_add_left h.sizeMin p⟩
      ⟨Nat.le_refl _, Nat.le_refl _⟩)
  have hframe := h.frame hothers hfreed
  refine { hframe with
    fits := ?_, granted := ?_, apart := ?_, heads := ?_, areas := ?_, ends := ?_, older := hfull,
    blocks := ?_, bounded := ?_ }
  · exact forall_mem_cons.mpr ⟨hfits, h.fits⟩
  · rw [map_cons, h.granted]
  · exact pairwise_cons.mpr ⟨hapart, h.apart⟩
  · refine ⟨rfl, ?_⟩
    rw [next_header hchunks]
    exact hframe.heads
  · refine forall_mem_cons.mpr ⟨?_, hframe.areas⟩
    rw [freeArea_header (by omega), hcarved, Nat.zero_mul, Nat.add_zero]
  · refine forall_mem_cons.mpr ⟨?_, hframe.ends⟩
    exact chunkEnd_header (by omega)
  · rw [flatMap_cons, Chunk.blocks, hcarved]
    exact h.blocks
  · intro hne
    obtain ⟨rfl, hcount⟩ := hmax hne
    exact ⟨(h.bounded hne).1, Nat.le_refl 1, forall_mem_cons.mpr ⟨hcount, (h.bounded hne).2.2⟩⟩

theorem Inv.newChunk_spec {answer : Nat} (h : Inv cs s l) (hguard : s.pool.guarded)
    (halloc : s.pool.traits.alloc.isSome) (hfull : ∀ d ∈ cs, d.carved = d.count)
    (hmax : s.pool.maxBlocks ≠ 0 → cs = []) (hne : answer ≠ 0)
    (hsmall : answer + s.pool.allocSize < 2 ^ 64)
    (hfresh : ∀ r ∈ l.granted, Apart (answer, s.pool.allocSize) r) :
    ∃ c s', newChunk answer s = some (some s') ∧ c.carved = 0 ∧ 0 < c.count ∧
      s'.pool = { s.pool with chunks := answer } ∧
      Inv (c :: cs) s' { l with granted := (answer, s.pool.allocSize) :: l.granted } := by
  obtain ⟨hchunk, hbytes, hunits, -⟩ := Pool.sizes_of_guarded h.sizeLt h.unitsLt hguard
  have hstart : (answer + chunkHeader) % 2 ^ 64 = answer + 24 :=
    Nat.mod_eq_of_lt (show answer + 24 < 2 ^ 64 by omega)
  have halign := align_bounds (show answer + 24 + 7 < 2 ^ 64 by omega)
  have hdvd := dvd_align (show 8 ≤ answer + 24 by omega) (show answer + 24 + 7 < 2 ^ 64 by omega)
  have hfin : (align (answer + 24) + s.pool.chunkSize) % 2 ^ 64 =
      align (answer + 24) + s.pool.minUnits * s.pool.blockSize := by
    rw [hchunk]
    exact Nat.mod_eq_of_lt (by omega)
  let c : Chunk := ⟨(answer, s.pool.allocSize), answer, align (answer + 24), s.pool.minUnits, 0⟩
  have hfits : c.Fits s.pool.blockSize :=
    { nonnull := Nat.pos_of_ne_zero hne
      low := Nat.le_refl answer
      header := halign.1
      aligned := hdvd
      high := by
        show align (answer + 24) + s.pool.minUnits * s.pool.blockSize ≤ answer + s.pool.allocSize
        omega
      small := hsmall
      carved := Nat.zero_le _ }
  have hapart : ∀ d ∈ cs, Apart c.region d.region := by
    intro d hd
    apply hfresh
    rw [h.granted]
    exact mem_map_of_mem hd
  have hinv := h.addChunk hfits rfl hapart hfull fun hlim => ⟨hmax hlim, (h.bounded hlim).1⟩
  refine ⟨c, _, ?_, rfl, hunits, rfl, hinv⟩
  simp only [newChunk, hguard, halloc, Bool.and_self, if_true, hne, if_false, hstart, hfin]
  rfl

theorem Inv.allocFromChunk_of_full (h : Inv (c :: cs) s l) (hfull : c.carved = c.count) :
    allocFromChunk s = (0, s) := by
  have hhead : s.pool.chunks = c.head := h.heads.1
  have harea := h.areas c mem_cons_self
  have hend := h.ends c mem_cons_self
  have hge : ¬ freeArea s.mem c.head < chunkEnd s.mem c.head := by
    rw [harea, hend, hfull]
    exact Nat.lt_irrefl _
  simp only [allocFromChunk, hhead, hge, if_false]

theorem Inv.allocFromChunk_spec (h : Inv (c :: cs) s l) (hlt : c.carved < c.count) :
    ∃ s', allocFromChunk s = (c.start + c.carved * s.pool.blockSize, s') ∧
      Inv ({ c with carved := c.carved + 1 } :: cs) s'
        { l with live := (c.start + c.carved * s.pool.blockSize) :: l.live } := by
  have hfits := h.fits c mem_cons_self
  have hhigh := hfits.high
  have hsmall := hfits.small
  have hmin := h.sizeMin
  have hhead : s.pool.chunks = c.head := h.heads.1
  have harea := h.areas c mem_cons_self
  have hend := h.ends c mem_cons_self
  have hroom := mul_add_le_of_lt s.pool.blockSize hlt
  have hsucc : (c.carved + 1) * s.pool.blockSize =
      c.carved * s.pool.blockSize + s.pool.blockSize := Nat.succ_mul _ _
  unfold Chunk.fin at hhigh hend
  have hless : freeArea s.mem c.head < chunkEnd s.mem c.head := by
    rw [harea, hend]
    omega
  -- the free area ends inside the address space, so the addition does not wrap
  have hwrap : (freeArea s.mem c.head + s.pool.blockSize) % 2 ^ 64 =
      c.start + (c.carved + 1) * s.pool.blockSize := by
    rw [harea, Nat.mod_eq_of_lt (by omega)]
    omega
  have heq : allocFromChunk s = (c.start + c.carved * s.pool.blockSize,
      { s with
        mem := store 8 s.mem (c.head + 8) (c.start + (c.carved + 1) * s.pool.blockSize) }) := by
    simp only [allocFromChunk, hhead, hless, if_true, hwrap]
    rw [harea]
  -- only the free area of this chunk is stored
  have hword : Within (c.head + 8, 8) (c.head, 24) := ⟨Nat.le_add_right _ _, by simp only; omega⟩
  have hothers : ∀ d ∈ cs, Agree s.mem
      (store 8 s.mem (c.head + 8) (c.start + (c.carved + 1) * s.pool.blockSize)) (d.head, 24) := by
    intro d hd
    have hcd := (pairwise_cons.mp h.apart).1 d hd
    exact agree_store (hcd.symm.mono (h.fits d (mem_cons_of_mem c hd)).head_within
      ⟨Nat.le_trans hfits.head_within.1 hword.1, Nat.le_trans hword.2 hfits.head_within.2⟩)
  have hfreed : ∀ q ∈ l.freed, Agree s.mem
      (store 8 s.mem (c.head + 8) (c.start + (c.carved + 1) * s.pool.blockSize)) (q, 16) := by
    intro q hq
    have hblock := h.head_block_apart mem_cons_self (mem_append_right l.live hq)
    exact agree_store (hblock.symm.mono ⟨Nat.le_refl q, Nat.add_le_add_left hmin q⟩ hword)
  refine ⟨_, heq, { h with
    fits := ?_, granted := h.granted, apart := ?_, heads := ?_, areas := ?_, ends := ?_,
    older := h.older, blocks := ?_, links := links_of_agree h.links hfreed, bounded := ?_ }⟩
  · exact forall_mem_cons.mpr ⟨{ hfits with carved := hlt }, (forall_mem_cons.mp h.fits).2⟩
  · exact pairwise_cons.mpr (pairwise_cons.mp h.apart)
  · refine ⟨hhead, ?_⟩
    rw [next_store_prev]
    apply h.heads.2.congr
    intro x hx
    obtain ⟨d, hd, rfl⟩ := mem_map.mp hx
    exact next_of_agree (hothers d hd) (by decide)
  · refine forall_mem_cons.mpr ⟨freeArea_store_self (by omega), fun d hd => ?_⟩
    exact (freeArea_of_agree (hothers d hd)).trans (h.areas d (mem_cons_of_mem c hd))
  · refine forall_mem_cons.mpr ⟨?_, fun d hd => ?_⟩
    · exact chunkEnd_store_area.trans hend
    · exact (chunkEnd_of_agree (hothers d hd)).trans (h.ends d (mem_cons_of_mem c hd))
  · have hblocks := h.blocks
    rw [flatMap_cons] at hblocks ⊢
    unfold Chunk.blocks at hblocks ⊢
    rw [slots_succ, append_assoc, singleton_append]
    exact (hblocks.cons _).trans perm_middle.symm
  · intro hne
    obtain ⟨hunits, hlen, hcount⟩ := h.bounded hne
    exact ⟨hunits, hlen, forall_mem_cons.mpr (forall_mem_cons.mp hcount)⟩

/-! ## Allocation -/

/-- What a call of `mempool_alloc` does with the ledger: reuse, carve, fail at the limit, fail
without an answer, or carve from a new chunk. -/
inductive Outcome (c : Chunk) (cs : List Chunk) (s : State) (l : Ledger) (answer : Nat)
    (r : Alloc) :
    Prop
  | reuse (t : List Nat) (hfreed : l.freed = t ++ [r.ptr]) (hptr : r.ptr ≠ 0)
      (hasked : r.asked = none) (hinv : Inv (c :: cs) r.state ⟨r.ptr :: l.live, t, l.granted⟩)
  | carve (hfreed : l.freed = []) (hptr : r.ptr ≠ 0) (hasked : r.asked = none)
      (hlt : c.carved < c.count) (hinv : Inv ({ c with carved := c.carved + 1 } :: cs) r.state
        ⟨r.ptr :: l.live, [], l.granted⟩)
  | limit (hfreed : l.freed = []) (hptr : r.ptr = 0) (hasked : r.asked = none)
      (hfull : c.carved = c.count) (hmax : s.pool.maxBlocks ≠ 0) (hstate : r.state = s)
  | refused (hfreed : l.freed = []) (hptr : r.ptr = 0) (hasked : r.asked = some s.pool.allocSize)
      (hfull : c.carved = c.count) (hmax : s.pool.maxBlocks = 0) (hanswer : answer = 0)
      (hstate : r.state = s)
  | grow (d : Chunk) (hfreed : l.freed = []) (hptr : r.ptr ≠ 0)
      (hasked : r.asked = some s.pool.allocSize) (hfull : c.carved = c.count)
      (hmax : s.pool.maxBlocks = 0) (hanswer : answer ≠ 0) (hinv : Inv (d :: c :: cs) r.state
        ⟨r.ptr :: l.live, [], (answer, s.pool.allocSize) :: l.granted⟩)

theorem Inv.finish_spec (h : Inv cs s l) (hp : p ∈ l.live) (debug : Bool) (asked : Option Nat) :
    (finish debug asked (p, s)).ptr ≠ 0 ∧ Inv cs (finish debug asked (p, s)).state l := by
  have hne : p ≠ 0 := Nat.pos_iff_ne_zero.mp (h.block_lt (mem_append_left _ hp)).1
  refine ⟨hne, ?_⟩
  simp only [finish, ne_eq, hne, not_false_eq_true, if_true]
  exact h.setMemory_spec hp debug 0xaa

theorem Inv.mempoolAlloc_of_grow (h : Inv (c :: cs) s l) (debug : Bool) (answer : Nat)
    (hlast : s.pool.last = 0) (hfull : c.carved = c.count) (hmax : s.pool.maxBlocks = 0) :
    mempoolAlloc debug answer s = match newChunk answer s with
      | none => none
      | some none => some (finish debug (some s.pool.allocSize) (0, s))
      | some (some t) => some (finish debug (some s.pool.allocSize) (allocFromChunk t)) := by
  have hfirst := dlRemoveTail_of_empty hlast
  have hsecond := h.allocFromChunk_of_full hfull
  simp only [mempoolAlloc, hfirst, hsecond]
  rw [hmax]
  rcases newChunk answer s with _ | _ | t
  · rfl
  · rfl
  · rfl

theorem Inv.newChunk_isSome (h : Inv cs s l) (answer : Nat) (hmax : s.pool.maxBlocks = 0) :
    ∃ o, newChunk answer s = some o := by
  obtain ⟨hguard, halloc⟩ := h.grows hmax
  simp only [newChunk, hguard, halloc, Bool.and_self, if_true]
  split_ifs
  · exact ⟨_, rfl⟩
  · exact ⟨_, rfl⟩

theorem Inv.asks (h : Inv (c :: cs) s l) (debug : Bool) (answer : Nat)
    (hlast : s.pool.last = 0) (hfull : c.carved = c.count) (hmax : s.pool.maxBlocks = 0) :
    ∃ r, mempoolAlloc debug answer s = some r ∧ r.asked = some s.pool.allocSize := by
  rw [h.mempoolAlloc_of_grow debug answer hlast hfull hmax]
  obtain ⟨o, ho⟩ := h.newChunk_isSome answer hmax
  rw [ho]
  cases o with
  | none => exact ⟨_, rfl, rfl⟩
  | some t => exact ⟨_, rfl, rfl⟩

theorem Inv.mempoolAlloc_of_freed (h : Inv cs s l) (debug : Bool) (answer : Nat)
    (hlast : s.pool.last ≠ 0) :
    ∃ r t, mempoolAlloc debug answer s = some r ∧ l.freed = t ++ [r.ptr] ∧ r.ptr ≠ 0 ∧
      r.asked = none ∧ Inv cs r.state ⟨r.ptr :: l.live, t, l.granted⟩ := by
  obtain ⟨t, s', ht, hs', hinv⟩ := h.dlRemoveTail_spec hlast
  obtain ⟨hptr, hinv'⟩ := hinv.finish_spec mem_cons_self debug none
  refine ⟨finish debug none (s.pool.last, s'), t, ?_, ht, hptr, rfl, hinv'⟩
  simp only [mempoolAlloc, hs', ne_eq, hlast, not_false_eq_true, if_true]

theorem Inv.mempoolAlloc_spec {answer : Nat} (h : Inv (c :: cs) s l) (debug : Bool)
    (hfresh : ∀ r, mempoolAlloc debug answer s = some r → ∀ n, r.asked = some n → answer ≠ 0 →
      answer + n < 2 ^ 64 ∧ ∀ r ∈ l.granted, Apart (answer, n) r) :
    ∃ r, mempoolAlloc debug answer s = some r ∧ Outcome c cs s l answer r := by
  by_cases hlast : s.pool.last = 0
  · have hfreed := h.links.eq_nil hlast
    have hempty := dlRemoveTail_of_empty hlast
    by_cases hlt : c.carved < c.count
    · obtain ⟨s', hs', hinv⟩ := h.allocFromChunk_spec hlt
      obtain ⟨hptr, hinv'⟩ := hinv.finish_spec mem_cons_self debug none
      have hne : c.start + c.carved * s.pool.blockSize ≠ 0 := hptr
      refine ⟨finish debug none (c.start + c.carved * s.pool.blockSize, s'), ?_, ?_⟩
      · simp only [mempoolAlloc, hempty, hs', ne_eq, not_true_eq_false, if_false, hne,
          not_false_eq_true, true_or, if_true]
      · rw [hfreed] at hinv'
        exact .carve hfreed hptr rfl hlt hinv'
    · have hfull : c.carved = c.count :=
        Nat.le_antisymm (h.fits c mem_cons_self).carved (Nat.not_lt.mp hlt)
      by_cases hmax : s.pool.maxBlocks = 0
      · have hcall := h.mempoolAlloc_of_grow debug answer hlast hfull hmax
        obtain ⟨hguard, halloc⟩ := h.grows hmax
        by_cases hne : answer = 0
        · have hrefuse : newChunk answer s = some none := by
            simp only [newChunk, hguard, halloc, Bool.and_self, if_true, hne]
          rw [hrefuse] at hcall
          exact ⟨_, hcall, .refused hfreed rfl rfl hfull hmax hne rfl⟩
        · obtain ⟨r, hr, hasked⟩ := h.asks debug answer hlast hfull hmax
          obtain ⟨hsmall, hnew⟩ := hfresh r hr _ hasked hne
          have hall : ∀ d ∈ c :: cs, d.carved = d.count := forall_mem_cons.mpr ⟨hfull, h.older⟩
          obtain ⟨d, t, ht, hzero, hpos, hpool, hinv⟩ := h.newChunk_spec hguard halloc hall
            (fun hlim => absurd hmax hlim) hne hsmall hnew
          obtain ⟨u, hu, hinv'⟩ := hinv.allocFromChunk_spec (hzero ▸ hpos)
          obtain ⟨hptr, hinv''⟩ := hinv'.finish_spec mem_cons_self debug (some s.pool.allocSize)
          rw [ht] at hcall
          simp only [hu] at hcall
          refine ⟨_, hcall,
            .grow { d with carved := d.carved + 1 } hfreed hptr rfl hfull hmax hne ?_⟩
          rw [hfreed] at hinv''
          exact hinv''
      · refine ⟨finish debug none (0, s), ?_, .limit hfreed rfl rfl hfull hmax rfl⟩
        have hnone := h.allocFromChunk_of_full hfull
        simp only [mempoolAlloc, hempty, hnone, ne_eq, not_true_eq_false, if_false, hmax,
          not_false_eq_true, or_true, if_true]
  · obtain ⟨r, t, hr, ht, hptr, hasked, hinv⟩ := h.mempoolAlloc_of_freed debug answer hlast
    exact ⟨r, hr, .reuse t ht hptr hasked hinv⟩

/-! ## Freeing -/

theorem validBlkP_of_mem {m : Nat → UInt8} {ch fuel : Nat}
    (hheads : Threads (next m) ch (cs.map Chunk.head) 0) (hnonnull : ∀ c ∈ cs, 0 < c.head)
    (hd : d ∈ cs) (hlow : d.head + 24 ≤ p) (hhigh : p < chunkEnd m d.head)
    (hfuel : cs.length ≤ fuel) : validBlkP m p fuel ch = some true := by
  induction cs generalizing ch fuel with
  | nil => exact absurd hd not_mem_nil
  | cons c cs ih =>
    obtain ⟨rfl, hrest⟩ := hheads
    have hne : c.head ≠ 0 := Nat.pos_iff_ne_zero.mp (hnonnull c mem_cons_self)
    cases fuel with
    | zero => exact absurd hfuel (Nat.not_succ_le_zero _)
    | succ fuel =>
      rw [validBlkP, if_neg hne]
      by_cases hhere : c.head + chunkHeader ≤ p ∧ p < chunkEnd m c.head
      · rw [if_pos hhere]
      · rw [if_neg hhere]
        rcases mem_cons.mp hd with rfl | hd'
        · exact absurd ⟨hlow, hhigh⟩ hhere
        · exact ih hrest (fun e he => hnonnull e (mem_cons_of_mem c he)) hd'
            (Nat.le_of_succ_le_succ hfuel)

theorem Inv.mempoolFree_spec (h : Inv cs s l) (debug : Bool) (hp : p ∈ l.live) :
    ∃ s', mempoolFree debug l.granted.length p s = some s' ∧
      Inv cs s' ⟨l.live.erase p, p :: l.freed, l.granted⟩ := by
  refine ⟨dlInsertHead p (setMemory debug 0x77 p s), ?_,
    (h.setMemory_spec hp debug 0x77).dlInsertHead_spec hp⟩
  cases debug with
  | false => rfl
  | true =>
    obtain ⟨d, hd, hpd⟩ := h.block_in (mem_append_left l.freed hp)
    have hbounds := (h.fits d hd).block_bounds hpd
    have hmin := h.sizeMin
    have hvalid : validBlkP s.mem p l.granted.length s.pool.chunks = some true := by
      apply validBlkP_of_mem h.heads (fun c hc => (h.fits c hc).nonnull) hd hbounds.1
      · rw [h.ends d hd]
        omega
      · rw [h.granted, length_map]
    simp only [mempoolFree, if_true, hvalid]

end PortableLib.Mempool
