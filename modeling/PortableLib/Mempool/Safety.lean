import PortableLib.Mempool.Invariant
import PortableLib.Lib.Run

/-! Runs of a pool: the caller allocates, frees and writes, in any order. -/

namespace PortableLib.Mempool
open List PortableLib.Image PortableLib.Bytes PortableLib.Links PortableLib.Slots PortableLib.Run

/-! ## Initialised pools -/

theorem ptrDiff_of_le {p q : Nat} (hle : q ≤ p) (hlt : p - q < 2 ^ 63) :
    ptrDiff p q = ((p - q : Nat) : Int) := by
  rw [ptrDiff, Int.bmod_eq_of_le] <;> omega

section Init
variable {m : Nat → UInt8} {s t : State} {answer : Nat}

theorem newChunk_eq_some (h : newChunk answer s = some (some t)) :
    s.pool.guarded ∧ s.pool.traits.alloc.isSome ∧ answer ≠ 0 ∧
      t.pool = { s.pool with chunks := answer } := by
  unfold newChunk at h
  split_ifs at h with hguard hne
  · cases h
  · rw [Bool.and_eq_true] at hguard
    cases h
    exact ⟨hguard.1, hguard.2, hne, rfl⟩

theorem startPool_units {tr : Memmgr} {blockSize max minUnits : UInt32} :
    (startPool tr blockSize max minUnits).minUnits < 2 ^ 32 ∧
      (max.toNat ≠ 0 → (startPool tr blockSize max minUnits).minUnits = max.toNat) := by
  constructor
  · unfold startPool
    simp only
    split_ifs
    · exact max.toNat_lt
    · decide
    · exact minUnits.toNat_lt
  · intro hmax
    exact if_pos fun hzero => hmax (congrArg UInt32.toNat hzero)

theorem realInit_inv {tr : Memmgr} {blockSize max minUnits : UInt32}
    (h : realInit answer m tr blockSize max minUnits = some (.ok s))
    (hsmall : answer + s.pool.allocSize < 2 ^ 64) :
    ∃ c, Inv [c] s ⟨[], [], [(answer, s.pool.allocSize)]⟩ := by
  unfold realInit at h
  obtain ⟨o, ho, hs⟩ := Option.map_eq_some_iff.mp h
  cases o with
  | none => cases hs
  | some t =>
    obtain rfl := Except.ok.inj hs
    obtain ⟨hguard, halloc, hne, hpool⟩ := newChunk_eq_some ho
    have hsame : t.pool.allocSize = (startPool tr blockSize max minUnits).allocSize := by
      rw [hpool]
      rfl
    obtain ⟨hdvd, hlt, hmin⟩ := roundSize_spec blockSize
    have hunits := @startPool_units tr blockSize max minUnits
    obtain ⟨-, -, -, hpos⟩ := Pool.sizes_of_guarded hlt hunits.1 hguard
    have hnil := @inv_nil (startPool tr blockSize max minUnits) m
      (hmin (Nat.pos_iff_ne_zero.mp hpos)) hdvd hlt hunits.1 rfl rfl rfl hunits.2
      fun _ => ⟨hguard, halloc⟩
    rw [hsame] at hsmall ⊢
    obtain ⟨c, u, hu, -, -, -, hinv⟩ := hnil.newChunk_spec hguard halloc
      (fun d hd => absurd hd not_mem_nil) (fun _ => rfl) hne hsmall
      (fun r hr => absurd hr not_mem_nil)
    obtain rfl := Option.some.inj (Option.some.inj (ho.symm.trans hu))
    exact ⟨c, hinv⟩

theorem toNat_sub_mod {n d : Nat} (hn : n < 2 ^ 32) (hd : d ≤ 7) :
    (((n : Int) - (d : Int)) % 2 ^ 64).toNat = if d ≤ n then n - d else 2 ^ 64 + n - d := by
  split_ifs
  · omega
  · omega

theorem blocks_between {area fin size n : Nat} (hle : area + size ≤ fin)
    (hlt : fin - area < 2 ^ 32) (hfin : fin < 2 ^ 64) (hsize : 0 < size)
    (hn : n = ((ptrDiff fin area).tdiv size % 2 ^ 32).toNat) :
    0 < n ∧ n < 2 ^ 32 ∧ area + n * size ≤ fin ∧
      (area + n * size % 2 ^ 32) % 2 ^ 64 = area + n * size := by
  have hdiv : n = (fin - area) / size := by
    have hquot : (fin - area) / size ≤ fin - area := Nat.div_le_self _ _
    rw [hn, ptrDiff_of_le (by omega) (by omega), ← Int.ofNat_tdiv]
    generalize (fin - area) / size = k at hquot ⊢
    omega
  have hpos : 0 < n := hdiv ▸ Nat.div_pos (by omega) hsize
  have hmul : n * size ≤ fin - area := hdiv ▸ Nat.div_mul_le_self _ _
  have hlast : n * size < 2 ^ 32 := Nat.lt_of_le_of_lt hmul hlt
  have hless : n < 2 ^ 32 := Nat.lt_of_le_of_lt (Nat.le_mul_of_pos_right n hsize) hlast
  have hend : area + n * size ≤ fin := by omega
  refine ⟨hpos, hless, hend, ?_⟩
  rw [Nat.mod_eq_of_lt hlast, Nat.mod_eq_of_lt (Nat.lt_of_le_of_lt hend hfin)]

theorem header_eq (ch area fin : Nat) :
    store 8 (store 8 (store 8 m (ch + 8) area) (ch + 16) fin) ch 0 = header m ch 0 area fin := by
  have harea : Apart (ch, 8) (ch + 8, 8) := .inl (Nat.le_refl (ch + 8))
  have hfin : Apart (ch, 8) (ch + 16, 8) := .inl (Nat.le_add_right (ch + 8) 8)
  rw [store_comm hfin, store_comm harea, header]

theorem initFromMem_roomy {a pool : Nat} {blockSize poolsz : UInt32} {r : Nat × Nat}
    (m : Nat → UInt8) (ha : a ≠ 0) (hpool : pool ≠ 0) (hbs : roundSize blockSize ≠ 0)
    (hle : pool ≤ align pool)
    (hroom : align pool + roundSize blockSize + 32 ≤ pool + poolsz.toNat) (hlow : r.1 ≤ pool)
    (hhigh : pool + poolsz.toNat ≤ r.1 + r.2) (hsmall : r.1 + r.2 < 2 ^ 64) :
    ∃ s c, mempoolInitFromMem m a blockSize pool poolsz = some (.ok s) ∧
      Inv [c] s ⟨[], [], [r]⟩ ∧ s.pool.maxBlocks ≠ 0 := by
  have hsz := poolsz.toNat_lt
  -- both alignments skip 7 bytes at most
  have hpad : align pool ≤ pool + 7 := by
    rcases align_cases (show pool < 2 ^ 64 by omega) with h | h
    · exact h.2.1
    · omega
  obtain ⟨ha', ha''⟩ := align_bounds (p := align pool + 24) (by omega)
  have hdvd := dvd_align (p := align pool + 24) (by omega) (by omega)
  have hdiff := ptrDiff_of_le hle (by omega)
  have hptr : (align pool + 24) % 2 ^ 64 = align pool + 24 := Nat.mod_eq_of_lt (by omega)
  obtain ⟨hbsdvd, hbslt, hbsmin⟩ := roundSize_spec blockSize
  have hheader : chunkHeader = 24 := rfl
  have halign : minAlignment = 8 := rfl
  have hargs : ¬ (a = 0 ∨ pool = 0 ∨ poolsz = 0) := by
    rintro (h | h | h)
    · exact ha h
    · exact hpool h
    · rw [h, UInt32.toNat_zero] at hroom
      omega
  have hsize : ¬ poolsz.toNat - (align pool - pool) < roundSize blockSize + 8 + 24 := by omega
  have hfin : (align pool + 24 + (poolsz.toNat - (align pool - pool) - 24)) % 2 ^ 64 =
      pool + poolsz.toNat := by omega
  generalize hn : ((ptrDiff (pool + poolsz.toNat) (align (align pool + 24))).tdiv
    (roundSize blockSize) % 2 ^ 32).toNat = n
  obtain ⟨hpos, hnlt, hend, hwrap⟩ := blocks_between (show align (align pool + 24) +
    roundSize blockSize ≤ pool + poolsz.toNat by omega) (by omega) (by omega)
    (Nat.pos_of_ne_zero hbs) hn.symm
  -- the whole memory is one chunk, with its header behind the padding
  let c : Chunk := ⟨r, align pool, align (align pool + 24), n, 0⟩
  have hfits : c.Fits (roundSize blockSize) :=
    { nonnull := Nat.lt_of_lt_of_le (Nat.pos_of_ne_zero hpool) hle
      low := Nat.le_trans hlow hle
      header := ha'
      aligned := hdvd
      high := Nat.le_trans hend hhigh
      small := hsmall
      carved := Nat.zero_le _ }
  have hnil := @inv_nil ⟨0, 0, roundSize blockSize, n, n, 0, ⟨none, some .dummyFree, 0⟩⟩ m
    (hbsmin hbs) hbsdvd hbslt hnlt rfl rfl rfl (fun _ => rfl)
    (fun hn => absurd hn (Nat.pos_iff_ne_zero.mp hpos))
  have hinv := hnil.addChunk hfits rfl (fun d hd => absurd hd not_mem_nil)
    (fun d hd => absurd hd not_mem_nil) (fun _ => ⟨rfl, rfl⟩)
  refine ⟨_, c, ?_, hinv, Nat.pos_iff_ne_zero.mp hpos⟩
  rw [mempoolInitFromMem, if_neg hargs]
  simp only [hdiff, toNat_sub_mod hsz (show align pool - pool ≤ 7 by omega),
    if_pos (show align pool - pool ≤ poolsz.toNat by omega), hptr, hheader, halign, hsize, if_false,
    hbs, hfin, hn, hwrap, hend, if_true, header_eq]
  rfl

theorem initFromMem_inv {a pool : Nat} {blockSize poolsz : UInt32} {r : Nat × Nat}
    (h : mempoolInitFromMem m a blockSize pool poolsz = some (.ok s))
    (haddr : pool + poolsz.toNat < 2 ^ 64 - 2 ^ 33) (hlow : r.1 ≤ pool)
    (hhigh : pool + poolsz.toNat ≤ r.1 + r.2) (hsmall : r.1 + r.2 < 2 ^ 64) :
    ∃ c, Inv [c] s ⟨[], [], [r]⟩ ∧ s.pool.maxBlocks ≠ 0 := by
  have hsz := poolsz.toNat_lt
  obtain ⟨hle, hle'⟩ := align_bounds (p := pool) (by omega)
  have hdiff := ptrDiff_of_le hle (by omega)
  have hptr : (align pool + chunkHeader) % 2 ^ 64 = align pool + 24 :=
    Nat.mod_eq_of_lt (show align pool + 24 < 2 ^ 64 by omega)
  have hheader : chunkHeader = 24 := rfl
  have halign : minAlignment = 8 := rfl
  have hmake := h
  unfold mempoolInitFromMem at h
  simp only [hdiff, toNat_sub_mod hsz (show align pool - pool ≤ 7 by omega), hptr] at h
  split_ifs at h with harg hpad hroom hzero hend hroom hzero hend
  · cases h
  · cases h
  · rw [hheader, halign] at hroom
    obtain ⟨ha, hpool, -⟩ := not_or.mp harg |>.imp_right not_or.mp
    obtain ⟨t, c, ht, hinv, hmax⟩ := initFromMem_roomy m ha hpool hzero hle (by omega) hlow hhigh
      hsmall
    obtain rfl := Except.ok.inj (Option.some.inj (hmake.symm.trans ht))
    exact ⟨c, hinv, hmax⟩
  · cases h
  · -- the size wrapped around: the chunk would end behind the memory, which is asserted not to be
    exfalso
    have hfin : (align pool + 24 + (2 ^ 64 + poolsz.toNat - (align pool - pool) - chunkHeader)) %
        2 ^ 64 = pool + poolsz.toNat := by
      rw [hheader]
      omega
    have hoff := Nat.mod_lt (((ptrDiff (pool + poolsz.toNat) (align (align pool + 24))).tdiv
      (roundSize blockSize) % 2 ^ 32).toNat * roundSize blockSize) (show 0 < 2 ^ 32 by decide)
    obtain ⟨ha, ha'⟩ := align_bounds (p := align pool + 24) (by omega)
    rw [hfin] at hend
    generalize ((ptrDiff (pool + poolsz.toNat) (align (align pool + 24))).tdiv
      (roundSize blockSize) % 2 ^ 32).toNat * roundSize blockSize % 2 ^ 32 = off at hend hoff
    omega

end Init

/-! ## Runs -/

structure World where
  state : State
  ledger : Ledger

inductive Op
  /-- With the answer of the lower-layer allocator, if it is asked. -/
  | alloc (answer : Nat)
  | free (ptr : Nat)
  /-- Somebody writes a byte. -/
  | poke (x : Nat) (b : UInt8)

def Ledger.alloc (l : Ledger) (answer : Nat) (r : Alloc) : Ledger where
  live := if r.ptr ≠ 0 then r.ptr :: l.live else l.live
  freed := l.freed.erase r.ptr
  granted := match r.asked with
    | none => l.granted
    | some n => if answer = 0 then l.granted else (answer, n) :: l.granted

theorem Ledger.alloc_null (l : Ledger) (r : Alloc) : (l.alloc 0 r).granted = l.granted := by
  unfold Ledger.alloc
  cases r.asked with
  | none => rfl
  | some n => rfl

def Ledger.free (l : Ledger) (ptr : Nat) : Ledger :=
  ⟨l.live.erase ptr, ptr :: l.freed, l.granted⟩

/-- The result is the pointer that `mempool_alloc` returns. -/
def step (debug : Bool) (w : World) : Op → Option (World × Nat)
  | .alloc answer => (mempoolAlloc debug answer w.state).map fun r =>
      (⟨r.state, w.ledger.alloc answer r⟩, r.ptr)
  | .free ptr => (mempoolFree debug w.ledger.granted.length ptr w.state).map fun s =>
      (⟨s, w.ledger.free ptr⟩, 0)
  | .poke x b => some (⟨{ w.state with mem := Function.update w.state.mem x b }, w.ledger⟩, 0)

/-- What the callers promise: the lower-layer allocator answers with memory of the size it was
asked for that is not in use, only live blocks are freed, and nobody writes into the memory of the
pool except for the bytes of a live block. -/
def Allowed (debug : Bool) (w : World) : Op → Prop
  | .alloc answer => ∀ r, mempoolAlloc debug answer w.state = some r → ∀ n, r.asked = some n →
      answer ≠ 0 → answer + n ≤ 2 ^ 63 ∧ ∀ r ∈ w.ledger.granted, Apart (answer, n) r
  | .free ptr => ptr ∈ w.ledger.live
  | .poke x _ => (∃ p ∈ w.ledger.live, p ≤ x ∧ x < p + w.state.pool.blockSize) ∨
      ∀ r ∈ w.ledger.granted, x < r.1 ∨ r.1 + r.2 ≤ x

/-- The blocks of a pool: apart, aligned, each between the header and the end of a chunk in the
bytes obtained for it; the list of freed blocks, forwards and backwards; when the next call asks
for memory and when it fails. -/
structure Sound (debug : Bool) (w : World) : Prop where
  apart : w.ledger.live.Pairwise fun p q =>
    Apart (p, w.state.pool.blockSize) (q, w.state.pool.blockSize)
  aligned : ∀ p ∈ w.ledger.live, 8 ∣ p
  inside : ∃ heads, Threads (next w.state.mem) w.state.pool.chunks heads 0 ∧
    heads.length = w.ledger.granted.length ∧
    ∀ p ∈ w.ledger.live, ∃ e ∈ heads.zip w.ledger.granted, e.2.1 ≤ e.1 ∧
      e.1 + chunkHeader ≤ p ∧ p + w.state.pool.blockSize ≤ chunkEnd w.state.mem e.1 ∧
      chunkEnd w.state.mem e.1 ≤ e.2.1 + e.2.2
  freed : w.ledger.freed.Nodup ∧
    Threads (next w.state.mem) w.state.pool.first w.ledger.freed 0 ∧
    Threads (prev w.state.mem) w.state.pool.last w.ledger.freed.reverse 0
  limit : w.state.pool.maxBlocks ≠ 0 → w.ledger.live.length ≤ w.state.pool.maxBlocks
  alloc : ∀ answer, Allowed debug w (.alloc answer) →
    ∃ r, mempoolAlloc debug answer w.state = some r ∧
      (r.asked ≠ none → w.ledger.freed = [] ∧
        freeArea w.state.mem w.state.pool.chunks = chunkEnd w.state.mem w.state.pool.chunks) ∧
      (w.state.pool.maxBlocks ≠ 0 →
        (r.ptr = 0 ↔ w.ledger.live.length = w.state.pool.maxBlocks))

section Runs
variable {c : Chunk} {cs : List Chunk} {s : State} {l : Ledger} {w : World} {debug : Bool}

theorem Inv.length_live (h : Inv (c :: cs) s l) (hmax : s.pool.maxBlocks ≠ 0) :
    l.live.length + l.freed.length = c.carved ∧ c.count = s.pool.maxBlocks ∧
      c.carved ≤ c.count := by
  obtain ⟨-, hlen, hcount⟩ := h.bounded hmax
  have hcs : cs = [] := eq_nil_of_length_eq_zero (by rw [length_cons] at hlen; omega)
  have hblocks := h.blocks.length_eq
  rw [hcs, flatMap_cons, flatMap_nil, append_nil, length_append, Chunk.blocks, length_slots]
    at hblocks
  exact ⟨hblocks, hcount c mem_cons_self, (h.fits c mem_cons_self).carved⟩

theorem Inv.exhausted (h : Inv (c :: cs) s l) (hfull : c.carved = c.count) :
    freeArea s.mem s.pool.chunks = chunkEnd s.mem s.pool.chunks := by
  rw [show s.pool.chunks = c.head from h.heads.1, h.areas c mem_cons_self,
    h.ends c mem_cons_self, hfull]
  rfl

theorem Inv.sound (debug : Bool) (h : Inv (c :: cs) w.state w.ledger) : Sound debug w where
  apart := (pairwise_append.mp h.blocks_apart).1
  aligned := by
    intro p hp
    obtain ⟨d, hd, hpd⟩ := h.block_in (mem_append_left _ hp)
    exact slot_dvd (h.fits d hd).aligned h.sizeDvd hpd
  inside := by
    refine ⟨(c :: cs).map Chunk.head, h.heads, ?_, fun p hp => ?_⟩
    · rw [h.granted, length_map, length_map]
    · obtain ⟨d, hd, hpd⟩ := h.block_in (mem_append_left _ hp)
      have hfits := h.fits d hd
      have hbounds := hfits.block_bounds hpd
      refine ⟨(d.head, d.region), ?_, hfits.low, hbounds.1, ?_, ?_⟩
      · rw [h.granted, zip_map']
        exact mem_map_of_mem hd
      · rw [h.ends d hd]
        exact hbounds.2
      · rw [h.ends d hd]
        exact hfits.high
  freed := ⟨h.links.nodup, h.links.forward, h.links.backward⟩
  limit := by
    intro hmax
    have hlen := h.length_live hmax
    omega
  alloc := by
    intro answer hallowed
    -- each outcome of an allocation agrees with the number of blocks that are live
    obtain ⟨r, hr, hout⟩ := h.mempoolAlloc_spec debug fun r hr n hn hne =>
      ⟨Nat.lt_of_le_of_lt (hallowed r hr n hn hne).1 (by decide), (hallowed r hr n hn hne).2⟩
    refine ⟨r, hr, ?_⟩
    cases hout with
    | reuse t hfreed hptr hasked hinv =>
      refine ⟨fun hne => absurd hasked hne, fun hmax => ?_⟩
      have hlen := h.length_live hmax
      rw [hfreed, length_append, length_singleton] at hlen
      exact ⟨fun hzero => absurd hzero hptr, fun hfull => by omega⟩
    | carve hfreed hptr hasked hlt hinv =>
      refine ⟨fun hne => absurd hasked hne, fun hmax => ?_⟩
      have hlen := h.length_live hmax
      exact ⟨fun hzero => absurd hzero hptr, fun hfull => by omega⟩
    | limit hfreed hptr hasked hfull hmax hstate =>
      refine ⟨fun hne => absurd hasked hne, fun _ => ?_⟩
      have hlen := h.length_live hmax
      rw [hfreed, length_nil] at hlen
      exact ⟨fun _ => by omega, fun _ => hptr⟩
    | refused hfreed hptr hasked hfull hmax hanswer hstate =>
      exact ⟨fun _ => ⟨hfreed, h.exhausted hfull⟩, fun hne => absurd hmax hne⟩
    | grow d hfreed hptr hasked hfull hmax hanswer hinv =>
      exact ⟨fun _ => ⟨hfreed, h.exhausted hfull⟩, fun hne => absurd hmax hne⟩

theorem Inv.poke (h : Inv cs s l) {x : Nat} (b : UInt8)
    (hx : (∃ p ∈ l.live, p ≤ x ∧ x < p + s.pool.blockSize) ∨
      ∀ r ∈ l.granted, x < r.1 ∨ r.1 + r.2 ≤ x) :
    Inv cs { s with mem := Function.update s.mem x b } l := by
  rcases hx with ⟨p, hp, hlow, hhigh⟩ | hout
  · apply h.frame
    · intro d hd
      have hapart := h.head_block_apart hd (mem_append_left l.freed hp)
      apply agree_update
      unfold Apart at hapart
      simp only at hapart ⊢
      omega
    · intro q hq
      have hapart := h.block_apart (mem_append_right l.live hq) (mem_append_left l.freed hp)
        (h.live_ne_freed hp hq).symm
      have hmin := h.sizeMin
      apply agree_update
      unfold Apart at hapart
      simp only at hapart ⊢
      omega
  · have hregion : ∀ d ∈ cs, ∀ r, Within r d.region → x < r.1 ∨ r.1 + r.2 ≤ x := by
      intro d hd r hr
      have hd' := hout d.region (by rw [h.granted]; exact mem_map_of_mem hd)
      unfold Within at hr
      omega
    apply h.frame
    · intro d hd
      exact agree_update (hregion d hd _ (h.fits d hd).head_within)
    · intro q hq
      obtain ⟨d, hd, hqd⟩ := h.block_in (mem_append_right l.live hq)
      have hblock := (h.fits d hd).block_within hqd
      have hlinks : Within (q, 16) (q, s.pool.blockSize) :=
        ⟨Nat.le_refl q, Nat.add_le_add_left h.sizeMin q⟩
      exact agree_update (hregion d hd _
        ⟨Nat.le_trans hblock.1 hlinks.1, Nat.le_trans hlinks.2 hblock.2⟩)

theorem Outcome.inv {answer : Nat} {r : Alloc} (h : Inv (c :: cs) s l)
    (hout : Outcome c cs s l answer r) :
    ∃ d ds, Inv (d :: ds) r.state (l.alloc answer r) := by
  have hnil : ([] : List Nat).erase r.ptr = [] := rfl
  cases hout with
  | reuse t hfreed hptr hasked hinv =>
    have hnodup := h.links.nodup
    rw [hfreed] at hnodup
    have hnot : r.ptr ∉ t := fun hmem => (nodup_append.mp hnodup).2.2 _ hmem _ mem_cons_self rfl
    have herase : l.freed.erase r.ptr = t := by
      rw [hfreed, erase_append_right _ hnot, erase_cons_head, append_nil]
    refine ⟨c, cs, ?_⟩
    rw [Ledger.alloc, herase, hasked, if_pos hptr]
    exact hinv
  | carve hfreed hptr hasked hlt hinv =>
    refine ⟨{ c with carved := c.carved + 1 }, cs, ?_⟩
    rw [Ledger.alloc, hfreed, hnil, hasked, if_pos hptr]
    exact hinv
  | limit hfreed hptr hasked hfull hmax hstate =>
    refine ⟨c, cs, ?_⟩
    rw [Ledger.alloc, hfreed, hnil, hasked, hptr, hstate, ← hfreed]
    exact h
  | refused hfreed hptr hasked hfull hmax hanswer hstate =>
    refine ⟨c, cs, ?_⟩
    rw [Ledger.alloc, hfreed, hnil, hasked, hptr, hstate, hanswer, ← hfreed]
    exact h
  | grow d hfreed hptr hasked hfull hmax hanswer hinv =>
    refine ⟨d, c :: cs, ?_⟩
    rw [Ledger.alloc, hfreed, hnil, hasked, if_pos hptr]
    simp only [hanswer, if_false]
    exact hinv

def Kept (w : World) : Prop := ∃ c cs, Inv (c :: cs) w.state w.ledger

theorem kept_step {op : Op} (h : Kept w) (hop : Allowed debug w op) :
    ∃ p, step debug w op = some p ∧ Kept p.1 := by
  obtain ⟨c, cs, hinv⟩ := h
  cases op with
  | alloc answer =>
    obtain ⟨r, hr, hout⟩ := hinv.mempoolAlloc_spec debug fun r hr n hn hne =>
      ⟨Nat.lt_of_le_of_lt (hop r hr n hn hne).1 (by decide), (hop r hr n hn hne).2⟩
    refine ⟨(⟨r.state, w.ledger.alloc answer r⟩, r.ptr), ?_, hout.inv hinv⟩
    rw [step, hr, Option.map_some]
  | free ptr =>
    obtain ⟨s', hs', hinv'⟩ := hinv.mempoolFree_spec debug hop
    refine ⟨(⟨s', w.ledger.free ptr⟩, 0), ?_, c, cs, hinv'⟩
    rw [step, hs', Option.map_some]
  | poke x b => exact ⟨_, rfl, c, cs, hinv.poke b hop⟩

theorem run_sound {ops : List Op} (h : Kept w)
    (hops : StepsMeet (step debug) (Allowed debug) w ops) :
    ∃ q, run (step debug) w ops = some q ∧ Sound debug q.1 := by
  obtain ⟨q, hq, c, cs, hinv⟩ := run_invariant (I := Kept)
    (fun w op hw hop => kept_step hw hop) h hops
  exact ⟨q, hq, hinv.sound debug⟩

end Runs

/-! ## The initialisers -/

/-- A call of one of the four initialisers, with the answers of the lower-layer allocator. -/
inductive Setup
  | init (a : Nat) (tr : Option Memmgr) (blockSize max minUnits : UInt32) (answer : Nat)
  | new (pa : Nat) (tr : Option Memmgr) (blockSize max minUnits : UInt32) (self answer : Nat)
  | initFromMem (a : Nat) (blockSize : UInt32) (pool : Nat) (poolsz : UInt32)
  | newFromMem (pa : Nat) (blockSize : UInt32) (pool : Nat) (poolsz : UInt32)

def Setup.make (m : Nat → UInt8) : Setup → Option (Except Errno State)
  | .init a tr blockSize max minUnits answer => mempoolInit answer m a tr blockSize max minUnits
  | .new pa tr blockSize max minUnits self answer =>
    mempoolNew self answer m pa tr blockSize max minUnits
  | .initFromMem a blockSize pool poolsz => mempoolInitFromMem m a blockSize pool poolsz
  | .newFromMem pa blockSize pool poolsz => mempoolNewFromMem m pa blockSize pool poolsz

def Setup.granted (s : State) : Setup → Nat × Nat
  | .init _ _ _ _ _ answer => (answer, s.pool.allocSize)
  | .new _ _ _ _ _ _ answer => (answer, s.pool.allocSize)
  | .initFromMem _ _ pool poolsz => (pool, poolsz.toNat)
  | .newFromMem _ _ pool poolsz => (pool, poolsz.toNat)

def Setup.world (s : State) (u : Setup) : World := ⟨s, ⟨[], [], [u.granted s]⟩⟩

/-- A pool that holds its own `struct mempool` has room for it. -/
def Setup.Fits : Setup → Prop
  | .newFromMem _ _ pool poolsz => align pool - pool + mempoolSize ≤ poolsz.toNat
  | _ => True

section Setup
variable {m : Nat → UInt8} {s : State}

theorem mempoolInit_inv {answer a : Nat} {tr : Option Memmgr} {blockSize max minUnits : UInt32}
    (h : mempoolInit answer m a tr blockSize max minUnits = some (.ok s))
    (hsmall : answer + s.pool.allocSize < 2 ^ 64) :
    ∃ c, Inv [c] s ⟨[], [], [(answer, s.pool.allocSize)]⟩ := by
  unfold mempoolInit at h
  cases htr : chooseTraits tr with
  | error e =>
    simp only [htr] at h
    split_ifs at h <;> cases h
  | ok t =>
    simp only [htr] at h
    split_ifs at h
    · cases h
    · exact realInit_inv h hsmall

theorem mempoolNew_inv {self answer pa : Nat} {tr : Option Memmgr}
    {blockSize max minUnits : UInt32}
    (h : mempoolNew self answer m pa tr blockSize max minUnits = some (.ok s))
    (hsmall : answer + s.pool.allocSize < 2 ^ 64) :
    ∃ c, Inv [c] s ⟨[], [], [(answer, s.pool.allocSize)]⟩ := by
  unfold mempoolNew at h
  cases htr : chooseTraits tr with
  | error e =>
    simp only [htr] at h
    split_ifs at h <;> cases h
  | ok t =>
    simp only [htr] at h
    split_ifs at h
    · cases h
    · cases h
    · exact realInit_inv h hsmall

/-- The size that `mempool_new_from_mem` passes on, for better or worse. -/
def innerSize (pool : Nat) (poolsz : UInt32) : UInt32 :=
  UInt32.ofInt (poolsz.toNat - ptrDiff (align pool) pool) - UInt32.ofNat mempoolSize

theorem toNat_innerSize {pool : Nat} {poolsz : UInt32} (hle : pool ≤ align pool)
    (hroom : align pool - pool + 72 ≤ poolsz.toNat) :
    (innerSize pool poolsz).toNat = poolsz.toNat - (align pool - pool) - 72 := by
  have hsz := poolsz.toNat_lt
  have hdiff := ptrDiff_of_le hle (by omega)
  rw [innerSize, hdiff, UInt32.toNat_sub, UInt32.ofInt, UInt32.toNat_ofNat', UInt32.toNat_ofNat',
    mempoolSize]
  omega

theorem mempoolNewFromMem_eq {pa pool : Nat} {poolsz : UInt32} (blockSize : UInt32) (hpa : pa ≠ 0)
    (hpool : pool ≠ 0) (hsz : poolsz ≠ 0) :
    mempoolNewFromMem m pa blockSize pool poolsz = mempoolInitFromMem m (align pool) blockSize
      ((align pool + mempoolSize) % 2 ^ 64) (innerSize pool poolsz) := by
  have hargs : ¬ (pa = 0 ∨ pool = 0 ∨ poolsz = 0) := by
    rintro (h | h | h)
    · exact hpa h
    · exact hpool h
    · exact hsz h
  rw [mempoolNewFromMem, if_neg hargs]
  rfl

theorem mempoolNewFromMem_eq_ok {pa pool : Nat} {blockSize poolsz : UInt32}
    (h : mempoolNewFromMem m pa blockSize pool poolsz = some (.ok s))
    (haddr : pool + poolsz.toNat ≤ 2 ^ 63) :
    mempoolInitFromMem m (align pool) blockSize (align pool + 72) (innerSize pool poolsz) =
      some (.ok s) := by
  have hle := align_bounds (p := pool) (by omega)
  have hptr : (align pool + mempoolSize) % 2 ^ 64 = align pool + 72 :=
    Nat.mod_eq_of_lt (show align pool + 72 < 2 ^ 64 by omega)
  by_cases hargs : pa = 0 ∨ pool = 0 ∨ poolsz = 0
  · rw [mempoolNewFromMem, if_pos hargs] at h
    cases h
  · obtain ⟨hpa, hpool, hsz⟩ := not_or.mp hargs |>.imp_right not_or.mp
    rw [mempoolNewFromMem_eq blockSize hpa hpool hsz, hptr] at h
    exact h

theorem kept_of_fits {u : Setup} (hmake : u.make m = some (.ok s))
    (hreal : (u.granted s).1 + (u.granted s).2 ≤ 2 ^ 63) (hfits : u.Fits) :
    Kept (u.world s) := by
  cases u with
  | init a tr blockSize max minUnits answer =>
    obtain ⟨c, hinv⟩ := mempoolInit_inv hmake (Nat.lt_of_le_of_lt hreal (by decide))
    exact ⟨c, [], hinv⟩
  | new pa tr blockSize max minUnits self answer =>
    obtain ⟨c, hinv⟩ := mempoolNew_inv hmake (Nat.lt_of_le_of_lt hreal (by decide))
    exact ⟨c, [], hinv⟩
  | initFromMem a blockSize pool poolsz =>
    have hreal' : pool + poolsz.toNat ≤ 2 ^ 63 := hreal
    obtain ⟨c, hinv, -⟩ := initFromMem_inv (r := (pool, poolsz.toNat)) hmake (by omega)
      (Nat.le_refl pool) (Nat.le_refl _) (show pool + poolsz.toNat < 2 ^ 64 by omega)
    exact ⟨c, [], hinv⟩
  | newFromMem pa blockSize pool poolsz =>
    have hreal' : pool + poolsz.toNat ≤ 2 ^ 63 := hreal
    have hfits' : align pool - pool + 72 ≤ poolsz.toNat := hfits
    have hle := align_bounds (p := pool) (by omega)
    have hsize := toNat_innerSize hle.1 hfits'
    obtain ⟨c, hinv, -⟩ := initFromMem_inv (r := (pool, poolsz.toNat))
      (mempoolNewFromMem_eq_ok hmake hreal') (by omega) (show pool ≤ align pool + 72 by omega)
      (show align pool + 72 + (innerSize pool poolsz).toNat ≤ pool + poolsz.toNat by omega)
      (show pool + poolsz.toNat < 2 ^ 64 by omega)
    exact ⟨c, [], hinv⟩

theorem allowed_null {debug : Bool} (w : World) : Allowed debug w (.alloc 0) :=
  fun _ _ _ _ hne => absurd rfl hne

theorem not_sound_of_small (debug : Bool) {pa pool : Nat} {blockSize poolsz : UInt32}
    (hmake : mempoolNewFromMem m pa blockSize pool poolsz = some (.ok s))
    (hreal : pool + poolsz.toNat ≤ 2 ^ 63) (hsmall : poolsz.toNat < align pool - pool + 72) :
    ∃ p, step debug ⟨s, ⟨[], [], [(pool, poolsz.toNat)]⟩⟩ (.alloc 0) = some p ∧
      ¬ Sound debug p.1 := by
  have hn := mempoolNewFromMem_eq_ok hmake hreal
  generalize innerSize pool poolsz = n at hn
  have hlt := n.toNat_lt
  have hle := align_bounds (p := pool) (by omega)
  -- the pool is fine in the memory that it believes to have
  obtain ⟨c, hinv, hmax⟩ := initFromMem_inv (r := (align pool + 72, n.toNat)) hn (by omega)
    (Nat.le_refl _) (Nat.le_refl _) (show align pool + 72 + n.toNat < 2 ^ 64 by omega)
  let w : World := ⟨s, ⟨[], [], [(align pool + 72, n.toNat)]⟩⟩
  have hinv' : Inv [c] w.state w.ledger := hinv
  obtain ⟨r, hr, -, hnull⟩ := (hinv'.sound debug).alloc 0 (allowed_null w)
  have hptr : r.ptr ≠ 0 := fun hzero => hmax ((hnull hmax).mp hzero).symm
  have hlive : ∀ l : Ledger, r.ptr ∈ (l.alloc 0 r).live := by
    intro l
    rw [Ledger.alloc, if_pos hptr]
    exact mem_cons_self
  obtain ⟨p, hp, d, ds, hkept⟩ := kept_step (w := w) ⟨c, [], hinv⟩ (allowed_null w)
  rw [step, hr, Option.map_some] at hp
  obtain rfl := Option.some.inj hp
  obtain ⟨heads, -, -, hbelief⟩ := (hkept.sound debug).inside
  obtain ⟨e, he, hlow, hheader, -, -⟩ := hbelief r.ptr (hlive _)
  rw [Ledger.alloc_null] at he
  have hregion : e.2 = (align pool + 72, n.toNat) := mem_singleton.mp (of_mem_zip he).2
  refine ⟨(⟨r.state, Ledger.alloc ⟨[], [], [(pool, poolsz.toNat)]⟩ 0 r⟩, r.ptr), ?_, ?_⟩
  · rw [step, hr, Option.map_some]
  · intro hsound
    obtain ⟨heads', -, -, hreally⟩ := hsound.inside
    obtain ⟨e', he', -, -, hend, hhigh⟩ := hreally r.ptr (hlive _)
    rw [Ledger.alloc_null] at he'
    have hregion' : e'.2 = (pool, poolsz.toNat) := mem_singleton.mp (of_mem_zip he').2
    rw [hregion] at hlow
    rw [hregion'] at hhigh
    simp only at hlow hhigh hend
    unfold chunkHeader at hheader
    omega

/-- A pool keeps its blocks apart and in its own memory, in every run of any length, exactly if the
memory of a pool that holds its own `struct mempool` has room for it. -/
theorem mempool_sound_iff (debug : Bool) {u : Setup} (hmake : u.make m = some (.ok s))
    (hreal : (u.granted s).1 + (u.granted s).2 ≤ 2 ^ 63) :
    (∀ ops, StepsMeet (step debug) (Allowed debug) (u.world s) ops →
      ∃ q, run (step debug) (u.world s) ops = some q ∧ Sound debug q.1) ↔ u.Fits := by
  constructor
  · intro hall
    cases u with
    | newFromMem pa blockSize pool poolsz =>
      by_contra hsmall
      have hless : poolsz.toNat < align pool - pool + 72 := Nat.not_le.mp hsmall
      obtain ⟨p, hp, hnot⟩ := not_sound_of_small debug hmake hreal hless
      obtain ⟨q, hq, hsound⟩ := hall [.alloc 0] ⟨allowed_null _, fun _ _ => trivial⟩
      rw [run, show step debug (Setup.world s (.newFromMem pa blockSize pool poolsz)) (.alloc 0) =
        some p from hp] at hq
      obtain rfl := Option.some.inj hq
      exact hnot hsound
    | _ => trivial
  · intro hfits ops hops
    exact run_sound (kept_of_fits hmake hreal hfits) hops

end Setup

def session (debug : Bool) (u : Setup) (ops : List Op) : Option (World × List Nat) :=
  match u.make fun _ => 0 with
  | some (.ok s) => run (step debug) (u.world s) ops
  | _ => none

theorem session_of_make {debug : Bool} {u : Setup} {s : State} (ops : List Op)
    (hs : u.make (fun _ => 0) = some (.ok s)) :
    session debug u ops = run (step debug) (u.world s) ops := by
  simp only [session, hs]

theorem session_eq_some {debug : Bool} {u : Setup} {ops : List Op} {q : World × List Nat}
    (h : session debug u ops = some q) :
    ∃ s, u.make (fun _ => 0) = some (.ok s) ∧ run (step debug) (u.world s) ops = some q := by
  unfold session at h
  split at h
  · exact ⟨_, ‹_›, h⟩
  · cases h

/-- A pool of 16-byte blocks in 200 bytes of its caller, which also hold its `struct mempool`. -/
def smallPool : Setup := .newFromMem 1 16 4096 200

theorem mempool_sound_iff_smallPool :
    ∃ s q, smallPool.make (fun _ => 0) = some (.ok s) ∧
      run (step true) (smallPool.world s) [.alloc 0, .alloc 0] = some q ∧
      q.2 = [4192, 4208] ∧ q.1.ledger = ⟨[4208, 4192], [], [(4096, 200)]⟩ ∧ Sound true q.1 := by
  have hrun : (session true smallPool [.alloc 0, .alloc 0]).map
      (fun q => (q.2, q.1.ledger)) =
        some ([4192, 4208], ⟨[4208, 4192], [], [(4096, 200)]⟩) := by decide
  obtain ⟨q, hq, hpair⟩ := Option.map_eq_some_iff.mp hrun
  obtain ⟨s, hs, hrun⟩ := session_eq_some hq
  refine ⟨s, q, hs, hrun, congrArg Prod.fst hpair, congrArg Prod.snd hpair, ?_⟩
  have hfits : smallPool.Fits := show align 4096 - 4096 + mempoolSize ≤ 200 by decide
  have hreal : 4096 + (200 : UInt32).toNat ≤ 2 ^ 63 := by decide
  obtain ⟨q', hq', hsound⟩ := (mempool_sound_iff true hs hreal).mpr hfits [.alloc 0, .alloc 0]
    ⟨allowed_null _, fun _ _ => ⟨allowed_null _, fun _ _ => trivial⟩⟩
  obtain rfl := Option.some.inj (hrun.symm.trans hq')
  exact hsound

/-- Ten bytes hold neither the `struct mempool` nor a chunk: the pool hands out the bytes from 4192
on, of which its caller has none. -/
theorem mempool_hands_out_foreign_memory :
    ∃ s q, (Setup.newFromMem 1 16 4096 10).make (fun _ => 0) = some (.ok s) ∧
      StepsMeet (step true) (Allowed true) ((Setup.newFromMem 1 16 4096 10).world s) [.alloc 0] ∧
      run (step true) ((Setup.newFromMem 1 16 4096 10).world s) [.alloc 0] = some q ∧
      q.1.ledger = ⟨[4192], [], [(4096, 10)]⟩ ∧ ¬ Sound true q.1 := by
  have hrun : (session true (.newFromMem 1 16 4096 10) [.alloc 0]).map (fun q => q.1.ledger) =
      some ⟨[4192], [], [(4096, 10)]⟩ := by decide
  obtain ⟨q, hq, hledger⟩ := Option.map_eq_some_iff.mp hrun
  obtain ⟨s, hs, hrun⟩ := session_eq_some hq
  refine ⟨s, q, hs, ⟨allowed_null _, fun _ _ => trivial⟩, hrun, hledger, ?_⟩
  intro hsound
  obtain ⟨heads, -, -, hinside⟩ := hsound.inside
  rw [hledger] at hinside
  obtain ⟨e, he, -, -, hend, hhigh⟩ := hinside 4192 mem_cons_self
  have hregion : e.2 = (4096, 10) := mem_singleton.mp (of_mem_zip he).2
  rw [hregion] at hhigh
  simp only at hhigh
  omega

end PortableLib.Mempool
