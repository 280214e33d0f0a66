import PortableLib.Lib.Image
import PortableLib.Lib.Run
import PortableLib.TypeUtils

/-! The allocator of `arena.c`. Addresses and sizes are 64-bit words; `malloc` is part of the
environment, and what it answers comes with each call. -/

namespace PortableLib.ArenaAlloc
open List Image TypeUtils

/-- `struct arena_node`, with its own address and the bytes that `malloc` was asked for. -/
structure Node where
  base : UInt64
  size : UInt64
  total : UInt64
  free : UInt64
  stop : UInt64

structure Arena where
  head : List Node
  chunkSize : UInt64

def defaultChunkSize : UInt64 := 128 * 1024

/-- `sizeof (arena_node)`: four words. -/
def nodeSize : UInt64 := 32

def sysAlignment : UInt64 := 8

def arenaNew (chunkSize : UInt64) : Arena where
  head := []
  chunkSize := if chunkSize ≤ 0 then defaultChunkSize else chunkSize

def avail (n : Node) : UInt64 := n.stop - n.free

def found (n : Node) (nbytes : UInt64) : Node × UInt64 :=
  let mem := alignUp n.free sysAlignment
  ({ n with free := mem + nbytes }, mem)

@[simp] def search (nbytes : UInt64) : List Node → Option (List Node × UInt64)
  | [] => none
  | n :: ns =>
    if avail n ≥ nbytes then some ((found n nbytes).1 :: ns, (found n nbytes).2)
    else (search nbytes ns).map fun p => (n :: p.1, p.2)

def chunkFor (a : Arena) (nbytes : UInt64) : UInt64 :=
  if nbytes < a.chunkSize then a.chunkSize else nbytes * 16

def newNode (answer chunk : UInt64) : Node where
  base := answer
  size := nodeSize + chunk
  total := chunk
  free := answer + nodeSize
  stop := answer + nodeSize + chunk

/-- `arena_alloc`; `answer` is what `malloc` returns if it is called. -/
def arenaAlloc (a : Arena) (nbytes answer : UInt64) : Arena × UInt64 :=
  let nbytes := alignUp nbytes sysAlignment
  match search nbytes a.head with
  | some (ns, mem) => ({ a with head := ns }, mem)
  | none =>
    if answer = 0 then (a, 0)
    else
      let n := newNode answer (chunkFor a nbytes)
      ({ a with head := (found n nbytes).1 :: a.head }, (found n nbytes).2)

/-! ## Runs -/

structure World where
  arena : Arena
  results : List (Nat × Nat)

structure Call where
  nbytes : UInt64
  answer : UInt64

structure Event where
  pre : World
  call : Call
  ptr : UInt64
  post : World

def step (w : World) (c : Call) : Option (World × Event) :=
  let p := arenaAlloc w.arena c.nbytes c.answer
  let results :=
    if p.2 = 0 then w.results else (p.2.toNat, c.nbytes.toNat) :: w.results
  some (⟨p.1, results⟩, ⟨w, c, p.2, ⟨p.1, results⟩⟩)

def start (chunkSize : UInt64) : World := ⟨arenaNew chunkSize, []⟩

def Node.block (n : Node) : Nat × Nat := (n.base.toNat, n.size.toNat)

/-- Where `malloc` answers, it does so with an 8-aligned block of the size it was asked for, in the
lower half of the address space and apart from the blocks it has given before. -/
def Honest (w : World) (c : Call) : Prop :=
  search (alignUp c.nbytes sysAlignment) w.arena.head = none → c.answer ≠ 0 →
    let size := (nodeSize + chunkFor w.arena (alignUp c.nbytes sysAlignment)).toNat
    8 ∣ c.answer.toNat ∧ c.answer.toNat + size ≤ 2 ^ 63 ∧
      ∀ n ∈ w.arena.head, c.answer ≠ n.base ∧ Apart (c.answer.toNat, size) n.block

instance (w : World) (c : Call) : Decidable (Honest w c) := by
  unfold Honest Apart
  infer_instance

/-- The bytes asked for are aligned, behind the header of one node and within its block, and none
of them was handed out before; without room and without `malloc` the answer is `NULL`. -/
structure Event.Valid (e : Event) : Prop where
  aligned : e.ptr ≠ 0 → 8 ∣ e.ptr.toNat
  inside : e.ptr ≠ 0 → ∃ n ∈ e.post.arena.head, n.base.toNat + nodeSize.toNat ≤ e.ptr.toNat ∧
    e.ptr.toNat + e.call.nbytes.toNat ≤ n.base.toNat + n.size.toNat
  apart : e.ptr ≠ 0 → ∀ r ∈ e.pre.results, Apart (e.ptr.toNat, e.call.nbytes.toNat) r
  refused : (∀ n ∈ e.pre.arena.head, n.stop.toNat - n.free.toNat < e.call.nbytes.toNat) →
    e.call.answer = 0 → e.ptr = 0

def roundUp (n : Nat) : Nat := (n + 7) / 8 * 8

/-- The size rounds up without overflow (or there is nothing to take it from); and if a new node is
made, its chunk and its header fit in a word and the chunk is not smaller than the request. -/
def Fits (w : World) (c : Call) : Prop :=
  (c.nbytes.toNat + 7 < 2 ^ 64 ∨ w.arena.head = [] ∧ c.answer = 0) ∧
  ((∃ n ∈ w.arena.head, roundUp c.nbytes.toNat ≤ (avail n).toNat) ∨ c.answer = 0 ∨
    if roundUp c.nbytes.toNat < w.arena.chunkSize.toNat
    then w.arena.chunkSize.toNat + 32 < 2 ^ 64
    else roundUp c.nbytes.toNat ≤ 16 * roundUp c.nbytes.toNat % 2 ^ 64)

instance (w : World) (c : Call) : Decidable (Fits w c) := by
  unfold Fits
  infer_instance

/-! ## What a call does -/

theorem search_eq_none {nb : UInt64} {ns : List Node} :
    search nb ns = none ↔ ∀ n ∈ ns, avail n < nb := by
  induction ns with
  | nil => exact ⟨fun _ n hn => absurd hn not_mem_nil, fun _ => rfl⟩
  | cons n ns ih =>
    rw [search, forall_mem_cons, ← ih]
    by_cases hn : avail n ≥ nb
    · rw [if_pos hn]
      exact ⟨nofun, fun h => absurd hn (UInt64.not_le.mpr h.1)⟩
    · rw [if_neg hn, Option.map_eq_none_iff]
      exact ⟨fun h => ⟨UInt64.not_le.mp hn, h⟩, fun h => h.2⟩

theorem search_eq_some {nb : UInt64} {ns : List Node} {p : List Node × UInt64}
    (h : search nb ns = some p) :
    ∃ u n v, ns = u ++ n :: v ∧ avail n ≥ nb ∧ p = (u ++ (found n nb).1 :: v, (found n nb).2) := by
  induction ns generalizing p with
  | nil => cases h
  | cons n ns ih =>
    rw [search] at h
    by_cases hn : avail n ≥ nb
    · rw [if_pos hn] at h
      exact ⟨[], n, ns, rfl, hn, (Option.some.inj h).symm⟩
    · rw [if_neg hn, Option.map_eq_some_iff] at h
      obtain ⟨q, hq, rfl⟩ := h
      obtain ⟨u, m, v, rfl, hm, rfl⟩ := ih hq
      exact ⟨n :: u, m, v, rfl, hm, rfl⟩

theorem arenaAlloc_cases (a : Arena) (nbytes answer : UInt64) :
    (∃ u n v, a.head = u ++ n :: v ∧ avail n ≥ alignUp nbytes sysAlignment ∧
      arenaAlloc a nbytes answer =
        ({ a with head := u ++ (found n (alignUp nbytes sysAlignment)).1 :: v },
          (found n (alignUp nbytes sysAlignment)).2)) ∨
    (search (alignUp nbytes sysAlignment) a.head = none ∧ answer = 0 ∧
      arenaAlloc a nbytes answer = (a, 0)) ∨
    (search (alignUp nbytes sysAlignment) a.head = none ∧ answer ≠ 0 ∧
      arenaAlloc a nbytes answer =
        let n := newNode answer (chunkFor a (alignUp nbytes sysAlignment))
        ({ a with head := (found n (alignUp nbytes sysAlignment)).1 :: a.head },
          (found n (alignUp nbytes sysAlignment)).2)) := by
  cases hs : search (alignUp nbytes sysAlignment) a.head with
  | some p =>
    obtain ⟨u, n, v, hu, hn, rfl⟩ := search_eq_some hs
    refine .inl ⟨u, n, v, hu, hn, ?_⟩
    simp only [arenaAlloc, hs]
  | none =>
    by_cases h0 : answer = 0
    · refine .inr (.inl ⟨rfl, h0, ?_⟩)
      simp only [arenaAlloc, hs, if_pos h0]
    · refine .inr (.inr ⟨rfl, h0, ?_⟩)
      simp only [arenaAlloc, hs, if_neg h0]

/-! ## The invariant -/

structure NodeOk (n : Node) : Prop where
  base_pos : 0 < n.base.toNat
  stop_eq : n.stop.toNat = n.base.toNat + n.size.toNat
  stop_le : n.stop.toNat ≤ 2 ^ 63
  free_ge : n.base.toNat + 32 ≤ n.free.toNat
  free_le : n.free.toNat ≤ n.stop.toNat
  free_dvd : 8 ∣ n.free.toNat

theorem NodeOk.free_ne_zero {n : Node} (h : NodeOk n) : n.free ≠ 0 := by
  intro h0
  have hlo := h.free_ge
  rw [h0] at hlo
  exact absurd hlo (by change ¬_ + 32 ≤ 0; omega)

structure Inv (w : World) : Prop where
  node : ∀ n ∈ w.arena.head, NodeOk n
  blocks : w.arena.head.Pairwise fun n m => Apart n.block m.block
  below : ∀ r ∈ w.results, ∃ n ∈ w.arena.head, n.base.toNat + 32 ≤ r.1 ∧ r.1 + r.2 ≤ n.free.toNat
  chunk : w.arena.chunkSize ≠ 0

theorem inv_start (chunkSize : UInt64) : Inv (start chunkSize) where
  node n hn := absurd hn not_mem_nil
  blocks := Pairwise.nil
  below r hr := absurd hr not_mem_nil
  chunk := by
    change (if chunkSize ≤ 0 then defaultChunkSize else chunkSize) ≠ 0
    split
    · decide
    case isFalse h => exact fun h0 => h (h0 ▸ UInt64.le_refl 0)

theorem toNat_avail {n : Node} (h : NodeOk n) : (avail n).toNat = n.stop.toNat - n.free.toNat :=
  UInt64.toNat_sub_of_le _ _ (UInt64.le_iff_toNat_le.mpr h.free_le)

theorem alignUp_free {n : Node} (h : NodeOk n) : alignUp n.free sysAlignment = n.free := by
  have hle := h.free_le.trans h.stop_le
  have hdvd := h.free_dvd
  rw [← UInt64.toNat_inj, sysAlignment, toNat_alignUp_8]
  omega

theorem toNat_nbytes {nbytes : UInt64} (h : nbytes.toNat + 7 < 2 ^ 64) :
    (alignUp nbytes sysAlignment).toNat = roundUp nbytes.toNat := by
  rw [sysAlignment, toNat_alignUp_8, Nat.mod_eq_of_lt h, roundUp]

theorem le_roundUp (n : Nat) : n ≤ roundUp n := by
  unfold roundUp
  omega

theorem dvd_roundUp (n : Nat) : 8 ∣ roundUp n := Nat.dvd_mul_left 8 _

theorem found_spec {n : Node} {nb : UInt64} (h : NodeOk n) (hnb : 8 ∣ nb.toNat)
    (hroom : nb.toNat ≤ n.stop.toNat - n.free.toNat) :
    (found n nb).2 = n.free ∧ NodeOk (found n nb).1 ∧
      (found n nb).1.free.toNat = n.free.toNat + nb.toNat := by
  have hle := h.free_le
  have hstop := h.stop_le
  have hfree : (found n nb).1.free.toNat = n.free.toNat + nb.toNat := by
    change (alignUp n.free sysAlignment + nb).toNat = _
    rw [alignUp_free h, UInt64.toNat_add, Nat.mod_eq_of_lt (by omega)]
  refine ⟨alignUp_free h, ⟨h.base_pos, h.stop_eq, h.stop_le, ?_, ?_, ?_⟩, hfree⟩
  · rw [hfree]
    exact h.free_ge.trans (Nat.le_add_right _ _)
  · rw [hfree]
    change _ ≤ n.stop.toNat
    omega
  · rw [hfree]
    exact Nat.dvd_add h.free_dvd hnb

theorem NodeOk.block_within {n : Node} (h : NodeOk n) {r : Nat × Nat}
    (hlo : n.base.toNat + 32 ≤ r.1) (hhi : r.1 + r.2 ≤ n.stop.toNat) : Within r n.block :=
  ⟨(Nat.le_add_right _ _).trans hlo, hhi.trans_eq h.stop_eq⟩

section Take
variable {a : Arena} {results : List (Nat × Nat)} {u v : List Node} {n : Node}
  {nbytes : UInt64}

theorem Inv.take (h : Inv ⟨{ a with head := u ++ n :: v }, results⟩)
    (hsmall : nbytes.toNat + 7 < 2 ^ 64)
    (hroom : roundUp nbytes.toNat ≤ n.stop.toNat - n.free.toNat) :
    let p := found n (alignUp nbytes sysAlignment)
    Inv ⟨{ a with head := u ++ p.1 :: v }, (p.2.toNat, nbytes.toNat) :: results⟩ ∧
      p.2 = n.free ∧ p.2 ≠ 0 ∧
      p.2.toNat + nbytes.toNat ≤ n.base.toNat + n.size.toNat ∧
      ∀ r ∈ results, Apart (p.2.toNat, nbytes.toNat) r := by
  have hn : NodeOk n := h.node n (mem_append_right u mem_cons_self)
  have hr := toNat_nbytes hsmall
  have hdvd : 8 ∣ (alignUp nbytes sysAlignment).toNat := hr ▸ dvd_roundUp _
  obtain ⟨hptr, hok, hfree⟩ := found_spec hn hdvd (hr ▸ hroom)
  have hle := le_roundUp nbytes.toNat
  have hend : n.free.toNat + nbytes.toNat ≤ n.stop.toNat := by
    have := hn.free_le
    omega
  obtain ⟨hu, hv, huv⟩ := pairwise_append.mp h.blocks
  obtain ⟨hnv, hv⟩ := pairwise_cons.mp hv
  have hothers : ∀ m ∈ u ++ v, Apart n.block m.block := by
    intro m hm
    rcases mem_append.mp hm with hm | hm
    · exact (huv m hm n mem_cons_self).symm
    · exact hnv m hm
  have hwithin : Within (n.free.toNat, nbytes.toNat) n.block := hn.block_within hn.free_ge hend
  dsimp only
  rw [hptr]
  refine ⟨⟨?_, ?_, ?_, h.chunk⟩, rfl, hn.free_ne_zero, hend.trans_eq hn.stop_eq, ?_⟩
  · intro m hm
    rcases mem_append.mp hm with hm | hm
    · exact h.node m (mem_append_left _ hm)
    · rcases mem_cons.mp hm with rfl | hm
      · exact hok
      · exact h.node m (mem_append_right u (mem_cons_of_mem n hm))
  · exact pairwise_append.mpr ⟨hu, pairwise_cons.mpr ⟨hnv, hv⟩,
      fun m hm k hk => (mem_cons.mp hk).elim (fun heq => heq ▸ huv m hm n mem_cons_self)
        fun hk => huv m hm k (mem_cons_of_mem n hk)⟩
  · intro r hmem
    rcases mem_cons.mp hmem with rfl | hmem
    · refine ⟨_, mem_append_right u mem_cons_self, hn.free_ge, ?_⟩
      rw [hfree, hr]
      exact Nat.add_le_add_left hle _
    · obtain ⟨m, hm, hlo, hhi⟩ := h.below r hmem
      rcases mem_append.mp hm with hm | hm
      · exact ⟨m, mem_append_left _ hm, hlo, hhi⟩
      · rcases mem_cons.mp hm with rfl | hm
        · refine ⟨_, mem_append_right u mem_cons_self, hlo, hhi.trans ?_⟩
          rw [hfree]
          exact Nat.le_add_right _ _
        · exact ⟨m, mem_append_right u (mem_cons_of_mem _ hm), hlo, hhi⟩
  · intro r hmem
    obtain ⟨m, hm, hlo, hhi⟩ := h.below r hmem
    have hmok : NodeOk m := h.node m hm
    rcases mem_append.mp hm with hm' | hm'
    · exact (hothers m (mem_append_left v hm')).mono hwithin
        (hmok.block_within hlo (hhi.trans hmok.free_le))
    · rcases mem_cons.mp hm' with rfl | hm'
      · exact .inr hhi
      · exact (hothers m (mem_append_right u hm')).mono hwithin
          (hmok.block_within hlo (hhi.trans hmok.free_le))

end Take

theorem nodeOk_newNode {answer chunk : UInt64} (h0 : answer ≠ 0) (hdvd : 8 ∣ answer.toNat)
    (hsize : (nodeSize + chunk).toNat = 32 + chunk.toNat)
    (hend : answer.toNat + (nodeSize + chunk).toNat ≤ 2 ^ 63) : NodeOk (newNode answer chunk) := by
  have hpos : 0 < answer.toNat :=
    Nat.pos_of_ne_zero fun h => h0 (UInt64.toNat_inj.mp h)
  have hfree : (answer + nodeSize).toNat = answer.toNat + 32 := by
    rw [UInt64.toNat_add, show nodeSize.toNat = 32 from rfl, Nat.mod_eq_of_lt (by omega)]
  have hstop : (answer + nodeSize + chunk).toNat = answer.toNat + (nodeSize + chunk).toNat := by
    rw [UInt64.toNat_add, hfree, hsize, Nat.mod_eq_of_lt (by omega)]
    omega
  refine ⟨hpos, hstop, hstop.trans_le hend, hfree.ge, ?_, ?_⟩
  · change (answer + nodeSize).toNat ≤ (answer + nodeSize + chunk).toNat
    omega
  · change 8 ∣ (answer + nodeSize).toNat
    omega

theorem toNat_chunkFor {a : Arena} {nb : UInt64} :
    (chunkFor a nb).toNat =
      if nb.toNat < a.chunkSize.toNat then a.chunkSize.toNat else 16 * nb.toNat % 2 ^ 64 := by
  unfold chunkFor
  by_cases h : nb < a.chunkSize
  · rw [if_pos h, if_pos (UInt64.lt_iff_toNat_lt.mp h)]
  · rw [if_neg h, if_neg fun h' => h (UInt64.lt_iff_toNat_lt.mpr h'), UInt64.toNat_mul,
      show (16 : UInt64).toNat = 16 from rfl, Nat.mul_comm]

theorem chunk_header_lt (n : Nat) : 16 * roundUp n % 2 ^ 64 + 32 < 2 ^ 64 := by
  unfold roundUp
  omega

theorem Inv.grow {w : World} {c : Call} (h : Inv w) (hhonest : Honest w c) (hfits : Fits w c)
    (hnone : search (alignUp c.nbytes sysAlignment) w.arena.head = none) (h0 : c.answer ≠ 0) :
    let n := newNode c.answer (chunkFor w.arena (alignUp c.nbytes sysAlignment))
    c.nbytes.toNat + 7 < 2 ^ 64 ∧ Inv ⟨{ w.arena with head := n :: w.arena.head }, w.results⟩ ∧
      roundUp c.nbytes.toNat ≤ n.stop.toNat - n.free.toNat := by
  have hsmall : c.nbytes.toNat + 7 < 2 ^ 64 := hfits.1.resolve_right fun hc => h0 hc.2
  have hr := toNat_nbytes hsmall
  have hroom : ¬∃ n ∈ w.arena.head, roundUp c.nbytes.toNat ≤ (avail n).toNat := by
    rintro ⟨n, hn, hle⟩
    have hlt := UInt64.lt_iff_toNat_lt.mp (search_eq_none.mp hnone n hn)
    rw [hr] at hlt
    omega
  have hchunk := (hfits.2.resolve_left hroom).resolve_left h0
  obtain ⟨hdvd, hend, happ⟩ := hhonest hnone h0
  have hge : roundUp c.nbytes.toNat ≤ (chunkFor w.arena (alignUp c.nbytes sysAlignment)).toNat ∧
      (chunkFor w.arena (alignUp c.nbytes sysAlignment)).toNat + 32 < 2 ^ 64 := by
    rw [toNat_chunkFor, hr]
    split_ifs at hchunk ⊢ with hlt
    · exact ⟨hlt.le, hchunk⟩
    · exact ⟨hchunk, chunk_header_lt _⟩
  generalize chunkFor w.arena (alignUp c.nbytes sysAlignment) = chunk at hge hend happ
  have hsize : (nodeSize + chunk).toNat = 32 + chunk.toNat := by
    rw [UInt64.toNat_add, show nodeSize.toNat = 32 from rfl, Nat.mod_eq_of_lt (by omega)]
  have hok := nodeOk_newNode h0 hdvd hsize hend
  refine ⟨hsmall, ⟨forall_mem_cons.mpr ⟨hok, h.node⟩, ?_, ?_, h.chunk⟩, ?_⟩
  · exact pairwise_cons.mpr ⟨fun m hm => (happ m hm).2, h.blocks⟩
  · intro r hr
    obtain ⟨m, hm, hlo, hhi⟩ := h.below r hr
    exact ⟨m, mem_cons_of_mem _ hm, hlo, hhi⟩
  · have hstop : (newNode c.answer chunk).stop.toNat = c.answer.toNat + (nodeSize + chunk).toNat :=
      hok.stop_eq
    have hfree : (newNode c.answer chunk).free.toNat = c.answer.toNat + 32 := by
      change (c.answer + nodeSize).toNat = _
      rw [UInt64.toNat_add, show nodeSize.toNat = 32 from rfl, Nat.mod_eq_of_lt (by omega)]
    omega

theorem valid_of_take {w : World} {c : Call} {a : Arena} {ptr : UInt64} {n : Node}
    {rs : List (Nat × Nat)} (hn : n ∈ a.head) (hptr : n.base.toNat + 32 ≤ ptr.toNat)
    (hdvd : 8 ∣ ptr.toNat)
    (hend : ptr.toNat + c.nbytes.toNat ≤ n.base.toNat + n.size.toNat)
    (happ : ∀ r ∈ w.results, Apart (ptr.toNat, c.nbytes.toNat) r)
    (hroom : c.answer = 0 → ∃ n ∈ w.arena.head, c.nbytes.toNat ≤ n.stop.toNat - n.free.toNat) :
    Event.Valid ⟨w, c, ptr, ⟨a, rs⟩⟩ where
  aligned _ := hdvd
  inside _ := ⟨n, hn, hptr, hend⟩
  apart _ := happ
  refused hno h0 := by
    obtain ⟨m, hm, hle⟩ := hroom h0
    exact absurd hle (Nat.not_le.mpr (hno m hm))

theorem step_spec {w : World} {c : Call} (h : Inv w) (hhonest : Honest w c) (hfits : Fits w c) :
    ∃ p, step w c = some p ∧ Inv p.1 ∧ p.2.Valid := by
  refine ⟨_, rfl, ?_⟩
  rcases arenaAlloc_cases w.arena c.nbytes c.answer with
    ⟨u, n, v, hhead, hge, heq⟩ | ⟨-, -, heq⟩ | ⟨hnone, h0, heq⟩
  · have hmem : n ∈ w.arena.head := hhead ▸ mem_append_right u mem_cons_self
    have hn := h.node n hmem
    have hsmall : c.nbytes.toNat + 7 < 2 ^ 64 := hfits.1.resolve_right fun hc => by
      rw [hc.1] at hmem
      cases hmem
    have hroom : roundUp c.nbytes.toNat ≤ n.stop.toNat - n.free.toNat := by
      rw [← toNat_nbytes hsmall, ← toNat_avail hn]
      exact UInt64.le_iff_toNat_le.mp hge
    have hinv : Inv ⟨{ w.arena with head := u ++ n :: v }, w.results⟩ := hhead ▸ h
    obtain ⟨hInv, hptr, hne, hend, happ⟩ := hinv.take hsmall hroom
    rw [heq]
    dsimp only
    rw [if_neg hne]
    refine ⟨hInv, ?_⟩
    have hlo := hn.free_ge
    have hdvd := hn.free_dvd
    rw [← hptr] at hlo hdvd
    exact valid_of_take (mem_append_right u mem_cons_self) hlo hdvd hend happ
      fun _ => ⟨n, hmem, (le_roundUp _).trans hroom⟩
  · rw [heq]
    dsimp only
    rw [if_pos rfl]
    exact ⟨h, nofun, nofun, nofun, fun _ _ => rfl⟩
  · obtain ⟨hsmall, hinv, hroom⟩ := h.grow hhonest hfits hnone h0
    obtain ⟨hInv, hptr, hne, hend, happ⟩ :=
      Inv.take (u := []) (v := w.arena.head) hinv hsmall hroom
    rw [heq]
    dsimp only
    rw [if_neg hne]
    refine ⟨hInv, ?_⟩
    have hn := hinv.node _ mem_cons_self
    have hlo := hn.free_ge
    have hdvd := hn.free_dvd
    rw [← hptr] at hlo hdvd
    exact valid_of_take (mem_append_right [] mem_cons_self) hlo hdvd hend happ
      fun h0' => absurd h0' h0

theorem Inv.end_le {w : World} (h : Inv w) {n : Node} (hn : n ∈ w.arena.head) :
    n.base.toNat + n.size.toNat ≤ 2 ^ 63 :=
  (h.node n hn).stop_eq ▸ (h.node n hn).stop_le

theorem chunk_of_room {a : Arena} {nbytes : UInt64} (hsmall : nbytes.toNat + 7 < 2 ^ 64)
    (hroom : 32 + nbytes.toNat ≤
      (nodeSize + chunkFor a (alignUp nbytes sysAlignment)).toNat) :
    if roundUp nbytes.toNat < a.chunkSize.toNat then a.chunkSize.toNat + 32 < 2 ^ 64
    else roundUp nbytes.toNat ≤ 16 * roundUp nbytes.toNat % 2 ^ 64 := by
  have hchunkSize := a.chunkSize.toNat_lt
  rw [UInt64.toNat_add, show nodeSize.toNat = 32 from rfl, toNat_chunkFor, toNat_nbytes hsmall]
    at hroom
  split_ifs at hroom ⊢ with hlt
  · omega
  · have hheader := chunk_header_lt nbytes.toNat
    rw [Nat.mod_eq_of_lt (by omega)] at hroom
    -- the product is a multiple of 8, so it is at least the rounded size
    have hdvd : 8 ∣ 16 * roundUp nbytes.toNat % 2 ^ 64 := by
      have hmul : 8 ∣ 16 * roundUp nbytes.toNat := Nat.dvd_mul_right_of_dvd (by decide) _
      exact (Nat.dvd_mod_iff (by decide)).mpr hmul
    generalize 16 * roundUp nbytes.toNat % 2 ^ 64 = k at hroom hdvd hheader
    unfold roundUp
    omega

theorem fits_of_valid {w : World} {c : Call} {p : World × Event} (h : Inv w)
    (hhonest : Honest w c) (hstep : step w c = some p) (hvalid : p.2.Valid) : Fits w c := by
  obtain rfl := Option.some.inj hstep
  rcases arenaAlloc_cases w.arena c.nbytes c.answer with
    ⟨u, n, v, hhead, hge, heq⟩ | ⟨hnone, h0, -⟩ | ⟨hnone, h0, heq⟩
  · have hmem : n ∈ w.arena.head := hhead ▸ mem_append_right u mem_cons_self
    have hn := h.node n hmem
    have hne : (found n (alignUp c.nbytes sysAlignment)).2 ≠ 0 :=
      (alignUp_free hn).trans_ne hn.free_ne_zero
    have hinside := hvalid.inside
    dsimp only at hinside
    rw [heq] at hinside
    obtain ⟨m, hm, -, hend⟩ := hinside hne
    have hblock : m.base.toNat + m.size.toNat ≤ 2 ^ 63 := by
      rcases mem_append.mp hm with hm | hm
      · exact h.end_le (hhead ▸ mem_append_left _ hm)
      · rcases mem_cons.mp hm with rfl | hm
        · exact h.end_le (n := n) hmem
        · exact h.end_le (hhead ▸ mem_append_right u (mem_cons_of_mem n hm))
    have hsmall : c.nbytes.toNat + 7 < 2 ^ 64 := by omega
    refine ⟨.inl hsmall, .inl ⟨n, hmem, ?_⟩⟩
    rw [← toNat_nbytes hsmall]
    exact UInt64.le_iff_toNat_le.mp hge
  · refine ⟨?_, .inr (.inl h0)⟩
    by_contra hc
    obtain ⟨hbig, hempty⟩ := not_or.mp hc
    have hzero : (alignUp c.nbytes sysAlignment).toNat = 0 := by
      have hlt := c.nbytes.toNat_lt
      rw [sysAlignment, toNat_alignUp_8]
      omega
    cases hhead : w.arena.head with
    | nil => exact hempty ⟨hhead, h0⟩
    | cons n ns =>
      have hlt := search_eq_none.mp hnone n (hhead ▸ mem_cons_self)
      rw [UInt64.lt_iff_toNat_lt, hzero] at hlt
      omega
  · obtain ⟨hdvd, hend, happ⟩ := hhonest hnone h0
    generalize hchunk : chunkFor w.arena (alignUp c.nbytes sysAlignment) = chunk at hend happ heq
    have hfree : (c.answer + nodeSize).toNat = c.answer.toNat + 32 := by
      rw [UInt64.toNat_add, show nodeSize.toNat = 32 from rfl, Nat.mod_eq_of_lt (by omega)]
    have hptr : ((found (newNode c.answer chunk) (alignUp c.nbytes sysAlignment)).2).toNat =
        c.answer.toNat + 32 := by
      change (alignUp (c.answer + nodeSize) sysAlignment).toNat = _
      rw [sysAlignment, toNat_alignUp_8, hfree]
      omega
    have hne : (found (newNode c.answer chunk) (alignUp c.nbytes sysAlignment)).2 ≠ 0 := by
      intro hzero
      rw [hzero] at hptr
      exact absurd hptr (by change 0 ≠ _; omega)
    have hinside := hvalid.inside
    dsimp only at hinside
    rw [heq] at hinside
    obtain ⟨m, hm, hlo, hhi⟩ := hinside hne
    dsimp only at hlo hhi
    rw [hptr] at hlo hhi
    -- the block can only be in the new node: the others are apart from it
    have hlarge : 32 + c.nbytes.toNat ≤ (nodeSize + chunk).toNat := by
      rcases mem_cons.mp hm with rfl | hm
      · change c.answer.toNat + 32 + c.nbytes.toNat ≤ c.answer.toNat + (nodeSize + chunk).toNat
          at hhi
        omega
      · obtain ⟨hbase, happ⟩ := happ m hm
        have hbase' : c.answer.toNat ≠ m.base.toNat := fun hc => hbase (UInt64.toNat_inj.mp hc)
        rw [show nodeSize.toNat = 32 from rfl] at hlo
        rcases happ with happ | happ
        · change c.answer.toNat + (nodeSize + chunk).toNat ≤ m.base.toNat at happ
          omega
        · change m.base.toNat + m.size.toNat ≤ c.answer.toNat at happ
          omega
    have hsmall : c.nbytes.toNat + 7 < 2 ^ 64 := by omega
    exact ⟨.inl hsmall, .inr (.inr (chunk_of_room hsmall (hchunk ▸ hlarge)))⟩

/-- Every block an arena hands out is aligned, inside one node and apart from the earlier ones, and
every request without memory is refused, exactly if no request overflows on the way. -/
theorem arena_valid_iff (chunkSize : UInt64) (calls : List Call)
    (hmalloc : Run.StepsMeet step Honest (start chunkSize) calls) :
    (∃ q, Run.run step (start chunkSize) calls = some q ∧ ∀ e ∈ q.2, e.Valid) ↔
      Run.StepsMeet step Fits (start chunkSize) calls := by
  have hInv := inv_start chunkSize
  generalize start chunkSize = w at hmalloc hInv
  induction calls generalizing w with
  | nil => exact ⟨fun _ => trivial, fun _ => ⟨(w, []), rfl, nofun⟩⟩
  | cons c calls ih =>
    obtain ⟨p, hp⟩ : ∃ p, step w c = some p := ⟨_, rfl⟩
    have hrest := hmalloc.2 p hp
    constructor
    · rintro ⟨q, hq, hall⟩
      simp only [Run.run, hp, Option.bind_some, Option.map_eq_some_iff] at hq
      obtain ⟨q', hq', rfl⟩ := hq
      obtain ⟨hv, hall⟩ := forall_mem_cons.mp hall
      have hfits := fits_of_valid hInv hmalloc.1 hp hv
      obtain ⟨p', hp', hInv', -⟩ := step_spec hInv hmalloc.1 hfits
      obtain rfl := Option.some.inj (hp.symm.trans hp')
      refine ⟨hfits, fun p' hp' => ?_⟩
      obtain rfl := Option.some.inj (hp.symm.trans hp')
      exact (ih p.1 hrest hInv').mp ⟨q', hq', hall⟩
    · rintro ⟨hfits, hmeet⟩
      obtain ⟨p', hp', hInv', hv⟩ := step_spec hInv hmalloc.1 hfits
      obtain rfl := Option.some.inj (hp.symm.trans hp')
      obtain ⟨q, hq, hall⟩ := (ih p.1 hrest hInv').mpr (hmeet p hp)
      refine ⟨(q.1, p.2 :: q.2), ?_, forall_mem_cons.mpr ⟨hv, hall⟩⟩
      simp only [Run.run, hp, hq, Option.bind_some, Option.map_some]

theorem arena_valid_two_requests :
    ∃ q, Run.run step (start 64) [⟨10, 4096⟩, ⟨20, 0⟩] = some q ∧ ∀ e ∈ q.2, e.Valid :=
  (arena_valid_iff 64 [⟨10, 4096⟩, ⟨20, 0⟩] (by decide)).mpr (by decide)

/-- A request for all of the address space rounds up to nothing, and any node has room for that. -/
theorem arena_hands_out_overflowed_request :
    Run.StepsMeet step Honest (start 64) [⟨8, 4096⟩, ⟨18446744073709551615, 0⟩] ∧
      ¬∃ q, Run.run step (start 64) [⟨8, 4096⟩, ⟨18446744073709551615, 0⟩] = some q ∧
        ∀ e ∈ q.2, e.Valid := by
  refine ⟨by decide, ?_⟩
  rintro ⟨q, hq, hall⟩
  have hrun : (Run.run step (start 64) [⟨8, 4096⟩, ⟨18446744073709551615, 0⟩]).map
      (fun q => q.2.map fun e => (e.ptr, e.call.nbytes, e.call.answer,
        e.pre.arena.head.map fun n => n.stop.toNat - n.free.toNat)) =
      some [(4128, 8, 4096, []), (4136, 18446744073709551615, 0, [56])] := by
    decide
  rw [hq, Option.map_some, Option.some.injEq] at hrun
  have hlast : (4136, 18446744073709551615, 0, [56]) ∈ q.2.map fun e => (e.ptr, e.call.nbytes,
      e.call.answer, e.pre.arena.head.map fun n => n.stop.toNat - n.free.toNat) := by
    rw [hrun]
    exact mem_cons_of_mem _ mem_cons_self
  obtain ⟨e, he, hfields⟩ := mem_map.mp hlast
  simp only [Prod.mk.injEq] at hfields
  obtain ⟨hptr, hnbytes, hanswer, hleft⟩ := hfields
  have hnull : e.ptr = 0 := by
    refine (hall e he).refused (fun n hn => ?_) hanswer
    have hn' := mem_map_of_mem (f := fun n : Node => n.stop.toNat - n.free.toNat) hn
    rw [hleft, mem_singleton] at hn'
    rw [hn', hnbytes]
    decide
  rw [hptr] at hnull
  exact absurd hnull (by decide)

end PortableLib.ArenaAlloc
