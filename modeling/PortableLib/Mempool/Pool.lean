import PortableLib.Errno
import PortableLib.Lib.Bytes
import Mathlib.Data.Nat.Bitwise

/-! The fixed-size allocator of `mempool.c`. The chunks' headers and the links of the freed blocks
live in the bytes of the memory; the `struct mempool` is a record of its own. Pointers are
addresses, with `0` for `NULL`; a failed `assert` and a division by zero are `none`. The answer of
the lower-layer allocator is an argument. -/

namespace PortableLib.Mempool
open PortableLib.Image PortableLib.Bytes

/-- What the function pointers of a `memmgr` point to. -/
inductive Fn
  | osAlloc
  | osFree
  | dummyFree
  | user (id : Nat)
  deriving DecidableEq, Repr

structure Memmgr where
  alloc : Option Fn
  free : Option Fn
  context : Nat
  deriving DecidableEq, Repr

structure Pool where
  /-- `mru_head`. -/
  first : Nat
  last : Nat
  blockSize : Nat
  maxBlocks : Nat
  minUnits : Nat
  chunks : Nat
  traits : Memmgr
  deriving DecidableEq, Repr

structure State where
  pool : Pool
  mem : Nat → UInt8

def minAlignment : Nat := 8

/-- `sizeof(memchunk)`: `next`, `free_area` and `end`. -/
def chunkHeader : Nat := 24

/-- `sizeof(mru_node)`: `next` and `prev`. -/
def minObjSize : Nat := 16

/-- `sizeof(mempool)`. -/
def mempoolSize : Nat := 72

def minAllocUnits : Nat := 4096

/-- `_Align`. The test for an aligned value is only true of the values below `minAlignment`, which
stay as they are. -/
def align (p : Nat) : Nat :=
  if p &&& (minAlignment - 1) = p then p
  else (p + minAlignment - 1) % 2 ^ 64 &&& (2 ^ 64 - 1 - (minAlignment - 1))

theorem align_of_lt {p : Nat} (h : p < 8) : align p = p := by
  have hlow : p &&& (minAlignment - 1) = p := by
    rw [show minAlignment - 1 = 2 ^ 3 - 1 from rfl, Nat.and_two_pow_sub_one_eq_mod]
    exact Nat.mod_eq_of_lt h
  rw [align, if_pos hlow]

theorem and_mask {x : Nat} (h : x < 2 ^ 64) : x &&& (2 ^ 64 - 1 - 7) = x / 8 * 8 := by
  have hmask : 2 ^ 64 - 1 - 7 = 2 ^ 64 - (7 + 1) := rfl
  apply Nat.eq_of_testBit_eq
  intro i
  rw [Nat.testBit_and, hmask, Nat.testBit_two_pow_sub_succ (by decide),
    show 8 = 2 ^ 3 from rfl, Nat.testBit_mul_two_pow, Nat.testBit_div_two_pow,
    show 7 = 2 ^ 3 - 1 from rfl, Nat.testBit_two_pow_sub_one]
  by_cases hi : i < 3
  · simp [hi, Nat.not_le.mpr hi]
  · have hi' := Nat.not_lt.mp hi
    by_cases h64 : i < 64
    · simp [hi, hi', h64]
    · have hbig : x < 2 ^ i :=
        Nat.lt_of_lt_of_le h (Nat.pow_le_pow_right (by decide) (Nat.not_lt.mp h64))
      simp [hi', Nat.testBit_lt_two_pow hbig]

theorem align_eq {p : Nat} (hlow : 8 ≤ p) (hhigh : p + 7 < 2 ^ 64) :
    align p = (p + 7) / 8 * 8 := by
  have hne : ¬ p &&& (minAlignment - 1) = p := by
    rw [show minAlignment - 1 = 2 ^ 3 - 1 from rfl, Nat.and_two_pow_sub_one_eq_mod]
    omega
  have hsum : p + minAlignment - 1 = p + 7 := rfl
  rw [align, if_neg hne, hsum, Nat.mod_eq_of_lt hhigh]
  exact and_mask hhigh

theorem align_bounds {p : Nat} (h : p + 7 < 2 ^ 64) : p ≤ align p ∧ align p ≤ p + 7 := by
  by_cases hlow : p < 8
  · rw [align_of_lt hlow]
    omega
  · rw [align_eq (Nat.not_lt.mp hlow) h]
    omega

theorem align_cases {p : Nat} (h : p < 2 ^ 64) :
    (p ≤ align p ∧ align p ≤ p + 7 ∧ p + 7 < 2 ^ 64) ∨ align p = 0 := by
  by_cases hhigh : p + 7 < 2 ^ 64
  · have hbounds := align_bounds hhigh
    exact Or.inl ⟨hbounds.1, hbounds.2, hhigh⟩
  · have hne : ¬ p &&& (minAlignment - 1) = p := by
      rw [show minAlignment - 1 = 2 ^ 3 - 1 from rfl, Nat.and_two_pow_sub_one_eq_mod]
      omega
    have hsum : p + minAlignment - 1 = p + 7 := rfl
    refine Or.inr ?_
    rw [align, if_neg hne, hsum]
    refine (and_mask (Nat.mod_lt _ (by decide))).trans ?_
    omega

theorem dvd_align {p : Nat} (hlow : 8 ≤ p) (hhigh : p + 7 < 2 ^ 64) : 8 ∣ align p := by
  rw [align_eq hlow hhigh]
  exact Nat.dvd_mul_left 8 _

/-- The adjustment of the caller's `block_size`, cast back to `uint_t`. -/
def roundSize (blockSize : UInt32) : Nat := align (max blockSize.toNat minObjSize) % 2 ^ 32

theorem roundSize_spec (blockSize : UInt32) :
    8 ∣ roundSize blockSize ∧ roundSize blockSize < 2 ^ 32 ∧
      (roundSize blockSize ≠ 0 → minObjSize ≤ roundSize blockSize) := by
  have hlt := blockSize.toNat_lt
  have hmin : minObjSize = 16 := rfl
  rw [roundSize, hmin, align_eq (by omega) (by omega)]
  omega

theorem roundSize_cases (blockSize : UInt32) :
    (blockSize.toNat ≤ 2 ^ 32 - 8 ∧ roundSize blockSize ≠ 0 ∧
        blockSize.toNat ≤ roundSize blockSize) ∨
      2 ^ 32 - 8 < blockSize.toNat ∧ roundSize blockSize = 0 := by
  have hlt := blockSize.toNat_lt
  have hmin : minObjSize = 16 := rfl
  rw [roundSize, hmin, align_eq (by omega) (by omega)]
  omega

theorem roundSize_ne_zero_iff {blockSize : UInt32} :
    roundSize blockSize ≠ 0 ↔ blockSize.toNat ≤ 2 ^ 32 - 8 := by
  rcases roundSize_cases blockSize with ⟨hle, hne, -⟩ | ⟨hlt, hzero⟩
  · exact iff_of_true hne hle
  · exact iff_of_false (fun hne => hne hzero) (Nat.not_le.mpr hlt)

def Pool.chunkSize (a : Pool) : Nat := a.blockSize * a.minUnits % 2 ^ 64

def Pool.allocSize (a : Pool) : Nat := (chunkHeader + a.chunkSize + minAlignment) % 2 ^ 64

/-- The assertions of `new_chunk`. -/
def Pool.guarded (a : Pool) : Bool :=
  a.blockSize < a.chunkSize && a.minUnits < a.chunkSize && a.chunkSize < a.allocSize

theorem Pool.sizes_of_guarded {a : Pool} (hsize : a.blockSize < 2 ^ 32)
    (hunits : a.minUnits < 2 ^ 32) (h : a.guarded) :
    a.chunkSize = a.minUnits * a.blockSize ∧ a.allocSize = a.minUnits * a.blockSize + 32 ∧
      0 < a.minUnits ∧ 0 < a.blockSize := by
  have hmul : a.blockSize * a.minUnits < 2 ^ 64 :=
    Nat.mul_lt_mul'' (c := 2 ^ 32) (d := 2 ^ 32) hsize hunits
  have hchunk : a.chunkSize = a.minUnits * a.blockSize := by
    rw [chunkSize, Nat.mod_eq_of_lt hmul, Nat.mul_comm]
  simp only [guarded, Bool.and_eq_true, decide_eq_true_eq] at h
  obtain ⟨⟨hblock, -⟩, halloc⟩ := h
  have hpos : 0 < a.minUnits * a.blockSize := by omega
  refine ⟨hchunk, ?_, Nat.pos_of_mul_pos_right hpos, Nat.pos_of_mul_pos_left hpos⟩
  have hheader : chunkHeader = 24 := rfl
  have halign : minAlignment = 8 := rfl
  rw [allocSize, hchunk, hheader, halign] at halloc ⊢
  omega

def next (m : Nat → UInt8) (p : Nat) : Nat := load 8 m p

/-- The second link of a `mru_node`. -/
def prev (m : Nat → UInt8) (p : Nat) : Nat := load 8 m (p + 8)

def freeArea (m : Nat → UInt8) (ch : Nat) : Nat := load 8 m (ch + 8)

/-- The field `end` of a chunk. -/
def chunkEnd (m : Nat → UInt8) (ch : Nat) : Nat := load 8 m (ch + 16)

section Fields
variable {m : Nat → UInt8} {p v : Nat}

theorem next_store_self (hv : v < 2 ^ 64) : next (store 8 m p v) p = v := by
  unfold next
  exact load_store_self hv

theorem prev_store_self (hv : v < 2 ^ 64) : prev (store 8 m (p + 8) v) p = v := by
  unfold prev
  exact load_store_self hv

theorem next_store_prev : next (store 8 m (p + 8) v) p = next m p := by
  unfold next
  exact load_store_of_apart (.inl (Nat.le_refl _))

theorem prev_store_next : prev (store 8 m p v) p = prev m p := by
  unfold prev
  exact load_store_of_apart (.inr (Nat.le_refl _))

theorem freeArea_store_self (hv : v < 2 ^ 64) : freeArea (store 8 m (p + 8) v) p = v := by
  unfold freeArea
  exact load_store_self hv

theorem chunkEnd_store_area : chunkEnd (store 8 m (p + 8) v) p = chunkEnd m p := by
  have harea : Apart (p + 16, 8) (p + 8, 8) := .inr (Nat.le_refl (p + 16))
  unfold chunkEnd
  exact load_store_of_apart harea

section Agree
variable {m' : Nat → UInt8} {n : Nat}

theorem next_of_agree (h : Agree m m' (p, n)) (hn : 8 ≤ n) : next m' p = next m p :=
  load_of_agree h (o := 0) (Nat.le_trans (by decide) hn)

theorem prev_of_agree (h : Agree m m' (p, 16)) : prev m' p = prev m p :=
  load_of_agree h (by decide)

theorem freeArea_of_agree (h : Agree m m' (p, 24)) : freeArea m' p = freeArea m p :=
  load_of_agree h (by decide)

theorem chunkEnd_of_agree (h : Agree m m' (p, 24)) : chunkEnd m' p = chunkEnd m p :=
  load_of_agree h (by decide)

end Agree

def header (m : Nat → UInt8) (ch nxt area fin : Nat) : Nat → UInt8 :=
  store 8 (store 8 (store 8 m ch nxt) (ch + 8) area) (ch + 16) fin

section Header
variable {ch nxt area fin : Nat}

theorem next_header (h : nxt < 2 ^ 64) : next (header m ch nxt area fin) ch = nxt := by
  have harea : Apart (ch, 8) (ch + 8, 8) := .inl (Nat.le_refl (ch + 8))
  have hfin : Apart (ch, 8) (ch + 16, 8) := .inl (Nat.le_add_right (ch + 8) 8)
  unfold header next
  rw [load_store_of_apart hfin, load_store_of_apart harea]
  exact load_store_self h

theorem freeArea_header (h : area < 2 ^ 64) : freeArea (header m ch nxt area fin) ch = area := by
  have hfin : Apart (ch + 8, 8) (ch + 16, 8) := .inl (Nat.le_refl (ch + 16))
  unfold header freeArea
  rw [load_store_of_apart hfin]
  exact load_store_self h

theorem chunkEnd_header (h : fin < 2 ^ 64) : chunkEnd (header m ch nxt area fin) ch = fin := by
  unfold header chunkEnd
  exact load_store_self h

theorem agree_header {r : Nat × Nat} (h : Apart r (ch, chunkHeader)) :
    Agree m (header m ch nxt area fin) r := by
  have hword : ∀ o, o + 8 ≤ 24 → Apart r (ch + o, 8) := by
    intro o ho
    apply h.mono ⟨Nat.le_refl _, Nat.le_refl _⟩
    refine ⟨Nat.le_add_right ch o, ?_⟩
    show ch + o + 8 ≤ ch + 24
    omega
  unfold header
  exact ((agree_store (hword 0 (by decide))).trans (agree_store (hword 8 (by decide)))).trans
    (agree_store (hword 16 (by decide)))

end Header
end Fields

/-- Without an answer of the lower-layer allocator there is no new state. A pool in caller memory
has no lower-layer allocator to call. -/
def newChunk (answer : Nat) (s : State) : Option (Option State) :=
  if s.pool.guarded && s.pool.traits.alloc.isSome then
    if answer = 0 then some none
    else
      let area := align ((answer + chunkHeader) % 2 ^ 64)
      let m := store 8 s.mem answer s.pool.chunks
      let m := store 8 m (answer + 8) area
      let m := store 8 m (answer + 16) ((area + s.pool.chunkSize) % 2 ^ 64)
      some (some ⟨{ s.pool with chunks := answer }, m⟩)
  else none

def allocFromChunk (s : State) : Nat × State :=
  let ch := s.pool.chunks
  if freeArea s.mem ch < chunkEnd s.mem ch then
    let p := freeArea s.mem ch
    (p, { s with mem := store 8 s.mem (ch + 8) ((p + s.pool.blockSize) % 2 ^ 64) })
  else (0, s)

def validBlkP (m : Nat → UInt8) (ptr : Nat) : Nat → Nat → Option Bool
  | 0, ch => if ch = 0 then some false else none
  | fuel + 1, ch =>
    if ch = 0 then some false
    else if ch + chunkHeader ≤ ptr ∧ ptr < chunkEnd m ch then some true
    else validBlkP m ptr fuel (next m ch)

def dlInsertHead (elm : Nat) (s : State) : State :=
  let m := store 8 s.mem elm s.pool.first
  if s.pool.first ≠ 0 then
    let m := store 8 m (s.pool.first + 8) elm
    ⟨{ s.pool with first := elm }, store 8 m (elm + 8) 0⟩
  else ⟨{ s.pool with first := elm, last := elm }, store 8 m (elm + 8) 0⟩

def dlRemoveTail (s : State) : Nat × State :=
  let zz := s.pool.last
  if zz ≠ 0 then
    let last := prev s.mem zz
    if last ≠ 0 then (zz, ⟨{ s.pool with last := last }, store 8 s.mem last 0⟩)
    else (zz, { s with pool := { s.pool with last := last, first := 0 } })
  else (0, s)

section Links
variable {s : State}

theorem dlRemoveTail_of_empty (hlast : s.pool.last = 0) : dlRemoveTail s = (0, s) := by
  simp only [dlRemoveTail, hlast, ne_eq, not_true_eq_false, if_false]

theorem dlRemoveTail_of_single (hlast : s.pool.last ≠ 0) (hprev : prev s.mem s.pool.last = 0) :
    dlRemoveTail s = (s.pool.last, ⟨{ s.pool with first := 0, last := 0 }, s.mem⟩) := by
  simp only [dlRemoveTail, hlast, hprev, ne_eq, not_false_eq_true, if_true, not_true_eq_false,
    if_false]

theorem dlRemoveTail_of_prev (hlast : s.pool.last ≠ 0) (hprev : prev s.mem s.pool.last ≠ 0) :
    dlRemoveTail s = (s.pool.last, ⟨{ s.pool with last := prev s.mem s.pool.last },
      store 8 s.mem (prev s.mem s.pool.last) 0⟩) := by
  simp only [dlRemoveTail, hlast, hprev, ne_eq, not_false_eq_true, if_true]

theorem dlInsertHead_of_empty (elm : Nat) (hfirst : s.pool.first = 0) :
    dlInsertHead elm s = ⟨{ s.pool with first := elm, last := elm },
      store 8 (store 8 s.mem elm 0) (elm + 8) 0⟩ := by
  simp only [dlInsertHead, hfirst, ne_eq, not_true_eq_false, if_false]

theorem dlInsertHead_of_first (elm : Nat) (hfirst : s.pool.first ≠ 0) :
    dlInsertHead elm s = ⟨{ s.pool with first := elm },
      store 8 (store 8 (store 8 s.mem elm s.pool.first) (s.pool.first + 8) elm) (elm + 8) 0⟩ := by
  simp only [dlInsertHead, hfirst, ne_eq, not_false_eq_true, if_true]

end Links

/-- `clear_memory` and `fill_memory`, which are there in the debug build only. -/
def setMemory (debug : Bool) (b : UInt8) (p : Nat) (s : State) : State :=
  if debug then { s with mem := fill s.mem p s.pool.blockSize b } else s

structure Alloc where
  ptr : Nat
  state : State
  /-- The size of the request to the lower-layer allocator, if there was one. -/
  asked : Option Nat

/-- `_end:` of `mempool_alloc`. -/
def finish (debug : Bool) (asked : Option Nat) (r : Nat × State) : Alloc :=
  ⟨r.1, if r.1 ≠ 0 then setMemory debug 0xaa r.1 r.2 else r.2, asked⟩

def mempoolAlloc (debug : Bool) (answer : Nat) (s : State) : Option Alloc :=
  let blk := dlRemoveTail s
  if blk.1 ≠ 0 then some (finish debug none blk)
  else
    let r := allocFromChunk blk.2
    if r.1 ≠ 0 ∨ r.2.pool.maxBlocks ≠ 0 then some (finish debug none r)
    else
      match newChunk answer r.2 with
      | none => none
      | some none => some (finish debug (some r.2.pool.allocSize) (0, r.2))
      | some (some t) => some (finish debug (some r.2.pool.allocSize) (allocFromChunk t))

def mempoolFree (debug : Bool) (fuel : Nat) (ptr : Nat) (s : State) : Option State :=
  if debug then
    match validBlkP s.mem ptr fuel s.pool.chunks with
    | some true => some (dlInsertHead ptr (setMemory debug 0x77 ptr s))
    | _ => none
  else some (dlInsertHead ptr (setMemory debug 0x77 ptr s))

def osTraits : Memmgr := ⟨some .osAlloc, some .osFree, 0⟩

def chooseTraits : Option Memmgr → Except Errno Memmgr
  | none => .ok osTraits
  | some tr => if tr.alloc.isSome && tr.free.isSome then .ok tr else .error .einval

/-- The fields that `__real_init` sets before it gets the first chunk. -/
def startPool (tr : Memmgr) (blockSize max minUnits : UInt32) : Pool where
  first := 0
  last := 0
  blockSize := roundSize blockSize
  maxBlocks := max.toNat
  minUnits := if max ≠ 0 then max.toNat
    else if minUnits = 0 then minAllocUnits else minUnits.toNat
  chunks := 0
  traits := tr

def realInit (answer : Nat) (m : Nat → UInt8) (tr : Memmgr) (blockSize max minUnits : UInt32) :
    Option (Except Errno State) :=
  (newChunk answer ⟨startPool tr blockSize max minUnits, m⟩).map fun
    | none => .error .enomem
    | some s => .ok s

def mempoolInit (answer : Nat) (m : Nat → UInt8) (a : Nat) (tr : Option Memmgr)
    (blockSize max minUnits : UInt32) : Option (Except Errno State) :=
  if a = 0 then some (.error .einval)
  else
    match chooseTraits tr with
    | .error e => some (.error e)
    | .ok tr => realInit answer m tr blockSize max minUnits

/-- The first answer of the allocator is for the `struct mempool`. -/
def mempoolNew (self answer : Nat) (m : Nat → UInt8) (pa : Nat) (tr : Option Memmgr)
    (blockSize max minUnits : UInt32) : Option (Except Errno State) :=
  if pa = 0 then some (.error .einval)
  else
    match chooseTraits tr with
    | .error e => some (.error e)
    | .ok tr =>
      if self = 0 then some (.error .enomem) else realInit answer m tr blockSize max minUnits

/-- The difference of two pointers, a `ptrdiff_t`. -/
def ptrDiff (p q : Nat) : Int := ((p : Int) - q).bmod (2 ^ 64)

def mempoolInitFromMem (m : Nat → UInt8) (a : Nat) (blockSize : UInt32) (pool : Nat)
    (poolsz : UInt32) : Option (Except Errno State) :=
  if a = 0 ∨ pool = 0 ∨ poolsz = 0 then some (.error .einval)
  else
    let bs := roundSize blockSize
    let ch := align pool
    let poolsize := (((poolsz.toNat : Int) - ptrDiff ch pool) % 2 ^ 64).toNat
    if poolsize < bs + minAlignment + chunkHeader then some (.error .enomem)
    else
      let ptr := (ch + chunkHeader) % 2 ^ 64
      let fin := (ptr + (poolsize - chunkHeader)) % 2 ^ 64
      let area := align ptr
      if bs = 0 then none
      else
        let nblocks := ((ptrDiff fin area).tdiv bs % 2 ^ 32).toNat
        let chEnd := (area + nblocks * bs % 2 ^ 32) % 2 ^ 64
        if chEnd ≤ fin then
          let m := store 8 m (ch + 8) area
          let m := store 8 m (ch + 16) chEnd
          let m := store 8 m ch 0
          some (.ok ⟨⟨0, 0, bs, nblocks, nblocks, ch, ⟨none, some .dummyFree, 0⟩⟩, m⟩)
        else none

/-- The size is a `uint_t` here and wraps around where the pool has no room for the padding and
the `struct mempool`. -/
def mempoolNewFromMem (m : Nat → UInt8) (pa : Nat) (blockSize : UInt32) (pool : Nat)
    (poolsize : UInt32) : Option (Except Errno State) :=
  if pa = 0 ∨ pool = 0 ∨ poolsize = 0 then some (.error .einval)
  else
    let a := align pool
    let poolsize := UInt32.ofInt (poolsize.toNat - ptrDiff a pool)
    let poolsize := poolsize - UInt32.ofNat mempoolSize
    mempoolInitFromMem m a blockSize ((a + mempoolSize) % 2 ^ 64) poolsize

end PortableLib.Mempool
