import Mathlib.Data.List.Induction
import PortableLib.Encdec
import PortableLib.Lib.Absorb

/-! `xxhash.c`: the hash of a text that is given in one piece, and the state that takes it in piece
by piece. -/

namespace PortableLib.Xxhash
open List Absorb

structure Lanes (W : Type) where
  v1 : W
  v2 : W
  v3 : W
  v4 : W

structure Width (W : Type) where
  /-- Bytes in a stripe, which is one word for each lane. -/
  size : Nat
  size_pos : 0 < size
  lanes : W → Lanes W
  stripe : Lanes W → List UInt8 → Lanes W
  merge : Lanes W → W
  short : W → W
  add_len : W → Nat → W
  finish : W → List UInt8 → W

section
variable {W : Type} (d : Width W)

def endianAlign (input : List UInt8) (seed : W) : W :=
  if d.size ≤ input.length then
    let r := drain d.size d.stripe input.length (d.lanes seed) input
    d.finish (d.add_len (d.merge r.1) input.length) r.2
  else d.finish (d.add_len (d.short seed) input.length) input

structure State (W : Type) where
  totalLen : Nat
  seed : W
  v : Lanes W
  mem : List UInt8
  memsize : Nat

def reset (seed : W) : State W := ⟨0, seed, d.lanes seed, replicate d.size 0, 0⟩

/-- `XXH_memcpy` into the buffer, at `i`. -/
def memcpy (mem : List UInt8) (i : Nat) (src : List UInt8) : List UInt8 :=
  mem.take i ++ src ++ mem.drop (i + src.length)

def updateRest (st : State W) (p : List UInt8) : State W :=
  let r := drain d.size d.stripe p.length st.v p
  if 0 < r.2.length then
    { st with v := r.1, mem := memcpy st.mem 0 r.2, memsize := r.2.length }
  else { st with v := r.1 }

def updateEndian (st : State W) (input : List UInt8) : State W :=
  let st := { st with totalLen := (st.totalLen + input.length) % 2 ^ 64 }
  if st.memsize + input.length < d.size then
    { st with mem := memcpy st.mem st.memsize input, memsize := st.memsize + input.length }
  else if 0 < st.memsize then
    let mem := memcpy st.mem st.memsize (input.take (d.size - st.memsize))
    updateRest d { st with v := d.stripe st.v mem, mem := mem, memsize := 0 }
      (input.drop (d.size - st.memsize))
  else updateRest d st input

def digestEndian (st : State W) : W :=
  let h := if d.size ≤ st.totalLen then d.merge st.v else d.short st.seed
  d.finish (d.add_len h st.totalLen) (st.mem.take st.memsize)

end

def prime32₁ : UInt32 := 2654435761
def prime32₂ : UInt32 := 2246822519
def prime32₃ : UInt32 := 3266489917
def prime32₄ : UInt32 := 668265263
def prime32₅ : UInt32 := 374761393

def prime64₁ : UInt64 := 11400714785074694791
def prime64₂ : UInt64 := 14029467366897019727
def prime64₃ : UInt64 := 1609587929392839161
def prime64₄ : UInt64 := 9650029242287828579
def prime64₅ : UInt64 := 2870177450012600261

def rotl32 (x r : UInt32) : UInt32 := (x <<< r) ||| (x >>> (32 - r))

def rotl64 (x r : UInt64) : UInt64 := (x <<< r) ||| (x >>> (64 - r))

def readLE32 (p : List UInt8) : UInt32 := (Encdec.decLEu32 p).toUInt32

def readLE64 (p : List UInt8) : UInt64 := Encdec.decLEu64 p

def xxh32Round (seed input : UInt32) : UInt32 := rotl32 (seed + input * prime32₂) 13 * prime32₁

def xxh64Round (acc input : UInt64) : UInt64 := rotl64 (acc + input * prime64₂) 31 * prime64₁

def xxh64MergeRound (acc val : UInt64) : UInt64 :=
  (acc ^^^ xxh64Round 0 val) * prime64₁ + prime64₄

/-- `h ^= h >> 15` and so on. -/
def avalanche32 (h : UInt32) : UInt32 :=
  let h := (h ^^^ (h >>> 15)) * prime32₂
  let h := (h ^^^ (h >>> 13)) * prime32₃
  h ^^^ (h >>> 16)

def avalanche64 (h : UInt64) : UInt64 :=
  let h := (h ^^^ (h >>> 33)) * prime64₂
  let h := (h ^^^ (h >>> 29)) * prime64₃
  h ^^^ (h >>> 32)

def finish32 (h : UInt32) (p : List UInt8) : UInt32 :=
  let r := drain 4 (fun h p => rotl32 (h + readLE32 p * prime32₃) 17 * prime32₄) p.length h p
  avalanche32 (r.2.foldl (fun h b => rotl32 (h + b.toUInt32 * prime32₅) 11 * prime32₁) r.1)

def finish64 (h : UInt64) (p : List UInt8) : UInt64 :=
  let r := drain 8 (fun h p => rotl64 (h ^^^ xxh64Round 0 (readLE64 p)) 27 * prime64₁ + prime64₄)
    p.length h p
  let r := if 4 ≤ r.2.length then
    (rotl64 (r.1 ^^^ (readLE32 r.2).toUInt64 * prime64₁) 23 * prime64₂ + prime64₃, r.2.drop 4)
    else r
  avalanche64 (r.2.foldl (fun h b => rotl64 (h ^^^ b.toUInt64 * prime64₅) 11 * prime64₁) r.1)

theorem sixteen_pos : 0 < 16 := by decide

def xxh32 : Width UInt32 where
  size := 16
  size_pos := sixteen_pos
  lanes seed := ⟨seed + prime32₁ + prime32₂, seed + prime32₂, seed + 0, seed - prime32₁⟩
  stripe v p := ⟨xxh32Round v.v1 (readLE32 p), xxh32Round v.v2 (readLE32 (p.drop 4)),
    xxh32Round v.v3 (readLE32 (p.drop 8)), xxh32Round v.v4 (readLE32 (p.drop 12))⟩
  merge v := rotl32 v.v1 1 + rotl32 v.v2 7 + rotl32 v.v3 12 + rotl32 v.v4 18
  short seed := seed + prime32₅
  add_len h len := h + UInt32.ofNat len
  finish := finish32

def xxh64 : Width UInt64 where
  size := 32
  size_pos := by decide
  lanes seed := ⟨seed + prime64₁ + prime64₂, seed + prime64₂, seed + 0, seed - prime64₁⟩
  stripe v p := ⟨xxh64Round v.v1 (readLE64 p), xxh64Round v.v2 (readLE64 (p.drop 8)),
    xxh64Round v.v3 (readLE64 (p.drop 16)), xxh64Round v.v4 (readLE64 (p.drop 24))⟩
  merge v :=
    let h := rotl64 v.v1 1 + rotl64 v.v2 7 + rotl64 v.v3 12 + rotl64 v.v4 18
    xxh64MergeRound (xxh64MergeRound (xxh64MergeRound (xxh64MergeRound h v.v1) v.v2) v.v3) v.v4
  short seed := seed + prime64₅
  add_len h len := h + UInt64.ofNat len
  finish := finish64

def XXH32 (input : List UInt8) (seed : UInt32) : UInt32 := endianAlign xxh32 input seed

def XXH64 (input : List UInt8) (seed : UInt64) : UInt64 := endianAlign xxh64 input seed

def xxh32Reset := reset xxh32

def xxh64Reset := reset xxh64

def xxh32Update := updateEndian xxh32

def xxh64Update := updateEndian xxh64

def xxh32Digest := digestEndian xxh32

def xxh64Digest := digestEndian xxh64

def xxh32CanonicalFromHash (hash : UInt32) : List UInt8 := Encdec.encBEu32 hash.toUInt64

def xxh64CanonicalFromHash (hash : UInt64) : List UInt8 := Encdec.encBEu64 hash

def xxh32HashFromCanonical (src : List UInt8) : UInt32 := (Encdec.decBEu32 src).toUInt32

def xxh64HashFromCanonical (src : List UInt8) : UInt64 := Encdec.decBEu64 src

section
variable {W : Type} {d : Width W} {st : State W} {seed : W} {xs : List UInt8}

theorem take_memcpy {mem : List UInt8} {i : Nat} (hi : i ≤ mem.length) (src : List UInt8) :
    (memcpy mem i src).take (i + src.length) = mem.take i ++ src := by
  apply take_left'
  rw [length_append, length_take_of_le hi]

theorem length_memcpy {mem src : List UInt8} {i : Nat} (h : i + src.length ≤ mem.length) :
    (memcpy mem i src).length = mem.length := by
  rw [memcpy, length_append, length_append, length_take_of_le (by omega), length_drop]
  omega

theorem memcpy_block {mem rest input : List UInt8} {i n : Nat} (hmem : mem.take i = rest)
    (hi : i = rest.length) (hn : mem.length = n) (hle : n ≤ i + input.length) :
    memcpy mem i (input.take (n - i)) = (rest ++ input).take n := by
  have hrest : rest.length ≤ n := by
    rw [← hmem, ← hn]
    exact length_take_le' _ _
  have hcut : (input.take (n - i)).length = n - i := length_take_of_le (by omega)
  rw [memcpy, hmem, hcut, drop_eq_nil_of_le (by omega), append_nil, take_append,
    take_of_length_le hrest, hi]

structure Absorbed (d : Width W) (seed : W) (xs : List UInt8) (st : State W) : Prop where
  totalLen : st.totalLen = xs.length % 2 ^ 64
  seed_eq : st.seed = seed
  v : st.v = (absorb d.size d.stripe (d.lanes seed) xs).1
  memsize : st.memsize = (absorb d.size d.stripe (d.lanes seed) xs).2.length
  mem : st.mem.take st.memsize = (absorb d.size d.stripe (d.lanes seed) xs).2
  room : st.mem.length = d.size

theorem absorbed_reset (d : Width W) (seed : W) : Absorbed d seed [] (reset d seed) :=
  ⟨rfl, rfl, rfl, rfl, rfl, length_replicate⟩

theorem updateRest_spec (d : Width W) (st : State W) (hmem : st.mem.length = d.size)
    (hsize : st.memsize = 0) (p : List UInt8) :
    (updateRest d st p).totalLen = st.totalLen ∧ (updateRest d st p).seed = st.seed ∧
      (updateRest d st p).v = (absorb d.size d.stripe st.v p).1 ∧
      (updateRest d st p).memsize = (absorb d.size d.stripe st.v p).2.length ∧
      (updateRest d st p).mem.take (updateRest d st p).memsize =
        (absorb d.size d.stripe st.v p).2 ∧
      (updateRest d st p).mem.length = d.size := by
  have hlen := length_absorb d.size_pos (f := d.stripe) st.v p
  rw [updateRest]
  rw [show drain d.size d.stripe p.length st.v p = absorb d.size d.stripe st.v p from rfl]
  split
  · have htake := take_memcpy (Nat.zero_le st.mem.length) (absorb d.size d.stripe st.v p).2
    rw [Nat.zero_add, take_zero, nil_append] at htake
    have hroom : 0 + (absorb d.size d.stripe st.v p).2.length ≤ st.mem.length := by omega
    exact ⟨rfl, rfl, rfl, rfl, htake, (length_memcpy hroom).trans hmem⟩
  · next hnil =>
    have hnil' : (absorb d.size d.stripe st.v p).2 = [] :=
      length_eq_zero_iff.mp (Nat.eq_zero_of_not_pos hnil)
    refine ⟨rfl, rfl, rfl, ?_, ?_, hmem⟩
    · rw [hnil']
      exact hsize
    · rw [hnil']
      change st.mem.take st.memsize = []
      rw [hsize, take_zero]

theorem Absorbed.update (h : Absorbed d seed xs st) (input : List UInt8) :
    Absorbed d seed (xs ++ input) (updateEndian d st input) := by
  have hrest := length_absorb d.size_pos (f := d.stripe) (d.lanes seed) xs
  have happ := absorb_append d.size_pos (f := d.stripe) (d.lanes seed) xs input
  have hv := h.v
  have hmemsize := h.memsize
  have hmem := h.mem
  have hroom := h.room
  have htotal : (st.totalLen + input.length) % 2 ^ 64 = (xs ++ input).length % 2 ^ 64 := by
    rw [h.totalLen, length_append, Nat.mod_add_mod]
  generalize absorb d.size d.stripe (d.lanes seed) xs = r at hrest happ hv hmemsize hmem
  rw [updateEndian]
  split
  · next hshort =>
    change st.memsize + input.length < d.size at hshort
    -- the buffer takes all of it
    have hlt : (r.2 ++ input).length < d.size := by rw [length_append, ← hmemsize]; exact hshort
    have hle : st.memsize ≤ st.mem.length := by omega
    have hinto : st.memsize + input.length ≤ st.mem.length := by omega
    rw [absorb_short hlt] at happ
    refine ⟨htotal, h.seed_eq, hv.trans ?_, ?_, ?_, ?_⟩
    · rw [happ]
    · rw [happ, length_append, ← hmemsize]
    · rw [happ, ← hmem]
      exact take_memcpy hle input
    · exact (length_memcpy hinto).trans hroom
  · next hfull =>
    change ¬ st.memsize + input.length < d.size at hfull
    split
    · next hpos =>
      change 0 < st.memsize at hpos
      have hle : d.size ≤ (r.2 ++ input).length := by rw [length_append, ← hmemsize]; omega
      have hblock := memcpy_block hmem hmemsize hroom
        (show d.size ≤ st.memsize + input.length by omega)
      have hdrop : (r.2 ++ input).drop d.size = input.drop (d.size - st.memsize) := by
        rw [drop_append, ← hmemsize, drop_eq_nil_of_le (by omega), nil_append]
      rw [absorb_step d.size_pos hle, hdrop, ← hblock, ← hv] at happ
      have hspec := updateRest_spec d { st with
        totalLen := (st.totalLen + input.length) % 2 ^ 64
        v := d.stripe st.v (memcpy st.mem st.memsize (input.take (d.size - st.memsize)))
        mem := memcpy st.mem st.memsize (input.take (d.size - st.memsize))
        memsize := 0 } (by rw [hblock, length_take_of_le hle]) rfl
        (input.drop (d.size - st.memsize))
      rw [← happ] at hspec
      obtain ⟨htotal', hseed, hv', hsize, hmem', hroom'⟩ := hspec
      exact ⟨htotal'.trans htotal, hseed.trans h.seed_eq, hv', hsize, hmem', hroom'⟩
    · next hzero =>
      have hsize : st.memsize = 0 := Nat.eq_zero_of_not_pos hzero
      have hnil : r.2 = [] := length_eq_zero_iff.mp (hmemsize.symm.trans hsize)
      rw [hnil, nil_append, ← hv] at happ
      have hspec := updateRest_spec d { st with
        totalLen := (st.totalLen + input.length) % 2 ^ 64 } hroom hsize input
      rw [← happ] at hspec
      obtain ⟨htotal', hseed, hv', hsize', hmem', hroom'⟩ := hspec
      exact ⟨htotal'.trans htotal, hseed.trans h.seed_eq, hv', hsize', hmem', hroom'⟩

theorem absorbed_updates (d : Width W) (seed : W) (chunks : List (List UInt8)) :
    Absorbed d seed chunks.flatten (chunks.foldl (updateEndian d) (reset d seed)) := by
  induction chunks using reverseRecOn with
  | nil => exact absorbed_reset d seed
  | append_singleton chunks chunk ih =>
    rw [foldl_append, flatten_append, flatten_singleton]
    exact ih.update chunk

theorem Absorbed.digest (h : Absorbed d seed xs st) (hlen : xs.length < 2 ^ 64) :
    digestEndian d st = endianAlign d xs seed := by
  rw [digestEndian, endianAlign, h.mem, h.totalLen, Nat.mod_eq_of_lt hlen, h.v, h.seed_eq]
  by_cases hle : d.size ≤ xs.length
  · rw [if_pos hle, if_pos hle]
    rfl
  · rw [if_neg hle, if_neg hle, absorb_short (Nat.lt_of_not_le hle)]

end

/-- However a text is cut into pieces, what they give is the hash of the text. -/
theorem digest_of_updates (chunks : List (List UInt8)) (h : chunks.flatten.length < 2 ^ 64) :
    (∀ seed, xxh32Digest (chunks.foldl xxh32Update (xxh32Reset seed)) =
      XXH32 chunks.flatten seed) ∧
    ∀ seed, xxh64Digest (chunks.foldl xxh64Update (xxh64Reset seed)) =
      XXH64 chunks.flatten seed :=
  ⟨fun seed => (absorbed_updates xxh32 seed chunks).digest h,
    fun seed => (absorbed_updates xxh64 seed chunks).digest h⟩

theorem digest_of_updates_three :
    xxh32Digest (xxh32Update (xxh32Update (xxh32Update (xxh32Reset 7) (replicate 10 1))
        (replicate 30 2)) [3]) = XXH32 (replicate 10 1 ++ (replicate 30 2 ++ [3])) 7 ∧
      xxh64Digest (xxh64Update (xxh64Update (xxh64Update (xxh64Reset 7) (replicate 10 1))
        (replicate 30 2)) [3]) = XXH64 (replicate 10 1 ++ (replicate 30 2 ++ [3])) 7 :=
  have hall := digest_of_updates [replicate 10 1, replicate 30 2, [3]] (by decide)
  ⟨hall.1 7, hall.2 7⟩

theorem hashFromCanonical32 (hash : UInt32) :
    xxh32HashFromCanonical (xxh32CanonicalFromHash hash) = hash := by
  have hlt : hash.toNat < 256 ^ 4 := hash.toNat_lt
  have hlen : (Encdec.encBE 4 hash.toUInt64).length ≤ 4 := (Encdec.length_encBE 4 _).le
  rw [xxh32HashFromCanonical, xxh32CanonicalFromHash, Encdec.decBEu32, Encdec.encBEu32,
    take_of_length_le hlen, Encdec.decBE_encBE (by decide), Encdec.trunc, UInt32.toNat_toUInt64,
    Nat.mod_eq_of_lt hlt, ← UInt32.toNat_inj, UInt64.toNat_toUInt32,
    UInt64.toNat_ofNat_of_lt' (hlt.trans (by decide)), Nat.mod_eq_of_lt hash.toNat_lt]

theorem hashFromCanonical64 (hash : UInt64) :
    xxh64HashFromCanonical (xxh64CanonicalFromHash hash) = hash := by
  have hlt : hash.toNat < 256 ^ 8 := hash.toNat_lt
  have hlen : (Encdec.encBE 8 hash).length ≤ 8 := (Encdec.length_encBE 8 _).le
  rw [xxh64HashFromCanonical, xxh64CanonicalFromHash, Encdec.decBEu64, Encdec.encBEu64,
    take_of_length_le hlen, Encdec.decBE_encBE (by decide), Encdec.trunc,
    Nat.mod_eq_of_lt hlt, UInt64.ofNat_toNat]

end PortableLib.Xxhash
