import Mathlib.Logic.Function.Iterate
import PortableLib.Encdec

/-! The stream cipher of `chacha_private.h`, compiled with `KEYSTREAM_ONLY`: it writes the keystream
itself, a block of 64 bytes for each value of a 64-bit counter that is held in two words. -/

namespace PortableLib.Arc4random

abbrev Ctx := Vector UInt32 16

open List Encdec

def Ctx.put (x : Ctx) (i : Fin 16) (v : UInt32) : Ctx := x.setIfInBounds i.val v

theorem Ctx.get_put_self (x : Ctx) (i : Fin 16) (v : UInt32) : (x.put i v).get i = v :=
  Vector.getElem_setIfInBounds_self i.isLt

theorem Ctx.get_put_of_ne (x : Ctx) {i k : Fin 16} (v : UInt32) (h : k ≠ i) :
    (x.put i v).get k = x.get k :=
  Vector.getElem_setIfInBounds_ne k.isLt fun heq => h (Fin.ext heq.symm)

/-- `U8TO32_LITTLE(p + i)` -/
def load32 (p : List UInt8) (i : Nat) : UInt32 := (decLE ((p.drop i).take 4)).toUInt32

/-- `U32TO8_LITTLE` -/
def store32 (v : UInt32) : List UInt8 := encLE 4 v.toUInt64

def ROTATE (v : UInt32) (n : UInt32) : UInt32 := v <<< n ||| v >>> (32 - n)

def QUARTERROUND (a b c d : Fin 16) (x : Ctx) : Ctx :=
  let x := x.put a (x.get a + x.get b)
  let x := x.put d (ROTATE (x.get d ^^^ x.get a) 16)
  let x := x.put c (x.get c + x.get d)
  let x := x.put b (ROTATE (x.get b ^^^ x.get c) 12)
  let x := x.put a (x.get a + x.get b)
  let x := x.put d (ROTATE (x.get d ^^^ x.get a) 8)
  let x := x.put c (x.get c + x.get d)
  x.put b (ROTATE (x.get b ^^^ x.get c) 7)

def doubleRound (x : Ctx) : Ctx :=
  let x := QUARTERROUND 0 4 8 12 x
  let x := QUARTERROUND 1 5 9 13 x
  let x := QUARTERROUND 2 6 10 14 x
  let x := QUARTERROUND 3 7 11 15 x
  let x := QUARTERROUND 0 5 10 15 x
  let x := QUARTERROUND 1 6 11 12 x
  let x := QUARTERROUND 2 7 8 13 x
  QUARTERROUND 3 4 9 14 x

def block (j : Ctx) : List UInt8 :=
  ((doubleRound^[10] j).zipWith (· + ·) j).toList.flatMap store32

/-- `"expand 32-byte k"` -/
def sigma : List UInt8 :=
  [0x65, 0x78, 0x70, 0x61, 0x6e, 0x64, 0x20, 0x33, 0x32, 0x2d, 0x62, 0x79, 0x74, 0x65, 0x20, 0x6b]

/-- `"expand 16-byte k"` -/
def tau : List UInt8 :=
  [0x65, 0x78, 0x70, 0x61, 0x6e, 0x64, 0x20, 0x31, 0x36, 0x2d, 0x62, 0x79, 0x74, 0x65, 0x20, 0x6b]

def chachaKeysetup (x : Ctx) (k : List UInt8) (kbits : Nat) : Ctx := Vector.ofFn fun i =>
  let constants := if kbits = 256 then sigma else tau
  let k' := if kbits = 256 then k.drop 16 else k
  if i < 4 then load32 constants (4 * i)
  else if i < 8 then load32 k (4 * (i - 4))
  else if i < 12 then load32 k' (4 * (i - 8))
  else x.get i

def chachaIvsetup (x : Ctx) (iv : List UInt8) : Ctx := Vector.ofFn fun i =>
  if i < 12 then x.get i
  else if i < 14 then 0
  else load32 iv (4 * (i - 14))

def bump (j : Ctx) : Ctx :=
  let j := j.put 12 (j.get 12 + 1)
  if j.get 12 = 0 then j.put 13 (j.get 13 + 1) else j

def encryptLoop : Nat → Ctx → Nat → Option (List UInt8 × Ctx)
  | 0, _, _ => none
  | fuel + 1, j, bytes =>
    if bytes ≤ 64 then some ((block j).take bytes, bump j)
    else (encryptLoop fuel (bump j) (bytes - 64)).map fun r => (block j ++ r.1, r.2)

def chachaEncryptBytes (x : Ctx) (bytes : Nat) : Option (List UInt8 × Ctx) :=
  if bytes = 0 then some ([], x) else encryptLoop bytes x bytes

def counter (x : Ctx) : Nat := (x.get 12).toNat + 2 ^ 32 * (x.get 13).toNat

theorem counter_lt (x : Ctx) : counter x < 2 ^ 64 := by
  have h12 := (x.get 12).toNat_lt
  have h13 := (x.get 13).toNat_lt
  rw [counter]
  omega

theorem get_bump_other {x : Ctx} {i : Fin 16} (h12 : i ≠ 12) (h13 : i ≠ 13) :
    (bump x).get i = x.get i := by
  simp only [bump]
  split
  · rw [Ctx.get_put_of_ne _ _ h13, Ctx.get_put_of_ne _ _ h12]
  · rw [Ctx.get_put_of_ne _ _ h12]

theorem toNat_succ (v : UInt32) : (v + 1).toNat = (v.toNat + 1) % 2 ^ 32 := by
  rw [UInt32.toNat_add]
  rfl

theorem counter_bump (x : Ctx) : counter (bump x) = (counter x + 1) % 2 ^ 64 := by
  have h12 := (x.get 12).toNat_lt
  have h13 := (x.get 13).toNat_lt
  have hne : (13 : Fin 16) ≠ 12 := by decide
  have hzero : x.get 12 + 1 = 0 ↔ ((x.get 12).toNat + 1) % 2 ^ 32 = 0 := by
    rw [← UInt32.toNat_inj, toNat_succ]
    rfl
  simp only [bump, Ctx.get_put_self, Ctx.get_put_of_ne _ _ hne, counter, hzero]
  split
  · next hwrap =>
    rw [Ctx.get_put_self, Ctx.get_put_of_ne _ _ hne.symm, Ctx.get_put_self, toNat_succ, toNat_succ]
    omega
  · next hwrap =>
    rw [Ctx.get_put_self, Ctx.get_put_of_ne _ _ hne, toNat_succ]
    omega

theorem length_store32 (v : UInt32) : (store32 v).length = 4 := length_encLE 4 _

theorem length_block (j : Ctx) : (block j).length = 64 := by
  rw [block, length_flatMap]
  simp only [length_store32, map_const', Vector.length_toList]
  rfl

def blocks (x : Ctx) (n : Nat) : List UInt8 := (range n).flatMap fun i => block (bump^[i] x)

theorem blocks_succ (x : Ctx) (n : Nat) : blocks x (n + 1) = block x ++ blocks (bump x) n := by
  rw [blocks, range_succ_eq_map, flatMap_cons, flatMap_map]
  rfl

theorem length_blocks (x : Ctx) (n : Nat) : (blocks x n).length = 64 * n := by
  induction n generalizing x with
  | zero => rfl
  | succ n ih =>
    rw [blocks_succ, length_append, length_block, ih]
    omega

theorem encryptLoop_eq {fuel n : Nat} {x : Ctx} (hn : 0 < n) (hfuel : n ≤ 64 * fuel) :
    encryptLoop fuel x n =
      some ((blocks x ((n + 63) / 64)).take n, bump^[(n + 63) / 64] x) := by
  induction fuel generalizing x n with
  | zero => omega
  | succ fuel ih =>
    rw [encryptLoop]
    by_cases hle : n ≤ 64
    · have hone : (n + 63) / 64 = 1 := by omega
      rw [if_pos hle, hone, blocks_succ]
      change some ((block x).take n, _) = some ((block x ++ []).take n, _)
      rw [append_nil]
      rfl
    · have hstep : (n + 63) / 64 = (n - 64 + 63) / 64 + 1 := by omega
      have hfirst : (block x).take n = block x := by
        apply take_of_length_le
        rw [length_block]
        omega
      rw [if_neg hle, ih (by omega) (by omega), hstep, blocks_succ, Option.map_some, take_append,
        length_block, hfirst, Function.iterate_succ_apply]

/-- `n` bytes are those of the blocks from the counter of `x` on, which is then behind the last one
that was begun; it is carried from one word to the next, and the other words stay. -/
theorem chacha_keystream (x : Ctx) (n : Nat) :
    ∃ x', chachaEncryptBytes x n = some ((blocks x ((n + 63) / 64)).take n, x') ∧
      counter x' = (counter x + (n + 63) / 64) % 2 ^ 64 ∧
      ∀ i, i ≠ 12 → i ≠ 13 → x'.get i = x.get i := by
  have hcounter : ∀ k, counter (bump^[k] x) = (counter x + k) % 2 ^ 64 := by
    intro k
    induction k with
    | zero => exact (Nat.mod_eq_of_lt (counter_lt x)).symm
    | succ k ih =>
      rw [Function.iterate_succ_apply', counter_bump, ih, Nat.mod_add_mod, Nat.add_assoc]
  have hother : ∀ k i, i ≠ 12 → i ≠ 13 → (bump^[k] x).get i = x.get i := by
    intro k i h12 h13
    induction k with
    | zero => rfl
    | succ k ih => rw [Function.iterate_succ_apply', get_bump_other h12 h13, ih]
  refine ⟨bump^[(n + 63) / 64] x, ?_, hcounter _, hother _⟩
  rw [chachaEncryptBytes]
  split
  · next hzero =>
    subst hzero
    rfl
  · next hzero => exact encryptLoop_eq (Nat.pos_of_ne_zero hzero) (by omega)

end PortableLib.Arc4random
