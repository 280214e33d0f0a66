import Mathlib.Data.List.Basic
import Mathlib.Data.Fintype.Basic

/-! The fingerprint word of a bag: seven key bytes below a control byte whose set bits
mark free slots. Bit positions and masks are those of the macros in `fast-ht.c`. -/

namespace PortableLib.FastHt

/-- `__fp`: the seven fingerprint bytes. -/
def fpBytes (fp : UInt64) : UInt64 := fp &&& (((1 : UInt64) <<< 56) - 1)

def h2 (fp : UInt64) : UInt64 := fp &&& 0xff

def control (fp : UInt64) : UInt8 := ((0x7f : UInt64) &&& (fp >>> 56)).toUInt8

/-- The two builds of `__find_matches`. -/
inductive Matcher
  | software
  | simd
  deriving DecidableEq, Repr

def findMatchesSoftware (fpH2 : UInt64) (b : UInt8) : UInt8 :=
  let splat : UInt64 := 0x0101010101010101 * b.toUInt64
  let m := fpH2 ^^^ splat
  let x := ((m - 0x0101010101010101) &&& ~~~m) &&& 0x8080808080808080
  ((0x7f : UInt64) &&& ((x * 0x0002040810204081) >>> 56)).toUInt8

/-- Byte `i` of the low half of the vector built by `SIMD_SET_EPI64X(0, w)`. -/
def byteAt (w : UInt64) (i : Nat) : UInt8 := (w >>> (8 * i).toUInt64).toUInt8

/-- `0x7f & MOVEMASK(CMPEQ(w, splat b))`: bytes 7 to 15 of the vector are masked off. -/
def findMatchesSimd (fpH2 : UInt64) (b : UInt8) : UInt8 :=
  (List.range 7).foldl (fun acc i => if byteAt fpH2 i = b then acc ||| (1 <<< i.toUInt8) else acc) 0

def findMatches : Matcher → UInt64 → UInt8 → UInt8
  | .software => findMatchesSoftware
  | .simd => findMatchesSimd

def updateFp (fp k : UInt64) (slot : Fin 7) : UInt64 :=
  let ctrl : UInt8 := control fp &&& ~~~(1 <<< slot.val.toUInt8)
  let h : UInt64 := ((k &&& 0xff) <<< (8 * slot.val).toUInt64) ||| h2 fp
  h ||| (ctrl.toUInt64 <<< 56)

def clearFp (fp : UInt64) (slot : Fin 7) : UInt64 :=
  let ctrl : UInt8 := control fp ||| (1 <<< slot.val.toUInt8)
  let h : UInt64 := h2 fp &&& ~~~((0xff : UInt64) <<< (8 * slot.val).toUInt64)
  h ||| (ctrl.toUInt64 <<< 56)

def hashmix (h : UInt64) : UInt64 :=
  let h := h ^^^ (h >>> 23)
  let h := h * 0x2127599bf4325c37
  h ^^^ (h >>> 47)

def hash (hv n salt : UInt64) : UInt64 :=
  let hv := hv ^^^ (hashmix hv ^^^ salt)
  let hv := hv * 0x880355f21e6d1965
  (n - 1) &&& hv

/-- `__builtin_ctz` on a word whose set bits lie below bit 7; `none` for zero. -/
def ctz (p : Nat) : Option (Fin 7) := (List.finRange 7).find? fun i => p.testBit i

theorem hash_lt {n : UInt64} (hn : 0 < n.toNat) (k salt : UInt64) :
    (hash k n salt).toNat < n.toNat := by
  have h1 : (hash k n salt).toNat ≤ (n - 1).toNat := by
    simp only [hash, UInt64.toNat_and]
    exact Nat.and_le_left
  have h2 : (n - 1).toNat = n.toNat - 1 := by
    rw [UInt64.toNat_sub_of_le]
    · rfl
    · exact UInt64.le_iff_toNat_le.mpr hn
  omega

end PortableLib.FastHt
