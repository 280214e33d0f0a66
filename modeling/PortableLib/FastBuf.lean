import PortableLib.Vectors

/-! The byte buffer of `fast/buf.h`. Sizes are `size_t`, bytes are written through a checked block,
and allocations succeed. `RENEW`, which `new.h` does not have, is `RENEWA`. -/

namespace PortableLib.FastBuf

/-- A `fast_buf`. -/
structure Buf where
  buf : Block UInt8
  size : UInt64
  cap : UInt64

/-- `fast_buf_init`; `junk` is what `malloc` leaves in the block. -/
def fastBufInit (junk : Nat → UInt8) (sz : UInt64) : Buf :=
  let sz := if sz = 0 then 128 else sz
  { buf := ⟨sz.toNat, junk⟩, size := 0, cap := sz }

def fastBufReserve (junk : Nat → UInt8) (b : Buf) (want : UInt64) : Option Buf :=
  if want ≥ b.cap then do
    let cap ← Vectors.grow 64 b.cap want
    return { b with cap := cap, buf := b.buf.realloc cap.toNat junk }
  else some b

def fastBufGrow (junk : Nat → UInt8) (b : Buf) (n : UInt64) : Option Buf :=
  fastBufReserve junk b (b.size + n)

def fastBufAppendBuf (junk : Nat → UInt8) (b : Buf) (buf : Block UInt8) (n : UInt64) :
    Option Buf := do
  let b ← fastBufGrow junk b n
  let bytes ← b.buf.copy b.size.toNat buf n.toNat
  return { b with buf := bytes, size := b.size + n }

def fastBufAppendByte (junk : Nat → UInt8) (b : Buf) (c : UInt8) : Option Buf := do
  let b ← fastBufGrow junk b 1
  let bytes ← b.buf.write b.size.toNat c
  return { b with buf := bytes, size := b.size + 1 }

def fastBufReset (b : Buf) : Buf := { b with size := 0 }

def fastBufAdvance (b : Buf) (n : UInt64) : Buf := { b with size := b.size + n }

inductive Op
  | reserve (want : UInt64)
  | grow (n : UInt64)
  | appendBuf (buf : Block UInt8) (n : UInt64)
  | appendByte (c : UInt8)
  | reset
  | advance (n : UInt64)

/-- A call together with what a `realloc` in it would leave in the new part of the block. -/
structure Call where
  op : Op
  junk : Nat → UInt8

def step (b : Buf) (c : Call) : Option (Buf × Unit) :=
  match c.op with
  | .reserve want => (fastBufReserve c.junk b want).map fun b => (b, ())
  | .grow n => (fastBufGrow c.junk b n).map fun b => (b, ())
  | .appendBuf buf n => (fastBufAppendBuf c.junk b buf n).map fun b => (b, ())
  | .appendByte x => (fastBufAppendByte c.junk b x).map fun b => (b, ())
  | .reset => some (fastBufReset b, ())
  | .advance n => some (fastBufAdvance b n, ())

theorem fastBufInit_cap (junk : Nat → UInt8) (sz : UInt64) : 0 < (fastBufInit junk sz).cap := by
  change 0 < if sz = 0 then 128 else sz
  by_cases hsz : sz = 0
  · rw [if_pos hsz]
    decide
  · rw [if_neg hsz]
    exact UInt64.pos_iff_ne_zero.mpr hsz

theorem reservedCap_of_fastBufReserve {junk : Nat → UInt8} {b b' : Buf} {want : UInt64}
    (h : fastBufReserve junk b want = some b') :
    Vectors.reservedCap 64 b.cap want = some b'.cap := by
  by_cases hge : want ≥ b.cap
  · simp only [fastBufReserve, if_pos hge, Option.bind_eq_bind, Option.bind_eq_some_iff] at h
    obtain ⟨n, hn, hb⟩ := h
    obtain rfl := Option.some.inj hb
    exact (if_pos hge).trans hn
  · obtain rfl := Option.some.inj ((if_neg hge).symm.trans h)
    exact if_neg hge

theorem step_cap {b : Buf} {c : Call} {p : Buf × Unit} (hb : 0 < b.cap)
    (h : step b c = some p) : 0 < p.1.cap := by
  obtain ⟨op, junk⟩ := c
  have hreserve : ∀ {want b'}, fastBufReserve junk b want = some b' → 0 < b'.cap :=
    fun h => Vectors.reservedCap_pos hb (reservedCap_of_fastBufReserve h)
  cases op with
  | reserve want =>
    obtain ⟨b', hb', rfl⟩ := Option.map_eq_some_iff.mp h
    exact hreserve hb'
  | grow n =>
    obtain ⟨b', hb', rfl⟩ := Option.map_eq_some_iff.mp h
    exact hreserve hb'
  | appendBuf buf n =>
    obtain ⟨b', hb', rfl⟩ := Option.map_eq_some_iff.mp h
    simp only [fastBufAppendBuf, Option.bind_eq_bind, Option.bind_eq_some_iff] at hb'
    obtain ⟨b₁, h₁, bytes, -, h₂⟩ := hb'
    obtain rfl := Option.some.inj h₂
    exact @hreserve _ b₁ h₁
  | appendByte x =>
    obtain ⟨b', hb', rfl⟩ := Option.map_eq_some_iff.mp h
    simp only [fastBufAppendByte, Option.bind_eq_bind, Option.bind_eq_some_iff] at hb'
    obtain ⟨b₁, h₁, bytes, -, h₂⟩ := hb'
    obtain rfl := Option.some.inj h₂
    exact @hreserve _ b₁ h₁
  | reset =>
    obtain rfl := Option.some.inj h
    exact hb
  | advance n =>
    obtain rfl := Option.some.inj h
    exact hb

theorem run_cap {junk : Nat → UInt8} {sz : UInt64} {calls : List Call} {q : Buf × List Unit}
    (h : Run.run step (fastBufInit junk sz) calls = some q) : 0 < q.1.cap :=
  Run.run_keeps (I := fun b => 0 < b.cap) (fun _ _ _ hb h => step_cap hb h)
    (fastBufInit_cap junk sz) h

end PortableLib.FastBuf
