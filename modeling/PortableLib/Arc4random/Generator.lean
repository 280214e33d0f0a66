import PortableLib.Arc4random.Chacha

/-! The generator of `arc4random.c`. Its buffer holds keystream at the end and zeros where it has
been delivered or has become the next key. -/

namespace PortableLib.Arc4random
open List

def arc4rKeysz : Nat := 32

def arc4rIvsz : Nat := 8

def arc4rRsbufsz : Nat := 16 * 64

def rekeyBase : Nat := 1024

/-- What `getentropy` gives. -/
abbrev Seed := { s : List UInt8 // s.length = 40 }

structure RandState where
  rsHave : Nat
  rsCount : Nat
  rsPid : Int
  rsChacha : Ctx
  rsBuf : List UInt8

def RandState.new : RandState :=
  ⟨0, 0, -1, Vector.replicate 16 0, replicate arc4rRsbufsz 0⟩

structure Thread where
  rs : RandState
  calls : Nat

def rsInit (st : RandState) (buf : List UInt8) : RandState :=
  { st with
    rsChacha := chachaIvsetup (chachaKeysetup st.rsChacha buf (arc4rKeysz * 8))
      (buf.drop arc4rKeysz) }

/-- `st->rs_buf[i] ^= dat[i]`, as far as `dat` goes. -/
def mix : List UInt8 → List UInt8 → List UInt8
  | b :: bs, d :: ds => (b ^^^ d) :: mix bs ds
  | bs, _ => bs

def rsRekey (st : RandState) (dat : List UInt8) : Option RandState := do
  let (ks, ctx) ← chachaEncryptBytes st.rsChacha arc4rRsbufsz
  let buf := mix ks (dat.take (arc4rKeysz + arc4rIvsz))
  let st := rsInit { st with rsChacha := ctx } (buf.take (arc4rKeysz + arc4rIvsz))
  return { st with
    rsBuf := replicate (arc4rKeysz + arc4rIvsz) 0 ++ buf.drop (arc4rKeysz + arc4rIvsz)
    rsHave := arc4rRsbufsz - arc4rKeysz - arc4rIvsz }

def rsStir (entropy : Nat → Seed) (w : Thread) : Option Thread := do
  let st ← rsRekey w.rs (entropy w.calls).val
  let (fuzz, ctx) ← chachaEncryptBytes st.rsChacha 8
  let rekey_fuzz := (Encdec.decLE fuzz).toNat
  return ⟨{ st with
    rsHave := 0, rsBuf := replicate arc4rRsbufsz 0, rsChacha := ctx
    rsCount := rekeyBase + rekey_fuzz % rekeyBase }, w.calls + 1⟩

def rsStirIfNeeded (entropy : Nat → Seed) (w : Thread) (len : Nat) : Option Thread := do
  let w ← if w.rs.rsCount ≤ len then rsStir entropy w else some w
  -- an unsigned 64-bit difference
  return { w with rs := { w.rs with rsCount := (w.rs.rsCount + (2 ^ 64 - len)) % 2 ^ 64 } }

def rsConsume (rs : RandState) (n : Nat) : List UInt8 × RandState :=
  let m := min n rs.rsHave
  let ks := arc4rRsbufsz - rs.rsHave
  ((rs.rsBuf.drop ks).take m, { rs with
    rsBuf := rs.rsBuf.take ks ++ replicate m 0 ++ rs.rsBuf.drop (ks + m)
    rsHave := rs.rsHave - m })

def fill : Nat → Nat → RandState → Option (List UInt8 × RandState)
  | 0, _, _ => none
  | fuel + 1, n, rs =>
    if n = 0 then some ([], rs)
    else if 0 < rs.rsHave then
      let (out, rs) := rsConsume rs n
      (fill fuel (n - out.length) rs).map fun r => (out ++ r.1, r.2)
    else (rsRekey rs []).bind (fill fuel n)

def rsRandomBuf (entropy : Nat → Seed) (w : Thread) (n : Nat) :
    Option (List UInt8 × Thread) := do
  let w ← rsStirIfNeeded entropy w n
  let (out, rs) ← fill (2 * n + 1) n w.rs
  return (out, { w with rs := rs })

def rsSetup (entropy : Nat → Seed) (w : Thread) : Option Thread := do
  let rs ← rsRekey (rsInit w.rs (entropy w.calls).val) []
  return ⟨rs, w.calls + 1⟩

def sget (entropy : Nat → Seed) (pid : Int) (w : Thread) : Option Thread :=
  if w.rs.rsCount = 0 ∨ pid ≠ w.rs.rsPid then
    (rsSetup entropy w).map fun w => { w with rs := { w.rs with rsPid := pid } }
  else some w

def arc4randomBuf (entropy : Nat → Seed) (w : Thread) (i : Int × Nat) :
    Option (Thread × List UInt8) := do
  let w ← sget entropy i.1 w
  let (out, w) ← rsRandomBuf entropy w i.2
  return (w, out)

end PortableLib.Arc4random
