import Mathlib.Algebra.Ring.Int.Defs
import Mathlib.Algebra.Ring.Nat
import Mathlib.Data.List.GetD
import PortableLib.Lib.Block

/-! Streaming compression through a fixed output buffer: `zbuf_c.c` over a model of zlib's
`deflate`. The compressor is a transducer of blocks of input; what it has produced and has not yet
stored in the output buffer is pending. -/

namespace PortableLib.ZBuf
open List

/-- `feed` is given the input that a call of `deflate` takes, `finish` is what follows the output
for all input, and `takes` how much input a call takes, from the state, the pending output, the
input and the room for output. A call only stops early when it has filled the output buffer. -/
structure Transducer (σ : Type) where
  start : σ
  feed : σ → List UInt8 → σ × List UInt8
  finish : σ → List UInt8
  takes : σ → List UInt8 → List UInt8 → Nat → Nat
  feed_nil : ∀ s, feed s [] = (s, [])
  greedy : ∀ s pending input room, input.length ≤ takes s pending input room ∨
    room ≤ (pending ++ (feed s (input.take (takes s pending input room))).2).length

namespace Transducer
variable {σ : Type} (T : Transducer σ)

def feedAll : σ → List (List UInt8) → σ × List UInt8
  | s, [] => (s, [])
  | s, c :: cs => ((feedAll (T.feed s c).1 cs).1, (T.feed s c).2 ++ (feedAll (T.feed s c).1 cs).2)

def output (cs : List (List UInt8)) : List UInt8 :=
  (T.feedAll T.start cs).2 ++ T.finish (T.feedAll T.start cs).1

theorem feedAll_append (s : σ) (cs ds : List (List UInt8)) :
    T.feedAll s (cs ++ ds) = ((T.feedAll (T.feedAll s cs).1 ds).1,
      (T.feedAll s cs).2 ++ (T.feedAll (T.feedAll s cs).1 ds).2) := by
  induction cs generalizing s with
  | nil => rfl
  | cons c cs ih => simp only [cons_append, feedAll, ih, append_assoc]

end Transducer

inductive Flush
  | noFlush
  | finish
  deriving DecidableEq

/-- `Z_OK`, `Z_STREAM_END`, `Z_MEM_ERROR` and `Z_BUF_ERROR`. -/
inductive Status
  | ok
  | streamEnd
  | memError
  | bufError
  deriving DecidableEq

/-- `z_buf_context` with its `z_stream`; `avail_in` is the length of the input, `outbuf_size` that
of the buffer, and `consumed` all that the callback has consumed. -/
structure Context (σ τ : Type) where
  outbuf : Block UInt8
  nextIn : List UInt8
  nextOut : Nat
  availOut : Nat
  state : σ
  pending : List UInt8
  finished : Bool
  opaq : τ
  consumed : List UInt8

variable {σ τ : Type}

/-- A number as an `int`. -/
def asInt (n : Int) : Int := n.bmod (2 ^ 32)

def bytes (buf : Block UInt8) : List UInt8 := (range buf.len).map buf.cells

def deflate (T : Transducer σ) (zs : Context σ τ) (flush : Flush) :
    Option (Status × Context σ τ) := do
  let k := T.takes zs.state zs.pending zs.nextIn zs.availOut
  let s := (T.feed zs.state (zs.nextIn.take k)).1
  let nextIn := zs.nextIn.drop k
  let ending := flush = .finish ∧ nextIn = []
  let pending := zs.pending ++ (T.feed zs.state (zs.nextIn.take k)).2 ++
    if ending ∧ zs.finished = false then T.finish s else []
  let out := pending.take zs.availOut
  let outbuf ← zs.outbuf.copy zs.nextOut ⟨out.length, fun i => out.getD i 0⟩ out.length
  let rest := pending.drop zs.availOut
  return (if ending ∧ rest = [] then .streamEnd else .ok,
    { zs with
      outbuf := outbuf, nextIn := nextIn, nextOut := zs.nextOut + out.length,
      availOut := zs.availOut - out.length, state := s, pending := rest,
      finished := zs.finished || decide ending })

/-- The callback is given `buf`, is told that `len` of its bytes are for it, and says how many it
has consumed. -/
def offer (processOutput : τ → List UInt8 → Int → Int × τ) (zc : Context σ τ) (buf : Block UInt8)
    (len : Int) : Option (Int × Context σ τ) :=
  let r := processOutput zc.opaq (bytes buf) len
  if len ≤ buf.len then
    some (r.1, { zc with opaq := r.2, consumed := zc.consumed ++ (bytes buf).take r.1.toNat })
  else none

/-- The part of the loop of `z_buf_compress` that makes room in a full buffer. -/
def makeRoom (processOutput : τ → List UInt8 → Int → Int × τ) (zc : Context σ τ) :
    Option (Status × Context σ τ) :=
  if zc.availOut = 0 then do
    let (used, zc) ← offer processOutput zc zc.outbuf (asInt zc.outbuf.len)
    let left := asInt (zc.outbuf.len - used)
    if used = 0 then return (.memError, zc)
    else if left > 0 then
      -- there is nothing to move in front of the buffer
      if used < 0 then none
      else
        let outbuf ← zc.outbuf.copy 0 (zc.outbuf.shift used.toNat) left.toNat
        return (.ok, { zc with
          outbuf := outbuf, nextOut := left.toNat, availOut := zc.outbuf.len - left.toNat })
    else return (.ok, { zc with nextOut := 0, availOut := zc.outbuf.len })
  else some (.ok, zc)

def compressLoop (T : Transducer σ) (processOutput : τ → List UInt8 → Int → Int × τ) :
    Nat → Context σ τ → Option (Status × Context σ τ)
  | 0, _ => none
  | fuel + 1, zc =>
    if zc.nextIn.length ≠ 0 then do
      let (err, zc) ← makeRoom processOutput zc
      if err ≠ .ok then return (err, zc)
      else
        let (err, zc) ← deflate T zc .noFlush
        if err ≠ .ok then return (err, zc)
        else compressLoop T processOutput fuel zc
    else some (.ok, zc)

def zBufCompress (T : Transducer σ) (processOutput : τ → List UInt8 → Int → Int × τ) (fuel : Nat)
    (zc : Context σ τ) (data : List UInt8) : Option (Status × Context σ τ) :=
  compressLoop T processOutput fuel (if data.length > 0 then { zc with nextIn := data } else zc)

def drainLoop (processOutput : τ → List UInt8 → Int → Int × τ) :
    Nat → Context σ τ → Block UInt8 → Nat → Option (Status × Context σ τ)
  | 0, _, _, _ => none
  | fuel + 1, zc, buf, rem =>
    if rem > 0 then do
      let (used, zc) ← offer processOutput zc buf (asInt rem)
      if used ≤ 0 then return (.memError, zc)
      else drainLoop processOutput fuel zc (buf.shift used.toNat) (rem - used.toNat)
    else some (.ok, zc)

def drain (processOutput : τ → List UInt8 → Int → Int × τ) (zc : Context σ τ) :
    Option (Status × Context σ τ) :=
  let len := zc.outbuf.len - zc.availOut
  if len > 0 then do
    let (err, zc) ← drainLoop processOutput (len + 1) zc zc.outbuf len
    if err ≠ .ok then return (err, zc)
    else return (.ok, { zc with nextOut := 0, availOut := zc.outbuf.len })
  else some (.ok, zc)

def endLoop (T : Transducer σ) (processOutput : τ → List UInt8 → Int → Int × τ) :
    Nat → Context σ τ → Bool → Option (Status × Context σ τ)
  | 0, _, _ => none
  | fuel + 1, zc, done => do
    let len := zc.outbuf.len - zc.availOut
    let (err, zc) ← drain processOutput zc
    if err ≠ .ok then return (err, zc)
    else if done then return (.ok, zc)
    else
      let (err, zc) ← deflate T zc .finish
      let err := if len = 0 ∧ err = .bufError then .ok else err
      let done := decide (zc.availOut ≠ 0 ∨ err = .streamEnd)
      if err ≠ .ok ∧ err ≠ .streamEnd then return (err, zc)
      else endLoop T processOutput fuel zc done

def zBufCompressEnd (T : Transducer σ) (processOutput : τ → List UInt8 → Int → Int × τ) (fuel : Nat)
    (zc : Context σ τ) : Option (Status × Context σ τ) := do
  let (err, zc) ← if zc.nextIn.length > 0 then zBufCompress T processOutput fuel zc []
    else some (.ok, zc)
  if err ≠ .ok then return (err, zc)
  else endLoop T processOutput fuel zc false

/-- `z_buf_context_init` and `z_buf_compress_init`, with what happens to be in the buffer. -/
def compressInit (T : Transducer σ) (size : UInt32) (junk : Nat → UInt8) (opaq : τ) :
    Context σ τ where
  outbuf := ⟨size.toNat, junk⟩
  nextIn := []
  nextOut := 0
  availOut := size.toNat
  state := T.start
  pending := []
  finished := false
  opaq := opaq
  consumed := []

/-- A call for each part of the data, and then `z_buf_compress_end`. -/
def compressAll (T : Transducer σ) (processOutput : τ → List UInt8 → Int → Int × τ) (fuel : Nat) :
    Context σ τ → List (List UInt8) → Option (Status × Context σ τ)
  | zc, [] => zBufCompressEnd T processOutput fuel zc
  | zc, data :: parts => do
    let (err, zc) ← zBufCompress T processOutput fuel zc data
    if err ≠ .ok then return (err, zc)
    else compressAll T processOutput fuel zc parts

/-- The callback consumes between 1 and all of the bytes that are for it, if any are. -/
structure Consumes (processOutput : τ → List UInt8 → Int → Int × τ) : Prop where
  int : ∀ opaq buf len, -2 ^ 31 ≤ (processOutput opaq buf len).1 ∧
    (processOutput opaq buf len).1 < 2 ^ 31
  pos : ∀ opaq buf len, 0 < len → len ≤ buf.length → len < 2 ^ 31 →
    0 < (processOutput opaq buf len).1
  le : ∀ opaq buf len, 0 < len → len ≤ buf.length → len < 2 ^ 31 →
    (processOutput opaq buf len).1 ≤ len

/-- With enough fuel the session ends with 0, and what the callback has consumed is the output for
the whole data, taken in some blocks. -/
def Delivers (T : Transducer σ) (processOutput : τ → List UInt8 → Int → Int × τ) (zc : Context σ τ)
    (parts : List (List UInt8)) : Prop :=
  ∃ zc' blocks fuel₀, (∀ fuel ≥ fuel₀,
      compressAll T processOutput fuel zc parts = some (.ok, zc')) ∧
    blocks.flatten = parts.flatten ∧ zc'.consumed = T.output blocks

/-! ## One step -/

variable {T : Transducer σ} {processOutput : τ → List UInt8 → Int → Int × τ} {zc : Context σ τ}
  {made : List UInt8}

def Context.held (zc : Context σ τ) : List UInt8 := (range zc.nextOut).map zc.outbuf.cells

/-- What was consumed, what is in the buffer and what is pending is the output so far: what was made
of the input, and the end of it once that has been asked for. -/
structure Inv (T : Transducer σ) (zc : Context σ τ) (made : List UInt8) : Prop where
  room : zc.nextOut + zc.availOut = zc.outbuf.len
  flow : zc.consumed ++ zc.held ++ zc.pending =
    made ++ if zc.finished then T.finish zc.state else []

theorem map_range_getD (l : List UInt8) : (range l.length).map (fun i => l.getD i 0) = l := by
  apply List.ext_getElem
  · rw [length_map, length_range]
  · intro i h₁ h₂
    rw [getElem_map, getElem_range, getD_eq_getElem l 0 h₂]

theorem copy_held (zc : Context σ τ) {out : List UInt8}
    (h : zc.nextOut + out.length ≤ zc.outbuf.len) :
    ∃ outbuf, zc.outbuf.copy zc.nextOut ⟨out.length, fun i => out.getD i 0⟩ out.length =
        some outbuf ∧ outbuf.len = zc.outbuf.len ∧
      (range (zc.nextOut + out.length)).map outbuf.cells = zc.held ++ out := by
  obtain ⟨outbuf, hcopy, hlen, hold, hnew⟩ := Block.copy_spec h
    (show out.length ≤ (⟨out.length, fun i => out.getD i 0⟩ : Block UInt8).len from Nat.le_refl _)
  refine ⟨outbuf, hcopy, hlen, ?_⟩
  rw [map_range_add hold hnew, map_range_getD]
  rfl

theorem Inv.copy_taken (h : Inv T zc made) {l out : List UInt8}
    (hout : l.take zc.availOut = out) :
    ∃ outbuf, zc.outbuf.copy zc.nextOut ⟨out.length, fun i => out.getD i 0⟩ out.length =
        some outbuf ∧ outbuf.len = zc.outbuf.len ∧
      (range (zc.nextOut + out.length)).map outbuf.cells = zc.held ++ out ∧
      zc.nextOut + out.length + (zc.availOut - out.length) = outbuf.len := by
  have hle : out.length ≤ zc.availOut := hout ▸ length_take_le _ _
  have hfits : zc.nextOut + out.length ≤ zc.outbuf.len := by
    rw [← h.room]
    exact Nat.add_le_add_left hle _
  obtain ⟨outbuf, hcopy, hlen, hheld⟩ := copy_held zc hfits
  refine ⟨outbuf, hcopy, hlen, hheld, ?_⟩
  rw [hlen, ← h.room, Nat.add_assoc, Nat.add_sub_cancel' hle]

theorem deflate_noFlush (h : Inv T zc made) (hfin : zc.finished = false)
    (hroom : 0 < zc.availOut) (hin : zc.nextIn ≠ []) :
    ∃ zc' c, deflate T zc .noFlush = some (.ok, zc') ∧
      Inv T zc' (made ++ (T.feed zc.state c).2) ∧ zc'.state = (T.feed zc.state c).1 ∧
      zc'.finished = false ∧ c ++ zc'.nextIn = zc.nextIn ∧ zc'.outbuf.len = zc.outbuf.len ∧
      (zc'.nextIn.length < zc.nextIn.length ∨
        zc'.nextIn = zc.nextIn ∧ zc'.pending.length < zc.pending.length) := by
  obtain ⟨k, hk⟩ : ∃ k, T.takes zc.state zc.pending zc.nextIn zc.availOut = k := ⟨_, rfl⟩
  have hgreedy := T.greedy zc.state zc.pending zc.nextIn zc.availOut
  rw [hk] at hgreedy
  obtain ⟨fed, hfed⟩ : ∃ fed, T.feed zc.state (zc.nextIn.take k) = fed := ⟨_, rfl⟩
  rw [hfed] at hgreedy
  obtain ⟨out, hout⟩ : ∃ out, (zc.pending ++ fed.2).take zc.availOut = out := ⟨_, rfl⟩
  have hsplit : out ++ (zc.pending ++ fed.2).drop zc.availOut = zc.pending ++ fed.2 := by
    rw [← hout]
    exact take_append_drop _ _
  obtain ⟨outbuf, hcopy, hlen, hheld, hroom'⟩ := h.copy_taken hout
  refine ⟨⟨outbuf, zc.nextIn.drop k, zc.nextOut + out.length, zc.availOut - out.length, fed.1,
    (zc.pending ++ fed.2).drop zc.availOut, false, zc.opaq, zc.consumed⟩, zc.nextIn.take k, ?_,
    ⟨?_, ?_⟩, ?_, rfl, take_append_drop k _, hlen, ?_⟩
  · rw [deflate, hk, hfed]
    simp only [reduceCtorEq, false_and, if_false, append_nil, hout, hcopy, Option.bind_eq_bind,
      Option.bind_some, decide_false, Bool.or_false, hfin]
    rfl
  · exact hroom'
  · -- the output moves from pending to the buffer
    change zc.consumed ++ (range (zc.nextOut + out.length)).map outbuf.cells ++ _ = _
    have hflow := h.flow
    rw [hfin] at hflow
    simp only [Bool.false_eq_true, if_false, append_nil] at hflow ⊢
    rw [hheld, hfed, append_assoc, append_assoc, hsplit, ← append_assoc, ← append_assoc, hflow]
  · rw [hfed]
  · change (zc.nextIn.drop k).length < _ ∨ zc.nextIn.drop k = _ ∧ _
    have hpos := length_pos_of_ne_nil hin
    rcases Nat.eq_zero_or_pos k with rfl | hkpos
    · -- nothing was taken, so the buffer is full and some pending output is gone
      have hnil : fed.2 = [] := by rw [← hfed, take_zero, T.feed_nil]
      right
      refine ⟨drop_zero, ?_⟩
      rw [hnil, append_nil] at hgreedy ⊢
      change (zc.pending.drop zc.availOut).length < _
      rw [length_drop]
      omega
    · left
      rw [length_drop]
      omega

def Context.left (T : Transducer σ) (zc : Context σ τ) : List UInt8 :=
  zc.pending ++ if zc.finished then [] else T.finish zc.state

theorem deflate_finish (h : Inv T zc made) (hin : zc.nextIn = []) :
    ∃ zc', deflate T zc .finish =
        some (if (zc.left T).length ≤ zc.availOut then .streamEnd else .ok, zc') ∧
      Inv T zc' made ∧ zc'.state = zc.state ∧ zc'.finished = true ∧ zc'.nextIn = [] ∧
      zc'.pending = (zc.left T).drop zc.availOut ∧
      zc'.availOut = zc.availOut - (zc.left T).length ∧ zc'.outbuf.len = zc.outbuf.len := by
  have hnil : ∀ k, T.feed zc.state (zc.nextIn.take k) = (zc.state, []) := by
    intro k
    rw [hin, take_nil, T.feed_nil]
  have hleft : zc.pending ++ [] ++ (if zc.finished = false then T.finish zc.state else []) =
      zc.left T := by
    rw [Context.left, append_nil]
    cases zc.finished with
    | false => rfl
    | true => rfl
  obtain ⟨out, hout⟩ : ∃ out, (zc.left T).take zc.availOut = out := ⟨_, rfl⟩
  have hsplit : out ++ (zc.left T).drop zc.availOut = zc.left T := by
    rw [← hout]
    exact take_append_drop _ _
  obtain ⟨outbuf, hcopy, hlen, hheld, hroom⟩ := h.copy_taken hout
  refine ⟨⟨outbuf, [], zc.nextOut + out.length, zc.availOut - out.length, zc.state,
    (zc.left T).drop zc.availOut, true, zc.opaq, zc.consumed⟩, ?_, ⟨?_, ?_⟩, rfl, rfl, rfl,
    rfl, ?_, hlen⟩
  · rw [deflate, hnil]
    simp only [hin, drop_nil, true_and, and_self, hleft, hout, hcopy, Option.bind_eq_bind,
      Option.bind_some, decide_true, Bool.or_true, drop_eq_nil_iff]
    rfl
  · exact hroom
  · change zc.consumed ++ (range (zc.nextOut + out.length)).map outbuf.cells ++ _ = _
    have hall : zc.consumed ++ zc.held ++ zc.left T = made ++ T.finish zc.state := by
      rw [Context.left, ← append_assoc, h.flow]
      cases zc.finished with
      | false => rw [if_neg Bool.false_ne_true, if_neg Bool.false_ne_true, append_nil]
      | true => rw [if_pos rfl, if_pos rfl, append_nil]
    rw [hheld, append_assoc, append_assoc, hsplit, ← append_assoc, hall]
    rfl
  · change zc.availOut - out.length = _
    rw [← hout, length_take]
    omega

theorem asInt_eq {n : Int} (hlo : -2 ^ 31 ≤ n) (hhi : n < 2 ^ 31) : asInt n = n :=
  Int.bmod_eq_of_le hlo hhi

theorem asInt_of_lt {n : Nat} (h : n < 2 ^ 31) : asInt n = n := asInt_eq (by omega) (by omega)

theorem asInt_of_ge {n : Int} (hlo : 2 ^ 31 ≤ n) (hhi : n < 2 ^ 32 + 2 ^ 31) :
    asInt n = n - 2 ^ 32 := by
  have hsub := asInt_eq (n := n - 2 ^ 32) (by omega) (by omega)
  rwa [asInt, show (2 : Int) ^ 32 = ((2 ^ 32 : Nat) : Int) from rfl, Int.sub_bmod_right] at hsub

theorem asInt_le (n : Nat) : asInt n ≤ n := by
  rw [asInt, Int.bmod_def]
  split <;> omega

theorem asInt_lt (n : Int) : asInt n < 2 ^ 31 := Int.bmod_lt (m := 2 ^ 32) (by decide)

theorem bytes_length (buf : Block UInt8) : (bytes buf).length = buf.len := by
  rw [bytes, length_map, length_range]

theorem offer_eq (zc : Context σ τ) {buf : Block UInt8} {len : Int} (hlen : len ≤ buf.len) :
    offer processOutput zc buf len =
      some ((processOutput zc.opaq (bytes buf) len).1, { zc with
        opaq := (processOutput zc.opaq (bytes buf) len).2,
        consumed := zc.consumed ++
          (bytes buf).take (processOutput zc.opaq (bytes buf) len).1.toNat }) := if_pos hlen

theorem Consumes.bounds (hcb : Consumes processOutput) (opaq : τ) {buf : Block UInt8} {len : Nat}
    (hpos : 0 < len) (hlen : len ≤ buf.len) (hint : len < 2 ^ 31) :
    ∃ used, (processOutput opaq (bytes buf) (asInt len)).1 = ((used : Nat) : Int) ∧ 0 < used ∧
      used ≤ len := by
  have hle : (len : Int) ≤ (bytes buf).length := by rw [bytes_length]; omega
  rw [asInt_of_lt hint]
  have hused := hcb.pos opaq (bytes buf) len (by omega) hle (by omega)
  have hall := hcb.le opaq (bytes buf) len (by omega) hle (by omega)
  exact ⟨_, (Int.toNat_of_nonneg hused.le).symm, by omega, by omega⟩

theorem take_append_map_range (f : Nat → UInt8) {n len : Nat} (h : n ≤ len) :
    ((range len).map f).take n ++ (range (len - n)).map (fun i => f (n + i)) =
      (range len).map f := by
  rw [← map_take, take_range, Nat.min_eq_left h]
  exact (map_range_add (fun _ _ => rfl) (fun _ _ => rfl)).symm.trans
    (by rw [Nat.add_sub_cancel' h])

/-- Of a full buffer the callback consumes something, and leaves no more than an `int` counts. -/
def LeavesInt (processOutput : τ → List UInt8 → Int → Int × τ) (zc : Context σ τ) : Prop :=
  zc.availOut = 0 → 0 < (processOutput zc.opaq zc.held (asInt zc.outbuf.len)).1 ∧
    zc.outbuf.len - (processOutput zc.opaq zc.held (asInt zc.outbuf.len)).1 < 2 ^ 31

theorem Inv.held_of_full (h : Inv T zc made) (hfull : zc.availOut = 0) :
    zc.held = bytes zc.outbuf := by
  have hnext : zc.nextOut = zc.outbuf.len := by rw [← h.room, hfull, Nat.add_zero]
  rw [Context.held, hnext, bytes]

theorem Inv.leavesInt (hcb : Consumes processOutput) (h : Inv T zc made)
    (hpos : 0 < zc.outbuf.len) (hsize : zc.outbuf.len < 2 ^ 31) : LeavesInt processOutput zc := by
  intro hfull
  rw [h.held_of_full hfull]
  obtain ⟨used, hu, hused, -⟩ := hcb.bounds zc.opaq hpos (Nat.le_refl _) hsize
  rw [hu]
  omega

theorem makeRoom_spec (hcb : Consumes processOutput) (h : Inv T zc made)
    (hpos : 0 < zc.outbuf.len) (hleft : LeavesInt processOutput zc) :
    ∃ zc', makeRoom processOutput zc = some (.ok, zc') ∧ Inv T zc' made ∧ 0 < zc'.availOut ∧
      zc'.state = zc.state ∧ zc'.nextIn = zc.nextIn ∧ zc'.pending = zc.pending ∧
      zc'.finished = zc.finished ∧ zc'.outbuf.len = zc.outbuf.len := by
  rw [makeRoom]
  by_cases hfull : zc.availOut = 0
  swap
  · rw [if_neg hfull]
    exact ⟨zc, rfl, h, Nat.pos_of_ne_zero hfull, rfl, rfl, rfl, rfl, rfl⟩
  have hsmall := hleft hfull
  have hflow := h.flow
  rw [h.held_of_full hfull] at hsmall hflow
  rw [if_pos hfull, offer_eq zc (asInt_le _)]
  -- what is consumed is an `int`, and no more than there is
  obtain ⟨used, hu, hused, hle⟩ : ∃ used,
      (processOutput zc.opaq (bytes zc.outbuf) (asInt zc.outbuf.len)).1 = ((used : Nat) : Int) ∧
        0 < used ∧ used ≤ zc.outbuf.len := by
    by_cases hint : zc.outbuf.len < 2 ^ 31
    · exact hcb.bounds zc.opaq hpos (Nat.le_refl _) hint
    · have hlt := (hcb.int zc.opaq (bytes zc.outbuf) (asInt zc.outbuf.len)).2
      exact ⟨_, (Int.toNat_of_nonneg hsmall.1.le).symm, by omega, by omega⟩
  rw [hu] at hsmall ⊢
  rw [bytes, ← take_append_map_range _ hle] at hflow
  have hsub : (zc.outbuf.len : Int) - used = ((zc.outbuf.len - used : Nat) : Int) := by omega
  have hint : asInt (zc.outbuf.len - used) = ((zc.outbuf.len - used : Nat) : Int) := by
    rw [hsub]
    exact asInt_of_lt (by omega)
  have hne : ¬(used : Int) = 0 := by omega
  have hnonneg : ¬(used : Int) < 0 := by omega
  simp only [Option.bind_eq_bind, Option.bind_some, if_neg hne, if_neg hnonneg, hint,
    Int.toNat_natCast]
  -- what the callback has left moves to the start of the buffer
  by_cases hrest : 0 < zc.outbuf.len - used
  · obtain ⟨outbuf, hcopy, hlen, -, hnew⟩ := Block.copy_spec
      (show 0 + (zc.outbuf.len - used) ≤ zc.outbuf.len by omega)
      (show zc.outbuf.len - used ≤ (zc.outbuf.shift used).len from Nat.le_refl _)
    have hheld : (range (zc.outbuf.len - used)).map outbuf.cells =
        (range (zc.outbuf.len - used)).map fun i => zc.outbuf.cells (used + i) := by
      apply map_range_congr
      intro i hi
      have hcell := hnew i hi
      rwa [Nat.zero_add] at hcell
    have hgt : ((zc.outbuf.len - used : Nat) : Int) > 0 := by exact_mod_cast hrest
    simp only [if_pos hgt, hcopy, Option.bind_some]
    refine ⟨_, rfl, ⟨?_, ?_⟩, ?_, rfl, rfl, rfl, rfl, hlen⟩
    · change zc.outbuf.len - used + (zc.outbuf.len - (zc.outbuf.len - used)) = outbuf.len
      omega
    · change zc.consumed ++ _ ++ (range (zc.outbuf.len - used)).map outbuf.cells ++ _ = _
      rw [hheld, append_assoc zc.consumed]
      exact hflow
    · change 0 < zc.outbuf.len - (zc.outbuf.len - used)
      omega
  · have hall : zc.outbuf.len - used = 0 := Nat.eq_zero_of_not_pos hrest
    have hgt : ¬((zc.outbuf.len - used : Nat) : Int) > 0 := by
      rw [hall]
      exact Int.lt_irrefl 0
    simp only [if_neg hgt]
    refine ⟨_, rfl, ⟨Nat.zero_add _, ?_⟩, hpos, rfl, rfl, rfl, rfl, rfl⟩
    change zc.consumed ++ _ ++ [] ++ _ = _
    rw [hall, range_zero, map_nil, append_nil] at hflow
    rw [append_nil]
    exact hflow

theorem makeRoom_overwrites {used : Int} (hfull : zc.availOut = 0)
    (hu : (processOutput zc.opaq (bytes zc.outbuf) (asInt zc.outbuf.len)).1 = used)
    (hused : used ≠ 0) (hleft : asInt (zc.outbuf.len - used) ≤ 0) :
    makeRoom processOutput zc = some (.ok, { zc with
      nextOut := 0, availOut := zc.outbuf.len,
      opaq := (processOutput zc.opaq (bytes zc.outbuf) (asInt zc.outbuf.len)).2,
      consumed := zc.consumed ++ (bytes zc.outbuf).take used.toNat }) := by
  rw [makeRoom, if_pos hfull, offer_eq zc (asInt_le _), hu]
  simp only [Option.bind_eq_bind, Option.bind_some, if_neg hused, if_neg hleft.not_gt]
  rfl

theorem drainLoop_spec (hcb : Consumes processOutput) {fuel rem : Nat} (hfuel : rem < fuel)
    (hint : rem < 2 ^ 31) (zc : Context σ τ) {buf : Block UInt8} (hrem : rem ≤ buf.len) :
    ∃ opaq, drainLoop processOutput fuel zc buf rem = some (.ok, { zc with
      opaq := opaq, consumed := zc.consumed ++ (range rem).map buf.cells }) := by
  induction fuel generalizing zc buf rem with
  | zero => exact absurd hfuel (Nat.not_lt_zero _)
  | succ fuel ih =>
    rw [drainLoop]
    rcases Nat.eq_zero_or_pos rem with rfl | hpos
    · rw [if_neg (Nat.lt_irrefl 0), range_zero, map_nil, append_nil]
      exact ⟨zc.opaq, rfl⟩
    · obtain ⟨used, hu, hused, hle⟩ := hcb.bounds zc.opaq hpos hrem hint
      have hoffer : offer processOutput zc buf (asInt rem) = _ :=
        offer_eq zc ((asInt_le rem).trans (by omega))
      rw [hu, Int.toNat_natCast] at hoffer
      obtain ⟨opaq, ho⟩ : ∃ opaq, (processOutput zc.opaq (bytes buf) (asInt rem)).2 = opaq :=
        ⟨_, rfl⟩
      rw [ho] at hoffer
      have hshift : rem - used ≤ (buf.shift used).len := Nat.sub_le_sub_right hrem used
      obtain ⟨opaq', hloop⟩ := ih (by omega) (by omega) { zc with
        opaq := opaq, consumed := zc.consumed ++ (bytes buf).take used } hshift
      have hsome : ¬(used : Int) ≤ 0 := by omega
      refine ⟨opaq', ?_⟩
      rw [if_pos hpos, hoffer]
      simp only [Option.bind_eq_bind, Option.bind_some, if_neg hsome, Int.toNat_natCast, hloop]
      rw [append_assoc]
      have hfirst : (bytes buf).take used = ((range rem).map buf.cells).take used := by
        rw [bytes, ← map_take, ← map_take, take_range, take_range, Nat.min_eq_left hle,
          Nat.min_eq_left (hle.trans hrem)]
      have hbytes := take_append_map_range buf.cells hle
      rw [← hfirst] at hbytes
      exact congrArg (fun l => some (Status.ok, { zc with
        opaq := opaq', consumed := zc.consumed ++ l })) hbytes

theorem drain_spec (hcb : Consumes processOutput) (h : Inv T zc made)
    (hsize : zc.outbuf.len < 2 ^ 31) :
    ∃ opaq, drain processOutput zc = some (.ok, { zc with
      nextOut := 0, availOut := zc.outbuf.len, opaq := opaq,
      consumed := zc.consumed ++ zc.held }) := by
  have hlen : zc.outbuf.len - zc.availOut = zc.nextOut := by
    rw [← h.room, Nat.add_sub_cancel]
  have hroom := h.room
  simp only [drain, hlen]
  by_cases hpos : zc.nextOut > 0
  · obtain ⟨opaq, hloop⟩ := drainLoop_spec hcb (Nat.lt_succ_self zc.nextOut)
      (by omega) zc (show zc.nextOut ≤ zc.outbuf.len by omega)
    refine ⟨opaq, ?_⟩
    rw [if_pos hpos, hloop]
    rfl
  · obtain ⟨buf, nextIn, nextOut, availOut, state, pending, finished, opaq, consumed⟩ := zc
    obtain rfl : nextOut = 0 := Nat.eq_zero_of_not_pos hpos
    obtain rfl : availOut = buf.len := (Nat.zero_add _).symm.trans hroom
    refine ⟨opaq, ?_⟩
    rw [if_neg hpos]
    exact congrArg (fun l => some (Status.ok, (⟨buf, nextIn, 0, buf.len, state, pending, finished,
      opaq, l⟩ : Context σ τ))) (append_nil consumed).symm

/-! ## Whole sessions -/

theorem compressLoop_spec (hcb : Consumes processOutput) (zc : Context σ τ) (made : List UInt8)
    (h : Inv T zc made) (hfin : zc.finished = false) (hpos : 0 < zc.outbuf.len)
    (hsize : zc.outbuf.len < 2 ^ 31) :
    ∃ zc' blocks fuel₀, (∀ fuel ≥ fuel₀,
        compressLoop T processOutput fuel zc = some (.ok, zc')) ∧
      blocks.flatten = zc.nextIn ∧ Inv T zc' (made ++ (T.feedAll zc.state blocks).2) ∧
      zc'.state = (T.feedAll zc.state blocks).1 ∧ zc'.finished = false ∧ zc'.nextIn = [] ∧
      zc'.outbuf.len = zc.outbuf.len := by
  by_cases hin : zc.nextIn = []
  · refine ⟨zc, [], 1, fun fuel hfuel => ?_, hin.symm, ?_, rfl, hfin, hin, rfl⟩
    · obtain ⟨fuel, rfl⟩ : ∃ f, fuel = f + 1 := ⟨fuel - 1, (Nat.sub_add_cancel hfuel).symm⟩
      rw [compressLoop, if_neg (not_not_intro (hin ▸ rfl))]
    · exact (append_nil made).symm ▸ h
  have hne : zc.nextIn.length ≠ 0 := fun h0 => hin (length_eq_zero_iff.mp h0)
  obtain ⟨zc₁, hroom, h₁, havail, hst₁, hin₁, hpend₁, hfin₁, hlen₁⟩ :=
    makeRoom_spec hcb h hpos (h.leavesInt hcb hpos hsize)
  obtain ⟨zc₂, c, hdef, h₂, hst₂, hfin₂, hc, hlen₂, hless⟩ := deflate_noFlush h₁
    (hfin₁.trans hfin) havail (hin₁ ▸ hin)
  rw [hst₁] at h₂ hst₂
  -- a round takes input, or else there is less pending
  have hmeasure : zc₂.nextIn.length < zc.nextIn.length ∨
      zc₂.nextIn = zc.nextIn ∧ zc₂.pending.length < zc.pending.length := by
    rw [← hin₁, ← hpend₁]
    exact hless
  have hlen : zc₂.outbuf.len = zc.outbuf.len := hlen₂.trans hlen₁
  obtain ⟨zc', blocks, fuel₀, hrun, hflat, h', hst', hfin', hin', hlen'⟩ := compressLoop_spec hcb
    zc₂ _ h₂ hfin₂ (hlen ▸ hpos) (hlen ▸ hsize)
  rw [append_assoc, hst₂] at h'
  rw [hst₂] at hst'
  refine ⟨zc', c :: blocks, fuel₀ + 1, fun fuel hfuel => ?_, ?_, h', hst', hfin', hin',
    hlen'.trans hlen⟩
  · obtain ⟨fuel, rfl⟩ : ∃ f, fuel = f + 1 :=
      ⟨fuel - 1, (Nat.sub_add_cancel ((Nat.le_add_left 1 fuel₀).trans hfuel)).symm⟩
    rw [compressLoop, if_pos hne, hroom]
    simp only [Option.bind_eq_bind, Option.bind_some, ne_eq, not_true_eq_false, if_false, hdef]
    exact hrun fuel (Nat.le_of_succ_le_succ hfuel)
  · rw [flatten_cons, hflat, hc, hin₁]
termination_by (zc.nextIn.length, zc.pending.length)
decreasing_by
  rcases hmeasure with hlt | ⟨heq, hlt⟩
  · exact Prod.Lex.left _ _ hlt
  · rw [heq]
    exact Prod.Lex.right _ hlt

theorem Inv.drained (h : Inv T zc made) (opaq : τ) :
    Inv T { zc with
      nextOut := 0, availOut := zc.outbuf.len, opaq := opaq,
      consumed := zc.consumed ++ zc.held } made where
  room := Nat.zero_add _
  flow := by
    change zc.consumed ++ zc.held ++ [] ++ zc.pending = _
    rw [append_nil]
    exact h.flow

theorem endLoop_done (hcb : Consumes processOutput) (h : Inv T zc made)
    (hsize : zc.outbuf.len < 2 ^ 31) :
    ∃ zc', (∀ fuel, endLoop T processOutput (fuel + 1) zc true = some (.ok, zc')) ∧
      zc'.consumed = zc.consumed ++ zc.held := by
  obtain ⟨opaq, hdrain⟩ := drain_spec hcb h hsize
  refine ⟨{ zc with
    nextOut := 0, availOut := zc.outbuf.len, opaq := opaq,
    consumed := zc.consumed ++ zc.held }, fun fuel => ?_, rfl⟩
  rw [endLoop, hdrain]
  rfl

theorem endLoop_spec (hcb : Consumes processOutput) (zc : Context σ τ) (h : Inv T zc made)
    (hin : zc.nextIn = []) (hpos : 0 < zc.outbuf.len) (hsize : zc.outbuf.len < 2 ^ 31) :
    ∃ zc' fuel₀, (∀ fuel ≥ fuel₀, endLoop T processOutput fuel zc false = some (.ok, zc')) ∧
      zc'.consumed = made ++ T.finish zc.state := by
  obtain ⟨opaq, hdrain⟩ := drain_spec hcb h hsize
  obtain ⟨zc₂, hdef, h₂, hst₂, hfin₂, hin₂, hpend₂, havail₂, hlen₂⟩ :=
    deflate_finish (h.drained opaq) hin
  change zc₂.state = zc.state at hst₂
  change zc₂.pending = (zc.left T).drop zc.outbuf.len at hpend₂
  change zc₂.availOut = zc.outbuf.len - (zc.left T).length at havail₂
  change deflate T _ _ = some (if (zc.left T).length ≤ zc.outbuf.len then _ else _, _) at hdef
  by_cases hend : (zc.left T).length ≤ zc.outbuf.len
  · -- the rest fits, and one more round drains it
    obtain ⟨zc', hdone, hconsumed⟩ := endLoop_done hcb h₂ (hlen₂ ▸ hsize)
    have hflow := h₂.flow
    rw [hpend₂, drop_eq_nil_of_le hend, append_nil, hfin₂, if_pos rfl, hst₂] at hflow
    refine ⟨zc', 2, fun fuel hfuel => ?_, hconsumed.trans hflow⟩
    obtain ⟨fuel, rfl⟩ : ∃ f, fuel = f + 2 := ⟨fuel - 2, (Nat.sub_add_cancel hfuel).symm⟩
    rw [if_pos hend] at hdef
    rw [endLoop, hdrain]
    simp only [Option.bind_eq_bind, Option.bind_some, ne_eq, not_true_eq_false, if_false,
      Bool.false_eq_true, hdef, reduceCtorEq, and_false, or_true, decide_true]
    exact hdone fuel
  · -- the buffer is full again, and less is still to come
    have hleft : zc₂.left T = (zc.left T).drop zc.outbuf.len := by
      rw [Context.left, hfin₂, if_pos rfl, append_nil, hpend₂]
    have hless : (zc₂.left T).length < (zc.left T).length := by
      rw [hleft, length_drop]
      omega
    obtain ⟨zc', fuel₀, hrun, hconsumed⟩ := endLoop_spec hcb zc₂ h₂ hin₂ (hlen₂ ▸ hpos)
      (hlen₂ ▸ hsize)
    refine ⟨zc', fuel₀ + 1, fun fuel hfuel => ?_, hst₂ ▸ hconsumed⟩
    obtain ⟨fuel, rfl⟩ : ∃ f, fuel = f + 1 :=
      ⟨fuel - 1, (Nat.sub_add_cancel ((Nat.le_add_left 1 fuel₀).trans hfuel)).symm⟩
    have hfull : zc₂.availOut = 0 := by omega
    rw [if_neg hend] at hdef
    rw [endLoop, hdrain]
    simp only [Option.bind_eq_bind, Option.bind_some, ne_eq, not_true_eq_false, if_false,
      Bool.false_eq_true, hdef, reduceCtorEq, and_false, hfull, or_self, decide_false, false_and]
    exact hrun fuel (Nat.le_of_succ_le_succ hfuel)
termination_by (zc.left T).length

theorem zBufCompressEnd_of_nil (hin : zc.nextIn = []) (fuel : Nat) :
    zBufCompressEnd T processOutput fuel zc = endLoop T processOutput fuel zc false := by
  rw [zBufCompressEnd, hin]
  rfl

theorem compressAll_cons {fuel : Nat} {data : List UInt8} {zc' : Context σ τ}
    (h : zBufCompress T processOutput fuel zc data = some (.ok, zc')) (parts : List (List UInt8)) :
    compressAll T processOutput fuel zc (data :: parts) =
      compressAll T processOutput fuel zc' parts := by
  rw [compressAll, h]
  rfl

theorem compressAll_spec (hcb : Consumes processOutput) (parts : List (List UInt8))
    (h : Inv T zc made) (hfin : zc.finished = false) (hin : zc.nextIn = [])
    (hpos : 0 < zc.outbuf.len) (hsize : zc.outbuf.len < 2 ^ 31) :
    ∃ zc' blocks fuel₀, (∀ fuel ≥ fuel₀,
        compressAll T processOutput fuel zc parts = some (.ok, zc')) ∧
      blocks.flatten = parts.flatten ∧ zc'.consumed = made ++ ((T.feedAll zc.state blocks).2 ++
        T.finish (T.feedAll zc.state blocks).1) := by
  induction parts generalizing zc made with
  | nil =>
    obtain ⟨zc', fuel₀, hrun, hconsumed⟩ := endLoop_spec hcb zc h hin hpos hsize
    refine ⟨zc', [], fuel₀, fun fuel hfuel => ?_, rfl, hconsumed⟩
    rw [compressAll, zBufCompressEnd_of_nil hin]
    exact hrun fuel hfuel
  | cons data parts ih =>
    have hdata : (if data.length > 0 then { zc with nextIn := data } else zc) =
        { zc with nextIn := data } := by
      cases data with
      | nil =>
        change zc = { zc with nextIn := [] }
        rw [← hin]
      | cons a data => rfl
    obtain ⟨zc₁, blocks₁, fuel₁, hrun₁, hflat₁, h₁, hst₁, hfin₁, hin₁, hlen₁⟩ :=
      compressLoop_spec hcb { zc with nextIn := data } made ⟨h.room, h.flow⟩ hfin hpos hsize
    change zc₁.state = (T.feedAll zc.state blocks₁).1 at hst₁
    change zc₁.outbuf.len = zc.outbuf.len at hlen₁
    obtain ⟨zc', blocks₂, fuel₂, hrun₂, hflat₂, hconsumed⟩ := ih h₁ hfin₁ hin₁ (hlen₁ ▸ hpos)
      (hlen₁ ▸ hsize)
    refine ⟨zc', blocks₁ ++ blocks₂, max fuel₁ fuel₂, fun fuel hfuel => ?_, ?_, ?_⟩
    · have hfirst : zBufCompress T processOutput fuel zc data = some (.ok, zc₁) := by
        rw [zBufCompress, hdata]
        exact hrun₁ fuel ((Nat.le_max_left _ _).trans hfuel)
      rw [compressAll_cons hfirst]
      exact hrun₂ fuel ((Nat.le_max_right _ _).trans hfuel)
    · rw [flatten_append, hflat₁, hflat₂, flatten_cons]
    · rw [T.feedAll_append, hconsumed, hst₁]
      simp only [append_assoc]

theorem compressInit_inv (T : Transducer σ) (size : UInt32) (junk : Nat → UInt8) (opaq : τ) :
    Inv T (compressInit T size junk opaq) [] where
  room := Nat.zero_add _
  flow := rfl

theorem delivers_of_lt {size : UInt32} (hpos : 0 < size.toNat) (hsize : size.toNat < 2 ^ 31)
    (hcb : Consumes processOutput) (junk : Nat → UInt8) (opaq : τ) (parts : List (List UInt8)) :
    Delivers T processOutput (compressInit T size junk opaq) parts :=
  compressAll_spec hcb parts (compressInit_inv T size junk opaq) rfl rfl hpos hsize

/-! ## Buffers beyond the range of `int` -/

def bulky (n : Nat) : Transducer Unit where
  start := ()
  feed _ c := ((), replicate (n * c.count 1) 0)
  finish _ := []
  takes _ _ input _ := input.length
  feed_nil _ := rfl
  greedy _ _ _ _ := Or.inl (Nat.le_refl _)

def eager (_ : Unit) (_ : List UInt8) (len : Int) : Int × Unit := (asInt len, ())

theorem eager_consumes : Consumes eager where
  int _ _ len := by
    exact ⟨Int.le_bmod (m := 2 ^ 32) (by decide), asInt_lt len⟩
  pos _ _ len hpos _ hint := hpos.trans_eq (asInt_eq (by omega) hint).symm
  le _ _ len hpos _ hint := (asInt_eq (by omega) hint).le

theorem bulky_output (n : Nat) (blocks : List (List UInt8)) :
    ((bulky n).output blocks).length = n * blocks.flatten.count 1 := by
  have hall : ∀ s, ((bulky n).feedAll s blocks).2.length = n * blocks.flatten.count 1 := by
    induction blocks with
    | nil => exact fun _ => rfl
    | cons c cs ih =>
      intro s
      rw [Transducer.feedAll, length_append, ih, flatten_cons, count_append, Nat.mul_add]
      exact congrArg (· + n * cs.flatten.count 1) length_replicate
  rw [Transducer.output, length_append, hall]
  rfl

theorem deflate_bulky {n : Nat} {b : Block UInt8} {x : UInt8} (hfits : n * [x].count 1 ≤ b.len)
    (opaq : τ) (consumed : List UInt8) :
    ∃ b', b'.len = b.len ∧
      deflate (bulky n) ⟨b, [x], 0, b.len, (), [], false, opaq, consumed⟩ .noFlush =
        some (.ok, ⟨b', [], n * [x].count 1, b.len - n * [x].count 1, (), [], false, opaq,
          consumed⟩) := by
  have hlen : (replicate (n * [x].count 1) (0 : UInt8)).length = n * [x].count 1 :=
    length_replicate
  obtain ⟨b', hcopy, hlen', -⟩ := copy_held
    (⟨b, [x], 0, b.len, (), [], false, opaq, consumed⟩ : Context Unit τ)
    (show 0 + (replicate (n * [x].count 1) (0 : UInt8)).length ≤ b.len by omega)
  have hall := hlen.trans_le hfits
  refine ⟨b', hlen', ?_⟩
  change b.copy 0 _ _ = some b' at hcopy
  rw [deflate]
  simp only [bulky, length_singleton, take_succ_cons, take_zero, drop_succ_cons, drop_zero,
    reduceCtorEq, false_and, if_false, nil_append, append_nil, take_of_length_le hall,
    drop_eq_nil_of_le hall, hcopy, Option.bind_eq_bind, Option.bind_some, Bool.false_or,
    decide_false]
  rw [hlen, Nat.zero_add]
  rfl

theorem makeRoom_eager {b : Block UInt8} (hlo : 2 ^ 31 ≤ b.len) (hhi : b.len < 2 ^ 32)
    (nextIn : List UInt8) :
    makeRoom eager (⟨b, nextIn, b.len, 0, (), [], false, (), []⟩ : Context Unit Unit) =
      some (.ok, ⟨b, nextIn, 0, b.len, (), [], false, (), []⟩) := by
  have hneg : asInt b.len = b.len - 2 ^ 32 := asInt_of_ge (by omega) (by omega)
  have hused : (eager () (bytes b) (asInt b.len)).1 = b.len - 2 ^ 32 := by
    rw [hneg]
    exact asInt_eq (by omega) (by omega)
  have hleft : asInt (b.len - (b.len - 2 ^ 32)) = 0 := by
    rw [Int.sub_sub_self, asInt_of_ge (by decide) (by decide), Int.sub_self]
  have hnone : ((b.len : Int) - 2 ^ 32).toNat = 0 := by omega
  have hfull : (⟨b, nextIn, b.len, 0, (), [], false, (), []⟩ : Context Unit Unit).availOut = 0 :=
    rfl
  have hroom := makeRoom_overwrites hfull hused (by omega) hleft.le
  rwa [hnone] at hroom

theorem zBufCompress_once (zc : Context σ τ) {zc₁ zc₂ : Context σ τ} {data : List UInt8}
    (hdata : data ≠ [])
    (hroom : makeRoom processOutput { zc with nextIn := data } = some (.ok, zc₁))
    (hdef : deflate T zc₁ .noFlush = some (.ok, zc₂)) (hin₂ : zc₂.nextIn = []) (fuel : Nat) :
    zBufCompress T processOutput (fuel + 2) zc data = some (.ok, zc₂) := by
  have hne : data.length ≠ 0 := fun h0 => hdata (length_eq_zero_iff.mp h0)
  rw [zBufCompress, if_pos (Nat.pos_of_ne_zero hne), compressLoop, if_pos hne, hroom]
  simp only [Option.bind_eq_bind, Option.bind_some, ne_eq, not_true_eq_false, if_false, hdef]
  rw [compressLoop, if_neg (not_not_intro (hin₂ ▸ rfl))]

theorem drain_empty (h : zc.outbuf.len - zc.availOut = 0) :
    drain processOutput zc = some (.ok, zc) := by
  simp only [drain, h]
  rfl

theorem endLoop_empty (processOutput : τ → List UInt8 → Int → Int × τ) (n : Nat) (b : Block UInt8)
    (opaq : τ) :
    ∃ zc', (∀ fuel ≥ 2, endLoop (bulky n) processOutput fuel
      ⟨b, [], 0, b.len, (), [], false, opaq, []⟩ false = some (.ok, zc')) ∧
        zc'.consumed = [] := by
  have hstart : Inv (bulky n) (⟨b, [], 0, b.len, (), [], false, opaq, []⟩ : Context Unit τ) [] :=
    ⟨Nat.zero_add _, rfl⟩
  obtain ⟨zc', hdef, h', -, hfin, -, -, havail, hlen⟩ := deflate_finish hstart rfl
  change deflate (bulky n) _ .finish = some (.streamEnd, zc') at hdef
  change zc'.availOut = b.len at havail
  change zc'.outbuf.len = b.len at hlen
  have hnone : zc'.outbuf.len - zc'.availOut = 0 := by rw [hlen, havail, Nat.sub_self]
  refine ⟨zc', fun fuel hfuel => ?_, ?_⟩
  · obtain ⟨fuel, rfl⟩ : ∃ f, fuel = f + 2 := ⟨fuel - 2, (Nat.sub_add_cancel hfuel).symm⟩
    rw [endLoop, drain_empty (Nat.sub_self b.len)]
    simp only [Option.bind_eq_bind, Option.bind_some, ne_eq, not_true_eq_false, if_false,
      Bool.false_eq_true, hdef, reduceCtorEq, and_false, or_true, decide_true]
    rw [endLoop, drain_empty hnone]
    rfl
  · have hflow := h'.flow
    rw [hfin, if_pos rfl, append_assoc] at hflow
    exact (append_eq_nil_iff.mp hflow).1

theorem compressAll_eager {size : UInt32} (hsize : 2 ^ 31 ≤ size.toNat) (junk : Nat → UInt8) :
    ∃ zc', (∀ fuel ≥ 2, compressAll (bulky size.toNat) eager fuel
      (compressInit (bulky size.toNat) size junk ()) [[1], [2]] = some (.ok, zc')) ∧
        zc'.consumed = [] := by
  have hlt := size.toNat_lt
  obtain ⟨b₁, hb₁, hdef₁⟩ := deflate_bulky (b := ⟨size.toNat, junk⟩) (x := 1) (n := size.toNat)
    (by rw [count_singleton_self, Nat.mul_one]) () []
  change b₁.len = size.toNat at hb₁
  rw [count_singleton_self, Nat.mul_one, Nat.sub_self] at hdef₁
  obtain ⟨b₂, hb₂, hdef₂⟩ := deflate_bulky (b := b₁) (x := 2) (n := size.toNat) (by
    rw [count_singleton, if_neg (by decide)]
    exact Nat.zero_le _) () []
  have hroom₁ : makeRoom eager { compressInit (bulky size.toNat) size junk () with nextIn := [1] } =
      some (.ok, { compressInit (bulky size.toNat) size junk () with nextIn := [1] }) :=
    if_neg (show ¬size.toNat = 0 by omega)
  have hroom₂ := makeRoom_eager (hb₁ ▸ hsize) (hb₁ ▸ hlt) [2]
  rw [count_singleton, if_neg (by decide), Nat.mul_zero, Nat.sub_zero] at hdef₂
  rw [hb₁] at hb₂ hroom₂ hdef₂
  obtain ⟨zc', hend, hconsumed⟩ := endLoop_empty eager size.toNat b₂ ()
  rw [hb₂] at hend
  refine ⟨zc', fun fuel hfuel => ?_, hconsumed⟩
  -- both calls of `z_buf_compress`, and then the end
  have hlast := hend fuel hfuel
  obtain ⟨fuel, rfl⟩ : ∃ f, fuel = f + 2 := ⟨fuel - 2, (Nat.sub_add_cancel hfuel).symm⟩
  have hfirst := zBufCompress_once (compressInit (bulky size.toNat) size junk ())
    (cons_ne_nil _ _) hroom₁ hdef₁ rfl fuel
  have hsecond := zBufCompress_once ⟨b₁, [], size.toNat, 0, (), [], false, (), []⟩
    (cons_ne_nil _ _) hroom₂ hdef₂ rfl fuel
  rw [compressAll_cons hfirst, compressAll_cons hsecond, compressAll, zBufCompressEnd_of_nil rfl]
  exact hlast

theorem not_delivers_of_ge {size : UInt32} (hsize : 2 ^ 31 ≤ size.toNat) (junk : Nat → UInt8) :
    ¬Delivers (bulky size.toNat) eager (compressInit (bulky size.toNat) size junk ())
      [[1], [2]] := by
  rintro ⟨zc', blocks, fuel₀, hrun, hflat, hconsumed⟩
  obtain ⟨zc'', hlost, hnil⟩ := compressAll_eager hsize junk
  have hsame := (hrun (max fuel₀ 2) (Nat.le_max_left _ _)).symm.trans
    (hlost (max fuel₀ 2) (Nat.le_max_right _ _))
  obtain ⟨-, rfl⟩ := Prod.mk.inj (Option.some.inj hsame)
  have hlen := bulky_output size.toNat blocks
  rw [← hconsumed, hnil, hflat] at hlen
  change 0 = size.toNat * 1 at hlen
  omega

/-- Everything the compressor puts out reaches the callback, for every compressor, every split of
the data and every callback that consumes something, exactly for buffers below 2 GiB. -/
theorem zbuf_delivers_iff (size : UInt32) (hpos : 0 < size.toNat) :
    (∀ (σ τ : Type) (T : Transducer σ) (processOutput : τ → List UInt8 → Int → Int × τ),
      Consumes processOutput → ∀ junk opaq parts,
        Delivers T processOutput (compressInit T size junk opaq) parts) ↔
      size.toNat < 2 ^ 31 := by
  constructor
  · intro h
    by_contra hsize
    exact not_delivers_of_ge (Nat.not_lt.mp hsize) (fun _ => 0)
      (h Unit Unit _ eager eager_consumes (fun _ => 0) () [[1], [2]])
  · intro hsize σ τ T processOutput hcb junk opaq parts
    exact delivers_of_lt hpos hsize hcb junk opaq parts

def oneByOne (_ : Unit) (_ : List UInt8) (_ : Int) : Int × Unit := (1, ())

theorem zbuf_delivers_one_by_one :
    Delivers (bulky 3) oneByOne (compressInit (bulky 3) 2 (fun _ => 0) ()) [[1], [], [2, 1]] :=
  (zbuf_delivers_iff 2 (by decide)).mpr (by decide) Unit Unit (bulky 3) oneByOne
    ⟨fun _ _ _ => (by decide : (-2 ^ 31 : Int) ≤ 1 ∧ (1 : Int) < 2 ^ 31),
      fun _ _ _ _ _ _ => Int.one_pos, fun _ _ _ hpos _ _ => hpos⟩
    (fun _ => 0) () [[1], [], [2, 1]]

/-- A buffer of 2³¹ bytes and a callback that consumes all that is for it. -/
theorem zbuf_loses_large_buffer :
    Consumes eager ∧ ¬Delivers (bulky (2 ^ 31)) eager
      (compressInit (bulky (2 ^ 31)) 0x80000000 (fun _ => 0) ()) [[1], [2]] :=
  ⟨eager_consumes, not_delivers_of_ge (show 2 ^ 31 ≤ (0x80000000 : UInt32).toNat by decide) _⟩

end PortableLib.ZBuf
