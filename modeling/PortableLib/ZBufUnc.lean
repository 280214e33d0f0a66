import PortableLib.ZBuf

/-! Streaming decompression through a fixed output buffer: `zbuf_unc.c` over a model of zlib's
`inflate`. Output that does not fit in the buffer stays inside the decompressor. -/

namespace PortableLib.ZBuf
open List

variable {σ τ : Type}

def feedBytes (byte : σ → UInt8 → σ × List UInt8) : σ → List UInt8 → σ × List UInt8
  | s, [] => (s, [])
  | s, b :: bs =>
    ((feedBytes byte (byte s b).1 bs).1, (byte s b).2 ++ (feedBytes byte (byte s b).1 bs).2)

/-- `byte` is what one more byte of the stream makes, `ended` whether the stream has been read to
its end, and `takes` how much input a call takes, from the state, the output still inside, the
input and the room for output. A call only stops early when it has filled the output buffer. -/
structure Inflater (σ : Type) where
  start : σ
  byte : σ → UInt8 → σ × List UInt8
  ended : σ → Bool
  takes : σ → List UInt8 → List UInt8 → Nat → Nat
  greedy : ∀ s pending input room, input.length ≤ takes s pending input room ∨
    room ≤ (pending ++ (feedBytes byte s (input.take (takes s pending input room))).2).length

namespace Inflater
variable (I : Inflater σ)

def toTransducer : Transducer σ where
  start := I.start
  feed := feedBytes I.byte
  finish _ := []
  takes := I.takes
  feed_nil _ := rfl
  greedy := I.greedy

def output (data : List UInt8) : List UInt8 := (feedBytes I.byte I.start data).2

/-- The stream ends with the last byte of `data` and not before. -/
def Complete (data : List UInt8) : Prop :=
  ∀ pre post, data = pre ++ post → (I.ended (feedBytes I.byte I.start pre).1 = true ↔ post = [])

end Inflater

/-- `inflate (zs, Z_NO_FLUSH)`, which moves input and output as `deflate` does. -/
def inflate (I : Inflater σ) (zs : Context σ τ) : Option (Status × Context σ τ) := do
  let (_, zs) ← deflate I.toTransducer zs .noFlush
  return (if I.ended zs.state ∧ zs.pending = [] then .streamEnd else .ok, zs)

/-- One round of `do_uncompress`. -/
def uncompressRound (I : Inflater σ) (processOutput : τ → List UInt8 → Int → Int × τ)
    (zc : Context σ τ) : Option (Status × Context σ τ) := do
  let (err, zc) ← makeRoom processOutput zc
  if err ≠ .ok then return (err, zc)
  else inflate I zc

def doUncompress (I : Inflater σ) (processOutput : τ → List UInt8 → Int → Int × τ) :
    Nat → Context σ τ → Option (Status × Context σ τ)
  | 0, _ => none
  | fuel + 1, zc =>
    if zc.nextIn.length > 0 then do
      let (err, zc) ← uncompressRound I processOutput zc
      if err ≠ .ok then return (err, zc)
      else doUncompress I processOutput fuel zc
    else some (.ok, zc)

def zBufUncompress (I : Inflater σ) (processOutput : τ → List UInt8 → Int → Int × τ) (fuel : Nat)
    (zc : Context σ τ) (data : List UInt8) : Option (Status × Context σ τ) :=
  if zc.nextIn.length = 0 then doUncompress I processOutput fuel { zc with nextIn := data }
  else none

/-- The part of `z_buf_uncompress_end` that flushes the buffer. -/
def flushOutput (processOutput : τ → List UInt8 → Int → Int × τ) (zc : Context σ τ) (err : Status) :
    Option (Status × Context σ τ) :=
  if zc.availOut < zc.outbuf.len then do
    let rem := asInt (zc.outbuf.len - zc.availOut)
    let (e, zc) ← drainLoop processOutput (zc.outbuf.len + 1) zc zc.outbuf rem.toNat
    if e ≠ .ok then return (e, zc) else return (err, zc)
  else some (err, zc)

def zBufUncompressEnd (I : Inflater σ) (processOutput : τ → List UInt8 → Int → Int × τ) (fuel : Nat)
    (zc : Context σ τ) : Option (Status × Context σ τ) :=
  if zc.nextIn.length > 0 then do
    let (err, zc) ← doUncompress I processOutput fuel zc
    if err ≠ .streamEnd ∨ err ≠ .ok then return (err, zc)
    else flushOutput processOutput zc err
  else flushOutput processOutput zc .ok

/-- `z_buf_context_init` and `z_buf_uncompress_init`, with what happens to be in the buffer. -/
def uncompressInit (I : Inflater σ) (size : UInt32) (junk : Nat → UInt8) (opaq : τ) :
    Context σ τ := compressInit I.toTransducer size junk opaq

/-- A call for each part of the stream, and then `z_buf_uncompress_end`. -/
def uncompressAll (I : Inflater σ) (processOutput : τ → List UInt8 → Int → Int × τ) (fuel : Nat) :
    Context σ τ → List (List UInt8) → Option (Status × Context σ τ)
  | zc, [] => zBufUncompressEnd I processOutput fuel zc
  | zc, data :: parts => do
    let (err, zc) ← zBufUncompress I processOutput fuel zc data
    if err ≠ .ok ∧ err ≠ .streamEnd then return (err, zc)
    else uncompressAll I processOutput fuel zc parts

/-- With enough fuel the session ends with 0, and what the callback has consumed is the whole
data. -/
def Restores (I : Inflater σ) (processOutput : τ → List UInt8 → Int → Int × τ) (zc : Context σ τ)
    (parts : List (List UInt8)) : Prop :=
  ∃ zc' fuel₀, (∀ fuel ≥ fuel₀, uncompressAll I processOutput fuel zc parts = some (.ok, zc')) ∧
    zc'.consumed = I.output parts.flatten

/-- The states between the rounds of a session, with the parts that are still to come. -/
inductive Reaches (I : Inflater σ) (processOutput : τ → List UInt8 → Int → Int × τ) :
    Context σ τ → List (List UInt8) → Context σ τ → List (List UInt8) → Prop
  | refl (zc : Context σ τ) (parts : List (List UInt8)) : Reaches I processOutput zc parts zc parts
  | round {zc zc₁ zc' : Context σ τ} {parts parts' : List (List UInt8)} {err : Status}
      (hin : zc.nextIn ≠ []) (hround : uncompressRound I processOutput zc = some (err, zc₁))
      (hrest : Reaches I processOutput zc₁ parts zc' parts') :
      Reaches I processOutput zc parts zc' parts'
  | call {zc zc' : Context σ τ} {data : List UInt8} {parts parts' : List (List UInt8)}
      (hin : zc.nextIn = []) (hrest : Reaches I processOutput { zc with nextIn := data } parts
        zc' parts') : Reaches I processOutput zc (data :: parts) zc' parts'

/-- Nothing is lost here: while there is input, the callback consumes something of a full buffer and
leaves an `int` of it, and when `z_buf_uncompress_end` is called nothing is left in the decompressor
and the buffer holds an `int` of bytes. -/
structure Keeps (processOutput : τ → List UInt8 → Int → Int × τ) (zc : Context σ τ)
    (parts : List (List UInt8)) : Prop where
  room : zc.nextIn ≠ [] → LeavesInt processOutput zc
  rest : zc.nextIn = [] → parts = [] → zc.pending = [] ∧ zc.nextOut < 2 ^ 31

variable {I : Inflater σ} {processOutput : τ → List UInt8 → Int → Int × τ} {zc : Context σ τ}
  {acc : List UInt8}

theorem feedBytes_append (byte : σ → UInt8 → σ × List UInt8) (s : σ) (a b : List UInt8) :
    feedBytes byte s (a ++ b) = ((feedBytes byte (feedBytes byte s a).1 b).1,
      (feedBytes byte s a).2 ++ (feedBytes byte (feedBytes byte s a).1 b).2) := by
  induction a generalizing s with
  | nil => rfl
  | cons c a ih => simp only [cons_append, feedBytes, ih, append_assoc]

theorem makeRoom_loses (hcb : Consumes processOutput) (h : Inv I.toTransducer zc acc)
    (hfin : zc.finished = false) (hpos : 0 < zc.outbuf.len) (hsize : zc.outbuf.len < 2 ^ 32)
    (hleft : ¬LeavesInt processOutput zc) :
    makeRoom processOutput zc = none ∨ (∃ zc', makeRoom processOutput zc = some (.memError, zc')) ∨
      ∃ zc' acc', makeRoom processOutput zc = some (.ok, zc') ∧ Inv I.toTransducer zc' acc' ∧
        acc'.length < acc.length ∧ 0 < zc'.availOut ∧ zc'.state = zc.state ∧
        zc'.nextIn = zc.nextIn ∧ zc'.pending = zc.pending ∧ zc'.finished = zc.finished ∧
        zc'.outbuf.len = zc.outbuf.len := by
  have hlarge : ¬zc.outbuf.len < 2 ^ 31 := fun hlt => hleft (h.leavesInt hcb hpos hlt)
  rw [LeavesInt, Classical.not_imp] at hleft
  obtain ⟨hfull, hleft⟩ := hleft
  have hheld := h.held_of_full hfull
  rw [hheld] at hleft
  obtain ⟨hlo, hhi⟩ := hcb.int zc.opaq (bytes zc.outbuf) (asInt zc.outbuf.len)
  obtain ⟨used, hu⟩ : ∃ used, (processOutput zc.opaq (bytes zc.outbuf)
    (asInt zc.outbuf.len)).1 = used := ⟨_, rfl⟩
  rw [hu] at hleft hlo hhi
  have hint : asInt (zc.outbuf.len - used) = zc.outbuf.len - used - 2 ^ 32 :=
    asInt_of_ge (by omega) (by omega)
  by_cases hzero : used = 0
  · refine Or.inr (Or.inl ?_)
    rw [makeRoom, if_pos hfull, offer_eq zc (asInt_le _), hu, hzero]
    exact ⟨_, rfl⟩
  by_cases hmove : asInt (zc.outbuf.len - used) ≤ 0
  · have hroom := makeRoom_overwrites hfull hu hzero hmove
    have hflow := h.flow
    rw [hfin, if_neg Bool.false_ne_true, append_nil, hheld] at hflow
    refine Or.inr (Or.inr ⟨_, zc.consumed ++ (bytes zc.outbuf).take used.toNat ++ zc.pending, hroom,
      ⟨Nat.zero_add _, ?_⟩, ?_, hpos, rfl, rfl, rfl, rfl, rfl⟩)
    · change zc.consumed ++ _ ++ [] ++ zc.pending = _ ++ if zc.finished = true then _ else _
      rw [hfin, if_neg Bool.false_ne_true, append_nil, append_nil]
    · rw [← hflow]
      simp only [length_append, length_take, bytes_length]
      omega
  · have hnegative : used < 0 := by omega
    left
    rw [makeRoom, if_pos hfull, offer_eq zc (asInt_le _), hu]
    simp only [Option.bind_eq_bind, Option.bind_some, if_neg hzero, if_pos (not_le.mp hmove),
      if_pos hnegative]

theorem inflate_spec (h : Inv I.toTransducer zc acc) (hfin : zc.finished = false)
    (havail : 0 < zc.availOut) (hin : zc.nextIn ≠ []) :
    ∃ zc' c, inflate I zc =
        some (if I.ended zc'.state ∧ zc'.pending = [] then .streamEnd else .ok, zc') ∧
      Inv I.toTransducer zc' (acc ++ (feedBytes I.byte zc.state c).2) ∧
      zc'.state = (feedBytes I.byte zc.state c).1 ∧ zc'.finished = false ∧
      c ++ zc'.nextIn = zc.nextIn ∧ zc'.outbuf.len = zc.outbuf.len ∧
      (zc'.nextIn.length < zc.nextIn.length ∨
        zc'.nextIn = zc.nextIn ∧ zc'.pending.length < zc.pending.length) := by
  obtain ⟨zc', c, hdef, h', hst, hfin', hc, hlen, hless⟩ := deflate_noFlush h hfin havail hin
  refine ⟨zc', c, ?_, h', hst, hfin', hc, hlen, hless⟩
  simp only [inflate, hdef, Option.bind_eq_bind, Option.bind_some]
  rfl

theorem uncompressRound_of_room {zc₁ : Context σ τ}
    (hroom : makeRoom processOutput zc = some (.ok, zc₁)) :
    uncompressRound I processOutput zc = inflate I zc₁ := by
  simp only [uncompressRound, hroom, Option.bind_eq_bind, Option.bind_some, ne_eq,
    not_true_eq_false, if_false]

/-- A round stops the session, or it makes progress, and it keeps everything exactly if the
callback leaves an `int`. -/
theorem uncompressRound_spec (hcb : Consumes processOutput) (h : Inv I.toTransducer zc acc)
    (hfin : zc.finished = false) (hpos : 0 < zc.outbuf.len) (hsize : zc.outbuf.len < 2 ^ 32)
    (hin : zc.nextIn ≠ []) :
    ¬LeavesInt processOutput zc ∧ (uncompressRound I processOutput zc = none ∨
      ∃ zc', uncompressRound I processOutput zc = some (.memError, zc')) ∨
    ∃ zc' c acc', uncompressRound I processOutput zc =
        some (if I.ended zc'.state ∧ zc'.pending = [] then .streamEnd else .ok, zc') ∧
      Inv I.toTransducer zc' (acc' ++ (feedBytes I.byte zc.state c).2) ∧
      (LeavesInt processOutput zc ∧ acc' = acc ∨
        ¬LeavesInt processOutput zc ∧ acc'.length < acc.length) ∧
      zc'.state = (feedBytes I.byte zc.state c).1 ∧ zc'.finished = false ∧
      c ++ zc'.nextIn = zc.nextIn ∧ zc'.outbuf.len = zc.outbuf.len ∧
      (zc'.nextIn.length < zc.nextIn.length ∨
        zc'.nextIn = zc.nextIn ∧ zc'.pending.length < zc.pending.length) := by
  by_cases hleft : LeavesInt processOutput zc
  · obtain ⟨zc₁, hroom, h₁, havail, hst₁, hin₁, hpend₁, hfin₁, hlen₁⟩ :=
      makeRoom_spec hcb h hpos hleft
    obtain ⟨zc₂, c, hinf, h₂, hrest⟩ := inflate_spec h₁ (hfin₁.trans hfin) havail (hin₁ ▸ hin)
    rw [hst₁, hin₁, hlen₁, hpend₁] at hrest
    rw [hst₁] at h₂
    exact Or.inr ⟨zc₂, c, acc, (uncompressRound_of_room hroom).trans hinf, h₂,
      Or.inl ⟨hleft, rfl⟩, hrest⟩
  · obtain hnone | ⟨zc₁, herr⟩ | ⟨zc₁, acc₁, hroom, h₁, hlost, havail, hst₁, hin₁, hpend₁, hfin₁,
      hlen₁⟩ := makeRoom_loses hcb h hfin hpos hsize hleft
    · refine Or.inl ⟨hleft, Or.inl ?_⟩
      rw [uncompressRound, hnone]
      rfl
    · refine Or.inl ⟨hleft, Or.inr ⟨zc₁, ?_⟩⟩
      rw [uncompressRound, herr]
      rfl
    · obtain ⟨zc₂, c, hinf, h₂, hrest⟩ := inflate_spec h₁ (hfin₁.trans hfin) havail (hin₁ ▸ hin)
      rw [hst₁, hin₁, hlen₁, hpend₁] at hrest
      rw [hst₁] at h₂
      exact Or.inr ⟨zc₂, c, acc₁, (uncompressRound_of_room hroom).trans hinf, h₂,
        Or.inr ⟨hleft, hlost⟩, hrest⟩

theorem flushOutput_eq (hcb : Consumes processOutput) (h : Inv I.toTransducer zc acc) :
    ∃ zc', flushOutput processOutput zc .ok = some (.ok, zc') ∧ zc'.consumed =
      zc.consumed ++ (range (asInt zc.nextOut).toNat).map zc.outbuf.cells := by
  have hroom := h.room
  have hrem : ((zc.outbuf.len : Int) - zc.availOut) = zc.nextOut := by omega
  have hle := asInt_le zc.nextOut
  have hint := asInt_lt zc.nextOut
  rw [flushOutput]
  by_cases hlt : zc.availOut < zc.outbuf.len
  · obtain ⟨opaq, hloop⟩ := drainLoop_spec hcb
      (show (asInt zc.nextOut).toNat < zc.outbuf.len + 1 by omega) (by omega) zc
      (show (asInt zc.nextOut).toNat ≤ zc.outbuf.len by omega)
    rw [if_pos hlt, hrem]
    simp only [hloop, Option.bind_eq_bind, Option.bind_some, ne_eq, not_true_eq_false, if_false]
    exact ⟨_, rfl, rfl⟩
  · have hzero : zc.nextOut = 0 := by omega
    rw [if_neg hlt, hzero]
    exact ⟨zc, rfl, (append_nil _).symm⟩

theorem flushOutput_spec (hcb : Consumes processOutput) (h : Inv I.toTransducer zc acc)
    (hfin : zc.finished = false) (hsize : zc.outbuf.len < 2 ^ 32) :
    ∃ zc', flushOutput processOutput zc .ok = some (.ok, zc') ∧
      zc'.consumed.length ≤ acc.length ∧
      (zc'.consumed = acc ↔ zc.pending = [] ∧ zc.nextOut < 2 ^ 31) := by
  obtain ⟨zc', hflush, hconsumed⟩ := flushOutput_eq hcb h
  have hroom := h.room
  have hflow := h.flow
  rw [hfin, if_neg Bool.false_ne_true, append_nil] at hflow
  have hheld : zc.held.length = zc.nextOut := by rw [Context.held, length_map, length_range]
  have hacc : acc.length = zc.consumed.length + zc.nextOut + zc.pending.length := by
    rw [← hflow, length_append, length_append, hheld]
  refine ⟨zc', hflush, ?_⟩
  by_cases hlt : zc.nextOut < 2 ^ 31
  · rw [asInt_of_lt hlt, Int.toNat_natCast] at hconsumed
    change zc'.consumed = zc.consumed ++ zc.held at hconsumed
    rw [hconsumed, ← hflow, and_iff_left hlt, self_eq_append_right]
    exact ⟨(sublist_append_left _ _).length_le, Iff.rfl⟩
  · have hzero : (asInt zc.nextOut).toNat = 0 := by
      rw [asInt_of_ge (by omega) (by omega)]
      omega
    rw [hzero, range_zero, map_nil, append_nil] at hconsumed
    refine ⟨by rw [hconsumed]; omega, ?_⟩
    constructor
    · intro heq
      have hlen := congrArg List.length heq
      rw [hconsumed] at hlen
      omega
    · exact fun hlt' => absurd hlt'.2 hlt

/-- The rest of a session from inside a call of `z_buf_uncompress`. -/
def resume (I : Inflater σ) (processOutput : τ → List UInt8 → Int → Int × τ) (loopFuel fuel : Nat)
    (zc : Context σ τ) (parts : List (List UInt8)) : Option (Status × Context σ τ) := do
  let (err, zc) ← doUncompress I processOutput loopFuel zc
  if err ≠ .ok ∧ err ≠ .streamEnd then return (err, zc)
  else uncompressAll I processOutput fuel zc parts

theorem resume_of_nil (hin : zc.nextIn = []) (f fuel : Nat) (parts : List (List UInt8)) :
    resume I processOutput (f + 1) fuel zc parts =
      uncompressAll I processOutput fuel zc parts := by
  have hloop : doUncompress I processOutput (f + 1) zc = some (.ok, zc) := by
    rw [doUncompress, hin]
    rfl
  simp only [resume, hloop, Option.bind_eq_bind, Option.bind_some, ne_eq, not_true_eq_false,
    false_and, if_false]

theorem resume_of_round {zc₁ : Context σ τ} {err : Status} (hin : zc.nextIn ≠ [])
    (hround : uncompressRound I processOutput zc = some (err, zc₁))
    (herr : err = .ok ∨ err = .streamEnd ∧ zc₁.nextIn = []) (f fuel : Nat)
    (parts : List (List UInt8)) :
    resume I processOutput (f + 2) fuel zc parts =
      resume I processOutput (f + 1) fuel zc₁ parts := by
  have hlen : zc.nextIn.length > 0 := length_pos_of_ne_nil hin
  obtain rfl | ⟨rfl, hin₁⟩ := herr
  · rw [resume, doUncompress, if_pos hlen, hround]
    rfl
  · rw [resume_of_nil hin₁, resume, doUncompress, if_pos hlen, hround]
    rfl

def Open (I : Inflater σ) (s : σ) (data : List UInt8) : Prop :=
  ∀ pre post, data = pre ++ post → post ≠ [] → I.ended (feedBytes I.byte s pre).1 = false

theorem Open.drop {s : σ} {c data : List UInt8} (h : Open I s (c ++ data)) :
    Open I (feedBytes I.byte s c).1 data := by
  intro pre post heq hne
  have hbefore := h (c ++ pre) post (by rw [heq, append_assoc]) hne
  rwa [feedBytes_append] at hbefore

theorem Open.round_status {data : List UInt8} (h : Open I zc.state (zc.nextIn ++ data)) :
    (if I.ended zc.state ∧ zc.pending = [] then Status.streamEnd else .ok) = .ok ∨
      (if I.ended zc.state ∧ zc.pending = [] then Status.streamEnd else .ok) = .streamEnd ∧
        zc.nextIn = [] := by
  split
  next hend =>
    refine Or.inr ⟨rfl, ?_⟩
    by_contra hne
    have hmore := h [] (zc.nextIn ++ data) rfl (append_ne_nil_of_left_ne_nil hne _)
    rw [feedBytes, hend.1] at hmore
    cases hmore
  next => exact Or.inl rfl

/-! What a session has to keep, round by round. -/

section Keeping
variable {parts : List (List UInt8)}

theorem keeps_at_end (hin : zc.nextIn = []) :
    (∀ zc₁ parts₁, Reaches I processOutput zc [] zc₁ parts₁ → Keeps processOutput zc₁ parts₁) ↔
      zc.pending = [] ∧ zc.nextOut < 2 ^ 31 := by
  constructor
  · exact fun hall => (hall zc [] (Reaches.refl zc [])).rest hin rfl
  · intro hkeep zc₁ parts₁ hreach
    cases hreach with
    | refl => exact ⟨fun hne => absurd hin hne, fun _ _ => hkeep⟩
    | round hne _ _ => exact absurd hin hne

theorem keeps_of_call (hin : zc.nextIn = []) (data : List UInt8) :
    (∀ zc₁ parts₁, Reaches I processOutput zc (data :: parts) zc₁ parts₁ →
        Keeps processOutput zc₁ parts₁) ↔
      ∀ zc₁ parts₁, Reaches I processOutput { zc with nextIn := data } parts zc₁ parts₁ →
        Keeps processOutput zc₁ parts₁ := by
  constructor
  · exact fun hall zc₁ parts₁ hreach => hall zc₁ parts₁ (Reaches.call hin hreach)
  · intro hall zc₁ parts₁ hreach
    cases hreach with
    | refl => exact ⟨fun hne => absurd hin hne, fun _ hnil => absurd hnil (cons_ne_nil _ _)⟩
    | round hne _ _ => exact absurd hin hne
    | call _ hrest => exact hall zc₁ parts₁ hrest

theorem keeps_of_round {zc₂ : Context σ τ} {err : Status} (hin : zc.nextIn ≠ [])
    (hround : uncompressRound I processOutput zc = some (err, zc₂)) :
    (∀ zc₁ parts₁, Reaches I processOutput zc parts zc₁ parts₁ →
        Keeps processOutput zc₁ parts₁) ↔
      LeavesInt processOutput zc ∧ ∀ zc₁ parts₁,
        Reaches I processOutput zc₂ parts zc₁ parts₁ → Keeps processOutput zc₁ parts₁ := by
  constructor
  · intro hall
    refine ⟨(hall zc parts (Reaches.refl zc parts)).room hin, fun zc₁ parts₁ hreach => ?_⟩
    exact hall zc₁ parts₁ (Reaches.round hin hround hreach)
  · rintro ⟨hleft, hall⟩ zc₁ parts₁ hreach
    cases hreach with
    | refl => exact ⟨fun _ => hleft, fun hnil => absurd hnil hin⟩
    | round _ hround' hrest =>
      obtain ⟨-, rfl⟩ := Prod.mk.inj (Option.some.inj (hround.symm.trans hround'))
      exact hall zc₁ parts₁ hrest
    | call hnil _ => exact absurd hnil hin

end Keeping

theorem resume_of_stop {r : Option (Status × Context σ τ)} (hin : zc.nextIn ≠ [])
    (hround : uncompressRound I processOutput zc = r)
    (hstop : r = none ∨ ∃ zc', r = some (.memError, zc')) (f fuel : Nat)
    (parts : List (List UInt8)) : resume I processOutput (f + 1) fuel zc parts = r := by
  have hlen : zc.nextIn.length > 0 := length_pos_of_ne_nil hin
  rw [resume, doUncompress, if_pos hlen, hround]
  rcases hstop with rfl | ⟨zc', rfl⟩
  · rfl
  · rfl

theorem not_ok_of_stop {r : Option (Status × Context σ τ)}
    (hstop : r = none ∨ ∃ zc', r = some (.memError, zc')) (zc' : Context σ τ) :
    r ≠ some (.ok, zc') := by
  rcases hstop with rfl | ⟨zc₁, rfl⟩
  · exact (Option.some_ne_none _).symm
  · exact fun heq => Status.noConfusion (Prod.mk.inj (Option.some.inj heq)).1

theorem exists_ok_iff {zc' : Context σ τ} {P : Context σ τ → Prop} :
    (∃ zc'', some (Status.ok, zc') = some (Status.ok, zc'') ∧ P zc'') ↔ P zc' := by
  constructor
  · rintro ⟨zc'', heq, hP⟩
    obtain ⟨-, rfl⟩ := Prod.mk.inj (Option.some.inj heq)
    exact hP
  · exact fun hP => ⟨zc', rfl, hP⟩

/-- Every session delivers no more than the data, and delivers the data exactly if it keeps
everything on the way. -/
theorem resume_spec (hcb : Consumes processOutput) (parts : List (List UInt8))
    (zc : Context σ τ) (acc : List UInt8) (h : Inv I.toTransducer zc acc)
    (hfin : zc.finished = false) (hpos : 0 < zc.outbuf.len) (hsize : zc.outbuf.len < 2 ^ 32)
    (hopen : Open I zc.state (zc.nextIn ++ parts.flatten)) :
    ∃ r fuel₀, (∀ f ≥ fuel₀, ∀ fuel ≥ fuel₀, resume I processOutput f fuel zc parts = r) ∧
      (∀ zc', r = some (.ok, zc') → zc'.consumed.length ≤
        (acc ++ (feedBytes I.byte zc.state (zc.nextIn ++ parts.flatten)).2).length) ∧
      ((∃ zc', r = some (.ok, zc') ∧
          zc'.consumed = acc ++ (feedBytes I.byte zc.state (zc.nextIn ++ parts.flatten)).2) ↔
        ∀ zc₁ parts₁, Reaches I processOutput zc parts zc₁ parts₁ →
          Keeps processOutput zc₁ parts₁) := by
  by_cases hin : zc.nextIn = []
  · cases hparts : parts with
    | nil =>
      obtain ⟨zc', hflush, hle, hiff⟩ := flushOutput_spec hcb h hfin hsize
      refine ⟨some (.ok, zc'), 1, fun f hf fuel _ => ?_, fun zc'' heq => ?_, ?_⟩
      · obtain ⟨f, rfl⟩ : ∃ g, f = g + 1 := ⟨f - 1, (Nat.sub_add_cancel hf).symm⟩
        rw [resume_of_nil hin, uncompressAll, zBufUncompressEnd, hin]
        exact hflush
      · obtain ⟨-, rfl⟩ := Prod.mk.inj (Option.some.inj heq)
        rw [hin]
        exact hle.trans_eq (congrArg length (append_nil acc).symm)
      · rw [exists_ok_iff, hin, flatten_nil, append_nil, feedBytes, append_nil, hiff,
          keeps_at_end hin]
    | cons data rest =>
      rw [hin, hparts] at hopen
      obtain ⟨r, fuel₀, hrun, hle, hiff⟩ := resume_spec hcb rest { zc with nextIn := data } acc
        ⟨h.room, h.flow⟩ hfin hpos hsize hopen
      have hflat : zc.nextIn ++ (data :: rest).flatten = data ++ rest.flatten := by
        rw [hin, nil_append, flatten_cons]
      rw [hflat, keeps_of_call hin]
      refine ⟨r, fuel₀ + 1, fun f hf fuel hfuel => ?_, hle, hiff⟩
      obtain ⟨f, rfl⟩ : ∃ g, f = g + 1 := ⟨f - 1, (Nat.sub_add_cancel (by omega)).symm⟩
      have hrest := hrun fuel (by omega) fuel (by omega)
      rw [resume_of_nil hin, uncompressAll, zBufUncompress, hin]
      exact hrest
  obtain ⟨hnot, hstop⟩ | ⟨zc₂, c, acc₂, hround, h₂, hacc, hst₂, hfin₂, hc, hlen₂, hless⟩ :=
    uncompressRound_spec hcb h hfin hpos hsize hin
  · refine ⟨uncompressRound I processOutput zc, 1, fun f hf fuel _ => ?_, fun zc' heq => ?_, ?_⟩
    · obtain ⟨f, rfl⟩ : ∃ g, f = g + 1 := ⟨f - 1, (Nat.sub_add_cancel hf).symm⟩
      exact resume_of_stop hin rfl hstop f fuel parts
    · exact absurd heq (not_ok_of_stop hstop zc')
    · constructor
      · rintro ⟨zc', heq, -⟩
        exact absurd heq (not_ok_of_stop hstop zc')
      · exact fun hall => absurd ((hall zc parts (Reaches.refl zc parts)).room hin) hnot
  · have hsplit : zc.nextIn ++ parts.flatten = c ++ (zc₂.nextIn ++ parts.flatten) := by
      rw [← hc, append_assoc]
    have hopen₂ : Open I zc₂.state (zc₂.nextIn ++ parts.flatten) := by
      rw [hst₂]
      exact (hsplit ▸ hopen).drop
    obtain ⟨r, fuel₀, hrun, hle, hiff⟩ := resume_spec hcb parts zc₂ _ h₂ hfin₂ (hlen₂ ▸ hpos)
      (hlen₂ ▸ hsize) hopen₂
    have hout : (feedBytes I.byte zc.state (zc.nextIn ++ parts.flatten)).2 =
        (feedBytes I.byte zc.state c).2 ++
          (feedBytes I.byte zc₂.state (zc₂.nextIn ++ parts.flatten)).2 := by
      rw [hsplit, feedBytes_append, hst₂]
    simp only [append_assoc, ← hout] at hle hiff
    refine ⟨r, fuel₀ + 2, fun f hf fuel hfuel => ?_, fun zc' heq => ?_, ?_⟩
    · obtain ⟨f, rfl⟩ : ∃ g, f = g + 2 := ⟨f - 2, (Nat.sub_add_cancel (by omega)).symm⟩
      rw [resume_of_round hin hround hopen₂.round_status]
      exact hrun (f + 1) (by omega) fuel (by omega)
    · have hle' := hle zc' heq
      rw [length_append] at hle' ⊢
      rcases hacc with ⟨-, rfl⟩ | ⟨-, hlt⟩
      · exact hle'
      · omega
    · rw [keeps_of_round hin hround]
      rcases hacc with ⟨hleft, rfl⟩ | ⟨hnot, hlt⟩
      · rw [hiff, and_iff_right hleft]
      · -- what the round has lost cannot come back
        constructor
        · rintro ⟨zc', heq, hdata⟩
          have hle' := hle zc' heq
          rw [hdata, length_append, length_append] at hle'
          omega
        · exact fun hall => absurd hall.1 hnot
termination_by (parts.length, zc.nextIn.length, zc.pending.length)
decreasing_by
  · rw [hparts]
    exact Prod.Lex.left _ _ (Nat.lt_succ_self _)
  · apply Prod.Lex.right
    rcases hless with hlt | ⟨heq, hlt⟩
    · exact Prod.Lex.left _ _ hlt
    · rw [heq]
      exact Prod.Lex.right _ hlt

theorem uncompressAll_spec {size : UInt32} {parts : List (List UInt8)}
    (hcb : Consumes processOutput) (hpos : 0 < size.toNat) (hend : I.Complete parts.flatten)
    (junk : Nat → UInt8) (opaq : τ) :
    ∃ r fuel₀, (∀ fuel ≥ fuel₀, uncompressAll I processOutput fuel
        (uncompressInit I size junk opaq) parts = r) ∧
      ((∃ zc', r = some (.ok, zc') ∧ zc'.consumed = I.output parts.flatten) ↔ ∀ zc parts',
        Reaches I processOutput (uncompressInit I size junk opaq) parts zc parts' →
          Keeps processOutput zc parts') := by
  obtain ⟨r, fuel₀, hrun, -, hiff⟩ := resume_spec hcb parts (uncompressInit I size junk opaq) []
    (compressInit_inv I.toTransducer size junk opaq) rfl hpos size.toNat_lt fun pre post heq hne =>
      Bool.eq_false_iff.mpr fun hended => hne ((hend pre post heq).mp hended)
  refine ⟨r, fuel₀ + 1, fun fuel hfuel => ?_, hiff⟩
  have hrest := hrun (fuel₀ + 1) (by omega) fuel (by omega)
  rwa [resume_of_nil rfl] at hrest

/-- The data is restored exactly if the callback always consumes something of a full buffer and
leaves so much of it that an `int` can count it, and if, when `z_buf_uncompress_end` is called, the
decompressor holds no output any more and the buffer holds an `int` of bytes. -/
theorem zbuf_restores_iff {size : UInt32} {parts : List (List UInt8)}
    (hcb : Consumes processOutput) (hpos : 0 < size.toNat) (hend : I.Complete parts.flatten)
    (junk : Nat → UInt8) (opaq : τ) :
    Restores I processOutput (uncompressInit I size junk opaq) parts ↔
      ∀ zc parts', Reaches I processOutput (uncompressInit I size junk opaq) parts zc parts' →
        Keeps processOutput zc parts' := by
  obtain ⟨r, fuel₀, hrun, hiff⟩ := uncompressAll_spec hcb hpos hend junk opaq
  rw [← hiff]
  constructor
  · rintro ⟨zc', fuel₁, hrun', hdata⟩
    refine ⟨zc', ?_, hdata⟩
    exact (hrun (max fuel₀ fuel₁) (Nat.le_max_left _ _)).symm.trans
      (hrun' (max fuel₀ fuel₁) (Nat.le_max_right _ _))
  · rintro ⟨zc', rfl, hdata⟩
    exact ⟨zc', fuel₀, hrun, hdata⟩

def doubler (n : Nat) : Inflater Nat where
  start := 0
  byte s b := (s + 1, [b, b])
  ended s := decide (s = n)
  takes _ _ input _ := input.length
  greedy _ _ _ _ := Or.inl (Nat.le_refl _)

theorem doubler_complete (data : List UInt8) : (doubler data.length).Complete data := by
  have hstate : ∀ s bytes, (feedBytes (doubler data.length).byte s bytes).1 = s + bytes.length := by
    intro s bytes
    induction bytes generalizing s with
    | nil => rfl
    | cons b bytes ih =>
      rw [feedBytes, ih, length_cons]
      exact Nat.add_right_comm s 1 bytes.length
  intro pre post h
  have hlen : data.length = pre.length + post.length := by rw [h, length_append]
  rw [hstate, ← length_eq_zero_iff]
  change decide (0 + pre.length = data.length) = true ↔ _
  rw [decide_eq_true_iff, hlen]
  omega

theorem zbuf_restores_two_bytes :
    Restores (doubler 2) eager (uncompressInit (doubler 2) 4 (fun _ => 0) ()) [[7], [], [8]] ∧
      ∀ zc parts', Reaches (doubler 2) eager (uncompressInit (doubler 2) 4 (fun _ => 0) ())
        [[7], [], [8]] zc parts' → Keeps eager zc parts' := by
  have hend : (doubler 2).Complete [[7], [], [8]].flatten := doubler_complete [7, 8]
  have hrestores : Restores (doubler 2) eager (uncompressInit (doubler 2) 4 (fun _ => 0) ())
      [[7], [], [8]] := by
    obtain ⟨r, fuel₀, hrun, -⟩ := uncompressAll_spec eager_consumes
      (show 0 < (4 : UInt32).toNat by decide) hend (fun _ => 0) ()
    have hall : (uncompressAll (doubler 2) eager (fuel₀ + 2)
        (uncompressInit (doubler 2) 4 (fun _ => 0) ()) [[7], [], [8]]).map
          (fun p => (p.1, p.2.consumed)) = some (.ok, [7, 7, 8, 8]) := rfl
    rw [hrun (fuel₀ + 2) (Nat.le_add_right _ _)] at hall
    obtain ⟨⟨err, zc'⟩, rfl, heq⟩ := Option.map_eq_some_iff.mp hall
    obtain ⟨rfl, hdata⟩ := Prod.mk.inj heq
    exact ⟨zc', fuel₀, hrun, hdata⟩
  exact ⟨hrestores, (zbuf_restores_iff eager_consumes (by decide) hend _ _).mp hrestores⟩

/-- One byte that makes two, and a buffer of one byte: the second one stays in the decompressor. -/
theorem zbuf_loses_pending_byte :
    Consumes eager ∧ (doubler 1).Complete [[7]].flatten ∧
      ¬Restores (doubler 1) eager (uncompressInit (doubler 1) 1 (fun _ => 0) ()) [[7]] := by
  refine ⟨eager_consumes, doubler_complete [7], ?_⟩
  rintro ⟨zc', fuel₀, hrun, hdata⟩
  have hall := hrun (fuel₀ + 2) (Nat.le_add_right _ _)
  have hone : (uncompressAll (doubler 1) eager (fuel₀ + 2)
      (uncompressInit (doubler 1) 1 (fun _ => 0) ()) [[7]]).map (fun p => p.2.consumed) =
        some [7] := rfl
  rw [hall, Option.map_some, hdata] at hone
  exact absurd (Option.some.inj hone) (by decide)

end PortableLib.ZBuf
