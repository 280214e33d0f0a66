import Mathlib.Data.List.GetD
import Mathlib.Data.Nat.Bitwise
import PortableLib.Lib.Block

/-! Hex dumps of a stream of pieces, `hexdump.c`. A session keeps the writer and the flags; the
offset is a local of every write. -/

namespace PortableLib.Hexdump
open List

def hexchars : List UInt8 :=
  [0x30, 0x31, 0x32, 0x33, 0x34, 0x35, 0x36, 0x37, 0x38, 0x39, 0x61, 0x62, 0x63, 0x64, 0x65, 0x66]

def doByte (v : UInt8) : List UInt8 :=
  [hexchars.getD (v >>> 4).toNat 0, hexchars.getD (v &&& 0x0f).toNat 0]

def encodeInt (z : UInt64) : List UInt8 :=
  doByte (z >>> 56).toUInt8 ++ doByte (z >>> 48).toUInt8 ++ doByte (z >>> 40).toUInt8 ++
    doByte (z >>> 32).toUInt8 ++ doByte (z >>> 24).toUInt8 ++ doByte (z >>> 16).toUInt8 ++
    doByte (z >>> 8).toUInt8 ++ doByte (z &&& 0xff).toUInt8

def store (bb : Block UInt8) (ptr : Nat) (s : List UInt8) : Option (Block UInt8) :=
  bb.copy ptr ⟨s.length, fun i => s.getD i 0⟩ s.length

def isprint (c : UInt8) : Bool := 0x20 ≤ c && c ≤ 0x7e

def rowLoop : List UInt8 → Nat → Nat → Nat → Block UInt8 → Option (Nat × Block UInt8)
  | [], _, _, ascii, bb => some (ascii, bb)
  | c :: p, z, ptr, ascii, bb => do
    let bb ← store bb ptr (doByte c)
    let bb ← store bb ascii [if isprint c then c else 0x2e]
    let bb ← store bb (ptr + 2) [0x20]
    if z = 7 ∨ z = 15 then
      let bb ← store bb (ptr + 3) [0x20]
      rowLoop p (z + 1) (ptr + 4) (ascii + 1) bb
    else rowLoop p (z + 1) (ptr + 3) (ascii + 1) bb

def row (p : List UInt8) (bb : Block UInt8) : Option (List UInt8) := do
  let bb ← store bb 16 [0x20, 0x20]
  let ascii := 16 + 2 + 1 + (8 * 2 + 7) * 2 + 4
  let bb ← store bb ascii [0x7c]
  let (ascii, bb) ← rowLoop p 0 (16 + 2) (ascii + 1) bb
  let bb ← store bb ascii [0x7c, 0x0a, 0]
  bb.first (ascii + 2)

def line (off : UInt64) (p : List UInt8) : Option (List UInt8) := do
  let bb ← store ⟨128, fun _ => 0x20⟩ 0 (encodeInt off)
  row p bb

structure HexDumper (σ : Type) where
  out : σ → List UInt8 → Int × σ
  ctx : σ
  flags : UInt32

def hexDumpPtr : UInt32 := 1

variable {σ : Type}

def hexDumpInit (out : σ → List UInt8 → Int × σ) (ctx : σ) (flags : UInt32) : HexDumper σ :=
  ⟨out, ctx, flags⟩

/-- The loop of `hex_dump_write`, and what the writer makes of its context. -/
def dumpLoop (out : σ → List UInt8 → Int × σ) (off : UInt64) (p : List UInt8) (ctx : σ) :
    Option (Int × σ) :=
  match p with
  | [] => some (0, ctx)
  | c :: cs => do
    let bb ← line off ((c :: cs).take 16)
    let (r, ctx) := out ctx bb
    if r < 0 then return (r, ctx)
    dumpLoop out (off + 16) ((c :: cs).drop 16) ctx
termination_by p.length
decreasing_by simp only [length_drop, length_cons]; omega

def hexDumpWrite (d : HexDumper σ) (p : UInt64) (buf : List UInt8) :
    Option (Int × HexDumper σ) := do
  let off := if 0 < hexDumpPtr &&& d.flags then p else 0
  let (r, ctx) ← dumpLoop d.out off buf d.ctx
  return (r, { d with ctx := ctx })

def collect (text bb : List UInt8) : Int × List UInt8 := (0, text ++ bb)

/-- The text of a session that writes the pieces one by one; each comes with its address. Closing
the session adds nothing. -/
def session (flags : UInt32) (pieces : List (UInt64 × List UInt8)) : Option (List UInt8) := do
  let d ← pieces.foldlM (fun d piece => (hexDumpWrite d piece.1 piece.2).map Prod.snd)
    (hexDumpInit collect [] flags)
  return d.ctx

/-- The session gives the text of one write of the whole data. -/
def Continuous (pieces : List (UInt64 × List UInt8)) : Prop :=
  ∀ p, session 0 pieces = session 0 [(p, pieces.flatMap Prod.snd)]

/-- Two buffers that differ in nothing but the offset. -/
structure Agree (b b' : Block UInt8) : Prop where
  len : b.len = 128
  len' : b'.len = 128
  cells : ∀ i, 16 ≤ i → b.cells i = b'.cells i

variable {b b' : Block UInt8} {s p : List UInt8} {i z ptr ascii : Nat}

theorem length_doByte (v : UInt8) : (doByte v).length = 2 := rfl

theorem store_of_le (h : i + s.length ≤ b.len) : store b i s = some { b with
    cells := fun j => if i ≤ j ∧ j < i + s.length then s.getD (j - i) 0 else b.cells j } :=
  Block.copy_of_le h (Nat.le_refl _)

theorem Agree.store (h : Agree b b') (hi : 16 ≤ i) (hlen : i + s.length ≤ 128) :
    ∃ c c', store b i s = some c ∧ store b' i s = some c' ∧ Agree c c' ∧
      (∀ j < 16, c.cells j = b.cells j) ∧ ∀ j < 16, c'.cells j = b'.cells j := by
  refine ⟨_, _, store_of_le (h.len ▸ hlen), store_of_le (h.len' ▸ hlen),
    ⟨h.len, h.len', ?_⟩, ?_, ?_⟩
  · intro j hj
    dsimp only
    rw [h.cells j hj]
  · exact fun j hj => if_neg (by omega)
  · exact fun j hj => if_neg (by omega)

theorem Agree.rowLoop (h : Agree b b') (z : Nat) (hptr : 16 ≤ ptr) (hascii : 16 ≤ ascii)
    (hroom : ptr + 4 * p.length ≤ 128) (hroom' : ascii + p.length + 3 ≤ 128) :
    ∃ c c', rowLoop p z ptr ascii b = some (ascii + p.length, c) ∧
      rowLoop p z ptr ascii b' = some (ascii + p.length, c') ∧ Agree c c' ∧
      (∀ j < 16, c.cells j = b.cells j) ∧ ∀ j < 16, c'.cells j = b'.cells j := by
  induction p generalizing b b' z ptr ascii with
  | nil => exact ⟨b, b', rfl, rfl, h, fun _ _ => rfl, fun _ _ => rfl⟩
  | cons x p ih =>
    rw [length_cons] at hroom hroom'
    have hbyte := length_doByte x
    obtain ⟨c₁, c₁', e₁, e₁', h₁, l₁, l₁'⟩ := h.store (s := doByte x) hptr (by omega)
    obtain ⟨c₂, c₂', e₂, e₂', h₂, l₂, l₂'⟩ :=
      h₁.store (s := [if isprint x then x else 0x2e]) hascii (by rw [length_singleton]; omega)
    obtain ⟨c₃, c₃', e₃, e₃', h₃, l₃, l₃'⟩ :=
      h₂.store (i := ptr + 2) (s := [0x20]) (by omega) (by rw [length_singleton]; omega)
    have hlow : ∀ j < 16, c₃.cells j = b.cells j := fun j hj => by rw [l₃ j hj, l₂ j hj, l₁ j hj]
    have hlow' : ∀ j < 16, c₃'.cells j = b'.cells j :=
      fun j hj => by rw [l₃' j hj, l₂' j hj, l₁' j hj]
    simp only [Hexdump.rowLoop, e₁, e₁', e₂, e₂', e₃, e₃', Option.bind_eq_bind, Option.bind_some]
    rw [length_cons, show ascii + (p.length + 1) = ascii + 1 + p.length by omega]
    split_ifs with hz
    · obtain ⟨c₄, c₄', e₄, e₄', h₄, l₄, l₄'⟩ :=
        h₃.store (i := ptr + 3) (s := [0x20]) (by omega) (by rw [length_singleton]; omega)
      obtain ⟨c, c', e, e', hc, l, l'⟩ :=
        @ih _ _ (ptr + 4) (ascii + 1) h₄ (z + 1) (by omega) (by omega) (by omega) (by omega)
      rw [e₄, e₄', Option.bind_some, Option.bind_some]
      exact ⟨c, c', e, e', hc, fun j hj => by rw [l j hj, l₄ j hj, hlow j hj],
        fun j hj => by rw [l' j hj, l₄' j hj, hlow' j hj]⟩
    · obtain ⟨c, c', e, e', hc, l, l'⟩ :=
        @ih _ _ (ptr + 3) (ascii + 1) h₃ (z + 1) (by omega) (by omega) (by omega) (by omega)
      exact ⟨c, c', e, e', hc, fun j hj => by rw [l j hj, hlow j hj],
        fun j hj => by rw [l' j hj, hlow' j hj]⟩

theorem Agree.row (h : Agree b b') (hp : p.length ≤ 16) :
    ∃ t, row p b = some ((range 16).map b.cells ++ t) ∧
      row p b' = some ((range 16).map b'.cells ++ t) := by
  obtain ⟨c₁, c₁', e₁, e₁', h₁, l₁, l₁'⟩ :=
    h.store (i := 16) (s := [0x20, 0x20]) (Nat.le_refl 16) (by decide)
  obtain ⟨c₂, c₂', e₂, e₂', h₂, l₂, l₂'⟩ :=
    h₁.store (i := 16 + 2 + 1 + (8 * 2 + 7) * 2 + 4) (s := [0x7c]) (by decide) (by decide)
  obtain ⟨c₃, c₃', e₃, e₃', h₃, l₃, l₃'⟩ :=
    @rowLoop _ _ p (16 + 2) (16 + 2 + 1 + (8 * 2 + 7) * 2 + 4 + 1) h₂ 0 (by decide) (by decide)
      (by omega) (by omega)
  generalize ha : 16 + 2 + 1 + (8 * 2 + 7) * 2 + 4 + 1 + p.length = a at e₃ e₃'
  have hend : a + [(0x7c : UInt8), 0x0a, 0].length ≤ 128 := by
    rw [show [(0x7c : UInt8), 0x0a, 0].length = 3 from rfl]
    omega
  obtain ⟨c, c', e, e', hc, l, l'⟩ := h₃.store (i := a) (by omega) hend
  have hsplit : ∀ d : Block UInt8, d.len = 128 → d.first (a + 2) = some
      ((range 16).map d.cells ++ (range (a + 2 - 16)).map fun i => d.cells (16 + i)) := by
    intro d hd
    rw [Block.first_of_le (by omega), ← map_range_add (fun _ _ => rfl) (fun _ _ => rfl),
      Nat.add_sub_cancel' (by omega)]
  refine ⟨(range (a + 2 - 16)).map fun i => c.cells (16 + i), ?_, ?_⟩
  · simp only [Hexdump.row, e₁, e₂, e₃, e, Option.bind_eq_bind, Option.bind_some]
    rw [hsplit c hc.len]
    congr 2
    exact map_range_congr fun j hj => by rw [l j hj, l₃ j hj, l₂ j hj, l₁ j hj]
  · simp only [Hexdump.row, e₁', e₂', e₃', e', Option.bind_eq_bind, Option.bind_some]
    rw [hsplit c' hc.len']
    congr 2
    · exact map_range_congr fun j hj => by rw [l' j hj, l₃' j hj, l₂' j hj, l₁' j hj]
    · exact map_range_congr fun j _ => (hc.cells _ (Nat.le_add_right 16 j)).symm

theorem length_encodeInt (off : UInt64) : (encodeInt off).length = 16 := rfl

theorem line_spec (hp : p.length ≤ 16) :
    ∃ t, ∀ off, line off p = some (encodeInt off ++ t) := by
  have hstart : ∀ off, ∃ b, store ⟨128, fun _ => 0x20⟩ 0 (encodeInt off) = some b ∧ b.len = 128 ∧
      (range 16).map b.cells = encodeInt off ∧ ∀ i, 16 ≤ i → b.cells i = 0x20 := by
    intro off
    refine ⟨_, store_of_le (by rw [length_encodeInt]; decide), rfl, ?_, ?_⟩
    · apply ext_getElem
      · rw [length_map, length_range, length_encodeInt]
      · intro i _ hi
        rw [length_encodeInt] at hi
        rw [getElem_map, getElem_range]
        dsimp only
        rw [length_encodeInt, if_pos (by omega), Nat.sub_zero, getD_eq_getElem]
    · intro i hi
      dsimp only
      rw [length_encodeInt, if_neg (by omega)]
  obtain ⟨b₀, e₀, hlen₀, hoff₀, hrest₀⟩ := hstart 0
  have hone : ∀ off, ∃ t, line 0 p = some (encodeInt 0 ++ t) ∧
      line off p = some (encodeInt off ++ t) := by
    intro off
    obtain ⟨b, e, hlen, hoff, hrest⟩ := hstart off
    have hagree : Agree b₀ b :=
      ⟨hlen₀, hlen, fun i hi => (hrest₀ i hi).trans (hrest i hi).symm⟩
    obtain ⟨t, ht₀, ht⟩ := hagree.row hp
    refine ⟨t, ?_, ?_⟩
    · rw [line, e₀, Option.bind_eq_bind, Option.bind_some, ht₀, hoff₀]
    · rw [line, e, Option.bind_eq_bind, Option.bind_some, ht, hoff]
  obtain ⟨t, ht₀, -⟩ := hone 0
  refine ⟨t, fun off => ?_⟩
  obtain ⟨t', ht', hoff⟩ := hone off
  rw [ht₀, Option.some.injEq, append_cancel_left_eq] at ht'
  rw [hoff, ht']

@[simp] def dump (off : UInt64) (data : List UInt8) : List UInt8 :=
  match data with
  | [] => []
  | c :: cs => (line off ((c :: cs).take 16)).getD [] ++ dump (off + 16) ((c :: cs).drop 16)
termination_by data.length
decreasing_by simp only [length_drop, length_cons]; omega

variable {off : UInt64} {data : List UInt8} {pieces : List (UInt64 × List UInt8)}

theorem dump_nil (off : UInt64) : dump off [] = [] := by rw [dump]

theorem dump_cons (off : UInt64) (c : UInt8) (cs : List UInt8) : dump off (c :: cs) =
    (line off ((c :: cs).take 16)).getD [] ++ dump (off + 16) ((c :: cs).drop 16) := by rw [dump]

theorem dumpLoop_collect (off : UInt64) (data text : List UInt8) :
    dumpLoop collect off data text = some (0, text ++ dump off data) := by
  induction off, data, text using dumpLoop.induct with
  | case1 off text => rw [dumpLoop, dump_nil, append_nil]
  | case2 off text c cs ih =>
    obtain ⟨t, ht⟩ := line_spec (p := (c :: cs).take 16) (by rw [length_take]; omega)
    rw [dumpLoop, dump_cons, ht, Option.bind_eq_bind, Option.bind_some, Option.getD_some, collect]
    dsimp only
    rw [if_neg (by decide), ih, append_assoc]

theorem hexDumpWrite_collect (text : List UInt8) (p : UInt64) (buf : List UInt8) :
    hexDumpWrite (hexDumpInit collect text 0) p buf =
      some (0, hexDumpInit collect (text ++ dump 0 buf) 0) := by
  rw [hexDumpInit, hexDumpWrite]
  dsimp only
  rw [if_neg (by decide), dumpLoop_collect]
  rfl

theorem session_eq (pieces : List (UInt64 × List UInt8)) :
    session 0 pieces = some (pieces.flatMap fun piece => dump 0 piece.2) := by
  have hrun : ∀ text, (pieces.foldlM (fun d piece => (hexDumpWrite d piece.1 piece.2).map Prod.snd)
      (hexDumpInit collect text 0)) =
        some (hexDumpInit collect (text ++ pieces.flatMap fun piece => dump 0 piece.2) 0) := by
    induction pieces with
    | nil => intro text; rw [foldlM_nil, flatMap_nil, append_nil]; rfl
    | cons piece pieces ih =>
      intro text
      rw [foldlM_cons, hexDumpWrite_collect, Option.map_some, Option.bind_eq_bind,
        Option.bind_some, ih, flatMap_cons, append_assoc]
  rw [session, hrun, Option.bind_eq_bind, Option.bind_some, hexDumpInit, nil_append]
  rfl

theorem dump_append (hdvd : 16 ∣ data.length) (rest : List UInt8) :
    dump off (data ++ rest) = dump off data ++ dump (off + UInt64.ofNat data.length) rest := by
  induction off, data using dump.induct with
  | case1 off => rw [nil_append, dump_nil, nil_append, length_nil]; simp
  | case2 off c cs ih =>
    obtain ⟨k, hk⟩ := hdvd
    have hlen : 16 ≤ (c :: cs).length := by
      rw [length_cons] at hk ⊢
      omega
    have hdrop : ((c :: cs).drop 16).length = 16 * (k - 1) := by
      rw [length_drop, hk]
      omega
    have hoff : off + UInt64.ofNat (c :: cs).length =
        off + 16 + UInt64.ofNat ((c :: cs).drop 16).length := by
      rw [length_drop, UInt64.add_assoc, show (16 : UInt64) = UInt64.ofNat 16 from rfl,
        ← UInt64.ofNat_add, Nat.add_sub_cancel' hlen]
    rw [cons_append, dump_cons, ← cons_append, take_append_of_le_length hlen,
      drop_append_of_le_length hlen, ih ⟨k - 1, hdrop⟩, ← append_assoc, ← dump_cons, hoff]

theorem dump_head (h : data ≠ []) (off : UInt64) : ∃ t, dump off data = encodeInt off ++ t := by
  obtain ⟨c, cs, rfl⟩ := exists_cons_of_ne_nil h
  obtain ⟨t, ht⟩ := line_spec (p := (c :: cs).take 16) (by rw [length_take]; omega)
  refine ⟨t ++ dump (off + 16) ((c :: cs).drop 16), ?_⟩
  rw [dump_cons, ht, Option.getD_some, append_assoc]

set_option maxRecDepth 4000 in
theorem doByte_checked : ∀ n < 256, doByte (UInt8.ofNat n) = doByte 0 → n = 0 := by
  decide

theorem doByte_zero {v : UInt8} (h : doByte v = doByte 0) : v.toNat = 0 :=
  doByte_checked v.toNat v.toNat_lt (by rw [UInt8.ofNat_toNat]; exact h)

theorem toNat_byte {z s : UInt64} {k : Nat} (hs : s.toNat = 8 * k) (hk : k < 8) :
    (z >>> s).toUInt8.toNat = z.toNat / 256 ^ k % 256 := by
  have hshift : s.toNat % 64 = 8 * k := by omega
  rw [UInt64.toNat_toUInt8, UInt64.toNat_shiftRight, hshift, Nat.shiftRight_eq_div_pow, Nat.pow_mul]

theorem eq_zero_of_bytes {n k : Nat} (hn : n < 256 ^ k)
    (h : ∀ i < k, n / 256 ^ i % 256 = 0) : n = 0 := by
  induction k with
  | zero => exact Nat.lt_one_iff.mp hn
  | succ k ih =>
    have hbyte : n / 256 ^ k < 256 := Nat.div_lt_of_lt_mul (hn.trans_eq (Nat.pow_succ _ _))
    have htop : n / 256 ^ k = 0 := (Nat.mod_eq_of_lt hbyte).symm.trans (h k (Nat.lt_succ_self k))
    have hlow : n < 256 ^ k := (Nat.div_eq_zero_iff_lt (Nat.pow_pos (by decide))).mp htop
    exact ih hlow fun i hi => h i (Nat.lt_succ_of_lt hi)

theorem encodeInt_zero (h : encodeInt off = encodeInt 0) : off = 0 := by
  have hbyte : ∀ {s : UInt64} {k : Nat}, s.toNat = 8 * k → k < 8 →
      doByte (off >>> s).toUInt8 = doByte 0 → off.toNat / 256 ^ k % 256 = 0 :=
    fun hs hk h => (toNat_byte hs hk).symm.trans (doByte_zero h)
  have hlen : ∀ v w, (doByte v).length = (doByte w).length :=
    fun v w => (length_doByte v).trans (length_doByte w).symm
  simp only [encodeInt, append_assoc] at h
  obtain ⟨h7, h⟩ := append_inj h (hlen _ _)
  obtain ⟨h6, h⟩ := append_inj h (hlen _ _)
  obtain ⟨h5, h⟩ := append_inj h (hlen _ _)
  obtain ⟨h4, h⟩ := append_inj h (hlen _ _)
  obtain ⟨h3, h⟩ := append_inj h (hlen _ _)
  obtain ⟨h2, h⟩ := append_inj h (hlen _ _)
  obtain ⟨h1, h0⟩ := append_inj h (hlen _ _)
  have hlow : off.toNat % 256 = 0 := by
    have hzero := doByte_zero h0
    rwa [UInt64.toNat_toUInt8, UInt64.toNat_and,
      show (0xff : UInt64).toNat = 2 ^ 8 - 1 from rfl, Nat.and_two_pow_sub_one_eq_mod,
      Nat.mod_mod] at hzero
  refine UInt64.toNat_inj.mp ((eq_zero_of_bytes (k := 8) off.toNat_lt ?_).trans
    UInt64.toNat_zero.symm)
  intro i hi
  match i, hi with
  | 0, _ => rwa [Nat.pow_zero, Nat.div_one]
  | 1, hi => exact hbyte rfl hi h1
  | 2, hi => exact hbyte rfl hi h2
  | 3, hi => exact hbyte rfl hi h3
  | 4, hi => exact hbyte rfl hi h4
  | 5, hi => exact hbyte rfl hi h5
  | 6, hi => exact hbyte rfl hi h6
  | 7, hi => exact hbyte rfl hi h7

theorem restart (hne : ∃ piece ∈ pieces, piece.2 ≠ []) {off : UInt64} (hoff : off ≠ 0) :
    (pieces.flatMap fun piece => dump 0 piece.2) ≠ dump off (pieces.flatMap Prod.snd) := by
  have hleft : ∃ t, (pieces.flatMap fun piece => dump 0 piece.2) = encodeInt 0 ++ t := by
    induction pieces with
    | nil =>
      obtain ⟨piece, hmem, -⟩ := hne
      exact absurd hmem not_mem_nil
    | cons piece pieces ih =>
      rw [flatMap_cons]
      by_cases hempty : piece.2 = []
      · rw [hempty, dump_nil, nil_append]
        obtain ⟨q, hq, hq2⟩ := hne
        refine ih ⟨q, (mem_cons.mp hq).resolve_left ?_, hq2⟩
        rintro rfl
        exact hq2 hempty
      · obtain ⟨t, ht⟩ := dump_head hempty 0
        rw [ht, append_assoc]
        exact ⟨_, rfl⟩
  obtain ⟨t, ht⟩ := hleft
  have hdata : pieces.flatMap Prod.snd ≠ [] := by
    obtain ⟨piece, hmem, hpiece⟩ := hne
    intro hnil
    exact hpiece (flatMap_eq_nil_iff.mp hnil piece hmem)
  obtain ⟨t', ht'⟩ := dump_head hdata off
  rw [ht, ht']
  intro heq
  have hlen : (encodeInt 0).length = (encodeInt off).length :=
    (length_encodeInt 0).trans (length_encodeInt off).symm
  exact hoff (encodeInt_zero (append_inj heq hlen).1.symm)

def filled (pieces : List (UInt64 × List UInt8)) : List (UInt64 × List UInt8) :=
  pieces.filter fun piece => piece.2 ≠ []

theorem dumps_eq_iff (hdvd : ∀ piece ∈ pieces.dropLast, 16 ∣ piece.2.length)
    (hsize : (pieces.flatMap Prod.snd).length < 2 ^ 64) :
    (pieces.flatMap fun piece => dump 0 piece.2) = dump 0 (pieces.flatMap Prod.snd) ↔
      (filled pieces).length ≤ 1 := by
  induction pieces with
  | nil => exact iff_of_true (by rw [flatMap_nil, flatMap_nil, dump_nil]) (Nat.zero_le 1)
  | cons piece pieces ih =>
    rw [flatMap_cons, length_append] at hsize
    rw [flatMap_cons, flatMap_cons, filled, filter_cons]
    by_cases hempty : piece.2 = []
    · have hrest : ∀ q ∈ pieces.dropLast, 16 ∣ q.2.length := by
        intro q hq
        refine hdvd q ?_
        rw [dropLast_cons_of_ne_nil (ne_nil_of_mem (dropLast_subset _ hq))]
        exact mem_cons_of_mem _ hq
      rw [hempty, dump_nil, nil_append, nil_append, if_neg (by simp), ← filled]
      exact ih hrest (by omega)
    · rw [if_pos (by simpa using hempty), ← filled, length_cons]
      -- a later piece with bytes in it starts again at offset zero
      by_cases hmore : filled pieces = []
      · have hnone : ∀ q ∈ pieces, q.2 = [] := by
          intro q hq
          have hq' := filter_eq_nil_iff.mp hmore q hq
          simpa using hq'
        have hdump : (pieces.flatMap fun q => dump 0 q.2) = [] :=
          flatMap_eq_nil_iff.mpr fun q hq => by rw [hnone q hq, dump_nil]
        have hdata : pieces.flatMap Prod.snd = [] := flatMap_eq_nil_iff.mpr hnone
        rw [hdump, hdata, append_nil, append_nil, hmore]
        exact iff_of_true rfl (Nat.le_refl 1)
      · have hpos : 0 < (filled pieces).length := length_pos_iff.mpr hmore
        obtain ⟨q, hq⟩ := exists_mem_of_ne_nil _ hmore
        obtain ⟨hq, hq2⟩ := mem_filter.mp hq
        have hlen : 16 ∣ piece.2.length := by
          refine hdvd piece ?_
          rw [dropLast_cons_of_ne_nil (ne_nil_of_mem hq)]
          exact mem_cons_self
        have hoff : (0 : UInt64) + UInt64.ofNat piece.2.length ≠ 0 := by
          have hlenpos := length_pos_iff.mpr hempty
          intro hzero
          have hnat := congrArg UInt64.toNat hzero
          have hlt : piece.2.length < 2 ^ 64 := by omega
          rw [UInt64.zero_add, UInt64.toNat_ofNat_of_lt' hlt, UInt64.toNat_zero] at hnat
          omega
        rw [dump_append hlen]
        refine iff_of_false ?_ (by omega)
        rw [append_cancel_left_eq]
        exact restart ⟨q, hq, by simpa using hq2⟩ hoff

theorem continuous_iff_dumps : Continuous pieces ↔
    (pieces.flatMap fun piece => dump 0 piece.2) = dump 0 (pieces.flatMap Prod.snd) := by
  have hwhole : ∀ p, session 0 [(p, pieces.flatMap Prod.snd)] =
      some (dump 0 (pieces.flatMap Prod.snd)) := by
    intro p
    rw [session_eq, flatMap_singleton]
  constructor
  · intro h
    have heq := h 0
    rw [session_eq, hwhole] at heq
    exact Option.some.inj heq
  · intro heq p
    rw [session_eq, hwhole, heq]

/-- After a piece of 16 bytes the offsets start again. -/
theorem session_restarts : ¬ Continuous [(0, replicate 16 0), (16, [0])] := by
  intro h
  have hone := (dumps_eq_iff (by simp) (by decide)).mp (continuous_iff_dumps.mp h)
  exact absurd hone (by decide)

/-- A session is continuous exactly if at most one of its pieces has any data. -/
theorem continuous_iff (hdvd : ∀ piece ∈ pieces.dropLast, 16 ∣ piece.2.length)
    (hsize : (pieces.flatMap Prod.snd).length < 2 ^ 64) :
    Continuous pieces ↔ (filled pieces).length ≤ 1 := by
  rw [continuous_iff_dumps]
  exact dumps_eq_iff hdvd hsize

theorem continuous_full_and_one : Continuous [(0, replicate 16 0x41), (16, [])] ∧
    ¬ Continuous [(0, replicate 16 0x41), (16, [0x42])] :=
  ⟨(continuous_iff (by simp) (by decide)).mpr (by decide),
    fun h => absurd ((continuous_iff (by simp) (by decide)).mp h) (by decide)⟩

end PortableLib.Hexdump
