import PortableLib.Gstring.Gstr

/-! The operations on growable strings, one by one, and then any sequence of them. -/

namespace PortableLib.Gstring
open List TypeUtils

variable {b : Block UInt8} {l m : List UInt8} {g : Gstr} {junk : Nat → UInt8}

theorem Terminated.cell (h : Terminated b l) {i : Nat} (hi : i < l.length) : b.cells i = l[i] := by
  have hget := getElem_of_eq h.bytes.symm hi
  rw [hget, getElem_map, getElem_range]

theorem Terminated.cell_ne_zero (h : Terminated b l) {i : Nat} (hi : i < l.length) :
    b.cells i ≠ 0 := by
  rw [h.cell hi]
  exact fun h0 => h.nulFree (h0 ▸ getElem_mem hi)

theorem Terminated.read {p t : List UInt8} {c : UInt8} (h : Terminated b (p ++ c :: t)) :
    b.read p.length = some c := by
  have hlt : p.length < (p ++ c :: t).length := by
    rw [length_append, length_cons]
    omega
  rw [Block.read_of_lt (hlt.trans h.room), h.cell hlt, getElem_append_right (Nat.le_refl _)]
  simp only [Nat.sub_self, getElem_cons_zero]

theorem Terminated.read_end (h : Terminated b l) : b.read l.length = some 0 := by
  rw [Block.read_of_lt h.room, h.nul]

theorem Terminated.read_headD {p t : List UInt8} (h : Terminated b (p ++ t)) :
    b.read p.length = some (t.headD 0) := by
  cases t with
  | nil =>
    rw [append_nil] at h
    exact h.read_end
  | cons c t => exact h.read

theorem terminated_cstr (h : 0 ∉ l) : Terminated (cstr l) l where
  room := Nat.lt_succ_self _
  bytes := by
    apply List.ext_getElem
    · rw [length_map, length_range]
    · intro i h₁ h₂
      rw [getElem_map, getElem_range]
      exact getD_eq_getElem l 0 h₂
  nul := getD_eq_default l 0 (Nat.le_refl _)
  nulFree := h

theorem strlen_spec (h : Terminated b l) {fuel i : Nat} (hi : i ≤ l.length)
    (hfuel : l.length < i + fuel) : strlen b fuel i = some l.length := by
  induction fuel generalizing i with
  | zero => omega
  | succ fuel ih =>
    rw [strlen, Block.read_of_lt (hi.trans_lt h.room)]
    rcases hi.lt_or_eq with hlt | rfl
    · have hne := h.cell_ne_zero hlt
      simp only [Option.bind_eq_bind, Option.bind_some, if_neg hne]
      exact ih hlt (by omega)
    · simp only [Option.bind_eq_bind, Option.bind_some, h.nul, if_true]
      rfl

theorem toNat_nextPow2 {v : UInt64} (h0 : 0 < v.toNat) (h : v.toNat ≤ 2 ^ 63) :
    v.toNat ≤ (nextPow2 v).toNat := by
  obtain ⟨e, -, heq, hle⟩ := nextPow2_eq_two_pow (by decide) h0 h
  exact heq ▸ hle

theorem asInt_of_lt {n : UInt64} (h : n.toNat < 2 ^ 31) : asInt n = n := by
  have hlow : n.toUInt32.toNat = n.toNat := by
    rw [UInt64.toNat_toUInt32]
    omega
  have hlt : n.toUInt32 < 0x80000000 := by
    rw [UInt32.lt_iff_toNat_lt, hlow]
    exact h
  rw [asInt, if_pos hlt, ← UInt64.toNat_inj, UInt32.toNat_toUInt64, hlow]

theorem Holds.room (h : Holds g l) : g.len.toNat < g.cap.toNat :=
  h.len_eq ▸ h.block ▸ h.term.room

structure Text (g : Gstr) (l : List UInt8) : Prop where
  block : g.str.len = g.cap.toNat
  len_eq : g.len.toNat = l.length
  room : l.length < g.str.len
  bytes : (range l.length).map g.str.cells = l
  nul : g.str.cells l.length = 0

/-- `Holds` for a string of any length. -/
structure Carries (g : Gstr) (l : List UInt8) : Prop where
  block : g.str.len = g.cap.toNat
  len_eq : g.len.toNat = l.length
  term : Terminated g.str l

theorem Carries.text (h : Carries g l) : Text g l :=
  ⟨h.block, h.len_eq, h.term.room, h.term.bytes, h.term.nul⟩

theorem Text.carries (h : Text g l) (hnul : 0 ∉ l) : Carries g l :=
  ⟨h.block, h.len_eq, ⟨h.room, h.bytes, h.nul, hnul⟩⟩

theorem Holds.carries (h : Holds g l) : Carries g l := ⟨h.block, h.len_eq, h.term⟩

theorem Carries.holds (h : Carries g l) (hshort : l.length < 2 ^ 31) : Holds g l :=
  ⟨h.block, h.len_eq, h.term, hshort⟩

theorem Text.growIf (h : Text g l) {n : UInt64} {w : Gstr}
    (hw : Gstring.growIf junk g n = some w) : Text w l := by
  rw [Gstring.growIf] at hw
  by_cases hcap : g.cap < g.len + asInt n + 1
  · by_cases hzero : nextPow2 (g.len + asInt n + 1) = 0
    · simp only [if_pos hcap, if_pos hzero] at hw
      cases hw
    simp only [if_pos hcap, if_neg hzero] at hw
    obtain rfl := Option.some.inj hw
    have hle : g.cap.toNat ≤ (nextPow2 (g.len + asInt n + 1)).toNat := by
      by_cases hbig : 2 ^ 63 < (g.len + asInt n + 1).toNat
      · exact absurd (nextPow2_eq_zero hbig) hzero
      have hlt := UInt64.lt_iff_toNat_lt.mp hcap
      exact hlt.le.trans (toNat_nextPow2 (by omega) (by omega))
    have hcells : ∀ i, i ≤ l.length →
        (g.str.realloc (nextPow2 (g.len + asInt n + 1)).toNat junk).cells i = g.str.cells i :=
      fun i hi => if_pos (hi.trans_lt h.room)
    refine ⟨rfl, h.len_eq, ?_, ?_, ?_⟩
    · exact (h.block ▸ h.room).trans_le hle
    · exact (map_range_congr fun i hi => hcells i hi.le).trans h.bytes
    · exact (hcells _ (Nat.le_refl _)).trans h.nul
  · simp only [if_neg hcap] at hw
    obtain rfl := Option.some.inj hw
    exact h

theorem Text.growIf_fits (junk : Nat → UInt8) (h : Text g l) {n : UInt64}
    (hn : n.toNat < 2 ^ 31) (hfit : l.length + n.toNat + 1 ≤ 2 ^ 63) :
    ∃ g', Gstring.growIf junk g n = some g' ∧ Text g' l ∧
      l.length + n.toNat < g'.cap.toNat := by
  have hlen := h.len_eq
  have hwant : (g.len + n + 1).toNat = l.length + n.toNat + 1 := by
    rw [UInt64.toNat_add, UInt64.toNat_add, show (1 : UInt64).toNat = 1 from rfl]
    omega
  by_cases hcap : g.cap < g.len + n + 1
  · have hge := toNat_nextPow2 (v := g.len + n + 1) (by omega) (by omega)
    have hne : nextPow2 (g.len + n + 1) ≠ 0 := by
      intro h0
      rw [h0, hwant] at hge
      exact absurd hge (by change ¬_ ≤ 0; omega)
    have hgrow : Gstring.growIf junk g n =
        some ⟨g.str.realloc (nextPow2 (g.len + n + 1)).toNat junk, g.len,
          nextPow2 (g.len + n + 1)⟩ := by
      rw [Gstring.growIf, asInt_of_lt hn]
      simp only [if_pos hcap, if_neg hne]
    refine ⟨_, hgrow, h.growIf hgrow, ?_⟩
    change _ < (nextPow2 (g.len + n + 1)).toNat
    omega
  · have hgrow : Gstring.growIf junk g n = some g := by
      rw [Gstring.growIf, asInt_of_lt hn]
      simp only [if_neg hcap]
    refine ⟨g, hgrow, h, ?_⟩
    rw [UInt64.lt_iff_toNat_lt] at hcap
    omega

/-! ## Making strings -/

theorem toNat_ofNat {n : Nat} (h : n < 2 ^ 31) : (UInt64.ofNat n).toNat = n :=
  UInt64.toNat_ofNat_of_lt' (by change n < 2 ^ 64; omega)

theorem initGstr_cap {n : UInt64} (hn : n.toNat < 2 ^ 63) :
    n.toNat < (nextPow2 ((if n = 0 then 63 else n) + 1)).toNat := by
  have hne : 0 < (if n = 0 then 63 else n : UInt64).toNat ∧
      (if n = 0 then 63 else n : UInt64).toNat < 2 ^ 63 ∧
      n.toNat ≤ (if n = 0 then 63 else n : UInt64).toNat := by
    split
    case isTrue h0 =>
      rw [h0]
      decide
    case isFalse h0 =>
      exact ⟨Nat.pos_of_ne_zero fun hz => h0 (UInt64.toNat_inj.mp hz), hn, Nat.le_refl _⟩
  generalize (if n = 0 then 63 else n : UInt64) = k at hne
  have hsucc : (k + 1).toNat = k.toNat + 1 := by
    rw [UInt64.toNat_add, show (1 : UInt64).toNat = 1 from rfl]
    omega
  have hge := toNat_nextPow2 (v := k + 1) (by omega) (by omega)
  omega

theorem gstrInit_spec {size : UInt64} (hsize : size.toNat < 2 ^ 63) :
    ∃ g, gstrInit size = some g ∧ Holds g [] :=
  ⟨_, rfl, rfl, rfl, ⟨(Nat.zero_le _).trans_lt (initGstr_cap hsize), rfl, rfl, not_mem_nil⟩,
    by decide⟩

theorem initGstr_spec {n : UInt64} (h : Terminated b l) (hn : n.toNat = l.length)
    (hshort : l.length < 2 ^ 31) : ∃ g, initGstr n (some b) = some g ∧ Holds g l := by
  have hcap := initGstr_cap (n := n) (by omega)
  have hlen := strlen_spec h (Nat.zero_le _) (by rw [Nat.zero_add]; exact h.room)
  have hroom : 0 + (l.length + 1) ≤
      (⟨(nextPow2 ((if n = 0 then 63 else n) + 1)).toNat, fun _ => 0⟩ : Block UInt8).len := by
    change 0 + (l.length + 1) ≤ (nextPow2 _).toNat
    omega
  obtain ⟨str, hstr, hsl, -, hnew⟩ := Block.copy_spec hroom h.room
  have hcells : ∀ i, i ≤ l.length → str.cells i = b.cells i := by
    intro i hi
    have hi' := hnew i (Nat.lt_succ_of_le hi)
    rwa [Nat.zero_add] at hi'
  refine ⟨⟨str, UInt64.ofNat l.length, nextPow2 ((if n = 0 then 63 else n) + 1)⟩, ?_,
    hsl, toNat_ofNat hshort, ⟨?_, ?_, ?_, h.nulFree⟩, hshort⟩
  · simp only [initGstr, hlen, Option.bind_eq_bind, Option.bind_some, hstr]
    rfl
  · rw [hsl]
    change l.length < (nextPow2 _).toNat
    omega
  · exact (map_range_congr fun i hi => hcells i hi.le).trans h.bytes
  · exact (hcells _ (Nat.le_refl _)).trans h.nul

/-! ## Appending -/

theorem Text.appended (h : Text g l)
    (hbytes : (range m.length).map b.cells = m) (hnul : b.cells m.length = 0) {len : UInt64}
    (hlen : len.toNat = m.length) (hmax : m.length + 1 < 2 ^ 64) {r : Gstr × UInt64}
    (hr : append junk g b len = some r) : Text r.1 (l ++ m) := by
  rw [append] at hr
  obtain ⟨w, hw, hr⟩ := Option.bind_eq_some_iff.mp hr
  have hwl := h.growIf hw
  obtain ⟨dst, hdst, hr⟩ := Option.bind_eq_some_iff.mp hr
  obtain rfl := Option.some.inj hr
  have hwlen := hwl.len_eq
  have hcap := w.cap.toNat_lt
  have hblock := hwl.block
  have hsucc : (len + 1).toNat = m.length + 1 := by
    rw [UInt64.toNat_add, show (1 : UInt64).toNat = 1 from rfl]
    omega
  have hcopy : w.len.toNat + (len + 1).toNat ≤ w.str.len ∧ (len + 1).toNat ≤ b.len := by
    by_contra hgt
    rw [Block.copy, if_neg hgt] at hdst
    cases hdst
  obtain ⟨dst', hdst', hdl, hold, hnew⟩ := Block.copy_spec hcopy.1 hcopy.2
  obtain rfl := Option.some.inj (hdst.symm.trans hdst')
  rw [hsucc, hwlen] at hnew
  rw [hwlen] at hold
  refine ⟨hdl.trans hwl.block, ?_, ?_, ?_, ?_⟩
  · dsimp only
    rw [UInt64.toNat_add, length_append]
    omega
  · dsimp only
    rw [hdl, length_append]
    omega
  · rw [length_append]
    refine (map_range_add hold fun i hi => hnew i (Nat.lt_succ_of_lt hi)).trans ?_
    rw [hwl.bytes, hbytes]
  · rw [length_append]
    exact (hnew m.length (Nat.lt_succ_self _)).trans hnul

theorem Text.append_fits (junk : Nat → UInt8) (h : Text g l) (hroom : m.length < b.len)
    (hbytes : (range m.length).map b.cells = m) (hnul : b.cells m.length = 0) {len : UInt64}
    (hlen : len.toNat = m.length) (hint : m.length < 2 ^ 31 - 1)
    (hfit : l.length + m.length + 2 ≤ 2 ^ 63) :
    ∃ g', append junk g b len = some (g', g'.len) ∧ Text g' (l ++ m) := by
  have hsucc : (len + 1).toNat = m.length + 1 := by
    rw [UInt64.toNat_add, show (1 : UInt64).toNat = 1 from rfl]
    omega
  obtain ⟨w, hw, hwl, hgrown⟩ := h.growIf_fits junk (n := len + 1) (by omega) (by omega)
  have hwlen := hwl.len_eq
  have hcopy : w.len.toNat + (len + 1).toNat ≤ w.str.len := by
    rw [hwl.block]
    omega
  obtain ⟨dst, hdst, -⟩ := Block.copy_spec hcopy
    (show (len + 1).toNat ≤ b.len by rw [hsucc]; exact hroom)
  have hrun : append junk g b len = some (⟨dst, w.len + len, w.cap⟩, w.len + len) := by
    rw [append, hw]
    simp only [Option.bind_eq_bind, Option.bind_some, hdst]
    rfl
  exact ⟨_, hrun, h.appended hbytes hnul hlen (by omega) hrun⟩

theorem Carries.append_fits (junk : Nat → UInt8) (h : Carries g l) (hm : Terminated b m)
    {len : UInt64} (hlen : len.toNat = m.length) (hint : m.length < 2 ^ 31 - 1)
    (hfit : l.length + m.length + 2 ≤ 2 ^ 63) :
    ∃ g', append junk g b len = some (g', g'.len) ∧ Carries g' (l ++ m) := by
  obtain ⟨g', hg', htext⟩ := h.text.append_fits junk hm.room hm.bytes hm.nul hlen hint hfit
  refine ⟨g', hg', htext.carries fun h0 => ?_⟩
  exact (mem_append.mp h0).elim h.term.nulFree hm.nulFree

theorem Carries.len_of_short (h : Carries g l) (hshort : l.length < 2 ^ 31) :
    g.len = UInt64.ofNat l.length := by
  rw [← UInt64.toNat_inj, h.len_eq, toNat_ofNat hshort]

theorem append_spec (junk : Nat → UInt8) (h : Holds g l) (hm : Terminated b m) {len : UInt64}
    (hlen : len.toNat = m.length) (hint : m.length < 2 ^ 31 - 1)
    (hshort : l.length + m.length < 2 ^ 31) :
    ∃ g', append junk g b len = some (g', UInt64.ofNat (l ++ m).length) ∧ Holds g' (l ++ m) := by
  obtain ⟨w, hw, hwl⟩ := h.carries.append_fits junk hm hlen hint (by omega)
  rw [← length_append] at hshort
  rw [hwl.len_of_short hshort] at hw
  exact ⟨w, hw, hwl.holds hshort⟩

theorem Text.put (h : Text g l) (c : UInt8) (hroom : l.length + 1 < g.str.len) :
    Text ⟨⟨g.str.len, Function.update (Function.update g.str.cells g.len.toNat c)
      (g.len + 1).toNat 0⟩, g.len + 1, g.cap⟩ (l ++ [c]) := by
  have hlen := h.len_eq
  have hblock := h.block
  have hcap := g.cap.toNat_lt
  have hsum : (g.len + 1).toNat = l.length + 1 := by
    rw [UInt64.toNat_add, show (1 : UInt64).toNat = 1 from rfl]
    omega
  refine ⟨hblock, ?_, ?_, ?_, ?_⟩
  · rw [hsum, length_append, length_singleton]
  · rw [length_append, length_singleton]
    exact hroom
  · -- the bytes before the new one, and then the new one
    rw [length_append, length_singleton]
    refine (map_range_add (g := g.str.cells) (k := fun _ => c) ?_ ?_).trans ?_
    · intro i hi
      dsimp only
      rw [Function.update_of_ne (by omega), Function.update_of_ne (by omega)]
    · intro i hi
      dsimp only
      rw [Nat.lt_one_iff.mp hi, Nat.add_zero, Function.update_of_ne (by omega), ← hlen,
        Function.update_self]
    · rw [h.bytes]
      rfl
  · rw [length_append, length_singleton, ← hsum]
    exact Function.update_self _ _ _

theorem Text.appendCh_fits (junk : Nat → UInt8) (h : Text g l) (ch : UInt32)
    (hfit : l.length + 2 ≤ 2 ^ 63) :
    ∃ g', gstrAppendCh junk g ch = some (g', g'.len) ∧ Text g' (l ++ [ch.toUInt8]) := by
  obtain ⟨w, hw, hwl, hroom⟩ := h.growIf_fits junk (n := 1) (by decide) hfit
  have hwlen := hwl.len_eq
  have hblock := hwl.block
  rw [show (1 : UInt64).toNat = 1 from rfl] at hroom
  have hsum : (w.len + 1).toNat = l.length + 1 := by
    rw [UInt64.toNat_add, show (1 : UInt64).toNat = 1 from rfl]
    omega
  have hput := Block.write_of_lt (b := w.str) (i := w.len.toNat) (by omega) ch.toUInt8
  have hend := Block.write_of_lt
    (b := ⟨w.str.len, Function.update w.str.cells w.len.toNat ch.toUInt8⟩)
    (i := (w.len + 1).toNat) (by change _ < w.str.len; omega) 0
  refine ⟨_, ?_, hwl.put _ (by omega)⟩
  rw [gstrAppendCh, hw]
  simp only [Option.bind_eq_bind, Option.bind_some, hput, hend]
  rfl

theorem Carries.appendCh_fits (junk : Nat → UInt8) (h : Carries g l) {ch : UInt32}
    (hch : ch.toUInt8 ≠ 0) (hfit : l.length + 2 ≤ 2 ^ 63) :
    ∃ g', gstrAppendCh junk g ch = some (g', g'.len) ∧ Carries g' (l ++ [ch.toUInt8]) := by
  obtain ⟨g', hg', htext⟩ := h.text.appendCh_fits junk ch hfit
  refine ⟨g', hg', htext.carries fun h0 => ?_⟩
  exact (mem_append.mp h0).elim h.term.nulFree fun h1 => hch (mem_singleton.mp h1).symm

theorem gstrAppendCh_spec (junk : Nat → UInt8) (h : Holds g l) {ch : UInt32}
    (hch : ch.toUInt8 ≠ 0) (hshort : l.length + 1 < 2 ^ 31) :
    ∃ g', gstrAppendCh junk g ch = some (g', UInt64.ofNat (l ++ [ch.toUInt8]).length) ∧
      Holds g' (l ++ [ch.toUInt8]) := by
  obtain ⟨w, hw, hwl⟩ := h.carries.appendCh_fits junk hch (by omega)
  have hlen : (l ++ [ch.toUInt8]).length < 2 ^ 31 := by
    rw [length_append, length_singleton]
    exact hshort
  rw [hwl.len_of_short hlen] at hw
  exact ⟨w, hw, hwl.holds hlen⟩

theorem Carries.writeLast {x : UInt8} (h : Carries g (l ++ [x])) {c : UInt8} (hc : c ≠ 0) :
    ∃ str, g.str.write (g.len - 1).toNat c = some str ∧
      Carries { g with str := str } (l ++ [c]) := by
  have hlen := h.len_eq
  have hroom := h.term.room
  have hnul := h.term.nul
  have hbytes := h.term.bytes
  rw [length_append, length_singleton] at hlen hroom hnul hbytes
  rw [range_succ, map_append, map_singleton] at hbytes
  have hpred : (g.len - 1).toNat = l.length := by
    have hle : (1 : UInt64) ≤ g.len := by
      rw [UInt64.le_iff_toNat_le, hlen]
      exact Nat.le_add_left _ _
    rw [UInt64.toNat_sub_of_le _ _ hle, hlen]
    rfl
  obtain ⟨str, hstr, hsl, hput, hkeep⟩ := Block.write_spec (Nat.lt_of_succ_lt hroom) c
  refine ⟨str, by rw [hpred, hstr], hsl.trans h.block, ?_, ?_, ?_, ?_, ?_⟩
  · rw [length_append, length_singleton]
    exact hlen
  · rw [length_append, length_singleton, hsl]
    exact hroom
  · rw [length_append, length_singleton, range_succ, map_append, map_singleton, hput]
    refine congrArg (· ++ [c]) ?_
    exact (map_range_congr fun i hi => hkeep i hi.ne).trans (append_inj' hbytes rfl).1
  · rw [length_append, length_singleton]
    exact (hkeep _ (Nat.succ_ne_self _)).trans hnul
  · intro h0
    rcases mem_append.mp h0 with h0 | h0
    · exact h.term.nulFree (mem_append_left _ h0)
    · exact hc (mem_singleton.mp h0).symm

theorem Text.appendCh (h : Text g l) {ch : UInt32} {r : Gstr × UInt64}
    (hr : gstrAppendCh junk g ch = some r) : Text r.1 (l ++ [ch.toUInt8]) := by
  rw [gstrAppendCh] at hr
  obtain ⟨w, hw, hr⟩ := Option.bind_eq_some_iff.mp hr
  have hwl := h.growIf hw
  obtain ⟨str, hput, hr⟩ := Option.bind_eq_some_iff.mp hr
  obtain ⟨str', hend, hr⟩ := Option.bind_eq_some_iff.mp hr
  obtain rfl := Option.some.inj hr
  obtain ⟨hlt, rfl⟩ := Block.eq_of_write hput
  obtain ⟨hlt', rfl⟩ := Block.eq_of_write hend
  change (w.len + 1).toNat < w.str.len at hlt'
  have hlen := hwl.len_eq
  have hcap := hwl.block
  have hsum : (w.len + 1).toNat = w.len.toNat + 1 := by
    have hmax := w.cap.toNat_lt
    rw [UInt64.toNat_add, show (1 : UInt64).toNat = 1 from rfl]
    omega
  exact hwl.put _ (by omega)

theorem Carries.appendCh (h : Carries g l) {ch : UInt32} (hch : ch.toUInt8 ≠ 0)
    {r : Gstr × UInt64} (hr : gstrAppendCh junk g ch = some r) :
    Carries r.1 (l ++ [ch.toUInt8]) := by
  refine (h.text.appendCh hr).carries fun h0 => ?_
  exact (mem_append.mp h0).elim h.term.nulFree fun h1 => hch (mem_singleton.mp h1).symm

theorem append_short {len : UInt64} {r : Gstr × UInt64} (hg : g.len = 0)
    (hblock : g.str.len = g.cap.toNat) (hcap : g.cap.toNat ≤ 2 ^ 31)
    (hlen : len.toNat + 1 < 2 ^ 64) (h : append junk g b len = some r) :
    len.toNat < 2 ^ 31 - 1 ∧ r.1.cap.toNat ≤ 2 ^ 31 := by
  rw [append] at h
  obtain ⟨w, hw, h⟩ := Option.bind_eq_some_iff.mp h
  obtain ⟨dst, hdst, h⟩ := Option.bind_eq_some_iff.mp h
  obtain rfl := Option.some.inj h
  change len.toNat < 2 ^ 31 - 1 ∧ w.cap.toNat ≤ 2 ^ 31
  have hsucc : (len + 1).toNat = len.toNat + 1 := by
    rw [UInt64.toNat_add, show (1 : UInt64).toNat = 1 from rfl]
    omega
  have hlow : (len + 1).toUInt32.toNat = (len.toNat + 1) % 2 ^ 32 := by
    rw [UInt64.toNat_toUInt32, hsucc]
  have hcopy : w.len.toNat + (len + 1).toNat ≤ w.str.len := by
    by_contra hgt
    rw [Block.copy, if_neg fun hc => hgt hc.1] at hdst
    cases hdst
  rw [growIf, hg, UInt64.zero_add] at hw
  by_cases hneg : (len + 1).toUInt32 < 0x80000000
  · have hneg' : (len.toNat + 1) % 2 ^ 32 < 2 ^ 31 := by
      rw [← hlow]
      exact UInt32.lt_iff_toNat_lt.mp hneg
    have hwant : (asInt (len + 1) + 1).toNat = (len.toNat + 1) % 2 ^ 32 + 1 := by
      rw [asInt, if_pos hneg, UInt64.toNat_add, UInt32.toNat_toUInt64, hlow,
        show (1 : UInt64).toNat = 1 from rfl]
      omega
    by_cases hgrow : g.cap < asInt (len + 1) + 1
    · have hbound := nextPow2_bounds (show 31 < 64 by decide)
        (show 0 < (asInt (len + 1) + 1).toNat by omega) (by omega)
      have hne : nextPow2 (asInt (len + 1) + 1) ≠ 0 := by
        intro h0
        rw [h0] at hbound
        exact absurd hbound.1 (by decide)
      simp only [if_pos hgrow, if_neg hne] at hw
      obtain rfl := Option.some.inj hw
      change _ ≤ (nextPow2 (asInt (len + 1) + 1)).toNat at hcopy
      change _ ∧ (nextPow2 (asInt (len + 1) + 1)).toNat ≤ _
      omega
    · simp only [if_neg hgrow] at hw
      obtain rfl := Option.some.inj hw
      omega
  · -- the sum is close to 2⁶⁴, or 0 again
    have hneg' : 2 ^ 31 ≤ (len.toNat + 1) % 2 ^ 32 := by
      rw [← hlow]
      exact Nat.not_lt.mp fun hlt => hneg (UInt32.lt_iff_toNat_lt.mpr hlt)
    have hwant : (asInt (len + 1) + 1).toNat =
        ((len.toNat + 1) % 2 ^ 32 + 0xFFFFFFFF00000000 + 1) % 2 ^ 64 := by
      rw [asInt, if_neg hneg, UInt64.toNat_add, UInt64.toNat_add, UInt32.toNat_toUInt64, hlow,
        show (1 : UInt64).toNat = 1 from rfl,
        show (0xFFFFFFFF00000000 : UInt64).toNat = 0xFFFFFFFF00000000 from rfl]
      omega
    by_cases hgrow : g.cap < asInt (len + 1) + 1
    · have hpos := UInt64.lt_iff_toNat_lt.mp hgrow
      have hzero : nextPow2 (asInt (len + 1) + 1) = 0 := nextPow2_eq_zero (by omega)
      simp only [if_pos hgrow, if_pos hzero] at hw
      cases hw
    · have hle := Nat.not_lt.mp fun hlt => hgrow (UInt64.lt_iff_toNat_lt.mpr hlt)
      simp only [if_neg hgrow] at hw
      obtain rfl := Option.some.inj hw
      omega

/-! ## Cutting -/

theorem Text.cut (h : Text g l) {n : UInt64} (hn : n.toNat ≤ l.length) :
    ∃ str, g.str.write n.toNat 0 = some str ∧ Text ⟨str, n, g.cap⟩ (l.take n.toNat) := by
  have hlen : (l.take n.toNat).length = n.toNat := length_take_of_le hn
  refine ⟨_, Block.write_of_lt (hn.trans_lt h.room) 0, h.block, hlen.symm, ?_, ?_, ?_⟩
  · rw [hlen]
    exact hn.trans_lt h.room
  · rw [hlen]
    refine (map_range_congr fun i hi => Function.update_of_ne hi.ne _ _).trans ?_
    have hrange : range n.toNat = (range l.length).take n.toNat := by
      rw [take_range, Nat.min_eq_left hn]
    rw [hrange, map_take, h.bytes]
  · rw [hlen]
    exact Function.update_self _ _ _

theorem Carries.cut (h : Carries g l) {n : UInt64} (hn : n.toNat ≤ l.length) :
    ∃ str, g.str.write n.toNat 0 = some str ∧ Carries ⟨str, n, g.cap⟩ (l.take n.toNat) := by
  obtain ⟨str, hstr, htext⟩ := h.text.cut hn
  exact ⟨str, hstr, htext.carries fun h0 => h.term.nulFree (mem_of_mem_take h0)⟩

theorem Holds.cut (h : Holds g l) {n : UInt64} (hn : n.toNat ≤ l.length) :
    ∃ str, g.str.write n.toNat 0 = some str ∧ Holds ⟨str, n, g.cap⟩ (l.take n.toNat) := by
  obtain ⟨str, hstr, hcut⟩ := h.carries.cut hn
  exact ⟨str, hstr, hcut.holds ((length_take_le' _ _).trans_lt h.short)⟩

theorem gstrTruncate_spec (h : Holds g l) (n : UInt64) :
    ∃ g', gstrTruncate g n = some (g', UInt64.ofNat (l.take n.toNat).length) ∧
      Holds g' (l.take n.toNat) := by
  have hlen := h.len_eq
  rw [gstrTruncate]
  split
  case isTrue hlt =>
    have hle : n.toNat ≤ l.length := hlen ▸ (UInt64.lt_iff_toNat_lt.mp hlt).le
    obtain ⟨str, hstr, hcut⟩ := h.cut hle
    refine ⟨⟨str, n, g.cap⟩, ?_, hcut⟩
    simp only [hstr, Option.bind_eq_bind, Option.bind_some]
    rw [length_take_of_le hle, UInt64.ofNat_toNat]
    rfl
  case isFalse hge =>
    have hle : l.length ≤ n.toNat :=
      hlen ▸ Nat.le_of_not_lt fun hc => hge (UInt64.lt_iff_toNat_lt.mpr hc)
    rw [take_of_length_le hle]
    refine ⟨g, ?_, h⟩
    rw [← hlen, UInt64.ofNat_toNat]

theorem Text.len_pos_iff (h : Text g l) : g.len > 0 ↔ l ≠ [] := by
  rw [gt_iff_lt, UInt64.lt_iff_toNat_lt, h.len_eq, ← length_pos_iff]
  rfl

theorem Text.len_eq_zero_iff (h : Text g l) : g.len = 0 ↔ l = [] := by
  rw [← UInt64.toNat_inj, h.len_eq, ← length_eq_zero_iff]
  rfl

theorem Text.toNat_pred (h : Text g l) (hne : l ≠ []) : (g.len - 1).toNat = l.length - 1 := by
  have hle : (1 : UInt64) ≤ g.len := by
    rw [UInt64.le_iff_toNat_le, h.len_eq]
    exact length_pos_of_ne_nil hne
  rw [UInt64.toNat_sub_of_le _ _ hle, h.len_eq]
  rfl

theorem Text.cell (h : Text g l) {i : Nat} (hi : i < l.length) : g.str.cells i = l[i] := by
  have hget := getElem_of_eq h.bytes.symm hi
  rw [hget, getElem_map, getElem_range]

theorem Text.dropLast (h : Text g l) (hne : l ≠ []) :
    ∃ g', Gstring.dropLast g = some g' ∧ Text g' l.dropLast := by
  have hpred := h.toNat_pred hne
  obtain ⟨str, hstr, hcut⟩ := h.cut (n := g.len - 1) (hpred ▸ Nat.sub_le _ _)
  rw [hpred, ← dropLast_eq_take] at hcut
  refine ⟨⟨str, g.len - 1, g.cap⟩, ?_, hcut⟩
  rw [Gstring.dropLast]
  simp only [hstr, Option.bind_eq_bind, Option.bind_some]
  rfl

theorem Text.read_last (h : Text g l) (hne : l ≠ []) :
    g.str.read (g.len - 1).toNat = some (l.getLast hne) := by
  have hlt : l.length - 1 < l.length := Nat.sub_one_lt_of_lt (length_pos_of_ne_nil hne)
  rw [h.toNat_pred hne, Block.read_of_lt (hlt.trans h.room), h.cell hlt, getLast_eq_getElem]

theorem Holds.text (h : Holds g l) : Text g l := h.carries.text

theorem Holds.of_text {w : Gstr} {m : List UInt8} (h : Holds g l) (hw : Text w m)
    (hsub : m ⊆ l) (hlen : m.length ≤ l.length) : Holds w m :=
  (hw.carries fun h0 => h.term.nulFree (hsub h0)).holds (hlen.trans_lt h.short)

theorem dropLast_spec (h : Holds g l) (hne : l ≠ []) :
    ∃ g', dropLast g = some g' ∧ Holds g' l.dropLast := by
  obtain ⟨g', hg', htext⟩ := h.text.dropLast hne
  exact ⟨g', hg', h.of_text htext (dropLast_subset l) (dropLast_sublist l).length_le⟩

theorem chopped_spec (h : Holds g l) (hne : l ≠ []) (x : UInt8) :
    ∃ g', (if l.getLast hne = x then dropLast g else some g) = some g' ∧
      Holds g' (chopped x l) := by
  by_cases hx : l.getLast hne = x
  · rw [if_pos hx, chopped, getLast?_eq_some_getLast hne, if_pos (congrArg some hx)]
    exact dropLast_spec h hne
  · rw [if_neg hx, chopped, getLast?_eq_some_getLast hne, if_neg fun hc => hx (Option.some.inj hc)]
    exact ⟨g, rfl, h⟩

theorem getLastD_of_ne_nil (hne : l ≠ []) : l.getLastD 0 = l.getLast hne := by
  rw [getLastD_eq_getLast?, getLast?_eq_some_getLast hne, Option.getD_some]

theorem gstrChop_eq {w : Gstr} {c : UInt8} (hpos : g.len > 0)
    (hc : g.str.read (g.len - 1).toNat = some c)
    (hw : (if c = 0x0a then dropLast g else some g) = some w) :
    gstrChop g = if w.len > 0 then
      (w.str.read (w.len - 1).toNat).bind fun cr =>
        if cr = 0x0d then (dropLast w).bind fun w => some (w, cr) else some (w, c)
      else some (w, c) := by
  rw [gstrChop, if_pos hpos, hc]
  by_cases hlf : c = 0x0a
  · rw [if_pos hlf] at hw
    simp only [Option.bind_eq_bind, Option.bind_some, if_pos hlf, hw]
    rfl
  · rw [if_neg hlf] at hw
    simp only [Option.bind_eq_bind, Option.bind_some, if_neg hlf, Option.some.inj hw]
    rfl

theorem gstrChop_spec (h : Holds g l) :
    ∃ g', gstrChop g = some (g', if (chopped 0x0a l).getLast? = some 0x0d then 0x0d
        else l.getLastD 0) ∧ Holds g' (chopped 0x0d (chopped 0x0a l)) := by
  by_cases hne : l = []
  · subst hne
    have hlen : ¬g.len > 0 := fun hc => h.text.len_pos_iff.mp hc rfl
    exact ⟨g, by rw [gstrChop, if_neg hlen]; rfl, h⟩
  obtain ⟨w, hw, hwl⟩ := chopped_spec h hne 0x0a
  rw [gstrChop_eq (h.text.len_pos_iff.mpr hne) (h.text.read_last hne) hw, getLastD_of_ne_nil hne]
  by_cases hne' : chopped 0x0a l = []
  · rw [hne'] at hwl ⊢
    have hlen : ¬w.len > 0 := fun hc => hwl.text.len_pos_iff.mp hc rfl
    rw [if_neg hlen]
    exact ⟨w, rfl, hwl⟩
  -- something is left before the line feed, which may be a carriage return
  rw [if_pos (hwl.text.len_pos_iff.mpr hne'), hwl.text.read_last hne',
    getLast?_eq_some_getLast hne']
  obtain ⟨w', hw', hwl'⟩ := chopped_spec hwl hne' 0x0d
  refine ⟨w', ?_, hwl'⟩
  by_cases hcr : (chopped 0x0a l).getLast hne' = 0x0d
  · rw [if_pos hcr] at hw'
    simp only [Option.bind_some, hcr, if_true, hw']
  · rw [if_neg hcr] at hw'
    simp only [Option.bind_some, Option.some.inj hw', if_neg hcr, Option.some.injEq]

theorem Text.chopIf (h : Text g l) {s : List UInt8} (hs : 0 ∉ s) :
    ∃ g', gstrChopIf g s = some (g', l.getLastD 0) ∧
      Text g' (if ∃ c ∈ l.getLast?, c ∈ s then l.dropLast else l) := by
  by_cases hne : l = []
  · subst hne
    have hlen : g.len = 0 := UInt64.toNat_inj.mp h.len_eq
    refine ⟨g, by rw [gstrChopIf, if_pos hlen]; rfl, ?_⟩
    rw [if_neg]
    · exact h
    · rintro ⟨c, hc, -⟩
      cases hc
  have hlen : ¬g.len = 0 := fun h0 => UInt64.lt_irrefl _ (h0 ▸ h.len_pos_iff.mpr hne)
  -- `strchr` also finds the terminator, but that is no character to chop
  have hiff : (l.getLast hne ≠ 0 ∧ (l.getLast hne = s.headD 0 ∨ l.getLast hne ∈ s ++ [0])) ↔
      ∃ c ∈ l.getLast?, c ∈ s := by
    rw [getLast?_eq_some_getLast hne]
    constructor
    · rintro ⟨hnz, hc | hc⟩
      · refine ⟨_, rfl, ?_⟩
        cases s with
        | nil => exact absurd hc hnz
        | cons x s => exact hc ▸ mem_cons_self
      · exact ⟨_, rfl, (mem_append.mp hc).resolve_right fun h1 => hnz (mem_singleton.mp h1)⟩
    · rintro ⟨c, hc, hcs⟩
      obtain rfl := Option.some.inj hc
      exact ⟨fun h0 => hs (h0 ▸ hcs), Or.inr (mem_append_left _ hcs)⟩
  rw [gstrChopIf, if_neg hlen, h.read_last hne, getLastD_of_ne_nil hne]
  simp only [Option.bind_eq_bind, Option.bind_some, hiff]
  by_cases hin : ∃ c ∈ l.getLast?, c ∈ s
  · obtain ⟨w, hw, hwl⟩ := h.dropLast hne
    simp only [if_pos hin, hw, Option.bind_some]
    exact ⟨w, rfl, hwl⟩
  · simp only [if_neg hin]
    exact ⟨g, rfl, h⟩

theorem gstrChopIf_spec (h : Holds g l) {s : List UInt8} (hs : 0 ∉ s) :
    ∃ g', gstrChopIf g s = some (g', l.getLastD 0) ∧
      Holds g' (if ∃ c ∈ l.getLast?, c ∈ s then l.dropLast else l) := by
  obtain ⟨g', hg', htext⟩ := h.text.chopIf hs
  refine ⟨g', hg', h.of_text htext ?_ ?_⟩
  · split
    · exact dropLast_subset l
    · exact Subset.refl l
  · split
    · exact (dropLast_sublist l).length_le
    · exact Nat.le_refl _

/-! ## Trimming -/

theorem skipSpaces_spec (h : Terminated b l) {fuel i : Nat} (hi : i ≤ l.length)
    (hfuel : l.length < i + fuel) :
    ∃ r, skipSpaces b fuel i = some r ∧ (r = none → (l.drop i).dropWhile isspace = []) ∧
      ∀ k, r = some k → ∃ hk : k < l.length, isspace l[k] = false ∧
        (l.drop i).dropWhile isspace = l.drop k := by
  induction fuel generalizing i with
  | zero => omega
  | succ fuel ih =>
    rw [skipSpaces, Block.read_of_lt (hi.trans_lt h.room)]
    rcases hi.lt_or_eq with hlt | rfl
    · have hne := h.cell_ne_zero hlt
      rw [h.cell hlt] at hne ⊢
      simp only [Option.bind_eq_bind, Option.bind_some, if_neg hne, drop_eq_getElem_cons hlt]
      by_cases hsp : isspace l[i]
      · rw [if_neg (by rw [hsp]; exact Bool.false_ne_true), dropWhile_cons_of_pos hsp]
        exact ih hlt (by omega)
      · rw [if_pos (by simpa using hsp), dropWhile_cons_of_neg hsp]
        refine ⟨some i, rfl, fun hc => (by cases hc), fun k hk => ?_⟩
        obtain rfl := Option.some.inj hk
        exact ⟨hlt, Bool.eq_false_iff.mpr hsp, (drop_eq_getElem_cons hlt).symm⟩
    · simp only [Option.bind_eq_bind, Option.bind_some, h.nul, if_true, drop_length]
      exact ⟨none, rfl, fun _ => rfl, fun k hk => (by cases hk)⟩

structure CopyInv (b₀ b : Block UInt8) (s : Nat) (m : List UInt8) (k e : Nat) : Prop where
  len_eq : b.len = b₀.len
  done : ∀ i < k, b.cells i = b₀.cells (s + i)
  rest : ∀ i, k ≤ i → b.cells i = b₀.cells i
  last_lt : e < m.length
  last : 0 < k → m.take (e + 1) = (m.take k).rdropWhile isspace

theorem CopyInv.done_succ {b₀ : Block UInt8} {s k e : Nat} (h : CopyInv b₀ b s m k e) :
    ∀ i < k + 1, Function.update b.cells k (b₀.cells (s + k)) i = b₀.cells (s + i) := by
  intro i hi
  rcases (Nat.lt_succ_iff.mp hi).lt_or_eq with hlt | rfl
  · exact (Function.update_of_ne hlt.ne _ _).trans (h.done i hlt)
  · exact Function.update_self _ _ _

theorem CopyInv.succ {b₀ : Block UInt8} {s k e : Nat} (h : CopyInv b₀ b s m k e)
    (hk : k < m.length) (hfirst : k = 0 → isspace m[k] = false) :
    CopyInv b₀ ⟨b.len, Function.update b.cells k (b₀.cells (s + k))⟩ s m (k + 1)
      (if !isspace m[k] then k else e) where
  len_eq := h.len_eq
  done := h.done_succ
  rest i hi := (Function.update_of_ne (Nat.ne_of_gt hi) _ _).trans (h.rest i (Nat.le_of_succ_le hi))
  last_lt := by
    split
    · exact hk
    · exact h.last_lt
  last _ := by
    rw [take_succ_eq_append_getElem hk]
    by_cases hsp : isspace m[k]
    · have hpos : 0 < k := by
        rw [Nat.pos_iff_ne_zero]
        intro h0
        rw [hfirst h0] at hsp
        cases hsp
      rw [rdropWhile_concat_pos _ _ _ hsp, hsp]
      exact h.last hpos
    · have hnsp : isspace m[k] = false := Bool.eq_false_iff.mpr hsp
      rw [rdropWhile_concat_neg _ _ _ hsp, hnsp]
      exact take_succ_eq_append_getElem hk

theorem copyDown_spec {b₀ : Block UInt8} (h₀ : Terminated b₀ l) {s : Nat} (hs : s ≤ l.length)
    (hfirst : ∀ h0 : 0 < (l.drop s).length, isspace (l.drop s)[0] = false) {fuel k e : Nat}
    (hk : k ≤ (l.drop s).length) (hfuel : (l.drop s).length < k + fuel)
    (h : CopyInv b₀ b s (l.drop s) k e) :
    ∃ b' e', copyDown fuel b (s + k) k e = some (b', e') ∧ b'.len = b₀.len ∧
      (∀ i < (l.drop s).length + 1, b'.cells i = b₀.cells (s + i)) ∧ e' < (l.drop s).length ∧
      (l.drop s).take (e' + 1) = (l.drop s).rdropWhile isspace := by
  have hlen : (l.drop s).length = l.length - s := length_drop
  have hroom := h₀.room
  have hbl := h.len_eq
  induction fuel generalizing b k e with
  | zero => omega
  | succ fuel ih =>
    have hcell : b.cells (s + k) = b₀.cells (s + k) := h.rest _ (Nat.le_add_left _ _)
    rw [copyDown, Block.read_of_lt (by omega), hcell]
    simp only [Option.bind_eq_bind, Option.bind_some,
      Block.write_of_lt (show k < b.len by omega)]
    rcases hk.lt_or_eq with hlt | heq
    · have hsk : s + k < l.length := by omega
      have hget : b₀.cells (s + k) = (l.drop s)[k] := by
        rw [h₀.cell hsk, getElem_drop]
      have hnext := h.succ hlt fun h0 => by
        subst h0
        exact hfirst hlt
      rw [if_neg (h₀.cell_ne_zero hsk), hget]
      rw [hget] at hnext
      exact ih hlt (by omega) hnext hnext.len_eq
    · have hend : s + k = l.length := by omega
      have hlast := h.last (heq ▸ (Nat.zero_le e).trans_lt h.last_lt)
      rw [heq, take_length] at hlast
      rw [if_pos (by rw [hend]; exact h₀.nul), ← heq]
      exact ⟨_, e, rfl, hbl, h.done_succ, heq ▸ h.last_lt, hlast⟩

theorem Terminated.drop {b₀ : Block UInt8} (h₀ : Terminated b₀ l) {s : Nat} (hs : s ≤ l.length)
    (hlen : b.len = b₀.len) (hcells : ∀ i < (l.drop s).length + 1, b.cells i = b₀.cells (s + i)) :
    Terminated b (l.drop s) := by
  have hdrop : (l.drop s).length = l.length - s := length_drop
  have hroom := h₀.room
  refine ⟨by omega, ?_, ?_, fun h0 => h₀.nulFree (mem_of_mem_drop h0)⟩
  · apply List.ext_getElem
    · rw [length_map, length_range]
    · intro i h₁ h₂
      rw [getElem_map, getElem_range, hcells i (Nat.lt_succ_of_lt h₂), h₀.cell (by omega),
        getElem_drop]
  · rw [hcells _ (Nat.lt_succ_self _), hdrop, Nat.add_sub_cancel' hs]
    exact h₀.nul

theorem Carries.trim (h : Carries g l) :
    ∃ g', gstrTrim g = some g' ∧ Carries g' (trimmed l) := by
  obtain ⟨r, hr, hnone, hsome⟩ := skipSpaces_spec h.term (Nat.zero_le _)
    (Nat.lt_of_lt_of_eq h.term.room (Nat.zero_add _).symm)
  rw [drop_zero] at hnone hsome
  rw [gstrTrim, hr]
  cases r with
  | none =>
    obtain ⟨str, hstr, hcut⟩ := h.cut (n := 0) (Nat.zero_le _)
    refine ⟨⟨str, 0, g.cap⟩, ?_, ?_⟩
    · simp only [Option.bind_eq_bind, Option.bind_some]
      rw [show g.str.write 0 0 = some str from hstr]
      rfl
    · rw [trimmed, hnone rfl]
      exact hcut
  | some s =>
    obtain ⟨hs, hsp, hdrop⟩ := hsome s rfl
    have hroom := h.term.room
    have hcap := g.cap.toNat_lt
    have hblock := h.block
    have hofNat : ∀ {n : Nat}, n ≤ l.length → (UInt64.ofNat n).toNat = n := by
      intro n hn
      exact UInt64.toNat_ofNat_of_lt' (by change n < 2 ^ 64; omega)
    have hlen : (l.drop s).length = l.length - s := length_drop
    have hfuel : (l.drop s).length < 0 + g.str.len := by
      rw [Nat.zero_add, hlen]
      exact (Nat.sub_le _ _).trans_lt h.term.room
    have hstart : CopyInv g.str g.str s (l.drop s) 0 0 :=
      ⟨rfl, fun i hi => absurd hi (Nat.not_lt_zero i), fun _ _ => rfl, by omega,
        fun h0 => absurd h0 (Nat.lt_irrefl 0)⟩
    obtain ⟨b, e, hb, hbl, hcells, he, hlast⟩ := copyDown_spec h.term hs.le
      (fun _ => by rw [getElem_drop]; exact hsp) (Nat.zero_le _) hfuel hstart
    -- the moved string, before the terminator goes after its last character
    have hmoved : Carries ⟨b, UInt64.ofNat (l.drop s).length, g.cap⟩ (l.drop s) :=
      ⟨hbl.trans h.block, hofNat (by omega), h.term.drop hs.le hbl hcells⟩
    have hend : (UInt64.ofNat (e + 1)).toNat = e + 1 := hofNat (by omega)
    obtain ⟨str, hstr, hcut⟩ := hmoved.cut (n := UInt64.ofNat (e + 1)) (by omega)
    rw [hend] at hstr hcut
    refine ⟨⟨str, UInt64.ofNat (e + 1), g.cap⟩, ?_, ?_⟩
    · rw [Nat.add_zero] at hb
      simp only [Option.bind_eq_bind, Option.bind_some, hb]
      rw [show b.write (e + 1) 0 = some str from hstr]
      rfl
    · rw [trimmed, hdrop, ← hlast]
      exact hcut

theorem trimmed_sublist (l : List UInt8) : trimmed l <+ l :=
  Sublist.trans ( rdropWhile_prefix _ _).sublist (dropWhile_sublist _)

theorem gstrTrim_spec (h : Holds g l) : ∃ g', gstrTrim g = some g' ∧ Holds g' (trimmed l) := by
  obtain ⟨g', hg', hcar⟩ := h.carries.trim
  exact ⟨g', hg', hcar.holds ((trimmed_sublist l).length_le.trans_lt h.short)⟩

/-! ## Sequences of operations -/

variable {η : Type} [DecidableEq η] {gs : η → Option Gstr} {L : η → List UInt8}

/-- Every string that is initialised holds its contents. -/
def HoldsAll (gs : η → Option Gstr) (L : η → List UInt8) : Prop := ∀ g, ∀ w ∈ gs g, Holds w (L g)

theorem HoldsAll.update (h : HoldsAll gs L) {g : η} {w : Gstr} (hw : Holds w l) :
    HoldsAll (Function.update gs g (some w)) (Function.update L g l) := by
  intro g' w' hw'
  by_cases hg : g' = g
  · subst hg
    rw [Function.update_self] at hw' ⊢
    exact Option.some.inj hw' ▸ hw
  · rw [Function.update_of_ne hg] at hw' ⊢
    exact h g' w' hw'

theorem HoldsAll.step (h : HoldsAll gs L) {c : Call η} {g : η} {w : Gstr} {r : Result}
    (hw : Holds w l) (hspec : spec L c = (Function.update L g l, r))
    (hstep : step gs c = some (Function.update gs g (some w), r)) :
    ∃ p, step gs c = some p ∧ HoldsAll p.1 (spec L c).1 ∧ p.2 = (spec L c).2 := by
  rw [hspec]
  exact ⟨_, hstep, h.update hw, rfl⟩

theorem step_spec (h : HoldsAll gs L) (c : Call η) (hc : Allowed gs c) (hfit : Fits gs c) :
    ∃ p, step gs c = some p ∧ HoldsAll p.1 (spec L c).1 ∧ p.2 = (spec L c).2 := by
  obtain ⟨op, junk⟩ := c
  cases op with
  | init g size =>
    obtain ⟨w, hw, hwl⟩ := gstrInit_spec hfit
    refine h.step hwl rfl ?_
    simp only [step, hw, Option.map_some]
  | initFrom g s =>
    cases s with
    | none =>
      obtain ⟨w, hw, hwl⟩ := gstrInit_spec (show (0 : UInt64).toNat < 2 ^ 63 by decide)
      refine h.step hwl rfl ?_
      simp only [step, show gstrInitFrom none = some w from hw, Option.map_some]
    | some s =>
      obtain ⟨hnul, hshort⟩ := hc s rfl
      rw [show (0 : UInt64).toNat = 0 from rfl, Nat.zero_add] at hshort
      obtain ⟨w, hw, hwl⟩ := initGstr_spec (terminated_cstr hnul) (toNat_ofNat hshort) hshort
      refine h.step hwl rfl ?_
      simp only [step, show gstrInitFrom (some s) = some w from hw, Option.map_some]
  | dup g s =>
    obtain ⟨w, hw⟩ := Option.isSome_iff_exists.mp hc
    have hold := h s w hw
    obtain ⟨w', hw', hwl'⟩ := initGstr_spec hold.term hold.len_eq hold.short
    refine h.step hwl' rfl ?_
    simp only [step, hw, Option.bind_some, gstrDup, hw', Option.map_some]
  | appendStr g str =>
    obtain ⟨w, hw, hplain⟩ := hc
    have hold := h g w hw
    cases str with
    | none =>
      refine h.step (l := L g ++ []) ((append_nil (L g)).symm ▸ hold) rfl ?_
      simp only [step, Option.mem_def.mp hw, Option.bind_some, gstrAppendStr, Option.map_some,
        Option.getD_none, append_nil, ← hold.len_eq, UInt64.ofNat_toNat]
    | some s =>
      obtain ⟨hnul, hshort⟩ := hplain s rfl
      have hint : s.length < 2 ^ 31 - 1 := hfit s rfl
      rw [hold.len_eq] at hshort
      obtain ⟨w', hw', hwl'⟩ := append_spec junk hold (terminated_cstr hnul)
        (toNat_ofNat (by omega)) hint hshort
      refine h.step hwl' rfl ?_
      simp only [step, Option.mem_def.mp hw, Option.bind_some, gstrAppendStr, hw',
        Option.map_some, Option.getD_some]
  | append g that =>
    obtain ⟨-, w, hw, w', hw', hshort⟩ := hc
    have hold := h g w hw
    have hold' := h that w' hw'
    have hint : w'.len.toNat < 2 ^ 31 - 1 := hfit w' hw'
    rw [hold'.len_eq] at hint
    rw [hold.len_eq, hold'.len_eq] at hshort
    obtain ⟨v, hv, hvl⟩ := append_spec junk hold hold'.term hold'.len_eq hint hshort
    refine h.step hvl rfl ?_
    simp only [step, Option.mem_def.mp hw, Option.mem_def.mp hw', Option.bind_some, gstrAppend,
      hv, Option.map_some]
  | appendCh g ch =>
    obtain ⟨w, hw, hnul, hshort⟩ := hc
    have hold := h g w hw
    rw [hold.len_eq] at hshort
    obtain ⟨w', hw', hwl'⟩ := gstrAppendCh_spec junk hold
      (fun h0 => hnul (h0 ▸ mem_singleton_self _)) hshort
    refine h.step hwl' rfl ?_
    simp only [step, Option.mem_def.mp hw, Option.bind_some, hw', Option.map_some]
  | truncate g n =>
    obtain ⟨w, hw⟩ := Option.isSome_iff_exists.mp hc
    obtain ⟨w', hw', hwl'⟩ := gstrTruncate_spec (h g w hw) n
    refine h.step hwl' rfl ?_
    simp only [step, hw, Option.bind_some, hw', Option.map_some]
  | chop g =>
    obtain ⟨w, hw⟩ := Option.isSome_iff_exists.mp hc
    obtain ⟨w', hw', hwl'⟩ := gstrChop_spec (h g w hw)
    refine h.step hwl' rfl ?_
    simp only [step, hw, Option.bind_some, hw', Option.map_some]
  | chopIf g s =>
    obtain ⟨w, hw⟩ := Option.isSome_iff_exists.mp hc.1
    obtain ⟨w', hw', hwl'⟩ := gstrChopIf_spec (h g w hw) hc.2
    refine h.step hwl' rfl ?_
    simp only [step, hw, Option.bind_some, hw', Option.map_some]
  | trim g =>
    obtain ⟨w, hw⟩ := Option.isSome_iff_exists.mp hc
    obtain ⟨w', hw', hwl'⟩ := gstrTrim_spec (h g w hw)
    refine h.step hwl' rfl ?_
    simp only [step, hw, Option.bind_some, hw', Option.map_some]

/-- Growable strings behave as lists of characters under every sequence of operations whose sizes
fit: no access leaves a block and no assertion fails. -/
theorem gstr_refines (calls : List (Call η))
    (hc : Run.StepsMeet step (fun gs c => Allowed gs c ∧ Fits gs c) (fun _ => none) calls) :
    ∃ q, Run.run step (fun _ => none) calls = some q ∧
      HoldsAll q.1 (Run.runTotal spec (fun _ => []) calls).1 ∧
      q.2 = (Run.runTotal spec (fun _ => []) calls).2 :=
  Run.run_simulates (R := HoldsAll) (fun _ _ c hR hcall => step_spec hR c hcall.1 hcall.2)
    (fun _ _ hw => by cases hw) hc

instance decidablePlain (n : UInt64) (s : List UInt8) : Decidable (Plain n s) :=
  inferInstanceAs (Decidable (_ ∧ _))

instance decidableAllowed (gs : η → Option Gstr) : ∀ c, Decidable (Allowed gs c)
  | ⟨.init _ _, _⟩ => isTrue trivial
  | ⟨.initFrom _ s, _⟩ => inferInstanceAs (Decidable (∀ str ∈ s, Plain 0 str))
  | ⟨.dup _ s, _⟩ => inferInstanceAs (Decidable ((gs s).isSome = true))
  | ⟨.appendStr g str, _⟩ => inferInstanceAs (Decidable (∃ w ∈ gs g, ∀ s ∈ str, Plain w.len s))
  | ⟨.append g that, _⟩ => inferInstanceAs (Decidable
      (g ≠ that ∧ ∃ w ∈ gs g, ∃ w' ∈ gs that, w.len.toNat + w'.len.toNat < 2 ^ 31))
  | ⟨.appendCh g ch, _⟩ => inferInstanceAs (Decidable (∃ w ∈ gs g, Plain w.len [ch.toUInt8]))
  | ⟨.truncate g _, _⟩ | ⟨.chop g, _⟩ | ⟨.trim g, _⟩ =>
    inferInstanceAs (Decidable ((gs g).isSome = true))
  | ⟨.chopIf g s, _⟩ => inferInstanceAs (Decidable ((gs g).isSome = true ∧ 0 ∉ s))

instance decidableFits (gs : η → Option Gstr) : ∀ c, Decidable (Fits gs c)
  | ⟨.init _ size, _⟩ => inferInstanceAs (Decidable (size.toNat < 2 ^ 63))
  | ⟨.appendStr _ str, _⟩ => inferInstanceAs (Decidable (∀ s ∈ str, s.length < 2 ^ 31 - 1))
  | ⟨.append _ that, _⟩ => inferInstanceAs (Decidable (∀ w ∈ gs that, w.len.toNat < 2 ^ 31 - 1))
  | ⟨.initFrom _ _, _⟩ | ⟨.dup _ _, _⟩ | ⟨.appendCh _ _, _⟩ | ⟨.truncate _ _, _⟩ | ⟨.chop _, _⟩
  | ⟨.chopIf _ _, _⟩ | ⟨.trim _, _⟩ => isTrue trivial

theorem gstr_refines_space_a :
    ∃ q, Run.run step (fun _ : Bool => none)
        [⟨.initFrom true (some [0x20, 0x61]), fun _ => 9⟩, ⟨.init false 1, fun _ => 9⟩,
          ⟨.append false true, fun _ => 9⟩, ⟨.appendCh false 0x0a, fun _ => 9⟩,
          ⟨.chop false, fun _ => 9⟩, ⟨.trim false, fun _ => 9⟩] = some q ∧
      HoldsAll q.1 (Run.runTotal spec (fun _ : Bool => [])
        [⟨.initFrom true (some [0x20, 0x61]), fun _ => 9⟩, ⟨.init false 1, fun _ => 9⟩,
          ⟨.append false true, fun _ => 9⟩, ⟨.appendCh false 0x0a, fun _ => 9⟩,
          ⟨.chop false, fun _ => 9⟩, ⟨.trim false, fun _ => 9⟩]).1 ∧
      q.2 = [.string, .string, .length 2, .length 3, .char 0x0a, .string] :=
  gstr_refines _ (by decide)

/-- 2³¹ - 1 bytes and the terminator are a negative `int`, and the new capacity overflows to 0. -/
theorem gstr_append_fails_before_two_gib :
    Run.StepsMeet step Allowed (fun _ : Unit => none) [⟨.init () 0, fun _ => 0⟩,
        ⟨.appendStr () (some (replicate (2 ^ 31 - 1) 0x61)), fun _ => 0⟩] ∧
      Run.run step (fun _ : Unit => none) [⟨.init () 0, fun _ => 0⟩,
        ⟨.appendStr () (some (replicate (2 ^ 31 - 1) 0x61)), fun _ => 0⟩] = none := by
  have hinit : step (fun _ : Unit => none) ⟨.init () 0, fun _ => 0⟩ =
      some (Function.update (fun _ => none) () (some ⟨⟨64, fun _ => 0⟩, 0, 64⟩), .string) := rfl
  have hgrow : growIf (fun _ => 0) ⟨⟨64, fun _ => 0⟩, 0, 64⟩ (UInt64.ofNat (2 ^ 31 - 1) + 1) =
      none := rfl
  constructor
  · refine ⟨trivial, fun p hp => ⟨?_, fun _ _ => trivial⟩⟩
    obtain rfl := Option.some.inj (hinit.symm.trans hp)
    refine ⟨⟨⟨64, fun _ => 0⟩, 0, 64⟩, rfl, fun s hs => ?_⟩
    obtain rfl := Option.some.inj hs
    refine ⟨fun h0 => absurd (eq_of_mem_replicate h0) (by decide), ?_⟩
    rw [length_replicate]
    decide
  · rw [Run.run, hinit, Option.bind_some, Run.run]
    simp only [step, Function.update_self, Option.bind_some, gstrAppendStr, append,
      length_replicate, hgrow, Option.bind_eq_bind, Option.bind_none, Option.map_none]

end PortableLib.Gstring
