import PortableLib.ParseIp.Mask
import PortableLib.StrUnquote

/-! Addresses with a mask, `parse-ip.c`: the two parts are copied into buffers of 32 bytes. -/

namespace PortableLib.ParseIp
open List Gstring Horner StrUnquote
open Gstring.Escape (isdigit)
open StrToSize (value)

def strchr (s : Block UInt8) (c : UInt8) : Nat → Nat → Option (Option Nat)
  | 0, _ => none
  | fuel + 1, i => do
    let x ← s.read i
    if x = c then return some i
    if x = 0 then return none
    strchr s c fuel (i + 1)

/-- The loop of `safe_strcpy`: the target, how far it and the source got, and `sz`. -/
def copyLoop (src : Block UInt8) :
    Nat → Block UInt8 → Nat → Nat → Option (Block UInt8 × Nat × Nat × Nat)
  | 0, _, _, _ => none
  | 1, dst, i, s => some (dst, i, s, 0)
  | sz + 2, dst, i, s => do
    let c ← src.read s
    let dst ← dst.write i c
    if c = 0 then return (dst, i, s, sz + 1)
    copyLoop src (sz + 1) dst (i + 1) (s + 1)

def safeStrcpy (dst : Block UInt8) (sz : Nat) (src : Block UInt8) (s : Nat) :
    Option (Block UInt8 × Int) := do
  let (dst, i, s, sz) ← copyLoop src sz dst 0 s
  let dst ← if sz = 0 then dst.write i 0 else some dst
  let c ← src.read s
  return (dst, if c ≠ 0 then -1 else i)

structure Masked where
  ret : Bool
  a : Option UInt32
  m : Option UInt32
  deriving DecidableEq

/-- `<<` is not defined from the width of its operand on. -/
def shl (x k : UInt32) : Option UInt32 := if k < 32 then some (x <<< k) else none

def maskPart (junk : Nat → UInt8) (ms : Block UInt8) : Option (Option UInt32) := do
  match ← strchr ms 0x2e ms.len 0 with
  | some _ => parseIpv4 junk ms
  | none =>
    let c ← ms.read 0
    match ← if c ≠ 0 then dtoi ms ms.len 0 0 else some (some 32) with
    | none => return none
    | some z =>
      if 32 < z then return none
      return some (← shl 0xffffffff (32 - z.toUInt32))

def bothParts (junk : Nat → Nat → UInt8) (as ms : Block UInt8) : Option Masked := do
  match ← parseIpv4 (junk 2) as with
  | none => return ⟨false, none, none⟩
  | some a =>
    let m ← maskPart (junk 3) ms
    return ⟨m.isSome, some a, m⟩

def parseIpv4AndMask (junk : Nat → Nat → UInt8) (str : Block UInt8) : Option Masked := do
  match ← strchr str 0x2f str.len 0 with
  | none =>
    let (as, r) ← safeStrcpy ⟨32, junk 0⟩ 32 str 0
    if r < 0 then return ⟨false, none, none⟩
    let ms ← (⟨32, junk 1⟩ : Block UInt8).write 0 0
    bothParts junk as ms
  | some sl =>
    let n := toInt sl
    if 15 < n then return ⟨false, none, none⟩
    let as ← (⟨32, junk 0⟩ : Block UInt8).copy 0 str (n % 2 ^ 64).toNat
    let as ← writeAt as n 0
    let (ms, _) ← safeStrcpy ⟨32, junk 1⟩ 32 str (sl + 1)
    bothParts junk as ms

/-! ## The copies -/

variable {s src dst : Block UInt8} {q t p : List UInt8} {c : UInt8} {junk : Nat → Nat → UInt8}

theorem strchr_of_notMem (h : Terminated s (q ++ t)) (hc : c ∉ t) (h0 : c ≠ 0) {fuel : Nat}
    (hfuel : t.length < fuel) : strchr s c fuel q.length = some none := by
  induction t generalizing q fuel with
  | nil =>
    obtain ⟨fuel, rfl⟩ := Nat.exists_eq_add_of_lt hfuel
    rw [append_nil] at h
    rw [strchr, h.read_end]
    simp only [Option.bind_eq_bind, Option.bind_some, if_neg h0.symm, if_true]
    rfl
  | cons x t ih =>
    obtain ⟨fuel, rfl⟩ := Nat.exists_eq_add_of_lt hfuel
    obtain ⟨hx, ht⟩ := not_or.mp (mem_cons.not.mp hc)
    have hne : x ≠ 0 := fun h0 => h.nulFree (h0 ▸ mem_append_right q mem_cons_self)
    have hrest : Terminated s ((q ++ [x]) ++ t) := by
      rw [append_assoc]
      exact h
    have hnow := @ih (q ++ [x]) hrest ht (t.length + 1 + fuel) (by omega)
    rw [length_append, length_singleton] at hnow
    rw [strchr, h.read]
    simp only [Option.bind_eq_bind, Option.bind_some, if_neg (Ne.symm hx), if_neg hne]
    exact hnow

theorem strchr_append (h : Terminated s (q ++ (p ++ c :: t))) (hc : c ∉ p) {fuel : Nat}
    (hfuel : p.length < fuel) : strchr s c fuel q.length = some (some (q.length + p.length)) := by
  induction p generalizing q fuel with
  | nil =>
    obtain ⟨fuel, rfl⟩ := Nat.exists_eq_add_of_lt hfuel
    rw [nil_append] at h
    rw [strchr, h.read]
    simp only [Option.bind_eq_bind, Option.bind_some, if_true]
    rfl
  | cons x p ih =>
    obtain ⟨fuel, rfl⟩ := Nat.exists_eq_add_of_lt hfuel
    obtain ⟨hx, hp⟩ := not_or.mp (mem_cons.not.mp hc)
    have hne : x ≠ 0 := fun h0 => h.nulFree (h0 ▸ mem_append_right q mem_cons_self)
    have hrest : Terminated s ((q ++ [x]) ++ (p ++ c :: t)) := by
      rw [append_assoc]
      exact h
    have hnow := @ih (q ++ [x]) hrest hp (p.length + 1 + fuel) (by omega)
    rw [length_append, length_singleton] at hnow
    rw [strchr, h.read]
    simp only [Option.bind_eq_bind, Option.bind_some, if_neg (Ne.symm hx), if_neg hne, length_cons]
    rw [show q.length + (p.length + 1) = q.length + 1 + p.length by omega]
    exact hnow

theorem copyLoop_spec (hs : Terminated src (q ++ t)) {sz : Nat} (hroom : p.length + sz < dst.len)
    (hdst : (range p.length).map dst.cells = p) :
    ∃ dst', copyLoop src (sz + 1) dst p.length q.length = some (dst', p.length + (t.take sz).length,
      q.length + (t.take sz).length, if t.length < sz then sz - t.length else 0) ∧
      dst'.len = dst.len ∧ (range (p ++ t.take sz).length).map dst'.cells = p ++ t.take sz ∧
      (t.length < sz → dst'.cells (p.length + t.length) = 0) := by
  induction sz generalizing q t p dst with
  | zero =>
    rw [take_zero, append_nil]
    exact ⟨dst, rfl, rfl, hdst, fun h => absurd h (Nat.not_lt_zero _)⟩
  | succ sz ih =>
    obtain ⟨dst', hw, hlen, hnew, hold⟩ := Block.write_spec (b := dst) (i := p.length) (by omega)
      (t.headD 0)
    rw [copyLoop, hs.read_headD]
    simp only [Option.bind_eq_bind, Option.bind_some, hw]
    cases t with
    | nil =>
      rw [headD_nil, if_pos rfl, take_nil, append_nil]
      exact ⟨dst', rfl, hlen, (map_range_congr fun i hi => hold i hi.ne).trans hdst, fun _ => hnew⟩
    | cons c t =>
      -- no NUL inside the string, so the loop goes on behind `c`
      have hne : c ≠ 0 := fun h0 => hs.nulFree (h0 ▸ mem_append_right q mem_cons_self)
      have hrest : Terminated src ((q ++ [c]) ++ t) := by
        rw [append_assoc]
        exact hs
      have hcells : (range (p ++ [c]).length).map dst'.cells = p ++ [c] := by
        rw [length_append, map_range_add (fun i hi => hold i hi.ne) (k := fun _ => c), hdst]
        · rfl
        · intro i hi
          obtain rfl : i = 0 := Nat.lt_one_iff.mp hi
          exact hnew
      obtain ⟨dst'', hrun, hl, hc, hz⟩ := @ih dst' (q ++ [c]) t (p ++ [c]) hrest (by
        rw [hlen, length_append, length_singleton]
        omega) hcells
      rw [length_append, length_singleton, length_append, length_singleton] at hrun
      rw [length_append, length_singleton] at hz
      rw [headD_cons, if_neg hne]
      refine ⟨dst'', ?_, hl.trans hlen, ?_, fun h => ?_⟩
      · rw [hrun, take_succ_cons, length_cons, length_cons]
        simp only [Nat.add_assoc, Nat.add_comm 1, Nat.add_lt_add_iff_right, Nat.add_sub_add_right]
      · rw [append_assoc] at hc
        exact hc
      · have h' := hz (by rw [length_cons] at h; omega)
        rw [length_cons, show p.length + (t.length + 1) = p.length + 1 + t.length by omega]
        exact h'

theorem safeStrcpy_spec (hs : Terminated src (q ++ t)) {sz : Nat} (hsz : sz < dst.len) :
    ∃ dst' r, safeStrcpy dst (sz + 1) src q.length = some (dst', r) ∧
      Terminated dst' (t.take sz) := by
  obtain ⟨dst', hrun, hlen, hcells, hnul⟩ := @copyLoop_spec src dst q t [] hs sz (by
    rw [length_nil]
    omega) rfl
  rw [nil_append] at hcells
  rw [length_nil, Nat.zero_add] at hrun hnul
  have hfree : 0 ∉ t.take sz := fun h0 => hs.nulFree (mem_append_right q (mem_of_mem_take h0))
  have htake : (t.take sz).length ≤ sz := length_take_le _ _
  obtain ⟨c, hc⟩ : ∃ c, src.read (q.length + (t.take sz).length) = some c := by
    refine ⟨_, Block.read_of_lt (lt_of_le_of_lt ?_ hs.room)⟩
    rw [length_append]
    exact Nat.add_le_add_left (length_take_le' _ _) _
  rw [safeStrcpy, hrun]
  simp only [Option.bind_eq_bind, Option.bind_some]
  rcases Nat.lt_or_ge t.length sz with hlt | hge
  · have hall : t.take sz = t := take_of_length_le hlt.le
    rw [if_pos hlt, if_neg (by omega), hc]
    refine ⟨dst', _, rfl, ?_, hcells, ?_, hfree⟩
    · omega
    · rw [hall]
      exact hnul hlt
  · obtain ⟨dst'', hw, hlen', hnew, hold⟩ := Block.write_spec (b := dst') (i := (t.take sz).length)
      (by omega) 0
    rw [if_neg (Nat.not_lt.mpr hge), if_pos rfl, hw, Option.bind_some, hc]
    exact ⟨dst'', _, rfl, by omega, (map_range_congr fun i hi => hold i hi.ne).trans hcells, hnew,
      hfree⟩

/-! ## What is accepted -/

def Accepted (t : List UInt8) : Prop := (∃ z, Quad t z) ∨ Sloppy t

theorem Accepted.read (h : Accepted t) : ∃ z, (octets [] [] t).bind address = some z := by
  rcases h with ⟨z, h⟩ | h
  · exact ⟨z, h.accepted⟩
  · exact h.accepted

theorem accepted_of_read {z : UInt32} (h : (octets [] [] t).bind address = some z) : Accepted t :=
  (accepted_cases h).imp_left fun h => ⟨z, h⟩

theorem Accepted.length_le (h : Accepted t) : t.length ≤ 16 := by
  rcases h with ⟨z, h⟩ | h
  · exact h.length_le.trans (by decide)
  · cases h with
    | @trailing a b c d h =>
      simp only [forall_mem_cons] at h
      obtain ⟨ha, hb, hc, hd, -⟩ := h
      have ha := ha.short
      have hb := hb.short
      have hc := hc.short
      have hd := hd.short
      simp only [dotted, length_append, length_cons, length_nil]
      omega
    | @last a b c d h hd hne hodd =>
      simp only [forall_mem_cons] at h
      obtain ⟨ha, hb, hc, -⟩ := h
      have ha := ha.short
      have hb := hb.short
      have hc := hc.short
      have hd := hd.short
      simp only [dotted, length_append, length_cons]
      omega

theorem shl_netmask {z : UInt64} (hlo : 1 ≤ z.toNat) (hhi : z.toNat ≤ 32) :
    ∃ x, shl 0xffffffff (32 - z.toUInt32) = some x ∧ x.toNat = netmask z.toNat := by
  have hz : z.toUInt32.toNat = z.toNat := by
    rw [UInt64.toNat_toUInt32]
    omega
  have hsub : (32 - z.toUInt32).toNat = 32 - z.toNat := by
    rw [UInt32.toNat_sub_of_le _ _ (by rw [UInt32.le_iff_toNat_le, hz]; exact hhi), hz]
    rfl
  have hlt : 32 - z.toUInt32 < 32 := by
    rw [UInt32.lt_iff_toNat_lt, hsub, show (32 : UInt32).toNat = 32 from rfl]
    omega
  refine ⟨_, if_pos hlt, ?_⟩
  have hpow : 2 ^ z.toNat * 2 ^ (32 - z.toNat) = 2 ^ 32 := by
    rw [← Nat.pow_add, Nat.add_sub_cancel' hhi]
  have hpos := Nat.two_pow_pos (32 - z.toNat)
  have hle : 2 ^ (32 - z.toNat) ≤ 2 ^ 32 := Nat.pow_le_pow_right (by decide) (Nat.sub_le _ _)
  rw [UInt32.toNat_shiftLeft, hsub, Nat.mod_eq_of_lt (by omega : 32 - z.toNat < 32),
    Nat.shiftLeft_eq, netmask_eq hhi]
  -- the ones that are shifted out
  have hsplit : (0xffffffff : UInt32).toNat * 2 ^ (32 - z.toNat) =
      (2 ^ (32 - z.toNat) - 1) * 2 ^ 32 + (2 ^ 32 - 2 ^ (32 - z.toNat)) := by
    rw [show (0xffffffff : UInt32).toNat = 2 ^ 32 - 1 from rfl, Nat.sub_mul, Nat.sub_mul]
    omega
  rw [hsplit, Nat.mul_add_mod_self_right]
  exact Nat.mod_eq_of_lt (by omega)

theorem maskPart_dot {ms : Block UInt8} (hs : Terminated ms t) (hdot : 0x2e ∈ t)
    (junk : Nat → UInt8) : maskPart junk ms = some ((octets [] [] t).bind address) := by
  obtain ⟨p, u, rfl, hp⟩ := eq_append_cons_of_mem hdot
  have hfind := strchr_append (q := []) hs hp (show p.length < ms.len by
    have hroom := hs.room
    rw [length_append] at hroom
    omega)
  rw [length_nil] at hfind
  rw [maskPart, hfind]
  exact parseIpv4_spec junk hs

theorem maskPart_nil {ms : Block UInt8} (hs : Terminated ms []) (junk : Nat → UInt8) :
    maskPart junk ms = some (some 0xffffffff) := by
  have hfind := strchr_of_notMem (q := []) (c := 0x2e) hs not_mem_nil (by decide) hs.room
  have hread : ms.read 0 = some 0 := hs.read_end
  rw [length_nil] at hfind
  rw [maskPart, hfind]
  simp only [Option.bind_eq_bind, Option.bind_some, hread]
  rfl

theorem maskPart_number {ms : Block UInt8} (hs : Terminated ms t) (hdot : 0x2e ∉ t) (hne : t ≠ [])
    (junk : Nat → UInt8) :
    ((¬ ∀ c ∈ t, isdigit c = true) ∨ 32 < number t % 2 ^ 64 → maskPart junk ms = some none) ∧
    ((∀ c ∈ t, isdigit c = true) → number t % 2 ^ 64 = 0 → maskPart junk ms = none) ∧
    ((∀ c ∈ t, isdigit c = true) → 1 ≤ number t % 2 ^ 64 → number t % 2 ^ 64 ≤ 32 →
      ∃ x, maskPart junk ms = some (some x) ∧ x.toNat = netmask (number t % 2 ^ 64)) := by
  have hfind := strchr_of_notMem (q := []) hs hdot (by decide) hs.room
  obtain ⟨hsome, hnone⟩ := dtoi_spec (q := []) (v := 0) (n := 0) hs rfl hs.room
  rw [horner_eq_ofDigits] at hsome
  rw [length_nil] at hfind hsome hnone
  obtain ⟨c, t', rfl⟩ := exists_cons_of_ne_nil hne
  have hread : ms.read 0 = some c := Terminated.read (p := []) hs
  have hc : c ≠ 0 := fun h0 => hs.nulFree (h0 ▸ mem_cons_self)
  have hrun : maskPart junk ms = (dtoi ms ms.len 0 0).bind fun r => r.elim (some none) fun z =>
      if 32 < z then some none else (shl 0xffffffff (32 - z.toUInt32)).map some := by
    rw [maskPart, hfind]
    simp only [Option.bind_eq_bind, Option.bind_some, hread, if_pos hc]
    congr 1
    funext r
    cases r with
    | none => rfl
    | some z =>
      simp only [Option.elim_some]
      split
      · rfl
      · cases shl 0xffffffff (32 - z.toUInt32) <;> rfl
  rw [hrun]
  by_cases hd : ∀ x ∈ c :: t', isdigit x = true
  · obtain ⟨z, hz, hval⟩ := hsome hd
    change z.toNat = number (c :: t') % 2 ^ 64 at hval
    -- only the test against 32 sees the number, so it is taken modulo 2⁶⁴
    have htest : 32 < z ↔ 32 < number (c :: t') % 2 ^ 64 := by
      rw [UInt64.lt_iff_toNat_lt, hval]
      rfl
    rw [hz]
    simp only [Option.bind_some, Option.elim_some, htest]
    refine ⟨?_, ?_, ?_⟩
    · rintro (hnot | hbig)
      · exact absurd hd hnot
      · rw [if_pos hbig]
    -- a shift by 32 is undefined
    · intro _ hzero
      have hz0 : z = 0 := UInt64.toNat_inj.mp (by rw [hval, hzero]; rfl)
      rw [if_neg (by omega), hz0]
      rfl
    · intro _ hlo hhi
      obtain ⟨x, hx, hnet⟩ := shl_netmask (z := z) (by omega) (by omega)
      rw [if_neg (by omega), hx]
      exact ⟨x, rfl, by rw [hnet, hval]⟩
  · rw [hnone hd]
    exact ⟨fun _ => rfl, fun h => absurd h hd, fun h => absurd h hd⟩

/-! ## Address and length -/

/-- The address part, as far as it is looked at, is accepted. -/
def AddressOk (a : List UInt8) : Prop :=
  ∃ n : Nat, n ≤ 15 ∧ toInt a.length = n ∧ Accepted (a.take n)

variable {str : Block UInt8} {a m : List UInt8}

theorem bothParts_of_not (junk : Nat → Nat → UInt8) {as ms : Block UInt8} (hs : Terminated as t)
    (hnot : ¬ Accepted t) : bothParts junk as ms = some ⟨false, none, none⟩ := by
  rw [bothParts, parseIpv4_spec _ hs]
  cases h : (octets [] [] t).bind address with
  | none => rfl
  | some z => exact absurd (accepted_of_read h) hnot

theorem bothParts_of_accepted (junk : Nat → Nat → UInt8) {as ms : Block UInt8}
    (hs : Terminated as t) (h : Accepted t) : ∃ z, bothParts junk as ms =
      (maskPart (junk 3) ms).map fun x => ⟨x.isSome, some z, x⟩ := by
  obtain ⟨z, hz⟩ := h.read
  refine ⟨z, ?_⟩
  rw [bothParts, parseIpv4_spec _ hs, hz]
  cases maskPart (junk 3) ms <;> rfl

theorem memcpy_spec {l : List UInt8} (hs : Terminated str l) (j : Nat → UInt8) {n : Nat}
    (hn : n ≤ 15) (hle : n ≤ l.length) :
    ∃ as as', (⟨32, j⟩ : Block UInt8).copy 0 str n = some as ∧ writeAt as n 0 = some as' ∧
      Terminated as' (l.take n) := by
  have hroom := hs.room
  have hlen : (l.take n).length = n := length_take_of_le hle
  obtain ⟨as, hcopy, hl, -, hnew⟩ := Block.copy_spec (b := (⟨32, j⟩ : Block UInt8))
    (show 0 + n ≤ 32 by omega) (show n ≤ str.len by omega)
  obtain ⟨as', hw, hl', hnul, hold⟩ := Block.write_spec (b := as) (i := n)
    (by rw [hl]; change n < 32; omega) 0
  refine ⟨as, as', hcopy, ?_, ?_, ?_, by rwa [hlen], fun h0 => hs.nulFree (mem_of_mem_take h0)⟩
  · rw [writeAt, if_pos (Int.natCast_nonneg n), Int.toNat_natCast]
    exact hw
  · rw [hlen, hl', hl]
    change n < 32
    omega
  · have hrange : range n = (range l.length).take n := by rw [take_range, Nat.min_eq_left hle]
    rw [hlen, hrange, map_congr_left (g := str.cells), map_take, hs.bytes]
    intro i hi
    rw [← hrange, mem_range] at hi
    have hi' := hnew i hi
    rw [Nat.zero_add] at hi'
    rw [hold i hi.ne, hi']

theorem toInt_bounds (k : Nat) : -(2 ^ 31) ≤ toInt k ∧ toInt k < 2 ^ 31 := by
  have hlo := Int32.le_toInt (Int32.ofNat k)
  have hhi := Int32.toInt_lt (Int32.ofNat k)
  exact ⟨hlo, hhi⟩

theorem masked_run (hs : Terminated str (a ++ 0x2f :: m)) (ha : 0x2f ∉ a) :
    (¬ AddressOk a → ∀ r, parseIpv4AndMask junk str = some r → r.ret = false) ∧
    (AddressOk a → ∃ z ms, Terminated ms (m.take 31) ∧
      parseIpv4AndMask junk str = (maskPart (junk 3) ms).map fun x => ⟨x.isSome, some z, x⟩) := by
  have hroom := hs.room
  rw [length_append, length_cons] at hroom
  have hfind := strchr_append (q := []) hs ha (show a.length < str.len by omega)
  rw [length_nil, Nat.zero_add] at hfind
  have hms : Terminated str ((a ++ [0x2f]) ++ m) := by
    rw [append_assoc]
    exact hs
  obtain ⟨ms, r₀, hcopy, hmterm⟩ := @safeStrcpy_spec str ⟨32, junk 1⟩ _ _ hms 31
    (show 31 < 32 by decide)
  rw [length_append, length_singleton] at hcopy
  obtain ⟨hlo, hhi⟩ := toInt_bounds a.length
  have hle := toInt_le a.length
  rw [parseIpv4AndMask, hfind]
  simp only [Option.bind_eq_bind, Option.bind_some]
  generalize hn : toInt a.length = n at hlo hhi hle
  have hok : AddressOk a → 0 ≤ n ∧ n ≤ 15 := by
    rintro ⟨k, hk, hlen, -⟩
    omega
  -- the length of the address part is an `int`, which may be negative
  by_cases hlong : 15 < n
  · rw [if_pos hlong]
    refine ⟨fun _ r hr => ?_, fun h => ?_⟩
    · rw [← Option.some.inj hr]
    · have := (hok h).2
      omega
  rw [if_neg hlong]
  by_cases hneg : n < 0
  · -- the count of `memcpy` is close to 2⁶⁴
    have hbig : ¬(0 + (n % 2 ^ 64).toNat ≤ 32 ∧ (n % 2 ^ 64).toNat ≤ str.len) := by omega
    have hfail : (⟨32, junk 0⟩ : Block UInt8).copy 0 str (n % 2 ^ 64).toNat = none := if_neg hbig
    rw [hfail]
    refine ⟨fun _ r hr => (by cases hr), fun h => ?_⟩
    have := (hok h).1
    omega
  · obtain ⟨k, rfl⟩ := Int.eq_ofNat_of_zero_le (Int.not_lt.mp hneg)
    have hmod : ((k : Int) % 2 ^ 64).toNat = k := by omega
    obtain ⟨as, as', hcp, hw, hterm⟩ := memcpy_spec hs (junk 0) (n := k) (by omega) (by
      rw [length_append]
      omega)
    rw [take_append_of_le_length (by omega)] at hterm
    rw [hmod, hcp, Option.bind_some, hw, Option.bind_some, hcopy, Option.bind_some]
    constructor
    · intro hnot r hr
      have hacc : ¬ Accepted (a.take k) := fun h => hnot ⟨k, by omega, hn, h⟩
      rw [bothParts_of_not junk hterm hacc] at hr
      rw [← Option.some.inj hr]
    · rintro ⟨k', -, hlen, hacc⟩
      obtain rfl : k = k' := by omega
      obtain ⟨z, hz⟩ : ∃ z, bothParts junk as' ms = _ := bothParts_of_accepted junk hterm hacc
      exact ⟨z, ms, hmterm, hz⟩

/-- What is accepted with a mask part is right, and an address with any mask part has a result. -/
structure MasksRight (junk : Nat → Nat → UInt8) (str : Block UInt8) (a m : List UInt8) : Prop where
  length : ∀ r, parseIpv4AndMask junk str = some r → r.ret = true → m ≠ [] → 0x2e ∉ m →
    ∃ n ≤ 32, (∀ c ∈ m, isdigit c = true) ∧ number m = n ∧ ∃ mask, r.m = some mask ∧
      mask.toNat = netmask n ∧ maskToCidr4 mask = some (some (UInt32.ofNat n))
  whole : ∀ r, parseIpv4AndMask junk str = some r → r.ret = true → m.length < 32
  total : AddressOk a → ∃ r, parseIpv4AndMask junk str = some r

/-- The first 31 characters are a number that is at most 32 after it has wrapped, but these are not
all, or the number is not one from 1 to 32. -/
structure Misread (m : List UInt8) : Prop where
  nonempty : m ≠ []
  digit : ∀ c ∈ m.take 31, isdigit c = true
  small : number (m.take 31) % 2 ^ 64 ≤ 32
  odd : m.length < 32 → number m = 0 ∨ 32 < number m

theorem maskToCidr4_netmask {mask : UInt32} {n : Nat} (hn : n ≤ 32) (h : mask.toNat = netmask n) :
    maskToCidr4 mask = some (some (UInt32.ofNat n)) := by
  have hof : (UInt32.ofNat n).toNat = n := UInt32.toNat_ofNat_of_lt' (by change n < 2 ^ 32; omega)
  obtain ⟨r, hr, hiff⟩ := maskToCidr4_spec mask
  rw [hr, (hiff (UInt32.ofNat n)).mpr ⟨by rw [hof]; exact hn, by rw [hof]; exact h⟩]

def PartRight (m : List UInt8) (x : Option UInt32) : Prop :=
  ∀ mask, x = some mask → m.length < 32 ∧ (m ≠ [] → 0x2e ∉ m → ∃ n ≤ 32,
    (∀ c ∈ m, isdigit c = true) ∧ number m = n ∧ mask.toNat = netmask n)

theorem masksRight_of_maskPart {ms : Block UInt8} {z : UInt32} (hok : AddressOk a)
    (hrun : parseIpv4AndMask junk str = (maskPart (junk 3) ms).map fun x => ⟨x.isSome, some z, x⟩) :
    MasksRight junk str a m ↔ ∃ x, maskPart (junk 3) ms = some x ∧ PartRight m x := by
  constructor
  · intro h
    obtain ⟨r, hr⟩ := h.total hok
    obtain ⟨x, hx, rfl⟩ := Option.map_eq_some_iff.mp (hrun.symm.trans hr)
    refine ⟨x, hx, ?_⟩
    rintro mask rfl
    refine ⟨h.whole _ hr rfl, fun hne hdot => ?_⟩
    obtain ⟨n, hn, hd, hnum, mask', hm, hnet, -⟩ := h.length _ hr rfl hne hdot
    obtain rfl : mask = mask' := Option.some.inj hm
    exact ⟨n, hn, hd, hnum, hnet⟩
  · rintro ⟨x, hx, hspec⟩
    have hsome : parseIpv4AndMask junk str = some ⟨x.isSome, some z, x⟩ := by rw [hrun, hx]; rfl
    refine ⟨fun r hr hret hne hdot => ?_, fun r hr hret => ?_, fun _ => ⟨_, hsome⟩⟩
    all_goals
      obtain rfl := Option.some.inj (hsome.symm.trans hr)
      obtain ⟨mask, rfl⟩ := Option.isSome_iff_exists.mp hret
      obtain ⟨hlen, hnum⟩ := hspec mask rfl
    · obtain ⟨n, hn, hd, hnum, hnet⟩ := hnum hne hdot
      exact ⟨n, hn, hd, hnum, mask, rfl, hnet, maskToCidr4_netmask hn hnet⟩
    · exact hlen

theorem partRight_number {ms : Block UInt8} (hterm : Terminated ms (m.take 31)) (j : Nat → UInt8)
    (hne : m ≠ []) (hdot : 0x2e ∉ m.take 31) (hd : ∀ c ∈ m.take 31, isdigit c = true)
    (hsmall : number (m.take 31) % 2 ^ 64 ≤ 32) :
    (∃ x, maskPart j ms = some x ∧ PartRight m x) ↔
      ¬(m.length < 32 → number m = 0 ∨ 32 < number m) := by
  have hne' : m.take 31 ≠ [] := by
    rw [ne_eq, take_eq_nil_iff, not_or]
    exact ⟨by decide, hne⟩
  obtain ⟨-, hzero, hmask⟩ := maskPart_number hterm hdot hne' j
  have hall : m.length < 32 → m.take 31 = m := fun h => take_of_length_le (by omega)
  by_cases hz : number (m.take 31) % 2 ^ 64 = 0
  · -- the shift by the width
    refine iff_of_false ?_ (not_not.mpr fun hlt => ?_)
    · rintro ⟨x, hx, -⟩
      rw [hzero hd hz] at hx
      cases hx
    · rw [hall hlt] at hz
      omega
  · obtain ⟨x, hx, hnet⟩ := hmask hd (by omega) hsmall
    rw [hx]
    constructor
    · rintro ⟨_, ⟨⟩, h⟩ hodd
      obtain ⟨hlt, h⟩ := h x rfl
      rw [hall hlt] at hdot hz
      obtain ⟨n, hn, -, hnum, -⟩ := h hne hdot
      rcases hodd hlt with h0 | hbig
      · rw [h0] at hz
        exact hz rfl
      · omega
    · intro hodd
      obtain ⟨hlt, hnum⟩ := Classical.not_imp.mp hodd
      obtain ⟨hpos, hle⟩ := not_or.mp hnum
      rw [hall hlt] at hd hnet
      rw [Nat.mod_eq_of_lt (show number m < 2 ^ 64 by omega)] at hnet
      refine ⟨_, rfl, ?_⟩
      rintro _ ⟨⟩
      exact ⟨hlt, fun _ _ => ⟨number m, by omega, hd, rfl, hnet⟩⟩

theorem partRight_iff {ms : Block UInt8} (hterm : Terminated ms (m.take 31)) (j : Nat → UInt8) :
    (∃ x, maskPart j ms = some x ∧ PartRight m x) ↔ ¬ Misread m := by
  by_cases hdot : 0x2e ∈ m.take 31
  · have hnot : ¬ Misread m := fun h => (digit_spec (h.digit _ hdot)).2.2.2 rfl
    refine iff_of_true ⟨_, maskPart_dot hterm hdot j, fun mask hmask => ⟨?_, ?_⟩⟩ hnot
    · have hlen := (accepted_of_read hmask).length_le
      rw [length_take] at hlen
      omega
    · exact fun _ h => absurd (mem_of_mem_take hdot) h
  by_cases hne : m = []
  · subst hne
    refine iff_of_true ⟨_, maskPart_nil hterm j, fun mask _ => ⟨by decide, ?_⟩⟩ fun h => ?_
    · exact fun h => absurd rfl h
    · exact h.nonempty rfl
  by_cases hrej : (¬ ∀ c ∈ m.take 31, isdigit c = true) ∨ 32 < number (m.take 31) % 2 ^ 64
  · have hne' : m.take 31 ≠ [] := by
      rw [ne_eq, take_eq_nil_iff, not_or]
      exact ⟨by decide, hne⟩
    refine iff_of_true ⟨_, (maskPart_number hterm hdot hne' j).1 hrej, fun mask h => by cases h⟩
      fun h => ?_
    rcases hrej with hnot | hbig
    · exact hnot h.digit
    · exact absurd h.small (Nat.not_le.mpr hbig)
  · obtain ⟨hd, hsmall⟩ := not_or.mp hrej
    rw [not_not] at hd
    rw [Nat.not_lt] at hsmall
    have hmis : Misread m ↔ (m.length < 32 → number m = 0 ∨ 32 < number m) :=
      ⟨fun h => h.odd, fun h => ⟨hne, hd, hsmall, h⟩⟩
    rw [hmis]
    exact partRight_number hterm j hne hdot hd hsmall

/-- `parse_ipv4_and_mask` is right about what comes after the slash unless the address part is
accepted and the mask part misread. -/
theorem masksRight_iff (junk : Nat → Nat → UInt8) (hs : Terminated str (a ++ 0x2f :: m))
    (ha : 0x2f ∉ a) : MasksRight junk str a m ↔ ¬(AddressOk a ∧ Misread m) := by
  obtain ⟨hrefused, hrun⟩ := masked_run hs ha
  by_cases hok : AddressOk a
  · obtain ⟨z, ms, hterm, hr⟩ := hrun hok
    rw [masksRight_of_maskPart hok hr, and_iff_right hok]
    exact partRight_iff hterm (junk 3)
  · refine iff_of_true ⟨fun r hr hret => ?_, fun r hr hret => ?_, fun h => absurd h hok⟩
      fun h => hok h.1
    · rw [hrefused hok r hr] at hret
      cases hret
    · rw [hrefused hok r hr] at hret
      cases hret

theorem masksRight_iff_twentyFour : MasksRight (fun _ _ => 0)
    (cstr [0x31, 0x2e, 0x31, 0x2e, 0x31, 0x2e, 0x31, 0x2f, 0x32, 0x34])
    [0x31, 0x2e, 0x31, 0x2e, 0x31, 0x2e, 0x31] [0x32, 0x34] :=
  (masksRight_iff (a := [0x31, 0x2e, 0x31, 0x2e, 0x31, 0x2e, 0x31]) (m := [0x32, 0x34]) _
    (terminated_cstr (by decide)) (by decide)).mpr fun h =>
      absurd (h.2.odd (by decide)) (by decide)

/-- `1.1.1.1/0` shifts by the width, and `1.1.1.1/18446744073709551640` is taken for 24. -/
theorem parseIpv4AndMask_misreads :
    parseIpv4AndMask (fun _ _ => 0)
      (cstr [0x31, 0x2e, 0x31, 0x2e, 0x31, 0x2e, 0x31, 0x2f, 0x30]) = none ∧
    parseIpv4AndMask (fun _ _ => 0)
      (cstr [0x31, 0x2e, 0x31, 0x2e, 0x31, 0x2e, 0x31, 0x2f, 0x31, 0x38, 0x34, 0x34, 0x36, 0x37,
        0x34, 0x34, 0x30, 0x37, 0x33, 0x37, 0x30, 0x39, 0x35, 0x35, 0x31, 0x36, 0x34, 0x30]) =
      some ⟨true, some 0x01010101, some 0xffffff00⟩ ∧
    ¬ MasksRight (fun _ _ => 0)
      (cstr [0x31, 0x2e, 0x31, 0x2e, 0x31, 0x2e, 0x31, 0x2f, 0x30])
      [0x31, 0x2e, 0x31, 0x2e, 0x31, 0x2e, 0x31] [0x30] ∧
    ¬ MasksRight (fun _ _ => 0)
      (cstr [0x31, 0x2e, 0x31, 0x2e, 0x31, 0x2e, 0x31, 0x2f, 0x31, 0x38, 0x34, 0x34, 0x36, 0x37,
        0x34, 0x34, 0x30, 0x37, 0x33, 0x37, 0x30, 0x39, 0x35, 0x35, 0x31, 0x36, 0x34, 0x30])
      [0x31, 0x2e, 0x31, 0x2e, 0x31, 0x2e, 0x31]
      [0x31, 0x38, 0x34, 0x34, 0x36, 0x37, 0x34, 0x34, 0x30, 0x37, 0x33, 0x37, 0x30, 0x39, 0x35,
        0x35, 0x31, 0x36, 0x34, 0x30] := by
  have hzero : parseIpv4AndMask (fun _ _ => 0)
      (cstr [0x31, 0x2e, 0x31, 0x2e, 0x31, 0x2e, 0x31, 0x2f, 0x30]) = none := by decide
  have hwrap : parseIpv4AndMask (fun _ _ => 0)
      (cstr [0x31, 0x2e, 0x31, 0x2e, 0x31, 0x2e, 0x31, 0x2f, 0x31, 0x38, 0x34, 0x34, 0x36, 0x37,
        0x34, 0x34, 0x30, 0x37, 0x33, 0x37, 0x30, 0x39, 0x35, 0x35, 0x31, 0x36, 0x34, 0x30]) =
      some ⟨true, some 0x01010101, some 0xffffff00⟩ := by decide
  have hok : AddressOk [0x31, 0x2e, 0x31, 0x2e, 0x31, 0x2e, 0x31] :=
    ⟨7, by decide, by decide, Or.inl ⟨0x01010101, [0x31], [0x31], [0x31], [0x31], rfl, by decide,
      by decide⟩⟩
  refine ⟨hzero, hwrap, fun h => ?_, fun h => ?_⟩
  · obtain ⟨r, hr⟩ := h.total hok
    rw [hzero] at hr
    cases hr
  · obtain ⟨n, hn, -, hnum, -⟩ := h.length _ hwrap rfl (by decide) (by decide)
    have hlarge : 32 < number [0x31, 0x38, 0x34, 0x34, 0x36, 0x37, 0x34, 0x34, 0x30, 0x37, 0x33,
        0x37, 0x30, 0x39, 0x35, 0x35, 0x31, 0x36, 0x34, 0x30] := by decide
    omega

end PortableLib.ParseIp
