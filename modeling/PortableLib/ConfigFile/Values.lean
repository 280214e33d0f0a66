import PortableLib.ConfigFile.Parse
import PortableLib.StrToSize.Suffix

/-! Values of a configuration file, `configfile.c`: numbers with a unit. -/

namespace PortableLib.ConfigFile
open List Gstring Ctype StrToSize Horner

def digitRun (str : Block UInt8) (radix : Nat) : Nat → Nat → Nat → Option (Nat × Nat)
  | 0, _, _ => none
  | fuel + 1, s, n => do
    let c ← str.read s
    if value c < radix then digitRun str radix fuel (s + 1) (n * radix + value c)
    else return (s, n)

def strtoul (str : Block UInt8) (base : Int) : Option (Nat × UInt64 × Option Errno) := do
  let (s, c) ← skipWhite str str.len 0
  let neg := c = 0x2d
  let s := if c = 0x2d then s + 1 else if c = 0x2b then s + 1 else s
  let c ← str.read s
  let (d, radix) ← radixOf str s base c
  let x ← str.read d
  -- a prefix without digits is a zero
  if d = s + 2 ∧ ¬ value x < 16 then return (s + 1, 0, none)
  let (e, n) ← digitRun str radix.toNat str.len d 0
  if e = d then return (0, 0, none)
  if 2 ^ 64 ≤ n then return (e, 0xFFFFFFFFFFFFFFFF, some .erange)
  return (e, if neg then 0 - UInt64.ofNat n else UInt64.ofNat n, none)

/-- An error, or what `*val` becomes. -/
def configParseUint (s : Block UInt8) : Option (Except Errno UInt64) := do
  let (endptr, v, errno) ← strtoul s 0
  if let some e := errno then return .error e
  let c ← s.read endptr
  match if c = 0 ∨ c = 0x20 ∨ c = 0x0a ∨ c = 0x0d ∨ c = 0x09 then some 1 else unit c with
  | none => return .error .einval
  | some mult =>
    let z := v * mult
    if z < v then return .error .eoverflow
    return .ok z

variable {b : Block UInt8} {base : Int} {radix : Nat} {p ws sign pre ds rest : List UInt8}

theorem value_zero : value 0 = 36 := by decide

theorem digitRun_spec (h : Terminated b (p ++ (ds ++ rest))) (hradix : radix ≤ 36)
    (hds : ∀ c ∈ ds, value c < radix) (hstop : Stops radix rest) {fuel n : Nat}
    (hfuel : ds.length < fuel) :
    digitRun b radix fuel p.length n =
      some (p.length + ds.length, horner radix n (ds.map value)) := by
  induction ds generalizing p fuel n with
  | nil =>
    obtain ⟨fuel, rfl⟩ := Nat.exists_eq_add_of_lt hfuel
    rw [nil_append] at h
    have hge : ¬ value (rest.headD 0) < radix := by
      rcases hstop with rfl | ⟨c, hc, -, hle⟩
      · rw [headD_nil, value_zero]
        omega
      · obtain ⟨t, rfl⟩ := head?_eq_some_iff.mp hc
        exact Nat.not_lt.mpr hle
    rw [digitRun, h.read_headD]
    simp only [Option.bind_eq_bind, Option.bind_some, if_neg hge]
    rfl
  | cons c ds ih =>
    obtain ⟨hc, hds⟩ := forall_mem_cons.mp hds
    obtain ⟨fuel, rfl⟩ := Nat.exists_eq_add_of_lt hfuel
    rw [cons_append] at h
    have hrest : Terminated b ((p ++ [c]) ++ (ds ++ rest)) := by
      rw [append_assoc]
      exact h
    have hlen : (p ++ [c]).length = p.length + 1 := length_append
    have hnow := @ih (p ++ [c]) hrest hds (ds.length + 1 + fuel) (n * radix + value c) (by omega)
    rw [hlen] at hnow
    rw [digitRun, h.read]
    simp only [Option.bind_eq_bind, Option.bind_some, if_pos hc, length_cons, map_cons, horner_cons]
    rw [show p.length + (ds.length + 1) = p.length + 1 + ds.length by omega]
    exact hnow

theorem prefix_digit (h : Radix base radix pre ds) (hpre : pre.length = 2) : radix = 16 := by
  cases h with
  | given _ _ => cases hpre
  | hex _ _ => rfl
  | octal _ _ => cases hpre
  | decimal _ _ => cases hpre

theorem strtoul_fits (h : Numeral base radix ws sign pre ds rest)
    (hb : Terminated b (ws ++ (sign ++ (pre ++ (ds ++ rest)))))
    (hlt : Nat.ofDigits radix (ds.map value).reverse < 2 ^ 64) : ∃ v : UInt64,
      v.toNat = Nat.ofDigits radix (ds.map value).reverse ∧ strtoul b base =
        some (ws.length + sign.length + pre.length + ds.length, v, none) := by
  obtain ⟨x, c, mult, hskip, -, hminus, hsign, hread, hradix, hmult⟩ := h.front hb
  have hb₂ : Terminated b ((ws ++ sign ++ pre) ++ (ds ++ rest)) := by
    rw [append_assoc, append_assoc]
    exact hb
  have hroom := hb.room
  simp only [length_append] at hroom
  have hrun := digitRun_spec (n := 0) hb₂ h.prefixed.bounds.2 h.digit h.stops
    (show ds.length < b.len by omega)
  rw [horner_eq_ofDigits, length_append, length_append] at hrun
  obtain ⟨d, ds', hds⟩ := exists_cons_of_ne_nil h.nonempty
  have hd : b.read (ws.length + sign.length + pre.length) = some d := by
    rw [hds, cons_append] at hb₂
    have hr := hb₂.read
    rwa [length_append, length_append] at hr
  have hlone : ¬(ws.length + sign.length + pre.length = ws.length + sign.length + 2 ∧
      ¬ value d < 16) := by
    rintro ⟨hlen, hnot⟩
    have hdigit := h.digit d (hds ▸ mem_cons_self)
    rw [prefix_digit h.prefixed (by omega)] at hdigit
    exact hnot hdigit
  have hmoved : ¬ ws.length + sign.length + pre.length + ds.length =
      ws.length + sign.length + pre.length := by
    have hpos := length_pos_iff.mpr h.nonempty
    omega
  refine ⟨UInt64.ofNat (Nat.ofDigits radix (ds.map value).reverse),
    UInt64.toNat_ofNat_of_lt' hlt, ?_⟩
  rw [strtoul, hskip]
  simp only [Option.bind_eq_bind, Option.bind_some, hsign, hread, hradix, hd, if_neg hlone, hmult,
    hrun, if_neg hmoved, if_neg (Nat.not_le.mpr hlt), if_neg hminus]
  rfl

variable {c : UInt8} {t : List UInt8} {u : UInt64} {m : Nat}

theorem configParseUint_neverWraps_iff (h : Numeral 0 radix ws sign pre ds (c :: t))
    (hb : Terminated b (ws ++ (sign ++ (pre ++ (ds ++ c :: t)))))
    (hfit : Nat.ofDigits radix (ds.map value).reverse < 2 ^ 64) (hu : unit c = some u) :
    NeverWraps (configParseUint b) (Nat.ofDigits radix (ds.map value).reverse * u.toNat) ↔
      Sound (Nat.ofDigits radix (ds.map value).reverse) u.toNat := by
  obtain ⟨v, hv, hnum⟩ := strtoul_fits h hb hfit
  obtain ⟨hne, hsp, k, hlo, hhi, hpow⟩ := unit_spec hu
  have hread : b.read (ws.length + sign.length + pre.length + ds.length) = some c := by
    have hb' : Terminated b ((ws ++ (sign ++ (pre ++ ds))) ++ c :: t) := by
      simp only [append_assoc]
      exact hb
    have hr := hb'.read
    simpa only [length_append, Nat.add_assoc] using hr
  have hblank : ¬(c = 0 ∨ c = 0x20 ∨ c = 0x0a ∨ c = 0x0d ∨ c = 0x09) := by
    rintro (rfl | rfl | rfl | rfl | rfl) <;> cases hu
  have hrun : configParseUint b =
      some (if v * u < v then .error .eoverflow else .ok (v * u)) := by
    rw [configParseUint, hnum]
    simp only [Option.bind_eq_bind, Option.bind_some, hread, if_neg hblank, hu]
    split <;> rfl
  rw [← hv, hpow]
  exact neverWraps_iff (by omega) hpow (fun hge => by rw [hrun, if_neg hge])
    fun hlt => ⟨.eoverflow, by rw [hrun, if_pos hlt]⟩

/-- A number with a unit: neither function lets a wrapped product pass exactly when it fits, or is
less than the number after it has wrapped. -/
theorem suffix_neverWraps_iff (h : Numeral base radix ws sign pre ds (c :: t))
    (hb : Terminated b (ws ++ (sign ++ (pre ++ (ds ++ c :: t)))))
    (hfit : Nat.ofDigits radix (ds.map value).reverse < 2 ^ 64) (hu : unit c = some u)
    (ht : Suffixed u.toNat t m) :
    (NeverWraps (strtosize b base) (Nat.ofDigits radix (ds.map value).reverse * m) ↔
      Sound (Nat.ofDigits radix (ds.map value).reverse) m) ∧
    (base = 0 →
      (NeverWraps (configParseUint b) (Nat.ofDigits radix (ds.map value).reverse * u.toNat) ↔
        Sound (Nat.ofDigits radix (ds.map value).reverse) u.toNat)) := by
  refine ⟨strtosize_neverWraps_iff h hb hfit hu ht, ?_⟩
  rintro rfl
  exact configParseUint_neverWraps_iff h hb hfit hu

theorem suffix_neverWraps_iff_kilobits :
    NeverWraps (strtosize (cstr [0x31, 0x37, 0x6b, 0x62]) 0) (17 * 128) ∧
      NeverWraps (configParseUint (cstr [0x31, 0x37, 0x6b, 0x62])) (17 * 1024) := by
  have hnum : Numeral 0 10 [] [] [] [0x31, 0x37] [0x6b, 0x62] := by
    refine ⟨forall_mem_nil _, Or.inl rfl, .decimal rfl (by decide), cons_ne_nil _ _,
      forall_mem_cons.mpr ⟨by decide, forall_mem_singleton.mpr (by decide)⟩, ?_, ?_⟩
    · exact Or.inr ⟨0x6b, rfl, by decide, by decide⟩
    · exact fun _ _ h => absurd h (by decide)
  have hstr : Terminated (cstr [0x31, 0x37, 0x6b, 0x62]) ([] ++ ([] ++ ([] ++ ([0x31, 0x37] ++
      [0x6b, 0x62])))) := terminated_cstr (by decide)
  have h := suffix_neverWraps_iff hnum hstr (by decide) (show unit 0x6b = some KB_ from rfl) .bits
  exact ⟨h.1.mpr (Or.inl (by decide)), (h.2 rfl).mpr (Or.inl (by decide))⟩

/-- `18049582881570816k`, which is 2⁶⁴ + 2⁵⁵, comes out as 2⁵⁵. -/
theorem suffix_wraps :
    strtosize (cstr [0x31, 0x38, 0x30, 0x34, 0x39, 0x35, 0x38, 0x32, 0x38, 0x38, 0x31, 0x35, 0x37,
      0x30, 0x38, 0x31, 0x36, 0x6b]) 10 = some (.ok 36028797018963968) ∧
    configParseUint (cstr [0x31, 0x38, 0x30, 0x34, 0x39, 0x35, 0x38, 0x32, 0x38, 0x38, 0x31, 0x35,
      0x37, 0x30, 0x38, 0x31, 0x36, 0x6b]) = some (.ok 36028797018963968) ∧
    ¬ NeverWraps (strtosize (cstr [0x31, 0x38, 0x30, 0x34, 0x39, 0x35, 0x38, 0x32, 0x38, 0x38, 0x31,
      0x35, 0x37, 0x30, 0x38, 0x31, 0x36, 0x6b]) 10) (18049582881570816 * 1024) ∧
    ¬ NeverWraps (configParseUint (cstr [0x31, 0x38, 0x30, 0x34, 0x39, 0x35, 0x38, 0x32, 0x38, 0x38,
      0x31, 0x35, 0x37, 0x30, 0x38, 0x31, 0x36, 0x6b])) (18049582881570816 * 1024) := by
  have hsize : strtosize (cstr [0x31, 0x38, 0x30, 0x34, 0x39, 0x35, 0x38, 0x32, 0x38, 0x38, 0x31,
      0x35, 0x37, 0x30, 0x38, 0x31, 0x36, 0x6b]) 10 = some (.ok 36028797018963968) := by
    decide
  have huint : configParseUint (cstr [0x31, 0x38, 0x30, 0x34, 0x39, 0x35, 0x38, 0x32, 0x38, 0x38,
      0x31, 0x35, 0x37, 0x30, 0x38, 0x31, 0x36, 0x6b]) = some (.ok 36028797018963968) := by
    decide
  exact ⟨hsize, huint, fun h => absurd (h.exact _ hsize) (by decide),
    fun h => absurd (h.exact _ huint) (by decide)⟩

end PortableLib.ConfigFile
