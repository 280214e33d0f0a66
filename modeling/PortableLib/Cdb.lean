import Mathlib.Data.Nat.Find
import PortableLib.Encdec
import PortableLib.Lib.Block

/-! Lookups in a constant database: `cdb_read.c` over the bytes of the mapped file. The hash
function is a parameter. -/

namespace PortableLib.Cdb
open Encdec

/-- Why a lookup does not return: a failed assertion, an access outside the image, or too few
rounds. -/
inductive Stop
  | assertion
  | fault
  | rounds
  deriving DecidableEq

def word (img : Block UInt8) (p : Nat) : UInt32 :=
  (decLE ((List.range 4).map fun i => img.cells (p + i))).toUInt32

def load (img : Block UInt8) (p : Nat) : Except Stop UInt32 :=
  if p + 4 ≤ img.len then .ok (word img p) else .error .fault

/-- `__read32(d, off)`: the offset is checked as a `uint32_t`, while the access adds to a
pointer. -/
def read32 (img : Block UInt8) (off : UInt32) (p : Nat) : Except Stop UInt32 :=
  if off.toNat < img.len then load img p else .error .assertion

structure Idx where
  off : UInt32
  len : UInt32

def index (img : Block UInt8) (h : UInt32) : Except Stop Idx := do
  let i := (h &&& 0xff).toNat
  return { off := ← load img (8 * i), len := ← load img (8 * i + 4) }

/-- What `cdb_find` does at a slot with the hash of the key. -/
def compareRecord (img : Block UInt8) (key : List UInt8) (off : UInt32) :
    Except Stop (Option (Nat × Nat)) := do
  let dklen ← read32 img off off.toNat
  let dvlen ← read32 img (off + 4) (off.toNat + 4)
  if dklen.toNat ≠ key.length then return none
  else if ¬ (off + 8 + dklen + dvlen).toNat ≤ img.len then throw .assertion
  else
    match (img.shift (off.toNat + 8)).first key.length with
    | none => throw .fault
    | some bytes =>
      if key ≠ bytes then return none
      else return some (off.toNat + 8 + dklen.toNat, dvlen.toNat)

def probe (img : Block UInt8) (h : UInt32) (key : List UInt8) (ii : Idx) (start : UInt32) :
    Nat → UInt32 → Except Stop (Option (Nat × Nat))
  | 0, _ => .error .rounds
  | n + 1, slot => do
    let slotoff := ii.off + 8 * slot
    let slothash ← read32 img slotoff slotoff.toNat
    let off ← read32 img (slotoff + 4) (slotoff.toNat + 4)
    if slothash = 0 then return none
    else if slothash = h then compareRecord img key off
    else
      let slot := (slot + 1) % ii.len
      if slot ≠ start then probe img h key ii start n slot else return none

/-- `cdb_find`; `none` is `-ENOENT`, otherwise the place of the value in the image and its
length. -/
def cdbFind (hash : List UInt8 → UInt32) (img : Block UInt8) (key : List UInt8) :
    Except Stop (Option (Nat × Nat)) := do
  let h := hash key
  let ii ← index img h
  if ii.len = 0 then return none
  else
    let start := (h >>> 8) % ii.len
    probe img h key ii start ii.len.toNat start

/-! ## The probe sequence -/

variable {img : Block UInt8} {h : UInt32} {key : List UInt8} {ii : Idx} {k : Nat}

def idxOf (img : Block UInt8) (h : UInt32) : Idx where
  off := word img (8 * (h &&& 0xff).toNat)
  len := word img (8 * (h &&& 0xff).toNat + 4)

def Idx.slot (ii : Idx) (h : UInt32) (k : Nat) : UInt32 :=
  UInt32.ofNat (((h >>> 8).toNat + k) % ii.len.toNat)

def Idx.place (ii : Idx) (h : UInt32) (k : Nat) : UInt32 := ii.off + 8 * ii.slot h k

theorem index_eq (hsize : 2048 ≤ img.len) (h : UInt32) : index img h = .ok (idxOf img h) := by
  have hlt : (h &&& 0xff).toNat < 256 := by
    rw [UInt32.toNat_and]
    exact Nat.lt_of_le_of_lt Nat.and_le_right (by decide)
  have hoff : 8 * (h &&& 0xff).toNat + 4 ≤ img.len := by omega
  have hlen : 8 * (h &&& 0xff).toNat + 4 + 4 ≤ img.len := by omega
  rw [index, load, load, if_pos hoff, if_pos hlen]
  rfl

theorem Idx.toNat_slot (hlen : ii.len ≠ 0) (h : UInt32) (k : Nat) :
    (ii.slot h k).toNat = ((h >>> 8).toNat + k) % ii.len.toNat := by
  have hpos : 0 < ii.len.toNat := Nat.pos_of_ne_zero fun h0 => hlen (UInt32.toNat_inj.mp h0)
  have hlt := Nat.mod_lt ((h >>> 8).toNat + k) hpos
  rw [Idx.slot, UInt32.toNat_ofNat_of_lt']
  exact hlt.trans ii.len.toNat_lt

theorem Idx.start_eq (hlen : ii.len ≠ 0) (h : UInt32) : (h >>> 8) % ii.len = ii.slot h 0 := by
  apply UInt32.toNat_inj.mp
  rw [UInt32.toNat_mod, Idx.toNat_slot hlen, Nat.add_zero]

theorem Idx.next_slot (hlen : ii.len ≠ 0) (h : UInt32) (k : Nat) :
    (ii.slot h k + 1) % ii.len = ii.slot h (k + 1) := by
  have hpos : 0 < ii.len.toNat := Nat.pos_of_ne_zero fun h0 => hlen (UInt32.toNat_inj.mp h0)
  have hlt := Nat.mod_lt ((h >>> 8).toNat + k) hpos
  have hmax := ii.len.toNat_lt
  apply UInt32.toNat_inj.mp
  rw [UInt32.toNat_mod, UInt32.toNat_add, Idx.toNat_slot hlen, Idx.toNat_slot hlen,
    show (1 : UInt32).toNat = 1 from rfl, Nat.mod_eq_of_lt (b := 2 ^ 32) (by omega),
    Nat.mod_add_mod, Nat.add_assoc]

theorem Idx.slot_eq_start_iff (hlen : ii.len ≠ 0) (hk : k < ii.len.toNat) :
    ii.slot h (k + 1) = ii.slot h 0 ↔ k + 1 = ii.len.toNat := by
  rw [← UInt32.toNat_inj, Idx.toNat_slot hlen, Idx.toNat_slot hlen, Nat.add_zero (h >>> 8).toNat]
  constructor
  · intro heq
    have hzero := Nat.sub_mod_eq_zero_of_mod_eq heq
    rw [Nat.add_sub_cancel_left] at hzero
    by_contra hne
    rw [Nat.mod_eq_of_lt (by omega)] at hzero
    omega
  · intro heq
    rw [heq, Nat.add_mod_right]

theorem read32_pair {p : UInt32} (hp : p.toNat + 8 ≤ img.len) :
    read32 img p p.toNat = .ok (word img p.toNat) ∧
      read32 img (p + 4) (p.toNat + 4) = .ok (word img (p.toNat + 4)) := by
  have hnext : (p + 4).toNat ≤ p.toNat + 4 := by
    rw [UInt32.toNat_add]
    exact Nat.mod_le _ _
  have hfirst : p.toNat < img.len := by omega
  have hsecond : (p + 4).toNat < img.len := by omega
  rw [read32, read32, if_pos hfirst, if_pos hsecond, load, load, if_pos (by omega),
    if_pos (by omega)]
  exact ⟨rfl, rfl⟩

theorem probe_of_le (hlen : ii.len ≠ 0) (hk : k < ii.len.toNat)
    (hp : (ii.place h k).toNat + 8 ≤ img.len) (n : Nat) :
    probe img h key ii (ii.slot h 0) (n + 1) (ii.slot h k) =
      if word img (ii.place h k).toNat = 0 then .ok none
      else if word img (ii.place h k).toNat = h then
        compareRecord img key (word img ((ii.place h k).toNat + 4))
      else if k + 1 = ii.len.toNat then .ok none
      else probe img h key ii (ii.slot h 0) n (ii.slot h (k + 1)) := by
  obtain ⟨hhash, hoff⟩ := read32_pair hp
  rw [Idx.place] at hhash hoff ⊢
  rw [probe]
  simp only [hhash, hoff, Idx.next_slot hlen, ne_eq, Idx.slot_eq_start_iff hlen hk, ite_not]
  rfl

/-! ## Lookups in well-formed images -/

structure Record (img : Block UInt8) (off : UInt32) (key : List UInt8) (loc n : Nat) : Prop where
  klen : (word img off.toNat).toNat = key.length
  vlen : (word img (off.toNat + 4)).toNat = n
  bytes : (List.range key.length).map (fun i => img.cells (off.toNat + 8 + i)) = key
  loc_eq : loc = off.toNat + 8 + key.length
  fits : loc + n ≤ img.len

/-- The image holds the records of `db`, which gives the place and the length of the value of each
stored key: every slot with a hash belongs to a stored key, and every stored key with a hash has
a slot that is reached from its first slot over slots with a hash. -/
structure Represents (img : Block UInt8) (hash : List UInt8 → UInt32)
    (db : List UInt8 → Option (Nat × Nat)) : Prop where
  size : 2048 ≤ img.len
  slots : ∀ h k, k < (idxOf img h).len.toNat → ((idxOf img h).place h k).toNat + 8 ≤ img.len
  owned : ∀ h k, k < (idxOf img h).len.toNat → word img ((idxOf img h).place h k).toNat ≠ 0 →
    ∃ key loc n, db key = some (loc, n) ∧ hash key = word img ((idxOf img h).place h k).toNat ∧
      Record img (word img (((idxOf img h).place h k).toNat + 4)) key loc n
  reached : ∀ key loc n, db key = some (loc, n) → hash key ≠ 0 →
    ∃ k < (idxOf img (hash key)).len.toNat,
      word img ((idxOf img (hash key)).place (hash key) k).toNat = hash key ∧
      Record img (word img (((idxOf img (hash key)).place (hash key) k).toNat + 4)) key loc n ∧
      ∀ k' < k, word img ((idxOf img (hash key)).place (hash key) k').toNat ≠ 0

/-- Every stored key with a hash is found, and no other key is. -/
def FindsAll (img : Block UInt8) (hash : List UInt8 → UInt32)
    (db : List UInt8 → Option (Nat × Nat)) : Prop :=
  (∀ key loc n, db key = some (loc, n) → hash key ≠ 0 →
      cdbFind hash img key = .ok (some (loc, n))) ∧
    ∀ key, db key = none → cdbFind hash img key = .ok none

section lookup
variable {hash : List UInt8 → UInt32} {db : List UInt8 → Option (Nat × Nat)}

theorem compareRecord_eq {off : UInt32} {stored : List UInt8} {loc n : Nat}
    (hrec : Record img off stored loc n) (key : List UInt8) :
    compareRecord img key off = .ok (if key = stored then some (loc, n) else none) := by
  have hloc := hrec.loc_eq
  have hfits := hrec.fits
  have hkl := hrec.klen
  have hvl := hrec.vlen
  obtain ⟨hklen, hvlen⟩ := read32_pair (show off.toNat + 8 ≤ img.len by omega)
  have hsum : (off + 8 + word img off.toNat + word img (off.toNat + 4)).toNat ≤ img.len := by
    have hle : (off + 8 + word img off.toNat + word img (off.toNat + 4)).toNat ≤
        off.toNat + 8 + (word img off.toNat).toNat + (word img (off.toNat + 4)).toNat := by
      simp only [UInt32.toNat_add, show (8 : UInt32).toNat = 8 from rfl]
      omega
    omega
  simp only [compareRecord, hklen, hvlen, bind, Except.bind, pure, Except.pure]
  rw [hkl, hvl, ← hloc]
  by_cases hlen : stored.length = key.length
  · have hfirst : (img.shift (off.toNat + 8)).first key.length = some stored := by
      have hroom : key.length ≤ (img.shift (off.toNat + 8)).len := by
        change key.length ≤ img.len - (off.toNat + 8)
        omega
      have hbytes := hrec.bytes
      rw [hlen] at hbytes
      exact (Block.first_of_le hroom).trans (congrArg some hbytes)
    rw [if_neg (not_not_intro hlen), if_neg (not_not_intro hsum), hfirst]
    dsimp only
    by_cases heq : key = stored
    · rw [if_neg (not_not_intro heq), if_pos heq]
    · rw [if_pos heq, if_neg heq]
  · have hne : key ≠ stored := fun heq => hlen (heq ▸ rfl)
    rw [if_pos hlen, if_neg hne]

theorem cdbFind_eq (hsize : 2048 ≤ img.len) (key : List UInt8)
    (hlen : (idxOf img (hash key)).len ≠ 0) :
    cdbFind hash img key = probe img (hash key) key (idxOf img (hash key))
      ((idxOf img (hash key)).slot (hash key) 0) (idxOf img (hash key)).len.toNat
      ((idxOf img (hash key)).slot (hash key) 0) := by
  simp only [cdbFind, index_eq hsize, bind, Except.bind, if_neg hlen, Idx.start_eq hlen]

theorem probe_skip {K : Nat} (hlen : ii.len ≠ 0) (hK : K < ii.len.toNat)
    (hslots : ∀ k < ii.len.toNat, (ii.place h k).toNat + 8 ≤ img.len)
    (hother : ∀ k < K, word img (ii.place h k).toNat ≠ 0 ∧ word img (ii.place h k).toNat ≠ h)
    (hk : k ≤ K) :
    probe img h key ii (ii.slot h 0) (ii.len.toNat - k) (ii.slot h k) =
      probe img h key ii (ii.slot h 0) (ii.len.toNat - K) (ii.slot h K) := by
  induction K, hk using Nat.le_induction with
  | base => rfl
  | succ K hk ih =>
    rw [ih (by omega) fun k hk => hother k (Nat.lt_succ_of_lt hk)]
    obtain ⟨hzero, hne⟩ := hother K (Nat.lt_succ_self K)
    have hn : ii.len.toNat - K = (ii.len.toNat - (K + 1)) + 1 := by omega
    rw [hn, probe_of_le hlen (by omega) (hslots K (by omega)), if_neg hzero, if_neg hne,
      if_neg (by omega)]

theorem cdbFind_of_first {K : Nat} (hrep : Represents img hash db) {key : List UInt8}
    (hK : K < (idxOf img (hash key)).len.toNat)
    (hhash : word img ((idxOf img (hash key)).place (hash key) K).toNat = hash key)
    (hne : hash key ≠ 0)
    (hother : ∀ k < K, word img ((idxOf img (hash key)).place (hash key) k).toNat ≠ 0 ∧
      word img ((idxOf img (hash key)).place (hash key) k).toNat ≠ hash key)
    {stored : List UInt8} {loc n : Nat}
    (hrec : Record img (word img (((idxOf img (hash key)).place (hash key) K).toNat + 4))
      stored loc n) :
    cdbFind hash img key = .ok (if key = stored then some (loc, n) else none) := by
  have hlen : (idxOf img (hash key)).len ≠ 0 := by
    intro h0
    rw [h0] at hK
    exact Nat.not_lt_zero K hK
  have hskip := @probe_skip img (hash key) key _ 0 K hlen hK (hrep.slots (hash key)) hother
    (Nat.zero_le K)
  rw [Nat.sub_zero] at hskip
  obtain ⟨m, hm⟩ := Nat.exists_eq_add_of_lt hK
  have hn : (idxOf img (hash key)).len.toNat - K = m + 1 := by omega
  rw [cdbFind_eq hrep.size key hlen, hskip, hn, probe_of_le hlen hK (hrep.slots _ K hK), hhash,
    if_neg hne, if_pos rfl]
  exact compareRecord_eq hrec key

theorem exists_first (hrep : Represents img hash db) {key : List UInt8} {loc n : Nat}
    (hkey : db key = some (loc, n)) (hne : hash key ≠ 0) :
    ∃ K < (idxOf img (hash key)).len.toNat,
      word img ((idxOf img (hash key)).place (hash key) K).toNat = hash key ∧
      ∀ k < K, word img ((idxOf img (hash key)).place (hash key) k).toNat ≠ 0 ∧
        word img ((idxOf img (hash key)).place (hash key) k).toNat ≠ hash key := by
  obtain ⟨k, hk, hhash, -, hpath⟩ := hrep.reached key loc n hkey hne
  have hex : ∃ K, word img ((idxOf img (hash key)).place (hash key) K).toNat = hash key :=
    ⟨k, hhash⟩
  have hle : Nat.find hex ≤ k := Nat.find_le hhash
  refine ⟨Nat.find hex, hle.trans_lt hk, Nat.find_spec hex, fun k' hk' => ⟨?_, ?_⟩⟩
  · exact hpath k' (hk'.trans_le hle)
  · exact Nat.find_min hex hk'

theorem cdbFind_stored (hrep : Represents img hash db) {key : List UInt8} {loc n : Nat}
    (hkey : db key = some (loc, n)) (hne : hash key ≠ 0) :
    ∃ stored loc' n', db stored = some (loc', n') ∧ hash stored = hash key ∧
      cdbFind hash img key = .ok (if key = stored then some (loc', n') else none) := by
  obtain ⟨K, hK, hhash, hother⟩ := exists_first hrep hkey hne
  obtain ⟨stored, loc', n', hstored, hsame, hrec⟩ := hrep.owned (hash key) K hK (by rwa [hhash])
  exact ⟨stored, loc', n', hstored, hsame.trans hhash,
    cdbFind_of_first hrep hK hhash hne hother hrec⟩

theorem cdbFind_absent (hrep : Represents img hash db) {key : List UInt8} (hkey : db key = none) :
    cdbFind hash img key = .ok none := by
  by_cases hlen : (idxOf img (hash key)).len = 0
  · simp only [cdbFind, index_eq hrep.size, bind, Except.bind, hlen, if_true]
    rfl
  have hpos : 0 < (idxOf img (hash key)).len.toNat :=
    Nat.pos_of_ne_zero fun h0 => hlen (UInt32.toNat_inj.mp h0)
  -- the first slot that ends the search, or the last slot
  have hex : ∃ K, K + 1 = (idxOf img (hash key)).len.toNat ∨
      word img ((idxOf img (hash key)).place (hash key) K).toNat = 0 ∨
      word img ((idxOf img (hash key)).place (hash key) K).toNat = hash key :=
    ⟨(idxOf img (hash key)).len.toNat - 1, Or.inl (Nat.sub_add_cancel hpos)⟩
  obtain ⟨K, hK⟩ : ∃ K, K = Nat.find hex := ⟨_, rfl⟩
  have hend := Nat.find_spec hex
  have hbefore : ∀ k < K, ¬ _ := fun k hk => Nat.find_min hex (hK ▸ hk)
  have hle : K ≤ (idxOf img (hash key)).len.toNat - 1 :=
    hK ▸ Nat.find_le (Or.inl (Nat.sub_add_cancel hpos))
  have hlt : K < (idxOf img (hash key)).len.toNat := by omega
  rw [← hK] at hend
  have hother : ∀ k < K, word img ((idxOf img (hash key)).place (hash key) k).toNat ≠ 0 ∧
      word img ((idxOf img (hash key)).place (hash key) k).toNat ≠ hash key := by
    intro k hk
    have hnot := hbefore k hk
    simp only [not_or] at hnot
    exact hnot.2
  have hskip := @probe_skip img (hash key) key _ 0 K hlen hlt (hrep.slots (hash key)) hother
    (Nat.zero_le K)
  rw [Nat.sub_zero] at hskip
  obtain ⟨m, hm⟩ := Nat.exists_eq_add_of_lt hlt
  have hn : (idxOf img (hash key)).len.toNat - K = m + 1 := by omega
  rw [cdbFind_eq hrep.size key hlen, hskip, hn, probe_of_le hlen hlt (hrep.slots _ K hlt)]
  by_cases hzero : word img ((idxOf img (hash key)).place (hash key) K).toNat = 0
  · rw [if_pos hzero]
  rw [if_neg hzero]
  by_cases hhash : word img ((idxOf img (hash key)).place (hash key) K).toNat = hash key
  · obtain ⟨stored, loc, n, hstored, -, hrec⟩ := hrep.owned (hash key) K hlt hzero
    have hdiff : key ≠ stored := by
      rintro rfl
      rw [hkey] at hstored
      cases hstored
    rw [if_pos hhash, compareRecord_eq hrec, if_neg hdiff]
  · have hlast : K + 1 = (idxOf img (hash key)).len.toNat :=
      hend.resolve_right fun hor => hor.elim hzero hhash
    rw [if_neg hhash, if_pos hlast]

end lookup

/-- All stored keys with a hash are found, and no others, exactly if no two of them have the same
hash. -/
theorem cdb_finds_all_iff {hash : List UInt8 → UInt32} {db : List UInt8 → Option (Nat × Nat)}
    (hrep : Represents img hash db) :
    FindsAll img hash db ↔ ∀ key key', db key ≠ none → db key' ≠ none → hash key ≠ 0 →
      hash key = hash key' → key = key' := by
  constructor
  · rintro ⟨hfound, -⟩ key key' hkey hkey' hne hsame
    obtain ⟨⟨loc, n⟩, hkey⟩ := Option.ne_none_iff_exists'.mp hkey
    obtain ⟨⟨loc', n'⟩, hkey'⟩ := Option.ne_none_iff_exists'.mp hkey'
    -- both searches end at the same record
    obtain ⟨K, hK, hhash, hother⟩ := exists_first hrep hkey hne
    obtain ⟨stored, l, m, -, -, hrec⟩ := hrep.owned (hash key) K hK (by rwa [hhash])
    have hfirst := cdbFind_of_first hrep hK hhash hne hother hrec
    rw [hsame] at hK hhash hne hother hrec
    have hsecond := cdbFind_of_first hrep hK hhash hne hother hrec
    rw [hfound key loc n hkey (hsame ▸ hne)] at hfirst
    rw [hfound key' loc' n' hkey' hne] at hsecond
    have hmine : key = stored := by
      by_contra hdiff
      rw [if_neg hdiff] at hfirst
      cases hfirst
    have hyours : key' = stored := by
      by_contra hdiff
      rw [if_neg hdiff] at hsecond
      cases hsecond
    exact hmine.trans hyours.symm
  · intro hinj
    refine ⟨fun key loc n hkey hne => ?_, fun key hkey => cdbFind_absent hrep hkey⟩
    obtain ⟨stored, loc', n', hstored, hsame, hfind⟩ := cdbFind_stored hrep hkey hne
    obtain rfl : key = stored := hinj key stored (by rw [hkey]; nofun) (by rw [hstored]; nofun) hne
      hsame.symm
    rw [hstored] at hkey
    rw [hfind, if_pos rfl, hkey]

section twoKeys

/-- An image with one table of two slots, whose hashes are `b * 2 ^ 8` and `2 ^ 8`, and with the
records of the keys `[2]` and `[1]`. -/
def twoKeys (b : UInt8) : Block UInt8 where
  len := 2084
  cells i := if i < 2048 then [0, 8, 0, 0, 2, 0, 0, 0].getD i 0 else
    [0, b, 0, 0, 0x1a, 8, 0, 0, 0, 1, 0, 0, 0x10, 8, 0, 0,
      1, 0, 0, 0, 1, 0, 0, 0, 1, 9, 1, 0, 0, 0, 1, 0, 0, 0, 2, 9].getD (i - 2048) 0

/-- The hash of `[2]` has `b` as its second byte. -/
def twoHash (b : UInt8) (key : List UInt8) : UInt32 :=
  if key = [2] then b.toUInt32 <<< 8 else 0x100

def twoDb (key : List UInt8) : Option (Nat × Nat) :=
  if key = [1] then some (2073, 1) else if key = [2] then some (2083, 1) else none

variable {b : UInt8}

theorem index_words_twoKeys (hb : b = 1 ∨ b = 2) :
    word (twoKeys b) (8 * 0) = 2048 ∧ word (twoKeys b) (8 * 0 + 4) = 2 := by
  rcases hb with rfl | rfl <;> decide

theorem idxOf_twoKeys (hb : b = 1 ∨ b = 2) (h : UInt32) :
    (idxOf (twoKeys b) h).len = 0 ∨ idxOf (twoKeys b) h = ⟨2048, 2⟩ := by
  by_cases hzero : (h &&& 0xff).toNat = 0
  · right
    rw [idxOf, hzero, (index_words_twoKeys hb).1, (index_words_twoKeys hb).2]
  · left
    have hlt : (h &&& 0xff).toNat < 256 := by
      rw [UInt32.toNat_and]
      exact Nat.lt_of_le_of_lt Nat.and_le_right (by decide)
    have hcell : ∀ i < 4, (twoKeys b).cells (8 * (h &&& 0xff).toNat + 4 + i) = 0 := by
      intro i hi
      change (if 8 * (h &&& 0xff).toNat + 4 + i < 2048 then _ else _) = (0 : UInt8)
      rw [if_pos (by omega), List.getD_eq_default]
      change 8 ≤ _
      omega
    change word (twoKeys b) (8 * (h &&& 0xff).toNat + 4) = 0
    rw [word, map_range_congr (g := fun _ => 0) hcell]
    rfl

theorem place_twoKeys (h : UInt32) (k : Nat) :
    (⟨2048, 2⟩ : Idx).place h k = 2048 ∨ (⟨2048, 2⟩ : Idx).place h k = 2056 := by
  have hslot : ((⟨2048, 2⟩ : Idx).slot h k).toNat = ((h >>> 8).toNat + k) % 2 :=
    Idx.toNat_slot (by decide) h k
  rcases Nat.mod_two_eq_zero_or_one ((h >>> 8).toNat + k) with h0 | h1
  · left
    have hzero : (⟨2048, 2⟩ : Idx).slot h k = 0 := UInt32.toNat_inj.mp (hslot.trans h0)
    rw [Idx.place, hzero]
    rfl
  · right
    have hone : (⟨2048, 2⟩ : Idx).slot h k = 1 := UInt32.toNat_inj.mp (hslot.trans h1)
    rw [Idx.place, hone]
    rfl

theorem record_twoKeys (hb : b = 1 ∨ b = 2) :
    Record (twoKeys b) (word (twoKeys b) ((2048 : UInt32).toNat + 4)) [2] 2083 1 ∧
      Record (twoKeys b) (word (twoKeys b) ((2056 : UInt32).toNat + 4)) [1] 2073 1 := by
  rcases hb with rfl | rfl
  all_goals
    refine ⟨⟨?_, ?_, ?_, ?_, ?_⟩, ⟨?_, ?_, ?_, ?_, ?_⟩⟩ <;> decide

theorem hashes_twoKeys (hb : b = 1 ∨ b = 2) :
    word (twoKeys b) (2048 : UInt32).toNat = twoHash b [2] ∧
      word (twoKeys b) (2056 : UInt32).toNat = twoHash b [1] ∧ twoHash b [2] ≠ 0 := by
  rcases hb with rfl | rfl <;> decide

theorem paths_twoKeys (hb : b = 1 ∨ b = 2) :
    ((idxOf (twoKeys b) (twoHash b [1])).len.toNat = 2 ∧
      (idxOf (twoKeys b) (twoHash b [1])).place (twoHash b [1]) 0 = 2056) ∧
    (idxOf (twoKeys b) (twoHash b [2])).len.toNat = 2 ∧
      ((idxOf (twoKeys b) (twoHash b [2])).place (twoHash b [2]) 0 = 2048 ∨
        (idxOf (twoKeys b) (twoHash b [2])).place (twoHash b [2]) 0 = 2056 ∧
          (idxOf (twoKeys b) (twoHash b [2])).place (twoHash b [2]) 1 = 2048) := by
  rcases hb with rfl | rfl <;> decide

theorem represents_twoKeys (hb : b = 1 ∨ b = 2) : Represents (twoKeys b) (twoHash b) twoDb := by
  obtain ⟨hrec₂, hrec₁⟩ := record_twoKeys hb
  obtain ⟨hhash₂, hhash₁, hne₂⟩ := hashes_twoKeys hb
  have hidx : ∀ h k, k < (idxOf (twoKeys b) h).len.toNat →
      (idxOf (twoKeys b) h).place h k = 2048 ∨ (idxOf (twoKeys b) h).place h k = 2056 := by
    intro h k hk
    rcases idxOf_twoKeys hb h with h0 | heq
    · rw [h0] at hk
      exact absurd hk (Nat.not_lt_zero k)
    · rw [heq]
      exact place_twoKeys h k
  refine ⟨show 2048 ≤ 2084 by decide, fun h k hk => ?_, fun h k hk hne => ?_,
    fun key loc n hkey hne => ?_⟩
  · change _ ≤ 2084
    rcases hidx h k hk with heq | heq <;> rw [heq] <;> decide
  · rcases hidx h k hk with heq | heq
    · rw [heq]
      exact ⟨[2], 2083, 1, rfl, hhash₂.symm, hrec₂⟩
    · rw [heq]
      exact ⟨[1], 2073, 1, rfl, hhash₁.symm, hrec₁⟩
  · obtain ⟨⟨hlen₁, hplace₁⟩, hlen₂, hplace₂⟩ := paths_twoKeys hb
    rw [twoDb] at hkey
    split at hkey
    next hone =>
      obtain ⟨rfl, rfl⟩ := Prod.mk.inj (Option.some.inj hkey)
      subst hone
      refine ⟨0, by omega, ?_, ?_, fun k hk => absurd hk (Nat.not_lt_zero k)⟩
      · rw [hplace₁, hhash₁]
      · rw [hplace₁]
        exact hrec₁
    next =>
      split at hkey
      next htwo =>
        obtain ⟨rfl, rfl⟩ := Prod.mk.inj (Option.some.inj hkey)
        subst htwo
        rcases hplace₂ with hplace | ⟨hplace, hplace'⟩
        · refine ⟨0, by omega, ?_, ?_, fun k hk => absurd hk (Nat.not_lt_zero k)⟩
          · rw [hplace, hhash₂]
          · rw [hplace]
            exact hrec₂
        · refine ⟨1, by omega, ?_, ?_, fun k hk => ?_⟩
          · rw [hplace', hhash₂]
          · rw [hplace']
            exact hrec₂
          · obtain rfl : k = 0 := by omega
            rw [hplace, hhash₁]
            exact show (0x100 : UInt32) ≠ 0 by decide
      next => cases hkey

theorem cdb_finds_two_keys : FindsAll (twoKeys 2) (twoHash 2) twoDb := by
  apply (cdb_finds_all_iff (represents_twoKeys (Or.inr rfl))).mpr
  intro key key' hkey hkey' _ hsame
  have hkeys : ∀ key, twoDb key ≠ none → key = [1] ∨ key = [2] := by
    intro key hkey
    rw [twoDb] at hkey
    split at hkey
    next hone => exact Or.inl hone
    next =>
      split at hkey
      next htwo => exact Or.inr htwo
      next => exact absurd rfl hkey
  rcases hkeys key hkey with rfl | rfl <;> rcases hkeys key' hkey' with rfl | rfl
  · rfl
  · exact absurd hsame (by decide)
  · exact absurd hsame (by decide)
  · rfl

/-- Two keys with one hash: the second one is not found. -/
theorem cdb_misses_second_key :
    Represents (twoKeys 1) (twoHash 1) twoDb ∧ twoHash 1 [2] ≠ 0 ∧
      twoDb [2] = some (2083, 1) ∧ cdbFind (twoHash 1) (twoKeys 1) [2] = .ok none ∧
      ¬FindsAll (twoKeys 1) (twoHash 1) twoDb := by
  have hrep := represents_twoKeys (Or.inl rfl : (1 : UInt8) = 1 ∨ (1 : UInt8) = 2)
  have hmiss : cdbFind (twoHash 1) (twoKeys 1) [2] = .ok none := by decide
  refine ⟨hrep, by decide, rfl, hmiss, fun hall => ?_⟩
  have hfound := hall.1 [2] 2083 1 rfl (by decide)
  rw [hmiss] at hfound
  cases hfound

end twoKeys

/-! ## Lookups in any image -/

/-- No access left the image, and a value that was found lies inside it. -/
def Inside (img : Block UInt8) (r : Except Stop (Option (Nat × Nat))) : Prop :=
  r ≠ .error .fault ∧ ∀ loc n, r = .ok (some (loc, n)) → loc + n ≤ img.len

/-- Of two words at `p` that are read one after the other: a word whose offset is below the size
of the image lies inside it. The second offset is a `uint32_t` too. -/
def PairFits (size p : Nat) : Prop :=
  p < size → p + 4 ≤ size ∧ ((p + 4) % 2 ^ 32 < size → p + 8 ≤ size)

/-- Of a record that is compared with the key: its header fits, and where the sum of the
`uint32_t`s is within the size, so are the end of the key and, for the key itself, the end of the
value. -/
def RecordFits (img : Block UInt8) (key : List UInt8) (off : UInt32) : Prop :=
  PairFits img.len off.toNat ∧ (off.toNat + 8 ≤ img.len →
    (word img off.toNat).toNat = key.length →
    (off + 8 + word img off.toNat + word img (off.toNat + 4)).toNat ≤ img.len →
      off.toNat + 8 + key.length ≤ img.len ∧
        ((List.range key.length).map (fun i => img.cells (off.toNat + 8 + i)) = key →
          off.toNat + 8 + key.length + (word img (off.toNat + 4)).toNat ≤ img.len))

/-- Of the slot at `p`: it fits, and so does its record if it has the hash of the key. -/
def SlotFits (img : Block UInt8) (h : UInt32) (key : List UInt8) (p : Nat) : Prop :=
  PairFits img.len p ∧
    (p + 8 ≤ img.len → word img p = h → h ≠ 0 → RecordFits img key (word img (p + 4)))

/-- The search goes on after the slot at `p`. -/
def GoesOn (img : Block UInt8) (h : UInt32) (p : Nat) : Prop :=
  p + 8 ≤ img.len ∧ word img p ≠ 0 ∧ word img p ≠ h

section safety

theorem inside_none : Inside img (.ok none) := ⟨nofun, nofun⟩

theorem inside_assertion : Inside img (.error .assertion) := ⟨nofun, nofun⟩

theorem not_inside_fault : ¬Inside img (.error .fault) := fun h => h.1 rfl

theorem pairFits_of_le {size p : Nat} (h : p + 8 ≤ size) : PairFits size p :=
  fun _ => ⟨by omega, fun _ => h⟩

theorem inside_pair_iff {p : UInt32} (hp : ¬p.toNat + 8 ≤ img.len)
    (f : UInt32 → UInt32 → Except Stop (Option (Nat × Nat))) :
    Inside img (do f (← read32 img p p.toNat) (← read32 img (p + 4) (p.toNat + 4))) ↔
      PairFits img.len p.toNat := by
  have hnext : (p + 4).toNat = (p.toNat + 4) % 2 ^ 32 := UInt32.toNat_add p 4
  by_cases hlt : p.toNat < img.len
  swap
  · rw [read32, if_neg hlt]
    exact iff_of_true inside_assertion fun h => absurd h hlt
  by_cases hfirst : p.toNat + 4 ≤ img.len
  swap
  · rw [read32, if_pos hlt, load, if_neg hfirst]
    exact iff_of_false not_inside_fault fun h => hfirst (h hlt).1
  by_cases hcheck : (p.toNat + 4) % 2 ^ 32 < img.len
  · rw [read32, if_pos hlt, load, if_pos hfirst, read32, hnext, if_pos hcheck, load,
      if_neg (show ¬p.toNat + 4 + 4 ≤ img.len from hp)]
    exact iff_of_false not_inside_fault fun h => hp ((h hlt).2 hcheck)
  · rw [read32, if_pos hlt, load, if_pos hfirst, read32, hnext, if_neg hcheck]
    exact iff_of_true inside_assertion fun _ => ⟨hfirst, fun h => absurd h hcheck⟩

theorem compareRecord_inside_iff (off : UInt32) :
    Inside img (compareRecord img key off) ↔ RecordFits img key off := by
  by_cases hoff : off.toNat + 8 ≤ img.len
  swap
  · rw [compareRecord, inside_pair_iff hoff, RecordFits]
    exact ⟨fun h => ⟨h, fun h' => absurd h' hoff⟩, fun h => h.1⟩
  obtain ⟨hklen, hvlen⟩ := read32_pair hoff
  rw [RecordFits, and_iff_right (pairFits_of_le hoff), imp_iff_right hoff]
  simp only [compareRecord, hklen, hvlen, bind, Except.bind, pure, Except.pure]
  by_cases hkey : (word img off.toNat).toNat = key.length
  swap
  · rw [if_pos hkey]
    exact iff_of_true inside_none fun h => absurd h hkey
  rw [if_neg (not_not_intro hkey), imp_iff_right hkey]
  by_cases hsum : (off + 8 + word img off.toNat + word img (off.toNat + 4)).toNat ≤ img.len
  swap
  · rw [if_pos hsum]
    exact iff_of_true inside_assertion fun h => absurd h hsum
  rw [if_neg (not_not_intro hsum), imp_iff_right hsum, hkey]
  have hlen : (img.shift (off.toNat + 8)).len = img.len - (off.toNat + 8) := rfl
  by_cases hroom : off.toNat + 8 + key.length ≤ img.len
  swap
  · have hnone : (img.shift (off.toNat + 8)).first key.length = none :=
      if_neg (by rw [hlen]; omega)
    rw [hnone]
    exact iff_of_false not_inside_fault fun h => hroom h.1
  rw [Block.first_of_le (show key.length ≤ (img.shift (off.toNat + 8)).len by rw [hlen]; omega),
    and_iff_right hroom]
  dsimp only
  by_cases hsame : key = (List.range key.length).map (img.shift (off.toNat + 8)).cells
  · rw [if_neg (not_not_intro hsame)]
    constructor
    · exact fun h _ => h.2 _ _ rfl
    · intro h
      refine ⟨nofun, fun loc n heq => ?_⟩
      obtain ⟨rfl, rfl⟩ := Prod.mk.inj (Option.some.inj (Except.ok.inj heq))
      exact h hsame.symm
  · rw [if_pos hsame]
    exact iff_of_true inside_none fun h => absurd h.symm hsame

theorem probe_inside_iff (hlen : ii.len ≠ 0) {n : Nat} (hn : n + k = ii.len.toNat) (hpos : 0 < n) :
    Inside img (probe img h key ii (ii.slot h 0) n (ii.slot h k)) ↔
      ∀ K < ii.len.toNat, k ≤ K → (∀ j, k ≤ j → j < K → GoesOn img h (ii.place h j).toNat) →
        SlotFits img h key (ii.place h K).toNat := by
  induction n generalizing k with
  | zero => exact absurd hpos (Nat.lt_irrefl 0)
  | succ n ih =>
    have hk : k < ii.len.toNat := by omega
    -- the first slot by itself, and the others if the search goes on
    have hsplit : (∀ K < ii.len.toNat, k ≤ K →
        (∀ j, k ≤ j → j < K → GoesOn img h (ii.place h j).toNat) →
          SlotFits img h key (ii.place h K).toNat) ↔
        SlotFits img h key (ii.place h k).toNat ∧ (GoesOn img h (ii.place h k).toNat →
          ∀ K < ii.len.toNat, k + 1 ≤ K →
            (∀ j, k + 1 ≤ j → j < K → GoesOn img h (ii.place h j).toNat) →
              SlotFits img h key (ii.place h K).toNat) := by
      constructor
      · intro hall
        refine ⟨hall k hk (Nat.le_refl k) fun j hj hlt => absurd hlt (Nat.not_lt.mpr hj), ?_⟩
        intro hgo K hK hle hpath
        refine hall K hK (Nat.le_of_succ_le hle) fun j hj hlt => ?_
        rcases Nat.eq_or_lt_of_le hj with rfl | hgt
        · exact hgo
        · exact hpath j hgt hlt
      · rintro ⟨hfits, hrest⟩ K hK hle hpath
        rcases Nat.eq_or_lt_of_le hle with rfl | hgt
        · exact hfits
        · exact hrest (hpath k (Nat.le_refl k) hgt) K hK hgt fun j hj hlt =>
            hpath j (Nat.le_of_succ_le hj) hlt
    rw [hsplit]
    by_cases hp : (ii.place h k).toNat + 8 ≤ img.len
    swap
    · rw [probe, show ii.off + 8 * ii.slot h k = ii.place h k from rfl]
      rw [inside_pair_iff hp]
      refine ⟨fun hpair => ⟨⟨hpair, fun h' => absurd h' hp⟩, fun hgo => absurd hgo.1 hp⟩, ?_⟩
      exact fun hall => hall.1.1
    rw [probe_of_le hlen hk hp]
    by_cases hzero : word img (ii.place h k).toNat = 0
    · rw [if_pos hzero]
      refine iff_of_true inside_none ⟨⟨pairFits_of_le hp, fun _ heq hne => ?_⟩, fun hgo => ?_⟩
      · exact absurd (heq.symm.trans hzero) hne
      · exact absurd hzero hgo.2.1
    rw [if_neg hzero]
    by_cases hhash : word img (ii.place h k).toNat = h
    · rw [if_pos hhash, compareRecord_inside_iff]
      refine ⟨fun hrec => ⟨⟨pairFits_of_le hp, fun _ _ _ => hrec⟩, fun hgo => ?_⟩, fun hall => ?_⟩
      · exact absurd hhash hgo.2.2
      · exact hall.1.2 hp hhash (hhash ▸ hzero)
    rw [if_neg hhash]
    have hfits : SlotFits img h key (ii.place h k).toNat :=
      ⟨pairFits_of_le hp, fun _ heq => absurd heq hhash⟩
    have hgo : GoesOn img h (ii.place h k).toNat := ⟨hp, hzero, hhash⟩
    rw [and_iff_right hfits, imp_iff_right hgo]
    by_cases hlast : k + 1 = ii.len.toNat
    · rw [if_pos hlast]
      exact iff_of_true inside_none fun K hK hle => absurd hK (by omega)
    · rw [if_neg hlast]
      exact ih (by omega) (by omega)

end safety

/-- A lookup stays inside the image exactly if, at every slot it comes to, the offsets of the slot
and of the record it compares leave room for what is read there, and the sizes of that record do
not wrap around. -/
theorem cdb_find_inside_iff (hash : List UInt8 → UInt32) (key : List UInt8)
    (hsize : 2048 ≤ img.len) :
    Inside img (cdbFind hash img key) ↔ ∀ k < (idxOf img (hash key)).len.toNat,
      (∀ j < k, GoesOn img (hash key) ((idxOf img (hash key)).place (hash key) j).toNat) →
        SlotFits img (hash key) key ((idxOf img (hash key)).place (hash key) k).toNat := by
  by_cases hlen : (idxOf img (hash key)).len = 0
  · simp only [cdbFind, index_eq hsize, bind, Except.bind, hlen, if_true]
    exact iff_of_true inside_none fun k hk => absurd hk (Nat.not_lt_zero k)
  · have hpos : 0 < (idxOf img (hash key)).len.toNat :=
      Nat.pos_of_ne_zero fun h0 => hlen (UInt32.toNat_inj.mp h0)
    rw [cdbFind_eq hsize key hlen, probe_inside_iff hlen (Nat.add_zero _) hpos]
    simp only [Nat.zero_le, true_imp_iff]

theorem cdb_find_inside_two_keys :
    Inside (twoKeys 2) (cdbFind (twoHash 2) (twoKeys 2) [2]) ∧
      SlotFits (twoKeys 2) (twoHash 2 [2]) [2]
        ((idxOf (twoKeys 2) (twoHash 2 [2])).place (twoHash 2 [2]) 0).toNat := by
  have hin : Inside (twoKeys 2) (cdbFind (twoHash 2) (twoKeys 2) [2]) := by
    have hfind : cdbFind (twoHash 2) (twoKeys 2) [2] = .ok (some (2083, 1)) := by decide
    rw [hfind]
    refine ⟨nofun, fun loc n heq => ?_⟩
    obtain ⟨rfl, rfl⟩ := Prod.mk.inj (Option.some.inj (Except.ok.inj heq))
    decide
  exact ⟨hin, (cdb_find_inside_iff (twoHash 2) [2] (by decide)).mp hin 0 (by decide)
    fun j hj => absurd hj (Nat.not_lt_zero j)⟩

def shortTable : Block UInt8 where
  len := 2048
  cells i := [0xfd, 7, 0, 0, 1, 0, 0, 0].getD i 0

theorem cdb_find_leaves_short_table :
    2048 ≤ shortTable.len ∧ cdbFind (fun _ => 0) shortTable [] = .error .fault ∧
      ¬Inside shortTable (cdbFind (fun _ => 0) shortTable []) := by
  have hfault : cdbFind (fun _ => 0) shortTable [] = .error .fault := by decide
  exact ⟨by decide, hfault, fun h => h.1 hfault⟩

end PortableLib.Cdb
