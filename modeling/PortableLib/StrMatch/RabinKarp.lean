import PortableLib.StrMatch.Tables

/-! `rabin_karp_search::matchall` of `utils/strmatch.h`. `int` wraps around; a shift by the width
of `int` or more is undefined. The text is a block of memory that may go on after the `textlen`
characters that are searched. -/

namespace PortableLib.StrMatch.RabinKarp
open Run CharType

section model
variable {T : Type} [DecidableEq T] [CharType T]

/-- `d = 1 << (m_patlen-1)` -/
def twoPow (patlen : Nat) : Option Int32 :=
  if 0 < patlen ∧ patlen ≤ 32 then some (1 <<< Int32.ofNat (patlen - 1)) else none

def rehash (d a b h : Int32) : Int32 := ((h - a * d) <<< 1) + b

def hashStep (pat text : Block T) (h : Int32 × Int32) (i : Nat) : Option (Int32 × Int32) := do
  return ((h.1 <<< 1) + toInt (← pat.read i), (h.2 <<< 1) + toInt (← text.read i))

/-- `0 == memcmp(m_pat, text+j, m_patlen * sizeof(char_type))` -/
def memcmpEq (pat text : Block T) (j : Nat) : Option Bool := do
  return (← pat.first pat.len) = (← (text.shift j).first pat.len)

def foundAt (pat text : Block T) (hPat hTxt : Int32) (j : Nat) : Option Bool :=
  if hPat = hTxt then memcmpEq pat text j else some false

def searchStep (pat text : Block T) (d hPat : Int32) (st : Int32 × List Nat) (j : Nat) :
    Option (Int32 × List Nat) := do
  let found ← foundAt pat text hPat st.1 j
  let a ← text.read j
  let b ← text.read (j + pat.len)
  return (rehash d (toInt a) (toInt b) st.1, if found then st.2 ++ [j] else st.2)

def matchall (pat text : Block T) (textlen : Nat) : Option (List Nat) := do
  let d ← twoPow pat.len
  let h ← (List.range pat.len).foldlM (hashStep pat text) (0, 0)
  let st ← (List.range (offsets textlen pat.len)).foldlM (searchStep pat text d h.1) (h.2, [])
  return st.2

end model

variable {T : Type} [CharType T] {pat text : Block T}

def hash (f : Nat → T) : Nat → Int32
  | 0 => 0
  | k + 1 => (hash f k <<< 1) + toInt (f k)

theorem shiftLeft_one (h : Int32) : h <<< 1 = h * 2 := by
  have hone : (Int32.toBitVec 1).smod 32 = 1#32 := by decide
  have htwo : Int32.toBitVec 2 = 2#32 := rfl
  apply Int32.toBitVec_inj.1
  rw [Int32.toBitVec_shiftLeft, Int32.toBitVec_mul, hone, htwo, BitVec.shiftLeft_eq',
    BitVec.shiftLeft_eq_mul_twoPow]
  rfl

theorem hash_congr {f g : Nat → T} {k : Nat} (h : ∀ i < k, f i = g i) : hash f k = hash g k := by
  induction k with
  | zero => rfl
  | succ k ih =>
    rw [hash, hash, ih fun i hi => h i (Nat.lt_succ_of_lt hi), h k (Nat.lt_succ_self k)]

theorem hash_succ (f : Nat → T) (k : Nat) :
    hash f (k + 1) = toInt (f 0) * 2 ^ k + hash (fun i => f (i + 1)) k := by
  induction k with
  | zero =>
    rw [hash, hash, hash, shiftLeft_one]
    grind
  | succ k ih =>
    have hpow : (2 : Int32) ^ (k + 1) = 2 ^ k * 2 := by grind
    rw [hash, ih, hash, shiftLeft_one, shiftLeft_one, hpow, Int32.add_mul, Int32.mul_assoc,
      Int32.add_assoc]

theorem twoPow_eq {m : Nat} (hm : 0 < m) (hle : m ≤ 32) : twoPow m = some (2 ^ (m - 1)) := by
  have hpow : ∀ k < 32, (1 : Int32) <<< Int32.ofNat k = 2 ^ k := by decide
  rw [twoPow, if_pos ⟨hm, hle⟩, hpow (m - 1) (by omega)]

theorem rehash_hash (f : Nat → T) {m : Nat} (hm : 0 < m) :
    rehash (2 ^ (m - 1)) (toInt (f 0)) (toInt (f m)) (hash f m) =
      hash (fun i => f (i + 1)) m := by
  obtain ⟨k, rfl⟩ := Nat.exists_eq_add_of_lt hm
  rw [Nat.zero_add, rehash, hash_succ, hash, Nat.add_sub_cancel, shiftLeft_one, shiftLeft_one]
  grind

theorem hashStep_spec {i : Nat} {h : Int32 × Int32} (hi : i < pat.len) (htext : i < text.len)
    (heq : h = (hash pat.cells i, hash text.cells i)) :
    ∃ h', hashStep pat text h i = some h' ∧
      h' = (hash pat.cells (i + 1), hash text.cells (i + 1)) := by
  refine ⟨_, ?_, rfl⟩
  rw [heq, hashStep, Block.read_of_lt hi, Block.read_of_lt htext]
  rfl

theorem foldlM_hashStep (htext : pat.len ≤ text.len) :
    (List.range pat.len).foldlM (hashStep pat text) (0, 0) =
      some (hash pat.cells pat.len, hash text.cells pat.len) := by
  obtain ⟨h, hh, rfl⟩ := foldlM_range_invariant
    (I := fun i h => h = (hash pat.cells i, hash text.cells i))
    (fun i h hi => hashStep_spec hi (hi.trans_le htext)) (s := (0, 0)) rfl
  exact hh

variable [DecidableEq T]

omit [CharType T] in
theorem memcmpEq_eq {j : Nat} (hj : j + pat.len ≤ text.len) :
    memcmpEq pat text j = some (decide (Occurs pat.cells pat.len text.cells j)) := by
  have hlen : pat.len ≤ (text.shift j).len := Nat.le_sub_of_add_le' hj
  rw [memcmpEq, Block.first_of_le (Nat.le_refl _), Block.first_of_le hlen]
  refine congrArg some (decide_eq_decide.mpr ?_)
  rw [List.map_inj_left]
  exact ⟨fun h k hk => (h k (List.mem_range.mpr hk)).symm,
    fun h k hk => (h k (List.mem_range.mp hk)).symm⟩

theorem foundAt_eq {j : Nat} (hj : j + pat.len ≤ text.len) :
    foundAt pat text (hash pat.cells pat.len) (hash (fun k => text.cells (j + k)) pat.len) j =
      some (decide (Occurs pat.cells pat.len text.cells j)) := by
  rw [foundAt]
  split
  next => exact memcmpEq_eq hj
  next hne =>
    have hnot : ¬ Occurs pat.cells pat.len text.cells j :=
      fun hoc => hne (hash_congr fun k hk => (hoc k hk).symm)
    rw [decide_eq_false hnot]

theorem searchStep_spec {j : Nat} {st : Int32 × List Nat} (hm : 0 < pat.len)
    (hj : j + pat.len < text.len)
    (h : st = (hash (fun k => text.cells (j + k)) pat.len,
      occurrences pat.cells pat.len text.cells 0 j)) :
    ∃ st', searchStep pat text (2 ^ (pat.len - 1)) (hash pat.cells pat.len) st j = some st' ∧
      st' = (hash (fun k => text.cells (j + 1 + k)) pat.len,
        occurrences pat.cells pat.len text.cells 0 (j + 1)) := by
  have hroll := rehash_hash (fun k => text.cells (j + k)) hm
  have hnext : (fun k => text.cells (j + (k + 1))) = fun k => text.cells (j + 1 + k) := by
    funext k
    rw [Nat.add_right_comm, Nat.add_assoc]
  rw [hnext] at hroll
  refine ⟨_, ?_, rfl⟩
  rw [h, searchStep, foundAt_eq (Nat.le_of_lt hj), Block.read_of_lt (by omega),
    Block.read_of_lt hj, occurrences_succ (Nat.zero_le j), ← hroll]
  rfl

theorem matchall_spec {textlen : Nat} (hm : 0 < pat.len) (hm32 : pat.len ≤ 32)
    (htext : pat.len ≤ text.len) (hlast : pat.len ≤ textlen → textlen < text.len) :
    matchall pat text textlen = some (occurrences pat.cells pat.len text.cells 0
      (offsets textlen pat.len)) := by
  have hinit : (hash text.cells pat.len, []) = (hash (fun k => text.cells (0 + k)) pat.len,
      occurrences pat.cells pat.len text.cells 0 0) := by
    simp only [Nat.zero_add, occurrences_of_le (Nat.le_refl 0)]
  have hwindow : ∀ j < offsets textlen pat.len, j + pat.len < text.len := by
    intro j hj
    have hend := lt_offsets_iff.mp hj
    have htl := hlast (by omega)
    omega
  obtain ⟨st, hst, rfl⟩ := foldlM_range_invariant
    (I := fun j st => st = (hash (fun k => text.cells (j + k)) pat.len,
      occurrences pat.cells pat.len text.cells 0 j))
    (fun j st hj => searchStep_spec hm (hwindow j hj)) hinit
  simp only [matchall, twoPow_eq hm hm32, foldlM_hashStep htext, hst, Option.bind_eq_bind,
    Option.bind_some, pure]

omit [DecidableEq T] in
theorem lt_of_hashStep {i : Nat} {h h' : Int32 × Int32} (hstep : hashStep pat text h i = some h') :
    i < text.len := by
  simp only [hashStep, Option.bind_eq_bind, Option.bind_eq_some_iff] at hstep
  obtain ⟨-, -, a, ha, -⟩ := hstep
  exact Block.lt_of_read ha

theorem lt_of_searchStep {d hPat : Int32} {j : Nat} {st st' : Int32 × List Nat}
    (hstep : searchStep pat text d hPat st j = some st') : j + pat.len < text.len := by
  simp only [searchStep, Option.bind_eq_bind, Option.bind_eq_some_iff] at hstep
  obtain ⟨-, -, -, -, b, hb, -⟩ := hstep
  exact Block.lt_of_read hb

/-- `matchall` once the value of `1 << (m_patlen-1)` is known. -/
def matchallWith (pat text : Block T) (textlen : Nat) (d : Int32) : Option (List Nat) := do
  let h ← (List.range pat.len).foldlM (hashStep pat text) (0, 0)
  let st ← (List.range (offsets textlen pat.len)).foldlM (searchStep pat text d h.1) (h.2, [])
  return st.2

theorem matchall_eq_bind (pat text : Block T) (textlen : Nat) :
    matchall pat text textlen = (twoPow pat.len).bind (matchallWith pat text textlen) := rfl

theorem bounds_of_matchallWith {textlen : Nat} {d : Int32} {r : List Nat}
    (h : matchallWith pat text textlen d = some r) :
    pat.len ≤ text.len ∧ (pat.len ≤ textlen → textlen < text.len) := by
  simp only [matchallWith, Option.bind_eq_bind, Option.bind_eq_some_iff] at h
  obtain ⟨hashes, hhash, st, hsearch, -⟩ := h
  have htext : ∀ i < pat.len, i < text.len := by
    intro i hi
    obtain ⟨_, _, _, hstep⟩ := exists_step_of_foldlM (I := fun _ => True)
      (fun _ _ _ _ _ => trivial) trivial hhash i (List.mem_range.mpr hi)
    exact lt_of_hashStep hstep
  have hwindow : ∀ j < offsets textlen pat.len, j + pat.len < text.len := by
    intro j hj
    obtain ⟨_, _, _, hstep⟩ := exists_step_of_foldlM (I := fun _ => True)
      (fun _ _ _ _ _ => trivial) trivial hsearch j (List.mem_range.mpr hj)
    exact lt_of_searchStep hstep
  constructor
  · by_contra hlt
    exact absurd (htext text.len (by omega)) (Nat.lt_irrefl _)
  · intro hle
    have hlast := hwindow (textlen - pat.len) (lt_offsets_iff.mpr (by omega))
    omega

theorem bounds_of_matchall {textlen : Nat} {r : List Nat}
    (h : matchall pat text textlen = some r) :
    0 < pat.len ∧ pat.len ≤ 32 ∧ pat.len ≤ text.len ∧ (pat.len ≤ textlen → textlen < text.len) := by
  rw [matchall_eq_bind, Option.bind_eq_some_iff] at h
  obtain ⟨d, hd, hrun⟩ := h
  have hm : 0 < pat.len ∧ pat.len ≤ 32 := by
    by_contra hm
    rw [twoPow, if_neg hm] at hd
    cases hd
  exact ⟨hm.1, hm.2, bounds_of_matchallWith hrun⟩

theorem matchall_eq_some_iff {textlen : Nat} {r : List Nat} :
    matchall pat text textlen = some r ↔ (0 < pat.len ∧ pat.len ≤ 32 ∧ pat.len ≤ text.len ∧
        (pat.len ≤ textlen → textlen < text.len)) ∧
      r = occurrences pat.cells pat.len text.cells 0 (offsets textlen pat.len) := by
  constructor
  · intro h
    obtain ⟨hm, hm32, htext, hlast⟩ := bounds_of_matchall h
    refine ⟨⟨hm, hm32, htext, hlast⟩, ?_⟩
    exact Option.some.inj (h.symm.trans (matchall_spec hm hm32 htext hlast))
  · rintro ⟨⟨hm, hm32, htext, hlast⟩, rfl⟩
    exact matchall_spec hm hm32 htext hlast

/-- What `matchall` is for: all the offsets of the pattern, found inside the text. -/
def FindsInside (pat text : Block T) : Prop :=
  matchall pat text text.len =
    some (occurrences pat.cells pat.len text.cells 0 (offsets text.len pat.len))

/-- No text is searched without a read outside it, whatever the shift gives; with memory that may be
read around it, the offsets are right exactly if the pattern is no longer than an `int` has bits. -/
theorem rabinKarp_reads_outside (pat text : Block T) :
    ¬ FindsInside pat text ∧ (∀ d, matchallWith pat text text.len d = none) ∧
      ∀ textlen, textlen < text.len → pat.len ≤ text.len →
        (matchall pat text textlen =
            some (occurrences pat.cells pat.len text.cells 0 (offsets textlen pat.len)) ↔
          0 < pat.len ∧ pat.len ≤ 32) := by
  have hnone : ∀ d, matchallWith pat text text.len d = none := by
    intro d
    cases hrun : matchallWith pat text text.len d with
    | none => rfl
    | some r =>
      obtain ⟨hpat, hlast⟩ := bounds_of_matchallWith hrun
      exact absurd (hlast hpat) (Nat.lt_irrefl _)
  refine ⟨?_, hnone, fun textlen hlt hle => ?_⟩
  · intro h
    rw [FindsInside, matchall_eq_bind, funext hnone, Option.bind_fun_none] at h
    cases h
  · rw [matchall_eq_some_iff, and_iff_left rfl]
    exact ⟨fun h => ⟨h.1, h.2.1⟩, fun h => ⟨h.1, h.2, hle, fun _ => hlt⟩⟩

/-- `a` in `a`: the last round reads the character behind the text. -/
theorem rabinKarp_reads_behind_a :
    ¬ FindsInside (⟨1, fun _ => 97⟩ : Block Int8) ⟨1, fun _ => 97⟩ ∧
      matchall (⟨1, fun _ => 97⟩ : Block Int8) ⟨1, fun _ => 97⟩ 1 = none ∧
      matchall (⟨1, fun _ => 97⟩ : Block Int8) ⟨2, fun i => [97, 0].getD i 0⟩ 1 = some [0] := by
  have hnone : matchall (⟨1, fun _ => 97⟩ : Block Int8) ⟨1, fun _ => 97⟩ 1 = none := by decide
  refine ⟨?_, hnone, by decide⟩
  intro h
  exact absurd (hnone.symm.trans h) (by decide)

end PortableLib.StrMatch.RabinKarp
