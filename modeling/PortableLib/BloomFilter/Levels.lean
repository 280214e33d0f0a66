import PortableLib.BloomFilter.Membership

/-! The array of levels of a scalable filter with the records that are not in use yet. The first
eight come from `calloc`, the others from `realloc`, which leaves them as the memory happens to
be, and `standard_bloom_init` sets every field of a record but its element count. -/

namespace PortableLib.BloomFilter
open List

/-- `struct scalable_bloom`; `bfa` has all `cap` records. -/
structure LevelArray where
  bfa : List Bloom
  len : UInt32
  cap : UInt32
  deriving DecidableEq, Repr

def clearedRecord : Bloom := ⟨0, 0, 0, [], 0, 0⟩

/-- `standard_bloom_init` on a record; the `size` of `l` is not used. -/
def initRecord (f : Bloom) (l : Level) : Bloom := standardBloomInit { l with size := f.size }

/-- `setup_scalable_bloom` with eight records, and the first level. -/
def levelArrayNew (l : Level) : LevelArray :=
  ⟨(replicate 8 clearedRecord).set 0 (initRecord clearedRecord l), 1, 8⟩

/-- `maybe_grow_filter`; `junk i` is what `realloc` leaves in record `i`. -/
def growArray (junk : Nat → Bloom) (a : LevelArray) : Option LevelArray :=
  if a.len = a.cap then
    let x := a.cap <<< 1
    if x > a.cap then
      some ⟨a.bfa ++ (range' a.cap.toNat (x.toNat - a.cap.toNat)).map junk, a.len + 1, x⟩
    else none
  else some { a with len := a.len + 1 }

def probeRecord (a : LevelArray) (i : Nat) (v : UInt64) : Option LevelArray :=
  a.bfa[i]?.bind fun f =>
    (standardBloomProbe f v).map fun f => { a with bfa := a.bfa.set i f }

/-- `scalable_probe`; `full` sizes the next level if the last one is judged full. -/
def probeArray (junk : Nat → Bloom) (a : LevelArray) (v : UInt64) (full : Option Level) :
    Option LevelArray :=
  let i := a.len - 1
  if i < a.len then
    match full with
    | none => probeRecord a i.toNat v
    | some l => (growArray junk a).bind fun a' =>
        a'.bfa[a.len.toNat]?.bind fun f =>
          probeRecord { a' with bfa := a'.bfa.set a.len.toNat (initRecord f l) } a.len.toNat v
  else none

def arrayRun (junk : Nat → Bloom) (a : LevelArray) (probes : List (UInt64 × Option Level)) :
    Option LevelArray :=
  probes.foldlM (fun a p => probeArray junk a p.1 p.2) a

def countProbe (cs : List Nat) (p : UInt64 × Option Level) : List Nat :=
  let cs := if grows p then cs ++ [0] else cs
  cs.modify (cs.length - 1) (· + 1)

def levelCounts (probes : List (UInt64 × Option Level)) : List Nat :=
  probes.foldl countProbe [0]

def spareRecord (junk : Nat → Bloom) (i : Nat) : Bloom := if i < 8 then clearedRecord else junk i

structure LevelArray.Counted (junk : Nat → Bloom) (a : LevelArray) (cs : List Nat) : Prop where
  len : a.len.toNat = cs.length
  pos : 0 < cs.length
  le_cap : cs.length ≤ a.cap.toNat
  eight : 8 ≤ a.cap.toNat
  length : a.bfa.length = a.cap.toNat
  level : ∀ i c, cs[i]? = some c →
    ∃ f, a.bfa[i]? = some f ∧ f.size = (spareRecord junk i).size + UInt64.ofNat c
  spare : ∀ i, cs.length ≤ i → i < a.cap.toNat → a.bfa[i]? = some (spareRecord junk i)

section Step
variable {junk : Nat → Bloom} {a a' : LevelArray} {cs : List Nat} {v : UInt64}

theorem size_standardBloomProbe {b b' : Bloom} (h : standardBloomProbe b v = some b') :
    b'.size = b.size + 1 := by
  obtain ⟨bm, -, rfl⟩ := Option.map_eq_some_iff.mp h
  rfl

theorem toNat_add_one {x y : UInt32} (h : x < y) : (x + 1).toNat = x.toNat + 1 := by
  have hlt := y.toNat_lt
  rw [UInt32.lt_iff_toNat_lt] at h
  rw [UInt32.toNat_add, show (1 : UInt32).toNat = 1 from rfl, Nat.mod_eq_of_lt (by omega)]

theorem LevelArray.Counted.grow (h : a.Counted junk cs) (hgrow : growArray junk a = some a') :
    a'.len.toNat = cs.length + 1 ∧ cs.length < a'.cap.toNat ∧ 8 ≤ a'.cap.toNat ∧
      a'.bfa.length = a'.cap.toNat ∧ (∀ i < cs.length, a'.bfa[i]? = a.bfa[i]?) ∧
      ∀ i, cs.length ≤ i → i < a'.cap.toNat → a'.bfa[i]? = some (spareRecord junk i) := by
  have hlen := h.len
  have height := h.eight
  have hcap := h.length
  have hle := h.le_cap
  simp only [growArray] at hgrow
  split_ifs at hgrow with heq hgt
  · obtain rfl := Option.some.inj hgrow
    have hgt' : a.cap.toNat < (a.cap <<< 1).toNat := UInt32.lt_iff_toNat_lt.mp hgt
    have hfull : cs.length = a.cap.toNat := by rw [← hlen, heq]
    refine ⟨?_, by simp only; omega, by simp only; omega, ?_, ?_, ?_⟩
    · rw [toNat_add_one (y := a.cap <<< 1) (by rw [heq]; exact hgt), hlen]
    · simp only [length_append, length_map, length_range']
      omega
    · intro i hi
      exact getElem?_append_left (by omega)
    · intro i hi hi'
      have hi'' : i - a.cap.toNat < (a.cap <<< 1).toNat - a.cap.toNat := by
        simp only at hi'
        omega
      simp only [getElem?_append_right (show a.bfa.length ≤ i by omega), hcap, getElem?_map,
        getElem?_range' hi'', Option.map_some, Nat.one_mul, spareRecord, if_neg (by omega : ¬i < 8)]
      rw [show a.cap.toNat + (i - a.cap.toNat) = i by omega]
  · obtain rfl := Option.some.inj hgrow
    have hne : a.len.toNat ≠ a.cap.toNat := fun h => heq (UInt32.toNat_inj.mp h)
    have hlt : a.len < a.cap := UInt32.lt_iff_toNat_lt.mpr (by omega)
    refine ⟨?_, by simp only; omega, height, hcap, fun i _ => rfl, h.spare⟩
    rw [toNat_add_one hlt, hlen]

theorem LevelArray.Counted.init (h : a.Counted junk cs) (hgrow : growArray junk a = some a')
    (l : Level) :
    ∃ f, a'.bfa[cs.length]? = some f ∧ f = spareRecord junk cs.length ∧
      LevelArray.Counted junk { a' with bfa := a'.bfa.set cs.length (initRecord f l) }
        (cs ++ [0]) := by
  obtain ⟨hlen, hlt, height, hcap, hkeep, hspare⟩ := h.grow hgrow
  refine ⟨_, hspare _ (Nat.le_refl _) hlt, rfl, ?_, ?_, ?_, height, ?_, ?_, ?_⟩
  · rw [length_append, length_singleton]
    exact hlen
  · rw [length_append, length_singleton]
    exact Nat.succ_pos _
  · rw [length_append, length_singleton]
    exact hlt
  · rw [length_set]
    exact hcap
  · intro i c hc
    rcases Nat.lt_or_ge i cs.length with hi | hi
    · rw [getElem?_append_left hi] at hc
      obtain ⟨f, hf, hsize⟩ := h.level i c hc
      exact ⟨f, by rw [getElem?_set_ne (by omega), hkeep i hi, hf], hsize⟩
    · rw [getElem?_append_right hi, getElem?_singleton] at hc
      split_ifs at hc with hzero
      obtain rfl := Option.some.inj hc
      obtain rfl : i = cs.length := by omega
      refine ⟨_, getElem?_set_self (by omega), ?_⟩
      exact (UInt64.add_zero _).symm
  · intro i hi hi'
    rw [length_append, length_singleton] at hi
    rw [getElem?_set_ne (by omega)]
    exact hspare i (by omega) hi'

theorem LevelArray.Counted.probe (h : a.Counted junk cs)
    (hprobe : probeRecord a (cs.length - 1) v = some a') :
    a'.Counted junk (cs.modify (cs.length - 1) (· + 1)) := by
  obtain ⟨f, hf, hmap⟩ := Option.bind_eq_some_iff.mp hprobe
  obtain ⟨f', hf', rfl⟩ := Option.map_eq_some_iff.mp hmap
  have hpos := h.pos
  have hle := h.le_cap
  have hcap := h.length
  refine ⟨?_, ?_, ?_, h.eight, ?_, ?_, ?_⟩
  · rw [length_modify]
    exact h.len
  · rw [length_modify]
    exact hpos
  · rw [length_modify]
    exact hle
  · rw [length_set]
    exact hcap
  · intro i c hc
    rw [getElem?_modify] at hc
    obtain ⟨c', hc', rfl⟩ := Option.map_eq_some_iff.mp hc
    obtain ⟨g, hg, hsize⟩ := h.level i c' hc'
    by_cases hi : cs.length - 1 = i
    · subst hi
      obtain rfl := Option.some.inj (hf.symm.trans hg)
      refine ⟨f', getElem?_set_self (by omega), ?_⟩
      rw [if_pos rfl, size_standardBloomProbe hf', hsize, UInt64.ofNat_add, UInt64.add_assoc]
      rfl
    · refine ⟨g, by rw [getElem?_set_ne hi, hg], ?_⟩
      rw [if_neg hi]
      exact hsize
  · intro i hi hi'
    rw [length_modify] at hi
    rw [getElem?_set_ne (by omega)]
    exact h.spare i hi hi'

theorem toNat_sub_one {x : UInt32} (h : 0 < x.toNat) : (x - 1).toNat = x.toNat - 1 :=
  UInt32.toNat_sub_of_le _ _ (UInt32.le_iff_toNat_le.mpr h)

theorem probeArray_counted (h : a.Counted junk cs) {p : UInt64 × Option Level}
    (hprobe : probeArray junk a p.1 p.2 = some a') : a'.Counted junk (countProbe cs p) := by
  obtain ⟨v, full⟩ := p
  simp only [probeArray] at hprobe
  split_ifs at hprobe
  cases full with
  | none =>
    have hlast : (a.len - 1).toNat = cs.length - 1 := by
      rw [toNat_sub_one (by rw [h.len]; exact h.pos), h.len]
    exact h.probe (hlast ▸ hprobe)
  | some l =>
    obtain ⟨a₁, hgrow, hrest⟩ := Option.bind_eq_some_iff.mp hprobe
    obtain ⟨f, hf, hlast⟩ := Option.bind_eq_some_iff.mp hrest
    obtain ⟨f', hf', -, hcount⟩ := h.init hgrow l
    rw [h.len] at hf hlast
    obtain rfl := Option.some.inj (hf.symm.trans hf')
    have hnew : (cs ++ [0]).length - 1 = cs.length := by
      rw [length_append, length_singleton, Nat.add_sub_cancel]
    have hprobe' : probeRecord { a₁ with bfa := a₁.bfa.set cs.length (initRecord f l) }
        ((cs ++ [0]).length - 1) v = some a' := by
      rw [hnew]
      exact hlast
    exact hcount.probe hprobe'

def LevelArray.inUse (a : LevelArray) : ScalableBloom := ⟨a.bfa.take a.len.toNat, a.len, a.cap⟩

/-- The level that `scalable_probe` adds, with the count that its record holds. -/
def levelOf (f : Bloom) (l : Level) : Level := { l with size := f.size }

theorem growArray_inUse (h : a.Counted junk cs) (l : Level) :
    ((growArray junk a).bind fun a' => a'.bfa[a.len.toNat]?.map fun f =>
        LevelArray.inUse { a' with bfa := a'.bfa.set a.len.toNat (initRecord f l) }) =
      maybeGrowFilter a.inUse (levelOf (spareRecord junk cs.length) l) := by
  cases hgrow : growArray junk a with
  | none =>
    simp only [growArray] at hgrow
    split_ifs at hgrow with heq hgt
    have heq' : a.inUse.len = a.inUse.cap := heq
    rw [Option.bind_none, maybeGrowFilter, if_pos heq']
    exact (if_neg hgt).symm
  | some a' =>
    obtain ⟨hlen, hlt, -, hcap, hkeep, hspare⟩ := h.grow hgrow
    have htake : a'.bfa.take cs.length = a.bfa.take cs.length := by
      refine ext_getElem? fun i => ?_
      rw [getElem?_take, getElem?_take]
      split_ifs with hi
      · exact hkeep i hi
      · rfl
    have huse : (a'.bfa.set cs.length (initRecord (spareRecord junk cs.length) l)).take
        (cs.length + 1) = a.bfa.take cs.length ++ [initRecord (spareRecord junk cs.length) l] := by
      rw [take_add_one, getElem?_set_self (by omega), take_set_of_le (Nat.le_refl _), htake]
      rfl
    rw [Option.bind_some, h.len, hspare _ (Nat.le_refl _) hlt, Option.map_some]
    simp only [growArray] at hgrow
    simp only [LevelArray.inUse, hlen, huse, maybeGrowFilter, h.len]
    split_ifs at hgrow with heq hgt
    · obtain rfl := Option.some.inj hgrow
      rw [if_pos heq, if_pos hgt]
      rfl
    · obtain rfl := Option.some.inj hgrow
      rw [if_neg heq]
      rfl

theorem probeRecord_inUse (a : LevelArray) (hpos : 0 < a.len.toNat) (v : UInt64) :
    (probeRecord a (a.len - 1).toNat v).map LevelArray.inUse = probeLast a.inUse v := by
  have hlast := toNat_sub_one hpos
  have hlt : a.len - 1 < a.len := by
    rw [UInt32.lt_iff_toNat_lt]
    omega
  have hget : (a.bfa.take a.len.toNat)[(a.len - 1).toNat]? = a.bfa[(a.len - 1).toNat]? :=
    getElem?_take_of_lt (by omega)
  simp only [probeRecord, probeLast, LevelArray.inUse, if_pos hlt, hget, Option.map_bind]
  refine Option.bind_congr fun f _ => ?_
  rw [Function.comp_apply]
  cases standardBloomProbe f v with
  | none => rfl
  | some f' => simp only [Option.map_some, LevelArray.inUse, take_set]

theorem probeArray_inUse (h : a.Counted junk cs) (v : UInt64) (full : Option Level) :
    (probeArray junk a v full).map LevelArray.inUse =
      scalableProbe a.inUse v (full.map (levelOf (spareRecord junk cs.length))) := by
  have hpos : 0 < a.len.toNat := by
    rw [h.len]
    exact h.pos
  have hlast := toNat_sub_one hpos
  have hlt : a.len - 1 < a.len := by
    rw [UInt32.lt_iff_toNat_lt]
    omega
  simp only [probeArray, if_pos hlt]
  cases full with
  | none => exact probeRecord_inUse a hpos v
  | some l =>
    simp only [Option.map_some, scalableProbe, ← growArray_inUse h, Option.bind_assoc,
      Option.map_bind]
    refine Option.bind_congr fun a' hgrow => ?_
    obtain ⟨hlen, -⟩ := h.grow hgrow
    have hidx : (a'.len - 1).toNat = a.len.toNat := by
      rw [toNat_sub_one (by omega), hlen, h.len, Nat.add_sub_cancel]
    rw [Function.comp_apply]
    cases a'.bfa[a.len.toNat]? with
    | none => rfl
    | some f =>
      have huse := probeRecord_inUse
        { a' with bfa := a'.bfa.set a.len.toNat (initRecord f l) } (by simp only; omega) v
      simp only [hidx] at huse
      exact huse

end Step

theorem levelArrayNew_counted (junk : Nat → Bloom) (l : Level) :
    (levelArrayNew l).Counted junk [0] where
  len := rfl
  pos := Nat.one_pos
  le_cap := (by decide : 1 ≤ (8 : UInt32).toNat)
  eight := (by decide : 8 ≤ (8 : UInt32).toNat)
  length := rfl
  level := fun i c hc => by
    rw [getElem?_singleton] at hc
    split_ifs at hc with hi
    obtain rfl := Option.some.inj hc
    subst hi
    exact ⟨_, rfl, rfl⟩
  spare := fun i hi hi' => by
    have hi8 : i < 8 := hi'
    rw [length_singleton] at hi
    simp only [levelArrayNew]
    rw [getElem?_set_ne (by omega), getElem?_replicate_of_lt hi8, spareRecord, if_pos hi8]

theorem arrayRun_counted {junk : Nat → Bloom} {a a' : LevelArray} {cs : List Nat}
    {probes : List (UInt64 × Option Level)} (h : a.Counted junk cs)
    (hrun : arrayRun junk a probes = some a') :
    a'.Counted junk (probes.foldl countProbe cs) := by
  induction probes generalizing a cs with
  | nil =>
    obtain rfl := Option.some.inj hrun
    exact h
  | cons p probes ih =>
    obtain ⟨a₁, h₁, hrest⟩ := Option.bind_eq_some_iff.mp ((foldlM_cons ..).symm.trans hrun)
    exact ih (probeArray_counted h h₁) hrest

/-- Each level's `size` is the number of values probed into it. -/
def CountsOwn (a : LevelArray) (cs : List Nat) : Prop :=
  a.len.toNat = cs.length ∧ ∀ (i c : Nat), cs[i]? = some c →
    ∃ f : Bloom, a.bfa[i]? = some f ∧ f.size.toNat = c

theorem add_ofNat_toNat_iff (x : UInt64) (c : Nat) :
    (x + UInt64.ofNat c).toNat = c ↔ x = 0 ∧ c < 2 ^ 64 := by
  have hlt := x.toNat_lt
  rw [UInt64.toNat_add, UInt64.toNat_ofNat', ← UInt64.toNat_inj, UInt64.toNat_zero]
  omega

/-- In the state that a sequence of probes leads to, every level counts its own values exactly if
the records that `realloc` added and that became levels held element count zero, and no level
was probed `2 ^ 64` times. -/
theorem levels_count_own_iff (junk : Nat → Bloom) (l : Level)
    (probes : List (UInt64 × Option Level)) (a : LevelArray)
    (hrun : arrayRun junk (levelArrayNew l) probes = some a) :
    CountsOwn a (levelCounts probes) ↔
      (∀ i, 8 ≤ i → i < (levelCounts probes).length → (junk i).size = 0) ∧
        ∀ c ∈ levelCounts probes, c < 2 ^ 64 := by
  have h : a.Counted junk (levelCounts probes) :=
    arrayRun_counted (levelArrayNew_counted junk l) hrun
  have hlevel : ∀ i c, (levelCounts probes)[i]? = some c →
      ((∃ f : Bloom, a.bfa[i]? = some f ∧ f.size.toNat = c) ↔
        (spareRecord junk i).size = 0 ∧ c < 2 ^ 64) := by
    intro i c hc
    obtain ⟨f, hf, hsize⟩ := h.level i c hc
    rw [← add_ofNat_toNat_iff, ← hsize]
    constructor
    · rintro ⟨g, hg, hcount⟩
      rwa [← Option.some.inj (hf.symm.trans hg)] at hcount
    · exact fun hcount => ⟨f, hf, hcount⟩
  constructor
  · rintro ⟨-, hcount⟩
    constructor
    · intro i hi hlt
      have hc := getElem?_eq_getElem hlt
      have hzero := ((hlevel i _ hc).mp (hcount i _ hc)).1
      rwa [spareRecord, if_neg (by omega)] at hzero
    · intro c hc
      obtain ⟨i, hi⟩ := getElem?_of_mem hc
      exact ((hlevel i c hi).mp (hcount i c hi)).2
  · rintro ⟨hclean, hbound⟩
    refine ⟨h.len, fun i c hc => (hlevel i c hc).mpr ⟨?_, hbound c (mem_of_getElem? hc)⟩⟩
    unfold spareRecord
    split_ifs with hi
    · rfl
    · exact hclean i (by omega) (List.getElem?_eq_some_iff.mp hc).1

theorem levels_count_own_two :
    ∃ a, arrayRun (fun _ => clearedRecord) (levelArrayNew ⟨1, 8, 7, 0⟩)
        [(5, none), (6, some ⟨1, 8, 9, 0⟩), (8, none)] = some a ∧ CountsOwn a [1, 2] := by
  have hsome : (arrayRun (fun _ => clearedRecord) (levelArrayNew ⟨1, 8, 7, 0⟩)
      [(5, none), (6, some ⟨1, 8, 9, 0⟩), (8, none)]).isSome := by decide
  obtain ⟨a, hrun⟩ := Option.isSome_iff_exists.mp hsome
  exact ⟨a, hrun, (levels_count_own_iff _ _ _ a hrun).mpr ⟨fun i _ _ => rfl, by decide⟩⟩

/-- The ninth level starts from the five that its record held. -/
theorem ninth_level_miscounts :
    ∃ a, arrayRun (fun _ => { clearedRecord with size := 5 }) (levelArrayNew ⟨1, 8, 7, 0⟩)
        (replicate 8 (3, some ⟨1, 8, 9, 0⟩)) = some a ∧
      a.bfa[8]?.map Bloom.size = some 6 ∧
      (levelCounts (replicate 8 (3, some ⟨1, 8, 9, 0⟩)))[8]? = some 1 ∧
      ¬ CountsOwn a (levelCounts (replicate 8 (3, some ⟨1, 8, 9, 0⟩))) := by
  have hsize : (arrayRun (fun _ => { clearedRecord with size := 5 }) (levelArrayNew ⟨1, 8, 7, 0⟩)
      (replicate 8 (3, some ⟨1, 8, 9, 0⟩))).map (fun a => a.bfa[8]?.map Bloom.size) =
      some (some 6) := by decide
  have hcount : (levelCounts (replicate 8 (3, some ⟨1, 8, 9, 0⟩)))[8]? = some 1 := by decide
  obtain ⟨a, hrun, hlevel⟩ := Option.map_eq_some_iff.mp hsize
  refine ⟨a, hrun, hlevel, hcount, ?_⟩
  rintro ⟨-, hown⟩
  obtain ⟨f, hf, hf'⟩ := hown 8 1 hcount
  rw [hf, Option.map_some, Option.some_inj] at hlevel
  rw [hlevel] at hf'
  exact absurd hf' (by decide)

end PortableLib.BloomFilter
