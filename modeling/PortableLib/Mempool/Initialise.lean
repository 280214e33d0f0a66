import PortableLib.Mempool.Region

/-! The sizes that the initialisers of a pool take. -/

namespace PortableLib.Mempool

def SeveralUnits (max minUnits : UInt32) : Prop := max ≠ 1 ∧ ¬ (max = 0 ∧ minUnits = 1)

/-- The call comes to an end with an error, or with a pool whose blocks have the size asked for. -/
def Total (r : Option (Except Errno State)) (blockSize : UInt32) : Prop :=
  ∃ e, r = some e ∧
    ∀ s, e = .ok s → blockSize.toNat ≤ s.pool.blockSize ∧ 8 ∣ s.pool.blockSize

def Setup.blockSize : Setup → UInt32
  | .init _ _ blockSize _ _ _ => blockSize
  | .new _ _ blockSize _ _ _ _ => blockSize
  | .initFromMem _ blockSize _ _ => blockSize
  | .newFromMem _ blockSize _ _ => blockSize

/-- The initialisers without a `struct mempool` in their memory, the memory being large enough for
the padding, a header and the alignment of the blocks. -/
def Setup.Ample : Setup → Prop
  | .init _ _ _ _ _ _ | .new _ _ _ _ _ _ _ => True
  | .initFromMem _ _ pool poolsz =>
    pool ≤ align pool ∧ align pool + chunkHeader + minAlignment ≤ pool + poolsz.toNat ∧
      pool + poolsz.toNat < 2 ^ 64
  | .newFromMem _ _ _ _ => False

/-- The arguments are refused, or the block size can be rounded up and there is more than one block
in a chunk. -/
def Setup.Regular : Setup → Prop
  | .init a tr blockSize max minUnits _ =>
    a = 0 ∨ (∃ e, chooseTraits tr = .error e) ∨
      (blockSize.toNat ≤ 2 ^ 32 - 8 ∧ SeveralUnits max minUnits)
  | .new pa tr blockSize max minUnits self _ =>
    pa = 0 ∨ (∃ e, chooseTraits tr = .error e) ∨ self = 0 ∨
      (blockSize.toNat ≤ 2 ^ 32 - 8 ∧ SeveralUnits max minUnits)
  | .initFromMem a blockSize pool poolsz =>
    a = 0 ∨ pool = 0 ∨ poolsz = 0 ∨ blockSize.toNat ≤ 2 ^ 32 - 8
  | .newFromMem _ _ _ _ => True

section init
variable {m : Nat → UInt8} {tr : Memmgr} {blockSize max minUnits : UInt32} {answer : Nat}

theorem total_error (e : Errno) : Total (some (.error e)) blockSize :=
  ⟨_, rfl, fun s hs => by cases hs⟩

theorem total_ok {s : State} (hbs : blockSize.toNat ≤ 2 ^ 32 - 8)
    (hs : s.pool.blockSize = roundSize blockSize) : Total (some (.ok s)) blockSize := by
  refine ⟨_, rfl, fun t ht => ?_⟩
  obtain rfl := Except.ok.inj ht
  rw [hs]
  rcases roundSize_cases blockSize with h | h
  · exact ⟨h.2.2, (roundSize_spec blockSize).1⟩
  · omega

theorem toNat_eq_one_iff {n : UInt32} : n.toNat = 1 ↔ n = 1 :=
  UInt32.toNat_inj (b := 1)

theorem pos_of_ne_zero {n : UInt32} (h : n ≠ 0) : 0 < n.toNat :=
  Nat.pos_of_ne_zero fun h0 => h (UInt32.toNat_inj.mp h0)

theorem startPool_several (tr : Memmgr) (blockSize max minUnits : UInt32) :
    1 < (startPool tr blockSize max minUnits).minUnits ↔ SeveralUnits max minUnits := by
  unfold startPool SeveralUnits
  simp only
  by_cases hmax : max = 0
  · subst hmax
    by_cases hmin : minUnits = 0
    · subst hmin
      exact iff_of_true (by decide) (by decide)
    · have hpos := pos_of_ne_zero hmin
      rw [if_neg (fun h => h rfl), if_neg hmin, ← toNat_eq_one_iff (n := minUnits)]
      constructor
      · exact fun h => ⟨by decide, fun h1 => by omega⟩
      · exact fun h => Nat.lt_of_le_of_ne hpos fun h1 => h.2 ⟨rfl, h1.symm⟩
  · have hpos := pos_of_ne_zero hmax
    rw [if_pos hmax, ne_eq, ← toNat_eq_one_iff]
    constructor
    · exact fun h => ⟨h.ne', fun h0 => hmax h0.1⟩
    · exact fun h => Nat.lt_of_le_of_ne hpos (Ne.symm h.1)

theorem guarded_of_sizes {a : Pool} (hlow : 16 ≤ a.blockSize) (hhigh : a.blockSize ≤ 2 ^ 32 - 8)
    (hunits : a.minUnits < 2 ^ 32) : a.guarded ↔ 1 < a.minUnits := by
  have hmul : a.blockSize * a.minUnits ≤ (2 ^ 32 - 8) * (2 ^ 32 - 1) :=
    Nat.mul_le_mul hhigh (Nat.le_pred_of_lt hunits)
  have hchunk : a.chunkSize = a.blockSize * a.minUnits := Nat.mod_eq_of_lt (by omega)
  have halloc : a.allocSize = a.blockSize * a.minUnits + 32 := by
    have hheader : chunkHeader = 24 := rfl
    have halign : minAlignment = 8 := rfl
    rw [Pool.allocSize, hchunk, hheader, halign, Nat.mod_eq_of_lt (by omega)]
    omega
  rw [Pool.guarded, hchunk, halloc]
  simp only [Bool.and_eq_true, decide_eq_true_eq]
  constructor
  · rintro ⟨⟨hblock, -⟩, -⟩
    exact (Nat.lt_mul_iff_one_lt_right (by omega)).mp hblock
  · intro h
    refine ⟨⟨(Nat.lt_mul_iff_one_lt_right (by omega)).mpr h, ?_⟩, by omega⟩
    exact (Nat.lt_mul_iff_one_lt_left (by omega)).mpr (by omega)

theorem guarded_iff : (startPool tr blockSize max minUnits).guarded ↔
    blockSize.toNat ≤ 2 ^ 32 - 8 ∧ SeveralUnits max minUnits := by
  obtain ⟨hdvd, hlt, hmin⟩ := roundSize_spec blockSize
  have hunits := @startPool_units tr blockSize max minUnits
  rw [← roundSize_ne_zero_iff, ← startPool_several tr blockSize]
  by_cases hbs : roundSize blockSize = 0
  · refine iff_of_false (fun h => ?_) fun h => h.1 hbs
    obtain ⟨-, -, -, hpos⟩ := Pool.sizes_of_guarded hlt hunits.1 h
    exact hpos.ne' hbs
  · rw [and_iff_right hbs]
    exact guarded_of_sizes (hmin hbs) (show roundSize blockSize ≤ 2 ^ 32 - 8 by omega) hunits.1

theorem realInit_total_iff (halloc : tr.alloc.isSome) :
    Total (realInit answer m tr blockSize max minUnits) blockSize ↔
      blockSize.toNat ≤ 2 ^ 32 - 8 ∧ SeveralUnits max minUnits := by
  rw [← @guarded_iff tr]
  have halloc' : (startPool tr blockSize max minUnits).traits.alloc.isSome := halloc
  by_cases hguard : (startPool tr blockSize max minUnits).guarded = true
  · refine iff_of_true ?_ hguard
    have hbs := (guarded_iff.mp hguard).1
    by_cases hanswer : answer = 0
    · have hnone : newChunk answer ⟨startPool tr blockSize max minUnits, m⟩ = some none := by
        simp only [newChunk, hguard, halloc', Bool.and_self, if_true, hanswer]
      rw [realInit, hnone, Option.map_some]
      exact total_error .enomem
    · obtain ⟨s, hs, hpool⟩ : ∃ s, newChunk answer ⟨startPool tr blockSize max minUnits, m⟩ =
          some (some s) ∧ s.pool.blockSize = roundSize blockSize := by
        simp only [newChunk, hguard, halloc', Bool.and_self, if_true, hanswer, if_false]
        exact ⟨_, rfl, rfl⟩
      rw [realInit, hs, Option.map_some]
      exact total_ok hbs hpool
  · refine iff_of_false ?_ hguard
    rintro ⟨e, he, -⟩
    have hnone : newChunk answer ⟨startPool tr blockSize max minUnits, m⟩ = none := by
      simp only [newChunk, Bool.eq_false_iff.mpr hguard, Bool.false_and, Bool.false_eq_true,
        if_false]
    rw [realInit, hnone] at he
    cases he

theorem alloc_of_chooseTraits {o : Option Memmgr} (h : chooseTraits o = .ok tr) :
    tr.alloc.isSome := by
  cases o with
  | none =>
    obtain rfl := Except.ok.inj h
    rfl
  | some t =>
    unfold chooseTraits at h
    simp only at h
    split_ifs at h with hboth
    · obtain rfl := Except.ok.inj h
      exact (Bool.and_eq_true _ _ ▸ hboth).1

theorem initFromMem_total_iff (m : Nat → UInt8) {a pool : Nat} {poolsz : UInt32}
    (hle : pool ≤ align pool)
    (hroom : align pool + chunkHeader + minAlignment ≤ pool + poolsz.toNat)
    (hregion : pool + poolsz.toNat < 2 ^ 64) :
    Total (mempoolInitFromMem m a blockSize pool poolsz) blockSize ↔
      a = 0 ∨ pool = 0 ∨ poolsz = 0 ∨ blockSize.toNat ≤ 2 ^ 32 - 8 := by
  have hheader : chunkHeader = 24 := rfl
  have halign : minAlignment = 8 := rfl
  by_cases href : Refused a blockSize pool poolsz
  · refine iff_of_true ?_ ?_
    · rcases initFromMem_refused (m := m) href with h | h
      · exact h ▸ total_error .einval
      · exact h ▸ total_error .enomem
    · refine href.imp id (Or.imp id (Or.imp id fun hsmall => ?_))
      -- the memory has room for a block of no bytes
      refine roundSize_ne_zero_iff.mp fun hzero => ?_
      have hleft := unpadded_of_le hle (by omega) hregion
      omega
  · by_cases hbs : blockSize.toNat ≤ 2 ^ 32 - 8
    · refine iff_of_true ?_ (.inr (.inr (.inr hbs)))
      obtain ⟨s, -, hs, -⟩ := initFromMem_sized m href ⟨hle, by omega, hbs⟩
        (r := (pool, poolsz.toNat)) (Nat.le_refl _) (Nat.le_refl _) hregion
      obtain ⟨t, ht, -, -, hsize⟩ := initFromMem_not_refused href hs
      obtain rfl := Except.ok.inj ht
      rw [hs]
      exact total_ok hbs hsize
    · refine iff_of_false ?_ ?_
      · rintro ⟨e, he, -⟩
        obtain ⟨-, -, -, hne, -⟩ := initFromMem_not_refused href he
        exact hbs (roundSize_ne_zero_iff.mp hne)
      · rintro (h | h | h | h)
        · exact href (.inl h)
        · exact href (.inr (.inl h))
        · exact href (.inr (.inr (.inl h)))
        · exact hbs h

end init

/-- The initialisers come to an end exactly where the assertions on the sizes hold and the block
size is not rounded to nothing. -/
theorem initialise_total_iff (m : Nat → UInt8) (u : Setup) (hample : u.Ample) :
    Total (u.make m) u.blockSize ↔ u.Regular := by
  cases u with
  | init a tr blockSize max minUnits answer =>
    by_cases ha : a = 0
    · exact iff_of_true ((show (Setup.init a tr blockSize max minUnits answer).make m =
        some (.error .einval) from if_pos ha) ▸ total_error .einval) (.inl ha)
    · cases htr : chooseTraits tr with
      | error e =>
        refine iff_of_true ?_ (.inr (.inl ⟨e, htr⟩))
        simp only [Setup.make, mempoolInit, ha, if_false, htr]
        exact total_error e
      | ok tr' =>
        simp only [Setup.make, Setup.blockSize, Setup.Regular, mempoolInit, ha, if_false, htr,
          false_or, reduceCtorEq, exists_false]
        exact realInit_total_iff (alloc_of_chooseTraits htr)
  | new pa tr blockSize max minUnits self answer =>
    by_cases hpa : pa = 0
    · exact iff_of_true ((show (Setup.new pa tr blockSize max minUnits self answer).make m =
        some (.error .einval) from if_pos hpa) ▸ total_error .einval) (.inl hpa)
    · cases htr : chooseTraits tr with
      | error e =>
        refine iff_of_true ?_ (.inr (.inl ⟨e, htr⟩))
        simp only [Setup.make, mempoolNew, hpa, if_false, htr]
        exact total_error e
      | ok tr' =>
        by_cases hself : self = 0
        · refine iff_of_true ?_ (.inr (.inr (.inl hself)))
          simp only [Setup.make, mempoolNew, hpa, if_false, htr, hself, if_true]
          exact total_error .enomem
        · simp only [Setup.make, Setup.blockSize, Setup.Regular, mempoolNew, hpa, if_false, htr,
            hself, false_or, reduceCtorEq, exists_false]
          exact realInit_total_iff (alloc_of_chooseTraits htr)
  | initFromMem a blockSize pool poolsz =>
    exact initFromMem_total_iff m hample.1 hample.2.1 hample.2.2
  | newFromMem pa blockSize pool poolsz => exact hample.elim

theorem initialise_total_iff_page :
    (Setup.initFromMem 8 24 4096 256).Ample ∧
      (Total ((Setup.initFromMem 8 24 4096 256).make fun _ => 0) 24 ↔
        (Setup.initFromMem 8 24 4096 256).Regular) :=
  have hample : (Setup.initFromMem 8 24 4096 256).Ample :=
    show (4096 ≤ 4096 ∧ _) by decide
  ⟨hample, initialise_total_iff _ _ hample⟩

/-- A pool for one block is refused by an assertion on the size of its chunk. -/
theorem single_block_aborts :
    ¬ ∀ (m : Nat → UInt8) (u : Setup), u.Ample → Total (u.make m) u.blockSize := by
  intro h
  have hnone : (Setup.init 1 none 64 1 0 4096).make (fun _ => 0) = none := rfl
  obtain ⟨e, he, -⟩ := h (fun _ => 0) (.init 1 none 64 1 0 4096) trivial
  rw [hnone] at he
  cases he

end PortableLib.Mempool
