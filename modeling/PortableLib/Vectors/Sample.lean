import PortableLib.Vectors

/-! `VECT_SAMPLE` of `fast/vect.h`. -/

namespace PortableLib.Vectors
open List Function

variable {α η : Type} [DecidableEq η]

/-- A `realloc`: what it leaves in the new part of the block, and whether that is another block. -/
structure Realloc (α : Type) where
  junk : Nat → α
  moved : Bool

/-- `x_[j] = y_[i]`; `x_` is taken before `d` is grown and may be stale afterwards. -/
def sampleStore (stale : Bool) (vs : η → Vect α) (d s : η) (j i : Nat) : Option (η → Vect α) :=
  if stale then none
  else do
    let e ← (vs s).arr.read i
    let arr ← (vs d).arr.write j e
    return update vs d { vs d with arr := arr }

def sampleRound (stale : Bool) (d s : η) (k : Nat) (r : UInt64) (vs : η → Vect α) (i : Nat) :
    Option (η → Vect α) :=
  let j := r.toNat % (i + 1)
  if j < k then sampleStore stale vs d s j i else some vs

/-- `VECT_SAMPLE`; `rnd` gives the random numbers one after the other. -/
def vectSample (zero : α) (esz : UInt64) (a : Realloc α) (rnd : Nat → UInt64) (vs : η → Vect α)
    (d s : η) (k : UInt64) : Option ((η → Vect α) × Bool) :=
  if k < (vs s).size then do
    let stale := decide (k ≥ (vs d).cap) && a.moved
    let v ← vectReserve zero esz a.junk (vs d) k
    let vs := update vs d { v with size := k }
    let vs ← (range k.toNat).foldlM (fun vs i => sampleStore stale vs d s i i) vs
    let vs ← (range ((vs s).size.toNat - k.toNat)).foldlM
      (fun vs t => sampleRound stale d s k.toNat (rnd t) vs (k.toNat + t)) vs
    return (vs, true)
  else some (vs, false)

/-- The array has `cap` cells, `size` of them in use. -/
structure Sound (v : Vect α) : Prop where
  len_eq : v.arr.len = v.cap.toNat
  size_le : v.size ≤ v.cap

def Chosen (f : Nat → α) (k n : Nat) (cells : Nat → α) : Prop :=
  ∃ ps : List Nat, ps.Nodup ∧ ps.length = k ∧ (∀ p ∈ ps, p < n) ∧
    (range k).map cells = ps.map f

/-- The call fails exactly if there are fewer than `k` elements, and otherwise leaves a sample of
that size in `d`. -/
structure Samples (vs : η → Vect α) (d s : η) (k : UInt64) (r : (η → Vect α) × Bool) : Prop where
  failed_iff : r.2 = false ↔ (vs s).size < k
  sound : r.2 = true → Sound (r.1 d) ∧ (r.1 d).size = k
  chosen : r.2 = true →
    Chosen (vs s).arr.cells k.toNat (vs s).size.toNat (r.1 d).arr.cells
  others : ∀ u, u ≠ d → r.1 u = vs u

section reservoir
omit [DecidableEq η]
variable {f cells : Nat → α} {k n : Nat}

theorem chosen_first (h : ∀ i < k, cells i = f i) : Chosen f k k cells :=
  ⟨range k, nodup_range, length_range, fun _ hp => mem_range.mp hp, map_range_congr h⟩

theorem Chosen.mono {n' : Nat} (h : Chosen f k n cells) (hn : n ≤ n') : Chosen f k n' cells := by
  obtain ⟨ps, hnodup, hlen, hlt, heq⟩ := h
  exact ⟨ps, hnodup, hlen, fun p hp => (hlt p hp).trans_le hn, heq⟩

theorem Chosen.replace (h : Chosen f k n cells) (j : Nat) :
    Chosen f k (n + 1) (update cells j (f n)) := by
  obtain ⟨ps, hnodup, hlen, hlt, heq⟩ := h
  have hfresh : n ∉ ps := fun hmem => (hlt n hmem).false
  refine ⟨ps.set j n, hnodup.set hfresh, length_set.trans hlen, fun p hp => ?_, ?_⟩
  · rcases mem_or_eq_of_mem_set hp with hp | rfl
    · exact Nat.lt_succ_of_lt (hlt p hp)
    · exact Nat.lt_succ_self p
  · rw [map_range_update, heq, map_set]

end reservoir

section loops
variable {vs : η → Vect α} {d s : η} {stale : Bool} {size cap : UInt64} {arr : Block α} {k : Nat}

theorem sampleStore_spec (hds : s ≠ d) {j i : Nat} (hi : i < (vs s).arr.len) (hj : j < arr.len) :
    sampleStore false (update vs d ⟨size, cap, arr⟩) d s j i =
      some (update vs d ⟨size, cap, arr.len, update arr.cells j ((vs s).arr.cells i)⟩) := by
  simp only [sampleStore, update_of_ne hds, update_self, Block.read_of_lt hi,
    Block.write_of_lt hj, Option.bind_eq_bind, Option.bind_some, Bool.false_eq_true, if_false,
    update_idem]
  rfl

theorem sampleFirst_spec (hds : s ≠ d) (hlive : 0 < k → stale = false)
    (hs : k ≤ (vs s).arr.len) (hd : k ≤ arr.len) :
    ∃ arr', (range k).foldlM (fun vs i => sampleStore stale vs d s i i)
        (update vs d ⟨size, cap, arr⟩) = some (update vs d ⟨size, cap, arr'⟩) ∧
      arr'.len = arr.len ∧ ∀ i < k, arr'.cells i = (vs s).arr.cells i := by
  have hinit : ∃ arr', update vs d ⟨size, cap, arr⟩ = update vs d ⟨size, cap, arr'⟩ ∧
      arr'.len = arr.len ∧ ∀ t < 0, arr'.cells t = (vs s).arr.cells t :=
    ⟨arr, rfl, rfl, fun t ht => absurd ht (Nat.not_lt_zero t)⟩
  obtain ⟨vs', hrun, arr', rfl, hlen, hcells⟩ := Run.foldlM_range_invariant
    (f := fun vs i => sampleStore stale vs d s i i)
    (I := fun i vs' => ∃ arr', vs' = update vs d ⟨size, cap, arr'⟩ ∧ arr'.len = arr.len ∧
      ∀ t < i, arr'.cells t = (vs s).arr.cells t)
    (n := k) (by
      rintro i _ hi ⟨arr', rfl, hlen, hcells⟩
      rw [hlive (Nat.zero_lt_of_lt hi)]
      refine ⟨_, sampleStore_spec hds (hi.trans_le hs) (hlen ▸ hi.trans_le hd), _, rfl, hlen, ?_⟩
      intro t ht
      rcases Nat.lt_succ_iff_lt_or_eq.mp ht with hlt | rfl
      · exact (update_of_ne hlt.ne _ _).trans (hcells t hlt)
      · exact update_self t _ _) hinit
  exact ⟨arr', hrun, hlen, hcells⟩

theorem sampleRest_spec (rnd : Nat → UInt64) {m : Nat} (hds : s ≠ d) (hlive : 0 < k → stale = false)
    (hs : k + m ≤ (vs s).arr.len) (hd : k ≤ arr.len)
    (hfirst : Chosen (vs s).arr.cells k k arr.cells) :
    ∃ arr', (range m).foldlM (fun vs t => sampleRound stale d s k (rnd t) vs (k + t))
        (update vs d ⟨size, cap, arr⟩) = some (update vs d ⟨size, cap, arr'⟩) ∧
      arr'.len = arr.len ∧ Chosen (vs s).arr.cells k (k + m) arr'.cells := by
  obtain ⟨vs', hrun, arr', rfl, hlen, hchosen⟩ := Run.foldlM_range_invariant
    (f := fun vs t => sampleRound stale d s k (rnd t) vs (k + t))
    (I := fun t vs' => ∃ arr', vs' = update vs d ⟨size, cap, arr'⟩ ∧ arr'.len = arr.len ∧
      Chosen (vs s).arr.cells k (k + t) arr'.cells)
    (n := m) (by
      rintro t _ ht ⟨arr', rfl, hlen, hchosen⟩
      by_cases hj : (rnd t).toNat % (k + t + 1) < k
      · have hround : sampleRound stale d s k (rnd t) (update vs d ⟨size, cap, arr'⟩) (k + t) = _ :=
          (if_pos hj).trans (hlive (Nat.zero_lt_of_lt hj) ▸
            sampleStore_spec hds ((Nat.add_lt_add_left ht k).trans_le hs) (hlen ▸ hj.trans_le hd))
        exact ⟨_, hround, _, rfl, hlen, hchosen.replace _⟩
      · refine ⟨_, ?_, arr', rfl, hlen, hchosen.mono (Nat.le_succ _)⟩
        rw [sampleRound, if_neg hj]) ⟨arr, rfl, rfl, hfirst⟩
  exact ⟨arr', hrun, hlen, hchosen⟩

theorem sampleFirst_self (hs : k ≤ (vs d).arr.len) :
    (range k).foldlM (fun vs i => sampleStore false vs d d i i) vs = some vs := by
  obtain ⟨vs', hrun, rfl⟩ := Run.foldlM_range_invariant
    (f := fun vs i => sampleStore false vs d d i i) (I := fun _ vs' => vs' = vs) (n := k) (by
      rintro i _ hi rfl
      refine ⟨_, ?_, rfl⟩
      simp only [sampleStore, Block.read_of_lt (hi.trans_le hs),
        Block.write_of_lt (hi.trans_le hs), Option.bind_eq_bind, Option.bind_some,
        Bool.false_eq_true, if_false, update_eq_self]
      rfl) rfl
  exact hrun

theorem sampleFirst_stale (hk : 0 < k) :
    (range k).foldlM (fun vs i => sampleStore true vs d s i i) vs = none := by
  obtain ⟨m, rfl⟩ := Nat.exists_eq_add_of_lt hk
  rw [Nat.zero_add, range_succ_eq_map, foldlM_cons]
  rfl

end loops

section reserve
variable {v : Vect α} {esz want : UInt64}

omit [DecidableEq η] in
theorem Sound.reserve (zero : α) (junk : Nat → α) (h : Sound v) (hesz : 0 < esz.toNat)
    (hwant : Modest esz want.toNat) (hcap : 0 < v.cap ∨ want = 0) :
    ∃ w, vectReserve zero esz junk v want = some w ∧ Sound w ∧ want ≤ w.cap := by
  by_cases hpos : 0 < v.cap
  · have hholds : Holds v ((range v.size.toNat).map v.arr.cells) :=
      ⟨UInt64.lt_iff_toNat_lt.mp hpos, h.len_eq, h.size_le, rfl⟩
    obtain ⟨w, hw, hwl, -, hle, -⟩ := vectReserve_spec zero hesz junk hholds hwant
    exact ⟨w, hw, ⟨hwl.len_eq, hwl.size_le⟩, UInt64.le_iff_toNat_le.mpr hle⟩
  · obtain rfl : want = 0 := hcap.resolve_left hpos
    have hzero : v.cap = 0 := UInt64.le_zero_iff.mp (UInt64.not_lt.mp hpos)
    have hsize : v.size = 0 := UInt64.le_zero_iff.mp (hzero ▸ h.size_le)
    have hgrow : grow 64 0 0 = some 0 := rfl
    have hcells : cellsOf esz 0 = 0 := Nat.zero_div _
    obtain ⟨arr, harr, hlen⟩ :
        ∃ arr, (v.arr.realloc 0 junk).fill 0 0 zero = some arr ∧ arr.len = 0 :=
      ⟨_, Block.fill_of_le (Nat.le_refl 0) zero, rfl⟩
    refine ⟨⟨v.size, 0, arr⟩, ?_, ⟨hlen, hsize ▸ UInt64.le_refl 0⟩, UInt64.le_refl 0⟩
    rw [vectReserve, hzero, if_pos (UInt64.le_refl 0), hgrow]
    simp only [Option.bind_eq_bind, Option.bind_some, UInt64.zero_mul, UInt64.sub_self,
      UInt64.mul_zero, hcells, hsize, UInt64.toNat_zero, harr]
    rfl

end reserve

section sample
variable {vs : η → Vect α} {d s : η} {esz k : UInt64} {a : Realloc α}

theorem vectSample_spec (zero : α) (rnd : Nat → UInt64) (hesz : 0 < esz.toNat) (hd : Sound (vs d))
    (hs : Sound (vs s)) (hmem : Modest esz (vs s).size.toNat) (hk : k < (vs s).size)
    (hroom : k = 0 ∨ k < (vs d).cap ∨ 0 < (vs d).cap ∧ a.moved = false) :
    ∃ r, vectSample zero esz a rnd vs d s k = some r ∧ Samples vs d s k r := by
  have hkn := UInt64.lt_iff_toNat_lt.mp hk
  have hslen : (vs s).size.toNat ≤ (vs s).arr.len :=
    hs.len_eq ▸ UInt64.le_iff_toNat_le.mp hs.size_le
  by_cases hds : s = d
  -- a sample of a vector into itself keeps its first elements; nothing is replaced
  · subst hds
    have hcap : k < (vs s).cap := UInt64.lt_of_lt_of_le hk hs.size_le
    have hfit : ¬ k ≥ (vs s).cap := UInt64.not_le.mpr hcap
    have hfirst := @sampleFirst_self _ _ _ (update vs s { vs s with size := k }) s k.toNat
      (by rw [update_self]; exact hkn.le.trans hslen)
    refine ⟨(update vs s { vs s with size := k }, true), ?_, ?_⟩
    · rw [vectSample, if_pos hk, vectReserve, if_neg hfit]
      simp only [hfit, decide_false, Bool.false_and, Option.bind_eq_bind, Option.bind_some, hfirst,
        update_self, Nat.sub_self, range_zero, foldlM_nil]
      rfl
    · refine ⟨iff_of_false Bool.false_ne_true.symm (UInt64.lt_asymm hk), fun _ => ?_, fun _ => ?_,
        fun u hu => update_of_ne hu _ _⟩
      · dsimp only
        rw [update_self]
        exact ⟨⟨hs.len_eq, UInt64.le_of_lt hcap⟩, rfl⟩
      · dsimp only
        rw [update_self]
        exact (chosen_first fun _ _ => rfl).mono hkn.le
  · have hcapk : 0 < (vs d).cap ∨ k = 0 := by
      rcases hroom with h | h | h
      · exact Or.inr h
      · exact Or.inl (UInt64.lt_of_le_of_lt UInt64.zero_le h)
      · exact Or.inl h.1
    -- the array that the stores go to is the one that `d` still has
    have hlive : 0 < k.toNat → (decide (k ≥ (vs d).cap) && a.moved) = false := by
      intro h0
      rcases hroom with h | h | h
      · rw [h] at h0
        cases h0
      · rw [decide_eq_false (UInt64.not_le.mpr h), Bool.false_and]
      · rw [h.2, Bool.and_false]
    have hwant : Modest esz k.toNat := (Nat.mul_le_mul_right _ hkn.le).trans_lt hmem
    obtain ⟨w, hw, hws, hkw⟩ := hd.reserve zero a.junk hesz hwant hcapk
    have hkw' := UInt64.le_iff_toNat_le.mp hkw
    rw [← hws.len_eq] at hkw'
    obtain ⟨arr₁, h₁, hlen₁, hcells₁⟩ := @sampleFirst_spec _ _ _ vs d s _ k w.cap w.arr _ hds hlive
      (hkn.le.trans hslen) hkw'
    obtain ⟨arr₂, h₂, hlen₂, hchosen⟩ := @sampleRest_spec _ _ _ vs d s _ k w.cap arr₁ _ rnd
      ((vs s).size.toNat - k.toNat) hds hlive (by omega) (hlen₁ ▸ hkw') (chosen_first hcells₁)
    rw [Nat.add_sub_cancel' hkn.le] at hchosen
    refine ⟨(update vs d ⟨k, w.cap, arr₂⟩, true), ?_, ?_⟩
    · rw [vectSample, if_pos hk, hw]
      simp only [Option.bind_eq_bind, Option.bind_some, h₁, update_of_ne hds, h₂]
      rfl
    · refine ⟨iff_of_false Bool.false_ne_true.symm (UInt64.lt_asymm hk), fun _ => ?_, fun _ => ?_,
        fun u hu => update_of_ne hu _ _⟩
      · dsimp only
        rw [update_self]
        exact ⟨⟨hlen₂.trans (hlen₁.trans hws.len_eq), hkw⟩, rfl⟩
      · dsimp only
        rw [update_self]
        exact hchosen

theorem vectSample_stuck (zero : α) (rnd : Nat → UInt64) (hk : k < (vs s).size)
    (hroom : ¬ (k = 0 ∨ k < (vs d).cap ∨ 0 < (vs d).cap ∧ a.moved = false)) :
    vectSample zero esz a rnd vs d s k = none := by
  obtain ⟨hk0, hfit, hmoved⟩ : k ≠ 0 ∧ ¬ k < (vs d).cap ∧ ¬ (0 < (vs d).cap ∧ a.moved = false) :=
    ⟨fun h => hroom (.inl h), fun h => hroom (.inr (.inl h)), fun h => hroom (.inr (.inr h))⟩
  have hge : k ≥ (vs d).cap := UInt64.not_lt.mp hfit
  have hpos : 0 < k := UInt64.pos_iff_ne_zero.mpr hk0
  rw [vectSample, if_pos hk]
  by_cases hcap : 0 < (vs d).cap
  · have hstale : a.moved = true := Bool.eq_true_of_not_eq_false fun h => hmoved ⟨hcap, h⟩
    simp only [hge, hstale, decide_true, Bool.and_true, Option.bind_eq_bind,
      sampleFirst_stale (UInt64.lt_iff_toNat_lt.mp hpos), Option.bind_none]
    cases vectReserve zero esz a.junk (vs d) k <;> rfl
  · have hzero : (vs d).cap = 0 := UInt64.le_zero_iff.mp (UInt64.not_lt.mp hcap)
    rw [vectReserve, if_pos hge, hzero, grow_zero hpos]
    rfl

/-- `VECT_SAMPLE` does what it is for exactly if `s` has fewer than `k` elements, or it has more of
them and the array of `d` is large enough or grows without being moved. -/
theorem vect_sample_iff (zero : α) (rnd : Nat → UInt64) (hesz : 0 < esz.toNat) (hd : Sound (vs d))
    (hs : Sound (vs s)) (hmem : Modest esz (vs s).size.toNat) :
    (∃ r, vectSample zero esz a rnd vs d s k = some r ∧ Samples vs d s k r) ↔
      (vs s).size < k ∨
        k < (vs s).size ∧ (k = 0 ∨ k < (vs d).cap ∨ 0 < (vs d).cap ∧ a.moved = false) := by
  by_cases hk : k < (vs s).size
  · have hnot : ¬ (vs s).size < k := UInt64.lt_asymm hk
    rw [or_iff_right hnot, and_iff_right hk]
    constructor
    · rintro ⟨r, hr, -⟩
      by_contra hroom
      rw [vectSample_stuck zero rnd hk hroom] at hr
      cases hr
    · exact vectSample_spec zero rnd hesz hd hs hmem hk
  · have hfails : vectSample zero esz a rnd vs d s k = some (vs, false) := if_neg hk
    rw [or_iff_left fun h => hk h.1, hfails]
    constructor
    · rintro ⟨r, hr, hsamples⟩
      obtain rfl := Option.some.inj hr
      exact hsamples.failed_iff.mp rfl
    · intro hfew
      refine ⟨(vs, false), rfl, iff_of_true rfl hfew, fun h => ?_, fun h => ?_, fun u _ => rfl⟩
      · cases h
      · cases h

/-- A source of four elements, and a destination made by `VECT_INIT` with room for one. -/
def pair : Bool → Vect Nat
  | true => ⟨4, 16, ⟨16, fun i => i⟩⟩
  | false => vectInit 0 1

theorem pair_sound (b : Bool) : Sound (pair b) := by
  cases b with
  | true => exact ⟨rfl, by decide⟩
  | false => exact ⟨rfl, by decide⟩

theorem vect_sample_iff_pair :
    (∃ r, vectSample 0 4 ⟨fun _ => 9, false⟩ (fun _ => 1) pair false true 2 = some r ∧
        Samples pair false true 2 r) ↔
      (pair true).size < 2 ∨ 2 < (pair true).size ∧
        ((2 : UInt64) = 0 ∨ 2 < (pair false).cap ∨ 0 < (pair false).cap ∧ false = false) :=
  @vect_sample_iff _ _ _ pair false true 4 2 ⟨fun _ => 9, false⟩ 0 (fun _ => 1) (by decide)
    (pair_sound false) (pair_sound true) (by
      unfold Modest
      decide)

/-- Two of four elements into an array with room for one, which has to be moved. -/
theorem sample_writes_stale_array :
    ¬ ∀ (a : Realloc Nat) (rnd : Nat → UInt64) (vs : Bool → Vect Nat) (d s : Bool) (k : UInt64),
      Sound (vs d) → Sound (vs s) → Modest 4 (vs s).size.toNat →
      ∃ r, vectSample 0 4 a rnd vs d s k = some r ∧ Samples vs d s k r := by
  intro hall
  obtain ⟨r, hr, -⟩ := hall ⟨fun _ => 0, true⟩ (fun _ => 0) pair false true 2 (pair_sound false)
    (pair_sound true) (by
      unfold Modest
      decide)
  rw [vectSample_stuck 0 _ (by decide) (by decide)] at hr
  cases hr

end sample
end PortableLib.Vectors
