import PortableLib.FastHt.Canonical
import PortableLib.Lib.Run

/-! A bag on its own, from seven free slots through any sequence of stores and clears. Both
macros rebuild the fingerprint word from the byte of slot 0 alone, so the word answers for the
stored keys as long as the other slots that an operation finds occupied hold keys whose byte
is 0. -/

namespace PortableLib.FastHt
open Function

section Scan

theorem ctz_eq_find? (p : Nat) : ctz p = Fin.find? fun i : Fin 7 => p.testBit i :=
  Fin.find?_eq_find?_finRange.symm

theorem testBit_clear_bit (p : UInt16) (i j : Fin 7) :
    (p &&& ~~~(1 <<< i.val.toUInt16)).toNat.testBit j =
      (p.toNat.testBit j && decide (j ≠ i)) := by
  have hbit : (~~~(1 <<< i.val.toUInt16) : UInt16).toNat.testBit j = decide (j ≠ i) := by
    revert i j
    decide
  rw [UInt16.toNat_and, Nat.testBit_and, hbit]

theorem scanMatches_eq_find? {hk : Vector UInt64 7} {k : UInt64} {fuel m : Nat} {p : UInt16}
    (hfuel : 7 ≤ fuel + m) (hlow : ∀ i : Fin 7, p.toNat.testBit i = true → m ≤ i.val) :
    scanMatches hk k fuel p = Fin.find? fun j => p.toNat.testBit j && decide (hk.get j = k) := by
  induction fuel generalizing p m with
  | zero =>
    refine (Fin.find?_eq_none_iff.mpr fun i => ?_).symm
    have hclear : p.toNat.testBit i = false := by
      by_contra hbit
      have := hlow i (Bool.eq_true_of_not_eq_false hbit)
      omega
    rw [hclear, Bool.false_and]
  | succ fuel ih =>
    unfold scanMatches
    rw [ctz_eq_find?]
    split
    · rename_i hnone
      rw [Fin.find?_eq_none_iff] at hnone
      refine (Fin.find?_eq_none_iff.mpr fun i => ?_).symm
      rw [hnone i, Bool.false_and]
    · rename_i i hi
      obtain ⟨hbit, hfirst⟩ := Fin.find?_eq_some_iff.mp hi
      change (if hk.get i = k then _ else _) = _
      split_ifs with hkey
      · refine (Fin.find?_eq_some_iff.mpr ⟨?_, fun j hj => ?_⟩).symm
        · rw [hbit, decide_eq_true hkey]
          rfl
        · rw [hfirst j hj, Bool.false_and]
      · rw [ih (m := i.val + 1)]
        · congr 1
          funext j
          rw [testBit_clear_bit]
          rcases eq_or_ne j i with rfl | hne
          · rw [decide_eq_false hkey, Bool.and_false, Bool.and_false]
          · rw [decide_eq_true hne, Bool.and_true]
        · have := hlow i hbit
          omega
        · intro l hl
          rw [testBit_clear_bit, Bool.and_eq_true, decide_eq_true_eq] at hl
          refine lt_of_le_of_ne (le_of_not_gt fun hlt => ?_) hl.2.symm
          rw [hfirst l hlt] at hl
          cases hl.1

end Scan

structure Filled where
  bag : Bag
  held : Fin 7 → Option (UInt64 × Ptr)

def Filled.free (hk : Vector UInt64 7) (hv : Vector Ptr 7) : Filled :=
  ⟨⟨(0x7f : UInt64) <<< 56, hk, hv⟩, fun _ => none⟩

inductive SlotOp
  | store (slot : Fin 7) (k : UInt64) (v : Ptr)
  | clear (slot : Fin 7)
  deriving DecidableEq, Repr

def SlotOp.slot : SlotOp → Fin 7
  | .store slot _ _ => slot
  | .clear slot => slot

/-- Stores go into free slots only. -/
def SlotOp.Allowed (s : Filled) : SlotOp → Prop
  | .store slot _ _ => s.held slot = none
  | .clear _ => True

instance (s : Filled) (op : SlotOp) : Decidable (op.Allowed s) :=
  match op with
  | .store slot _ _ => inferInstanceAs (Decidable (s.held slot = none))
  | .clear _ => isTrue trivial

def Filled.apply (s : Filled) : SlotOp → Filled
  | .store slot k v => ⟨s.bag.store slot k v, update s.held slot (some (k, v))⟩
  | .clear slot => ⟨s.bag.clear slot, update s.held slot none⟩

def Filled.step (s : Filled) (op : SlotOp) : Option (Filled × Unit) :=
  if op.Allowed s then some (s.apply op, ()) else none

/-- What the fingerprint word is for. -/
structure Consistent (s : Filled) : Prop where
  control : ∀ i : Fin 7, (control s.bag.fp).toNat.testBit i = false ↔ (s.held i).isSome
  byte : ∀ i p, s.held i = some p → byteAt s.bag.fp i = p.1.toUInt8
  finds : ∀ mt i p, s.held i = some p → (findKey mt s.bag p.1).isSome
  no_other : ∀ mt k j v, findKey mt s.bag k = some (j, v) → s.held j = some (k, v)

structure Tracks (s : Filled) : Prop where
  control : ∀ i : Fin 7, (FastHt.control s.bag.fp).toNat.testBit i = (s.held i).isNone
  entry : ∀ i p, s.held i = some p → s.bag.hk.get i = p.1 ∧ s.bag.hv.get i = p.2
  byte0 : byteAt s.bag.fp 0 = (s.held 0).elim 0 fun p => p.1.toUInt8

def Bytes (s : Filled) : Prop := ∀ i p, s.held i = some p → byteAt s.bag.fp i = p.1.toUInt8

/-- The slots that the operation does not touch are free or hold a key whose byte is 0, slot 0
apart. -/
def Spares (s : Filled) (op : SlotOp) : Prop :=
  ∀ i : Fin 7, i.val ≠ 0 → i ≠ op.slot → ∀ p, s.held i = some p → p.1.toUInt8 = 0

theorem tracks_free (hk : Vector UInt64 7) (hv : Vector Ptr 7) : Tracks (Filled.free hk hv) where
  control i := by
    change (FastHt.control ((0x7f : UInt64) <<< 56)).toNat.testBit i = true
    revert i
    decide
  entry i p h := by cases h
  byte0 := by
    change byteAt ((0x7f : UInt64) <<< 56) 0 = 0
    decide

theorem bytes_free (hk : Vector UInt64 7) (hv : Vector Ptr 7) : Bytes (Filled.free hk hv) := by
  intro i p h
  cases h

theorem byteAt_apply (s : Filled) (op : SlotOp) {i : Fin 7} (hi : i ≠ 0) (hslot : i ≠ op.slot) :
    byteAt (s.apply op).bag.fp i = 0 := by
  cases op with
  | store slot k v =>
    have hne : i ≠ slot := hslot
    rw [Filled.apply, Bag.store, byteAt_updateFp, if_neg hne, if_neg hi]
    rfl
  | clear slot => rw [Filled.apply, Bag.clear, byteAt_clearFp, if_neg fun h => hi h.1]

theorem held_apply (s : Filled) (op : SlotOp) {i : Fin 7} (hslot : i ≠ op.slot) :
    (s.apply op).held i = s.held i := by
  cases op with
  | store slot k v => exact update_of_ne hslot _ _
  | clear slot => exact update_of_ne hslot _ _

theorem get_set_self {α : Type} {n : Nat} (xs : Vector α n) (i : Fin n) (x : α) :
    (xs.set i.val x).get i = x :=
  Vector.getElem_set_self i.isLt

theorem get_set_of_ne {α : Type} {n : Nat} (xs : Vector α n) {i j : Fin n} (x : α) (h : j ≠ i) :
    (xs.set i.val x).get j = xs.get j :=
  Vector.getElem_set_ne i.isLt j.isLt fun e => h (Fin.ext e.symm)

theorem Tracks.apply {s : Filled} (hs : Tracks s) {op : SlotOp} (hop : op.Allowed s) :
    Tracks (s.apply op) := by
  cases op with
  | store slot k v =>
    have hfree : s.held slot = none := hop
    refine ⟨fun i => ?_, fun i p h => ?_, ?_⟩
    · simp only [Filled.apply, Bag.store, testBit_control_updateFp, hs.control]
      rcases eq_or_ne i slot with rfl | hi
      · simp
      · simp [hi]
    · simp only [Filled.apply, Bag.store] at h ⊢
      rcases eq_or_ne i slot with rfl | hi
      · rw [update_self] at h
        cases h
        exact ⟨get_set_self _ _ _, get_set_self _ _ _⟩
      · rw [update_of_ne hi] at h
        rw [get_set_of_ne _ _ hi, get_set_of_ne _ _ hi]
        exact hs.entry i p h
    · simp only [Filled.apply, Bag.store]
      have h0 := byteAt_updateFp s.bag.fp k slot 0
      rw [Fin.val_zero] at h0
      rw [h0, if_pos rfl, hs.byte0]
      rcases eq_or_ne 0 slot with rfl | hi
      · simp [hfree]
      · simp [hi]
  | clear slot =>
    refine ⟨fun i => ?_, fun i p h => ?_, ?_⟩
    · simp only [Filled.apply, Bag.clear, testBit_control_clearFp, hs.control]
      rcases eq_or_ne i slot with rfl | hi
      · simp
      · simp [hi]
    · simp only [Filled.apply, Bag.clear] at h ⊢
      rcases eq_or_ne i slot with rfl | hi
      · rw [update_self] at h
        cases h
      · rw [update_of_ne hi] at h
        rw [get_set_of_ne _ _ hi, get_set_of_ne _ _ hi]
        exact hs.entry i p h
    · simp only [Filled.apply, Bag.clear]
      have h0 := byteAt_clearFp s.bag.fp slot 0
      rw [Fin.val_zero] at h0
      rw [h0, hs.byte0]
      rcases eq_or_ne 0 slot with rfl | hi
      · simp
      · simp [hi, hi.symm]

theorem bytes_apply {s : Filled} (hs : Tracks s) {op : SlotOp} (hop : op.Allowed s)
    (hspares : Spares s op) : Bytes (s.apply op) := by
  intro i p h
  rcases eq_or_ne i 0 with rfl | hi0
  · have h0 := (hs.apply hop).byte0
    rw [h] at h0
    exact h0
  · rcases eq_or_ne i op.slot with rfl | hi
    · cases op with
      | store slot k v =>
        simp only [Filled.apply, SlotOp.slot, update_self, Option.some.injEq] at h
        subst h
        have hne : slot ≠ 0 := hi0
        simp [Filled.apply, Bag.store, SlotOp.slot, byteAt_updateFp, hne]
      | clear slot =>
        simp only [Filled.apply, SlotOp.slot, update_self] at h
        cases h
    · rw [held_apply s op hi] at h
      rw [byteAt_apply s op hi0 hi, hspares i (fun h0 => hi0 (Fin.ext h0)) hi p h]

theorem not_bytes_apply {s : Filled} {op : SlotOp} (hspares : ¬ Spares s op) :
    ¬ Bytes (s.apply op) := by
  intro hb
  apply hspares
  intro i hi0 hi p h
  rw [← held_apply s op hi] at h
  rw [← hb i p h, byteAt_apply s op (fun h0 => hi0 (congrArg Fin.val h0)) hi]

theorem occupiedMatches_testBit (mt : Matcher) (g : Bag) (k : UInt64) (i : Fin 7) :
    (occupiedMatches mt g k).toNat.testBit i =
      ((findMatches mt (fpBytes g.fp) k.toUInt8).toNat.testBit i &&
        !(control g.fp).toNat.testBit i) := by
  have hocc : (~~~(control g.fp).toUInt16 &&& 0x7f).toNat.testBit i =
      !(control g.fp).toNat.testBit i := by
    have hi : i.val < 16 := by omega
    have hmask : (0x7f : UInt16).toNat.testBit i = true := by
      revert i
      decide
    rw [UInt16.toNat_and, Nat.testBit_and, hmask, Bool.and_true, ← UInt16.toNat_toBitVec,
      UInt16.toBitVec_not, BitVec.testBit_toNat, BitVec.getLsbD_not, ← BitVec.testBit_toNat,
      UInt16.toNat_toBitVec, UInt8.toNat_toUInt16, decide_eq_true hi, Bool.true_and]
  rw [occupiedMatches, UInt16.toNat_and, Nat.testBit_and, hocc, UInt8.toNat_toUInt16, h2,
    and_ff_eq, UInt8.toUInt8_toUInt64]

theorem consistent_iff {s : Filled} (hs : Tracks s) : Consistent s ↔ Bytes s := by
  refine ⟨fun h => h.byte, fun hb => ⟨fun i => ?_, hb, ?_, ?_⟩⟩
  · rw [hs.control, Option.isNone_eq_false_iff]
  · intro mt i p h
    have hbit : (occupiedMatches mt s.bag p.1).toNat.testBit i = true := by
      rw [occupiedMatches_testBit, hs.control, h, Option.isNone_some, Bool.not_false,
        Bool.and_true]
      apply testBit_findMatches
      rw [byteAt_fpBytes, hb i p h]
    rw [findKey, Option.isSome_map,
      scanMatches_eq_find? (m := 0) (by decide) fun _ _ => Nat.zero_le _, Fin.isSome_find?_iff]
    refine ⟨i, ?_⟩
    rw [hbit, decide_eq_true (hs.entry i p h).1]
    rfl
  · intro mt k j v h
    obtain ⟨j', hscan, heq⟩ := Option.map_eq_some_iff.mp h
    obtain ⟨rfl, rfl⟩ := Prod.mk.inj heq
    obtain ⟨hkey, hbit⟩ := scanMatches_sound hscan
    rw [occupiedMatches_testBit, Bool.and_eq_true, Bool.not_eq_true', hs.control,
      Option.isNone_eq_false_iff] at hbit
    obtain ⟨p, hp⟩ := Option.isSome_iff_exists.mp hbit.2
    obtain ⟨hk, hv⟩ := hs.entry j' p hp
    have hpk : p.1 = k := hk.symm.trans hkey
    change s.held j' = some (k, s.bag.hv.get j')
    rw [hp, ← hpk, hv]

theorem step_eq_some {s : Filled} {op : SlotOp} {q : Filled × Unit} :
    s.step op = some q ↔ op.Allowed s ∧ q = (s.apply op, ()) := by
  rw [Filled.step]
  split_ifs with hop
  · constructor
    · intro h
      exact ⟨hop, (Option.some.inj h).symm⟩
    · rintro ⟨-, rfl⟩
      rfl
  · constructor
    · intro h
      cases h
    · rintro ⟨hop', -⟩
      exact absurd hop' hop

/-- Through every sequence of stores into free slots and of clears, the word is consistent in
every bag reached exactly if each operation leaves no other entry behind than that of slot 0 and
those whose key byte is 0. -/
theorem stays_consistent_iff (hk : Vector UInt64 7) (hv : Vector Ptr 7) (ops : List SlotOp) :
    (∀ js, js <+: ops → ∀ q, Run.run Filled.step (Filled.free hk hv) js = some q →
        Consistent q.1) ↔
      Run.StepsMeet Filled.step (fun s op => op.Allowed s → Spares s op) (Filled.free hk hv)
        ops := by
  have hkeep : ∀ s op q, Tracks s ∧ Bytes s → (op.Allowed s → Spares s op) →
      Filled.step s op = some q → Tracks q.1 ∧ Bytes q.1 := by
    rintro s op q ⟨hs, -⟩ hC hq
    obtain ⟨hop, rfl⟩ := step_eq_some.mp hq
    exact ⟨hs.apply hop, bytes_apply hs hop (hC hop)⟩
  have hbreak : ∀ s op, Tracks s ∧ Bytes s → ¬ (op.Allowed s → Spares s op) →
      ∃ q, Filled.step s op = some q ∧ ¬ (Tracks q.1 ∧ Bytes q.1) := by
    intro s op _ hC
    obtain ⟨hop, hspares⟩ := Classical.not_imp.mp hC
    exact ⟨_, step_eq_some.mpr ⟨hop, rfl⟩, fun h => not_bytes_apply hspares h.2⟩
  have hfree : Tracks (Filled.free hk hv) ∧ Bytes (Filled.free hk hv) :=
    ⟨tracks_free hk hv, bytes_free hk hv⟩
  rw [← Run.forall_prefix_iff hkeep hbreak hfree]
  refine forall₄_congr fun js _ q hq => ?_
  have htracks : Tracks q.1 := Run.run_keeps
    (fun s op p hs hp => by obtain ⟨hop, rfl⟩ := step_eq_some.mp hp; exact hs.apply hop)
    hfree.1 hq
  rw [consistent_iff htracks]
  exact (and_iff_right htracks).symm

/-- After a second store the key of slot 1 is not found any more. -/
theorem store_loses_key :
    ∃ q, Run.run Filled.step (Filled.free (Vector.replicate 7 0) (Vector.replicate 7 0))
        [.store 1 1 10, .store 2 2 20] = some q ∧
      q.1.held 1 = some (1, 10) ∧ byteAt q.1.bag.fp 1 = 0 ∧
      (∀ mt, findKey mt q.1.bag 1 = none) ∧ ¬ Consistent q.1 := by
  have hrun : Run.run Filled.step (Filled.free (Vector.replicate 7 0) (Vector.replicate 7 0))
      [.store 1 1 10, .store 2 2 20] =
        some (((Filled.free (Vector.replicate 7 0) (Vector.replicate 7 0)).apply
          (.store 1 1 10)).apply (.store 2 2 20), [(), ()]) := rfl
  have hfind : ∀ mt, findKey mt (((Filled.free (Vector.replicate 7 0)
      (Vector.replicate 7 0)).apply (.store 1 1 10)).apply (.store 2 2 20)).bag 1 = none := by
    intro mt
    cases mt with
    | software => decide
    | simd => decide
  refine ⟨_, hrun, rfl, by decide, hfind, fun h => ?_⟩
  have := h.finds .simd 1 (1, 10) rfl
  rw [hfind] at this
  cases this

end PortableLib.FastHt
