import PortableLib.FastHt.Table
import PortableLib.FastHt.Matching

/-! The shape of every bag a table can hold. A fresh bag has no free slot, so only slot 0 is
ever filled: a bag is either emptied or holds one entry in slot 0. -/

namespace PortableLib.FastHt

def Bag.ofEntry : Option (UInt64 × Ptr) → Bag
  | none => ⟨(1 : UInt64) <<< 56, Vector.replicate 7 0, Vector.replicate 7 0⟩
  | some (k, v) => ⟨k &&& 0xff, (Vector.replicate 7 0).set 0 k, (Vector.replicate 7 0).set 0 v⟩

theorem control_byte (k : UInt64) : control (k &&& 0xff) = 0 := by
  rw [and_ff_eq, control_toUInt64]

theorem updateFp_zero (k : UInt64) : updateFp 0 k 0 = k &&& 0xff := by
  change ((k &&& 0xff) <<< 0 ||| 0) ||| 0 = k &&& 0xff
  rw [UInt64.or_zero, UInt64.or_zero, UInt64.shiftLeft_zero]

theorem updateFp_free (k : UInt64) : updateFp ((1 : UInt64) <<< 56) k 0 = k &&& 0xff := by
  change ((k &&& 0xff) <<< 0 ||| 0) ||| 0 = k &&& 0xff
  rw [UInt64.or_zero, UInt64.or_zero, UInt64.shiftLeft_zero]

theorem clearFp_byte (k : UInt64) : clearFp (k &&& 0xff) 0 = (1 : UInt64) <<< 56 := by
  have hmask : (0xff : UInt64) &&& ~~~((0xff : UInt64) <<< (8 * (0 : Fin 7).val).toUInt64) = 0 :=
    rfl
  rw [clearFp, control_byte, h2, UInt64.and_assoc, hmask, UInt64.and_zero]
  rfl

theorem findMatches_byte (mt : Matcher) (k : UInt64) :
    (findMatches mt (fpBytes (k &&& 0xff)) (h2 k).toUInt8).toNat.testBit 0 = true := by
  have hbyte : byteAt (fpBytes (k &&& 0xff)) (0 : Fin 7) = (h2 k).toUInt8 := by
    have hzero := byteAt_byte k.toUInt8 0
    rw [byteAt_fpBytes, h2, and_ff_eq, UInt8.toUInt8_toUInt64]
    exact hzero
  exact testBit_findMatches mt hbyte

theorem testBit_of_ctz {p : Nat} {j : Fin 7} (h : ctz p = some j) : p.testBit j = true :=
  List.find?_some (p := fun i : Fin 7 => p.testBit i) h

theorem ctz_eq_zero {p : Nat} (h : p.testBit 0 = true) : ctz p = some 0 := by
  simp only [ctz, List.finRange_succ, List.find?_cons, Fin.val_zero, h]

theorem scanMatches_sound {hk : Vector UInt64 7} {k : UInt64} {fuel : Nat} {p : UInt16} {j : Fin 7}
    (h : scanMatches hk k fuel p = some j) : hk.get j = k ∧ p.toNat.testBit j = true := by
  induction fuel generalizing p with
  | zero => simp [scanMatches] at h
  | succ fuel ih =>
    unfold scanMatches at h
    split at h
    · cases h
    · rename_i i hi
      split at h
      · rename_i hk'
        obtain rfl : i = j := by simpa using h
        exact ⟨hk', testBit_of_ctz hi⟩
      · obtain ⟨h1, h2⟩ := ih h
        rw [UInt16.toNat_and, Nat.testBit_and, Bool.and_eq_true] at h2
        exact ⟨h1, h2.1⟩

theorem scanMatches_zero {hk : Vector UInt64 7} {k : UInt64} {fuel : Nat} {p : UInt16}
    (hp : p.toNat.testBit 0 = true) (hk0 : hk[(0 : Fin 7)] = k) :
    scanMatches hk k (fuel + 1) p = some 0 := by
  simp only [scanMatches, ctz_eq_zero hp]
  rw [if_pos hk0]

theorem scanMatches_ofEntry (mt : Matcher) {k : UInt64} (hk : k ≠ 0) (e : Option (UInt64 × Ptr)) :
    scanMatches (Bag.ofEntry e).hk k 7 (occupiedMatches mt (Bag.ofEntry e) k) =
      if e.map Prod.fst = some k then some 0 else none := by
  split_ifs with he
  · obtain ⟨⟨k', v⟩, rfl, rfl⟩ := Option.map_eq_some_iff.mp he
    apply scanMatches_zero
    · simp only [occupiedMatches, Bag.ofEntry, control_byte, UInt16.toNat_and, Nat.testBit_and,
        UInt8.toNat_toUInt16, findMatches_byte, Bool.true_and]
      rfl
    · rfl
  · rw [Option.eq_none_iff_forall_not_mem]
    intro j hj
    have h : (Bag.ofEntry e).hk[j] = k := (scanMatches_sound hj).1
    apply he
    cases e with
    | none =>
      simp only [Bag.ofEntry, Fin.getElem_fin, Vector.getElem_replicate] at h
      exact absurd h.symm hk
    | some p =>
      simp only [Bag.ofEntry, Fin.getElem_fin, Vector.getElem_set, Vector.getElem_replicate] at h
      split at h
      · simp only [Option.map_some, h]
      · exact absurd h.symm hk

theorem control_ofEntry (e : Option (UInt64 × Ptr)) :
    control (Bag.ofEntry e).fp = if e.isSome then 0 else 1 := by
  cases e with
  | none => decide
  | some p => exact control_byte p.1

theorem ctz_control_ofEntry (e : Option (UInt64 × Ptr)) :
    ctz (control (Bag.ofEntry e).fp).toNat = if e.isSome then none else some 0 := by
  rw [control_ofEntry]
  cases e with
  | none => decide
  | some p =>
    simp only [Option.isSome_some, if_true]
    decide

@[simp] theorem newz_store (k : UInt64) (v : Ptr) :
    Bag.newz.store 0 k v = Bag.ofEntry (some (k, v)) := by
  simp only [Bag.store, Bag.newz, Bag.ofEntry, updateFp_zero]
  rfl

@[simp] theorem ofEntry_none_store (k : UInt64) (v : Ptr) :
    (Bag.ofEntry none).store 0 k v = Bag.ofEntry (some (k, v)) := by
  simp only [Bag.store, Bag.ofEntry, updateFp_free]
  rfl

@[simp] theorem ofEntry_some_clear (p : UInt64 × Ptr) :
    (Bag.ofEntry (some p)).clear 0 = Bag.ofEntry none := by
  simp only [Bag.clear, Bag.ofEntry, clearFp_byte]
  congr 1

theorem ofEntry_some_setVal (k : UInt64) (v v' : Ptr) :
    (Bag.ofEntry (some (k, v))).setVal 0 v' = Bag.ofEntry (some (k, v')) := by
  simp only [Bag.setVal, Bag.ofEntry]
  congr 1

theorem slots_ofEntry {e : Option (UInt64 × Ptr)} (he : ∀ p ∈ e, p.1 ≠ 0) :
    (Bag.ofEntry e).slots = e.toList := by
  unfold Bag.slots
  rw [control_ofEntry]
  cases e with
  | none => decide
  | some p =>
    have hp : p.1 ≠ 0 := he p rfl
    simp [Bag.ofEntry, List.finRange_succ, hp]

end PortableLib.FastHt
