import PortableLib.Lib.Block
import PortableLib.Lib.Run
import PortableLib.RingBuf.Invariant
import PortableLib.TypeUtils

/-! `__store_ring` and `__load_ring` in the 32-bit arithmetic of the code: the unrolled loop with
its remainder, and the masked loop, are both the loop that masks each index. Every access to the
slots and to the object table is checked. -/

namespace PortableLib.RingBuf
open List

variable {α σ : Type}

/-- The slots of a `struct rte_ring`. -/
structure Slots (α : Type) where
  size : UInt32
  mask : UInt32
  ring : Block α

structure Tables (α : Type) where
  ring : Block α
  obj : Block α

section Definitions

def rteRingCreate (x₀ : α) (count : UInt32) : Slots α :=
  let count := if count &&& (count - 1) ≠ 0 then (TypeUtils.nextPow2 count.toUInt64).toUInt32
    else count
  ⟨count, count - 1, ⟨count.toNat, fun _ => x₀⟩⟩

/-- `r->ring[a] = obj[b]` -/
def storeSlot (a b : UInt32) (t : Tables α) : Option (Tables α) := do
  let x ← t.obj.read b.toNat
  let ring ← t.ring.write a.toNat x
  return { t with ring := ring }

/-- `obj[b] = r->ring[a]` -/
def loadSlot (a b : UInt32) (t : Tables α) : Option (Tables α) := do
  let x ← t.ring.read a.toNat
  let obj ← t.obj.write b.toNat x
  return { t with obj := obj }

variable (access : UInt32 → UInt32 → σ → Option σ)

def unrolledLoop (loops : UInt32) : Nat → UInt32 → UInt32 → σ → Option (UInt32 × UInt32 × σ)
  | 0, _, _, _ => none
  | fuel + 1, i, idx, s =>
    if i < loops then do
      let s ← access (idx + 0) (i + 0) s
      let s ← access (idx + 1) (i + 1) s
      let s ← access (idx + 2) (i + 2) s
      let s ← access (idx + 3) (i + 3) s
      unrolledLoop loops fuel (i + 4) (idx + 4) s
    else some (i, idx, s)

/-- `switch (n & 0x3)` -/
def remainder (n i idx : UInt32) (s : σ) : Option σ :=
  if n &&& 0x3 = 3 then do
    let s ← access (idx + 0) (i + 0) s
    let s ← access (idx + 1) (i + 1) s
    access (idx + 2) (i + 2) s
  else if n &&& 0x3 = 2 then do
    let s ← access (idx + 0) (i + 0) s
    access (idx + 1) (i + 1) s
  else if n &&& 0x3 = 1 then access (idx + 0) (i + 0) s
  else some s

def maskedLoop (mask n : UInt32) : Nat → UInt32 → UInt32 → σ → Option σ
  | 0, _, _, _ => none
  | fuel + 1, i, idx, s =>
    if i < n then do
      let s ← access (idx &&& mask) i s
      maskedLoop mask n fuel (i + 1) (idx + 1) s
    else some s

/-- The text that `__store_ring` and `__load_ring` share; `access` is what they do with one slot.
The head is a `uint_fast32_t`, of 64 bits. -/
def copyRing (mask : UInt32) (head : UInt64) (n : UInt32) (s : σ) : Option σ :=
  let idx := (head &&& mask.toUInt64).toUInt32
  if idx + n ≤ mask then do
    let loops := n &&& ~~~0x3
    let (i, idx, s) ← unrolledLoop access loops (n.toNat + 1) 0 idx s
    remainder access n i idx s
  else maskedLoop access mask n (n.toNat + 1) 0 idx s

def storeRing (r : Slots α) (head : UInt64) (obj : Block α) (n : UInt32) : Option (Slots α) :=
  (copyRing storeSlot r.mask head n ⟨r.ring, obj⟩).map fun t => { r with ring := t.ring }

def loadRing (r : Slots α) (head : UInt64) (obj : Block α) (n : UInt32) : Option (Block α) :=
  (copyRing loadSlot r.mask head n ⟨r.ring, obj⟩).map fun t => t.obj

end Definitions

section Loops

variable {access : UInt32 → UInt32 → σ → Option σ}

def inOrder (access : UInt32 → UInt32 → σ → Option σ) (idx : UInt32) (i k : Nat) (s : σ) :
    Option σ :=
  (range' i k).foldlM (fun s j => access (idx + UInt32.ofNat j) (UInt32.ofNat j) s) s

theorem inOrder_succ (idx : UInt32) (i k : Nat) (s : σ) :
    inOrder access idx i (k + 1) s =
      (access (idx + UInt32.ofNat i) (UInt32.ofNat i) s).bind fun s =>
        inOrder access idx (i + 1) k s := rfl

theorem inOrder_add (access : UInt32 → UInt32 → σ → Option σ) (idx : UInt32) (i k l : Nat) (s : σ) :
    inOrder access idx i (k + l) s =
      (inOrder access idx i k s).bind (inOrder access idx (i + k) l) := by
  unfold inOrder
  rw [← range'_append_1, foldlM_append]
  rfl

theorem ofNat_of_toNat {n : UInt32} {k : Nat} (h : n.toNat = k) : UInt32.ofNat k = n := by
  rw [← h, UInt32.ofNat_toNat]

theorem access_add (idx : UInt32) (i c : Nat) :
    access (idx + UInt32.ofNat i + UInt32.ofNat c) (UInt32.ofNat i + UInt32.ofNat c) =
      access (idx + UInt32.ofNat (i + c)) (UInt32.ofNat (i + c)) := by
  rw [UInt32.ofNat_add, UInt32.add_assoc]

theorem unrolledLoop_eq {loops idx : UInt32} {q i fuel : Nat} {s : σ} (hq : q < fuel)
    (hloops : loops.toNat = i + 4 * q) :
    unrolledLoop access loops fuel (UInt32.ofNat i) (idx + UInt32.ofNat i) s =
      (inOrder access idx i (4 * q) s).map fun s => (loops, idx + loops, s) := by
  induction q generalizing i fuel s with
  | zero =>
    obtain ⟨fuel, rfl⟩ := Nat.exists_eq_succ_of_ne_zero (Nat.ne_of_gt hq)
    have hi : UInt32.ofNat i = loops := ofNat_of_toNat hloops
    rw [unrolledLoop, hi, if_neg (UInt32.lt_irrefl loops)]
    rfl
  | succ q ih =>
    obtain ⟨fuel, rfl⟩ := Nat.exists_eq_succ_of_ne_zero (Nat.ne_of_gt (Nat.zero_lt_of_lt hq))
    have hlt : UInt32.ofNat i < loops := by
      rw [UInt32.lt_iff_toNat_lt, UInt32.toNat_ofNat', hloops]
      exact (Nat.mod_le _ _).trans_lt (by omega)
    have hrest : ∀ s, unrolledLoop access loops fuel (UInt32.ofNat i + 4)
        (idx + UInt32.ofNat i + 4) s =
          (inOrder access idx (i + 4) (4 * q) s).map fun s => (loops, idx + loops, s) := by
      intro s
      rw [← ih (Nat.lt_of_succ_lt_succ hq) (by omega), UInt32.ofNat_add, ← UInt32.add_assoc]
      rfl
    have h0 : access (idx + UInt32.ofNat i + 0) (UInt32.ofNat i + 0) = _ := access_add idx i 0
    have h1 : access (idx + UInt32.ofNat i + 1) (UInt32.ofNat i + 1) = _ := access_add idx i 1
    have h2 : access (idx + UInt32.ofNat i + 2) (UInt32.ofNat i + 2) = _ := access_add idx i 2
    have h3 : access (idx + UInt32.ofNat i + 3) (UInt32.ofNat i + 3) = _ := access_add idx i 3
    rw [unrolledLoop, if_pos hlt, h0, h1, h2, h3]
    simp only [hrest, Option.bind_eq_bind, Nat.mul_succ, inOrder_succ, Option.map_bind,
      Function.comp_def]
    rfl

theorem remainder_eq {n idx : UInt32} {i r : Nat} {s : σ} (hr : n.toNat % 4 = r) :
    remainder access n (UInt32.ofNat i) (idx + UInt32.ofNat i) s = inOrder access idx i r s := by
  have hand : n &&& 0x3 = UInt32.ofNat r := by
    rw [← UInt32.toNat_inj, UInt32.toNat_and, ← hr, UInt32.toNat_ofNat']
    exact (Nat.and_two_pow_sub_one_eq_mod n.toNat 2).trans (by omega)
  have h0 : access (idx + UInt32.ofNat i + 0) (UInt32.ofNat i + 0) = _ := access_add idx i 0
  have h1 : access (idx + UInt32.ofNat i + 1) (UInt32.ofNat i + 1) = _ := access_add idx i 1
  have h2 : access (idx + UInt32.ofNat i + 2) (UInt32.ofNat i + 2) = _ := access_add idx i 2
  have hend : ∀ o : Option σ, (o.bind fun s => some s) = o := Option.bind_fun_some
  rw [remainder, hand, h0, h1, h2]
  obtain rfl | rfl | rfl | rfl : r = 0 ∨ r = 1 ∨ r = 2 ∨ r = 3 := by omega
  · rw [if_neg (by decide), if_neg (by decide), if_neg (by decide)]
    rfl
  · rw [if_neg (by decide), if_neg (by decide), if_pos (by decide)]
    exact (hend _).symm
  · rw [if_neg (by decide), if_pos (by decide), inOrder_succ]
    congr 1
    funext s
    exact (hend _).symm
  · rw [if_pos (by decide), inOrder_succ]
    congr 1
    funext s
    rw [inOrder_succ]
    congr 1
    funext s
    exact (hend _).symm

theorem maskedLoop_eq {mask n idx : UInt32} {k i fuel : Nat} {s : σ} (hk : k < fuel)
    (hn : n.toNat = i + k) :
    maskedLoop access mask n fuel (UInt32.ofNat i) (idx + UInt32.ofNat i) s =
      inOrder (fun a => access (a &&& mask)) idx i k s := by
  induction k generalizing i fuel s with
  | zero =>
    obtain ⟨fuel, rfl⟩ := Nat.exists_eq_succ_of_ne_zero (Nat.ne_of_gt hk)
    have hi : UInt32.ofNat i = n := ofNat_of_toNat hn
    rw [maskedLoop, hi, if_neg (UInt32.lt_irrefl n)]
    rfl
  | succ k ih =>
    obtain ⟨fuel, rfl⟩ := Nat.exists_eq_succ_of_ne_zero (Nat.ne_of_gt (Nat.zero_lt_of_lt hk))
    have hlt : UInt32.ofNat i < n := by
      rw [UInt32.lt_iff_toNat_lt, UInt32.toNat_ofNat', hn]
      exact (Nat.mod_le _ _).trans_lt (by omega)
    rw [maskedLoop, if_pos hlt, inOrder_succ]
    refine congrArg _ (funext fun s => ?_)
    rw [← ih (Nat.lt_of_succ_lt_succ hk) (by omega), UInt32.ofNat_add, ← UInt32.add_assoc]
    rfl

theorem toNat_and_not_3 (x : UInt32) : (x &&& ~~~(3 : UInt32)).toNat = 4 * (x.toNat / 4) := by
  have hlt := x.toNat_lt
  have hmask : (~~~(3 : UInt32)).toNat = 2 ^ 2 * (2 ^ 30 - 1) := rfl
  have hlow : (x.toNat &&& 2 ^ 2 * (2 ^ 30 - 1)) % 2 ^ 2 = 0 := by
    rw [Nat.and_mod_two_pow, Nat.mul_mod_right, Nat.and_zero]
  have hhigh : (x.toNat &&& 2 ^ 2 * (2 ^ 30 - 1)) / 2 ^ 2 = x.toNat / 2 ^ 2 := by
    rw [Nat.and_div_two_pow, Nat.mul_div_cancel_left _ (Nat.two_pow_pos 2),
      Nat.and_two_pow_sub_one_eq_mod]
    exact Nat.mod_eq_of_lt (by omega)
  rw [UInt32.toNat_and, hmask]
  omega

def slotAt (mask : UInt32) (head : UInt64) (i : Nat) : Nat := (head.toNat + i) &&& mask.toNat

variable {mask n : UInt32} {e : Nat} {head : UInt64}

theorem slotAt_eq (hmask : mask.toNat = 2 ^ e - 1) (i : Nat) :
    slotAt mask head i = (head.toNat + i) % 2 ^ e := by
  rw [slotAt, hmask, Nat.and_two_pow_sub_one_eq_mod]

theorem toNat_idx (head : UInt64) (hmask : mask.toNat = 2 ^ e - 1) (he : e < 32) :
    (head &&& mask.toUInt64).toUInt32.toNat = head.toNat % 2 ^ e := by
  have hpow : 2 ^ e ≤ 2 ^ 32 := Nat.pow_le_pow_right (by decide) he.le
  have hlt : head.toNat % 2 ^ e < 2 ^ e := Nat.mod_lt _ (Nat.two_pow_pos e)
  rw [UInt64.toNat_toUInt32, UInt64.toNat_and, UInt32.toNat_toUInt64, hmask,
    Nat.and_two_pow_sub_one_eq_mod]
  exact Nat.mod_eq_of_lt (hlt.trans_le hpow)

theorem unrolled_eq (idx : UInt32) (s : σ) :
    ((unrolledLoop access (n &&& ~~~0x3) (n.toNat + 1) 0 idx s).bind fun p =>
      remainder access n p.1 p.2.1 p.2.2) = inOrder access idx 0 n.toNat s := by
  have hloops : UInt32.ofNat (4 * (n.toNat / 4)) = n &&& ~~~0x3 :=
    ofNat_of_toNat (toNat_and_not_3 n)
  have hloop : unrolledLoop access (n &&& ~~~0x3) (n.toNat + 1) 0 idx s =
      (inOrder access idx 0 (4 * (n.toNat / 4)) s).map fun s =>
        (n &&& ~~~0x3, idx + (n &&& ~~~0x3), s) := by
    rw [← unrolledLoop_eq (Nat.lt_succ_of_le (Nat.div_le_self n.toNat 4))
      ((toNat_and_not_3 n).trans (Nat.zero_add _).symm)]
    exact congrArg (fun j => unrolledLoop access _ _ 0 j s) (UInt32.add_zero idx).symm
  have hrem : ∀ s, remainder access n (n &&& ~~~0x3) (idx + (n &&& ~~~0x3)) s =
      inOrder access idx (4 * (n.toNat / 4)) (n.toNat % 4) s := by
    intro s
    rw [← hloops]
    exact remainder_eq rfl
  have hadd : inOrder access idx 0 n.toNat s =
      (inOrder access idx 0 (4 * (n.toNat / 4)) s).bind
        (inOrder access idx (4 * (n.toNat / 4)) (n.toNat % 4)) := by
    have hsplit := inOrder_add access idx 0 (4 * (n.toNat / 4)) (n.toNat % 4) s
    rwa [Nat.div_add_mod, Nat.zero_add] at hsplit
  rw [hloop, hadd, Option.bind_map]
  exact congrArg _ (funext hrem)

theorem masked_eq (idx : UInt32) (s : σ) :
    maskedLoop access mask n (n.toNat + 1) 0 idx s =
      inOrder (fun a => access (a &&& mask)) idx 0 n.toNat s := by
  rw [← maskedLoop_eq (Nat.lt_succ_self n.toNat) (Nat.zero_add _).symm]
  exact congrArg (fun j => maskedLoop access mask n _ 0 j s) (UInt32.add_zero idx).symm

theorem copyRing_eq (hmask : mask.toNat = 2 ^ e - 1) (he : e < 32) (hn : n ≤ mask) (s : σ) :
    copyRing access mask head n s = (range n.toNat).foldlM
      (fun s i => access (UInt32.ofNat (slotAt mask head i)) (UInt32.ofNat i) s) s := by
  have hpow : 2 ^ e ≤ 2 ^ 31 := Nat.pow_le_pow_right (by decide) (Nat.le_of_lt_succ he)
  have hlt : head.toNat % 2 ^ e < 2 ^ e := Nat.mod_lt _ (Nat.two_pow_pos e)
  have hle : n.toNat ≤ mask.toNat := UInt32.le_iff_toNat_le.mp hn
  have hidx := toNat_idx head hmask he
  have hslot : ∀ j, (UInt32.ofNat (slotAt mask head j)).toNat =
      (head.toNat % 2 ^ e + j) % 2 ^ e := by
    intro j
    have hj : (head.toNat % 2 ^ e + j) % 2 ^ e < 2 ^ e := Nat.mod_lt _ (Nat.two_pow_pos e)
    rw [slotAt_eq hmask, UInt32.toNat_ofNat', ← Nat.mod_add_mod]
    exact Nat.mod_eq_of_lt (by omega)
  unfold copyRing
  generalize (head &&& mask.toUInt64).toUInt32 = idx at hidx
  -- the running index does not wrap around in 32 bits
  have hadd : ∀ j ∈ range' 0 n.toNat, (idx + UInt32.ofNat j).toNat = head.toNat % 2 ^ e + j := by
    intro j hj
    have hjn : j < n.toNat := by
      rw [mem_range'_1] at hj
      omega
    rw [UInt32.toNat_add, hidx, UInt32.toNat_ofNat']
    omega
  dsimp only
  rw [range_eq_range']
  split_ifs with hfits
  · refine (unrolled_eq idx s).trans (Run.foldlM_congr (fun j hj s => ?_) s)
    have hroom : head.toNat % 2 ^ e + j < 2 ^ e := by
      rw [UInt32.le_iff_toNat_le, UInt32.toNat_add, hidx] at hfits
      rw [mem_range'_1] at hj
      omega
    congr 1
    rw [← UInt32.toNat_inj, hadd j hj, hslot, Nat.mod_eq_of_lt hroom]
  · refine (masked_eq idx s).trans (Run.foldlM_congr (fun j hj s => ?_) s)
    dsimp only
    congr 1
    rw [← UInt32.toNat_inj, UInt32.toNat_and, hadd j hj, hslot, hmask,
      Nat.and_two_pow_sub_one_eq_mod]

end Loops

section Effect

/-- A ring as `rte_ring_create` makes it. -/
structure Slots.WF (r : Slots α) : Prop where
  pow : r.size.toNat.isPowerOfTwo
  mask : r.mask = r.size - 1
  len : r.ring.len = r.size.toNat

/-- The objects are in their slots and the other slots are as before. -/
structure Stored (r : Slots α) (head : UInt64) (obj : Block α) (n : Nat) (r' : Slots α) : Prop where
  size : r'.size = r.size
  mask : r'.mask = r.mask
  len : r'.ring.len = r.ring.len
  stored : ∀ i < n, r'.ring.cells (slotAt r.mask head i) = obj.cells i
  others : ∀ j, (∀ i < n, j ≠ slotAt r.mask head i) → r'.ring.cells j = r.ring.cells j

structure Loaded (r : Slots α) (head : UInt64) (obj : Block α) (n : Nat) (obj' : Block α) :
    Prop where
  len : obj'.len = obj.len
  loaded : ∀ i < n, obj'.cells i = r.ring.cells (slotAt r.mask head i)
  others : ∀ i, n ≤ i → obj'.cells i = obj.cells i

variable {r : Slots α} {obj : Block α} {n : UInt32}

theorem Slots.WF.mask_eq (hr : r.WF) :
    ∃ e < 32, r.mask.toNat = 2 ^ e - 1 ∧ r.ring.len = 2 ^ e := by
  obtain ⟨e, he⟩ := hr.pow
  have hlt : 2 ^ e < 2 ^ 32 := he ▸ r.size.toNat_lt
  have hpos : 0 < 2 ^ e := Nat.two_pow_pos e
  refine ⟨e, (Nat.pow_lt_pow_iff_right (by decide)).mp hlt, ?_, hr.len.trans he⟩
  rw [hr.mask, UInt32.toNat_sub_of_le, he]
  · rfl
  · rw [UInt32.le_iff_toNat_le, he]
    exact hpos

theorem rteRingCreate_wf (x₀ : α) {count : UInt32} (h0 : count ≠ 0)
    (hfits : TypeUtils.FitsIn 32 count.toNat) : (rteRingCreate x₀ count).WF where
  pow := (TypeUtils.isLeast_rounded h0 hfits).1.1
  mask := rfl
  len := rfl

theorem slotAt_lt (hr : r.WF) (head : UInt64) (i : Nat) : slotAt r.mask head i < r.ring.len := by
  obtain ⟨e, -, hmask, hlen⟩ := hr.mask_eq
  rw [slotAt_eq hmask, hlen]
  exact Nat.mod_lt _ (Nat.two_pow_pos e)

theorem slotAt_ne (hr : r.WF) (head : UInt64) {i j : Nat} (hij : i < j) (hj : j ≤ r.mask.toNat) :
    slotAt r.mask head i ≠ slotAt r.mask head j := by
  obtain ⟨e, -, hmask, -⟩ := hr.mask_eq
  rw [slotAt_eq hmask, slotAt_eq hmask]
  have hpos : 0 < 2 ^ e := Nat.two_pow_pos e
  exact Circular.mod_ne_of_window (Nat.le_add_right _ i) (Nat.add_lt_add_left hij _) (by omega)

theorem toNat_slotAt (hr : r.WF) (head : UInt64) (i : Nat) :
    (UInt32.ofNat (slotAt r.mask head i)).toNat = slotAt r.mask head i := by
  have hlt := slotAt_lt hr head i
  have hsize := r.size.toNat_lt
  rw [hr.len] at hlt
  rw [UInt32.toNat_ofNat']
  exact Nat.mod_eq_of_lt (hlt.trans hsize)

theorem copyRing_plain (hr : r.WF) (head : UInt64) (hn : n ≤ r.mask)
    (access : UInt32 → UInt32 → σ → Option σ) (s : σ) :
    copyRing access r.mask head n s = (range n.toNat).foldlM
      (fun s i => access (UInt32.ofNat (slotAt r.mask head i)) (UInt32.ofNat i) s) s := by
  obtain ⟨e, he, hmask, -⟩ := hr.mask_eq
  exact copyRing_eq hmask he hn s

theorem copyRing_accesses (hr : r.WF) (head : UInt64) (hn : n ≤ r.mask)
    (access : UInt32 → UInt32 → σ → Option σ) (s : σ) :
    copyRing access r.mask head n s = (accesses r.mask.toNat head.toNat n.toNat).foldlM
      (fun s p => access (UInt32.ofNat p.1) (UInt32.ofNat p.2) s) s := by
  obtain ⟨e, he, hmask, -⟩ := hr.mask_eq
  rw [copyRing_eq hmask he hn, hmask, accesses_eq, foldlM_map]
  simp only [slotAt_eq hmask]

theorem storeSlot_eq {a b : UInt32} {t : Tables α} (hb : b.toNat < t.obj.len)
    (ha : a.toNat < t.ring.len) :
    storeSlot a b t = some { t with ring := { t.ring with
      cells := Function.update t.ring.cells a.toNat (t.obj.cells b.toNat) } } := by
  rw [storeSlot, Block.read_of_lt hb]
  change ((t.ring.write a.toNat _).bind _) = _
  rw [Block.write_of_lt ha]
  rfl

theorem loadSlot_eq {a b : UInt32} {t : Tables α} (ha : a.toNat < t.ring.len)
    (hb : b.toNat < t.obj.len) :
    loadSlot a b t = some { t with obj := { t.obj with
      cells := Function.update t.obj.cells b.toNat (t.ring.cells a.toNat) } } := by
  rw [loadSlot, Block.read_of_lt ha]
  change ((t.obj.write b.toNat _).bind _) = _
  rw [Block.write_of_lt hb]
  rfl

theorem storeSlot_stored (hr : r.WF) {head : UInt64} {m : Nat} {t : Tables α}
    (hm : m < n.toNat) (hn : n ≤ r.mask) (hobj : n.toNat ≤ obj.len)
    (ht : t.obj = obj ∧ Stored r head obj m { r with ring := t.ring }) :
    ∃ t', storeSlot (UInt32.ofNat (slotAt r.mask head m)) (UInt32.ofNat m) t = some t' ∧
      t'.obj = obj ∧ Stored r head obj (m + 1) { r with ring := t'.ring } := by
  obtain ⟨rfl, hs⟩ := ht
  have hle : n.toNat ≤ r.mask.toNat := UInt32.le_iff_toNat_le.mp hn
  have hlen : t.ring.len = r.ring.len := hs.len
  have hslot := toNat_slotAt hr head m
  have hplace : (UInt32.ofNat m).toNat = m := by
    rw [UInt32.toNat_ofNat']
    exact Nat.mod_eq_of_lt (hm.trans n.toNat_lt)
  have hread : (UInt32.ofNat m).toNat < t.obj.len := by omega
  have hwrite : (UInt32.ofNat (slotAt r.mask head m)).toNat < t.ring.len := by
    rw [hslot, hlen]
    exact slotAt_lt hr head m
  refine ⟨_, storeSlot_eq hread hwrite, rfl, rfl, rfl, hs.len, fun i hi => ?_, fun j hj => ?_⟩
  · simp only [hslot, hplace]
    rcases Nat.lt_succ_iff_lt_or_eq.mp hi with hlt | rfl
    · rw [Function.update_of_ne (slotAt_ne hr head hlt (by omega))]
      exact hs.stored i hlt
    · exact Function.update_self ..
  · simp only [hslot]
    rw [Function.update_of_ne (hj m (Nat.lt_succ_self m))]
    exact hs.others j fun i hi => hj i (Nat.lt_succ_of_lt hi)

theorem storeRing_spec (hr : r.WF) (head : UInt64) (hn : n ≤ r.mask) (hobj : n.toNat ≤ obj.len) :
    ∃ r', storeRing r head obj n = some r' ∧ Stored r head obj n.toNat r' := by
  have hstart : Stored r head obj 0 { r with ring := r.ring } :=
    ⟨rfl, rfl, rfl, fun i hi => absurd hi (Nat.not_lt_zero i), fun _ _ => rfl⟩
  obtain ⟨t, ht, -, hstored⟩ := Run.foldlM_range_invariant
    (I := fun m (t : Tables α) => t.obj = obj ∧ Stored r head obj m { r with ring := t.ring })
    (fun m t hm ht => storeSlot_stored hr hm hn hobj ht) (s := ⟨r.ring, obj⟩) ⟨rfl, hstart⟩
  refine ⟨{ r with ring := t.ring }, ?_, hstored⟩
  rw [storeRing, copyRing_plain hr head hn, ht]
  rfl

theorem loadSlot_loaded (hr : r.WF) {head : UInt64} {m : Nat} {t : Tables α}
    (hm : m < n.toNat) (hobj : n.toNat ≤ obj.len)
    (ht : t.ring = r.ring ∧ Loaded r head obj m t.obj) :
    ∃ t', loadSlot (UInt32.ofNat (slotAt r.mask head m)) (UInt32.ofNat m) t = some t' ∧
      t'.ring = r.ring ∧ Loaded r head obj (m + 1) t'.obj := by
  obtain ⟨hring, hs⟩ := ht
  have hlen := hs.len
  have hslot := toNat_slotAt hr head m
  have hplace : (UInt32.ofNat m).toNat = m := by
    rw [UInt32.toNat_ofNat']
    exact Nat.mod_eq_of_lt (hm.trans n.toNat_lt)
  have hread : (UInt32.ofNat (slotAt r.mask head m)).toNat < t.ring.len := by
    rw [hslot, hring]
    exact slotAt_lt hr head m
  have hwrite : (UInt32.ofNat m).toNat < t.obj.len := by omega
  refine ⟨_, loadSlot_eq hread hwrite, hring, hs.len, fun i hi => ?_, fun i hi => ?_⟩
  · simp only [hslot, hplace, hring]
    rcases Nat.lt_succ_iff_lt_or_eq.mp hi with hlt | rfl
    · rw [Function.update_of_ne (Nat.ne_of_lt hlt)]
      exact hs.loaded i hlt
    · exact Function.update_self ..
  · simp only [hplace]
    rw [Function.update_of_ne (Nat.ne_of_gt hi)]
    exact hs.others i (Nat.le_of_succ_le hi)

theorem loadRing_spec (hr : r.WF) (head : UInt64) (hn : n ≤ r.mask) (hobj : n.toNat ≤ obj.len) :
    ∃ obj', loadRing r head obj n = some obj' ∧ Loaded r head obj n.toNat obj' := by
  have hstart : Loaded r head obj 0 obj :=
    ⟨rfl, fun i hi => absurd hi (Nat.not_lt_zero i), fun _ _ => rfl⟩
  obtain ⟨t, ht, -, hloaded⟩ := Run.foldlM_range_invariant
    (I := fun m (t : Tables α) => t.ring = r.ring ∧ Loaded r head obj m t.obj)
    (fun m t hm ht => loadSlot_loaded hr hm hobj ht) (s := ⟨r.ring, obj⟩) ⟨rfl, hstart⟩
  refine ⟨t.obj, ?_, hloaded⟩
  rw [loadRing, copyRing_plain hr head hn, ht]
  rfl

theorem Stored.wf {head : UInt64} {m : Nat} {r' : Slots α} (hs : Stored r head obj m r')
    (hr : r.WF) : r'.WF where
  pow := hs.size ▸ hr.pow
  mask := by rw [hs.mask, hs.size, hr.mask]
  len := by rw [hs.len, hs.size, hr.len]

/-- Up to one slot less than the ring has, a store puts each object in the slot of its masked
index and changes no other slot, a load takes each object from there, and a load after a store at
the same head gives the stored objects. -/
theorem copies_masked (hr : r.WF) (head : UInt64) (hn : n ≤ r.mask) :
    (∀ obj : Block α, n.toNat ≤ obj.len →
      ∃ r', storeRing r head obj n = some r' ∧ Stored r head obj n.toNat r') ∧
    (∀ obj : Block α, n.toNat ≤ obj.len →
      ∃ obj', loadRing r head obj n = some obj' ∧ Loaded r head obj n.toNat obj') ∧
    ∀ obj obj₀ : Block α, n.toNat ≤ obj.len → n.toNat ≤ obj₀.len →
      ∃ r' obj', storeRing r head obj n = some r' ∧ loadRing r' head obj₀ n = some obj' ∧
        ∀ i < n.toNat, obj'.cells i = obj.cells i := by
  refine ⟨fun obj => storeRing_spec hr head hn, fun obj => loadRing_spec hr head hn,
    fun obj obj₀ hobj hobj₀ => ?_⟩
  obtain ⟨r', hstore, hstored⟩ := storeRing_spec hr head hn hobj
  have hn' : n ≤ r'.mask := hstored.mask ▸ hn
  obtain ⟨obj', hload, hloaded⟩ := loadRing_spec (hstored.wf hr) head hn' hobj₀
  refine ⟨r', obj', hstore, hload, fun i hi => ?_⟩
  rw [hloaded.loaded i hi, hstored.mask, hstored.stored i hi]

theorem copies_masked_around : ∃ r' obj',
    storeRing (rteRingCreate 0 8) 0xfffffffd ⟨5, fun i => i + 1⟩ 5 = some r' ∧
      loadRing r' 0xfffffffd ⟨5, fun _ => 0⟩ 5 = some obj' ∧ ∀ i < 5, obj'.cells i = i + 1 :=
  (copies_masked (rteRingCreate_wf 0 (by decide) ⟨3, by decide, by decide⟩) 0xfffffffd
    (by decide)).2.2 ⟨5, fun i => i + 1⟩ ⟨5, fun _ => 0⟩ (by decide) (by decide)

end Effect
end PortableLib.RingBuf
