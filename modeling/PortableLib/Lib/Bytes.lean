import Mathlib.Algebra.Ring.Nat
import Mathlib.Data.Nat.Basic
import Mathlib.Logic.Function.Basic
import PortableLib.Lib.Image

/-! A flat memory of bytes with little-endian words. -/

namespace PortableLib.Bytes
open PortableLib.Image

variable {m m' : Nat → UInt8} {p q n v w w' : Nat}

def load (w : Nat) (m : Nat → UInt8) (p : Nat) : Nat :=
  match w with
  | 0 => 0
  | w + 1 => (m p).toNat + 256 * load w m (p + 1)

def store (w : Nat) (m : Nat → UInt8) (p v : Nat) : Nat → UInt8 := fun x =>
  if p ≤ x ∧ x < p + w then UInt8.ofNat (v / 256 ^ (x - p)) else m x

/-- `memset`. -/
def fill (m : Nat → UInt8) (p n : Nat) (b : UInt8) : Nat → UInt8 := fun x =>
  if p ≤ x ∧ x < p + n then b else m x

/-- The two memories are the same on a range. -/
def Agree (m m' : Nat → UInt8) (r : Nat × Nat) : Prop := ∀ x, r.1 ≤ x → x < r.1 + r.2 → m' x = m x

theorem Agree.mono {r s : Nat × Nat} (h : Agree m m' r) (hs : Within s r) : Agree m m' s :=
  fun x hx hx' => h x (Nat.le_trans hs.1 hx) (Nat.lt_of_lt_of_le hx' hs.2)

theorem Agree.trans {m'' : Nat → UInt8} {r : Nat × Nat} (h : Agree m m' r) (h' : Agree m' m'' r) :
    Agree m m'' r := fun x hx hx' => (h' x hx hx').trans (h x hx hx')

theorem load_congr (h : Agree m m' (p, w)) : load w m' p = load w m p := by
  induction w generalizing p with
  | zero => rfl
  | succ w ih =>
    have hfirst : m' p = m p := h p (Nat.le_refl p) (by simp only; omega)
    have hrest : Agree m m' (p + 1, w) := h.mono ⟨Nat.le_succ p, by simp only; omega⟩
    rw [load, load, hfirst, ih hrest]

theorem load_of_agree {o : Nat} (h : Agree m m' (p, n)) (ho : o + w ≤ n) :
    load w m' (p + o) = load w m (p + o) := by
  apply load_congr
  apply h.mono
  exact ⟨Nat.le_add_right p o, by simp only; omega⟩

theorem agree_store (h : Apart (p, w) (q, w')) : Agree m (store w' m q v) (p, w) := by
  intro x hx hx'
  unfold Apart at h
  simp only at h hx hx'
  exact if_neg (by omega)

theorem agree_fill {b : UInt8} (h : Apart (p, w) (q, n)) : Agree m (fill m q n b) (p, w) := by
  intro x hx hx'
  unfold Apart at h
  simp only at h hx hx'
  exact if_neg (by omega)

theorem agree_update {b : UInt8} {r : Nat × Nat} {x : Nat} (h : x < r.1 ∨ r.1 + r.2 ≤ x) :
    Agree m (Function.update m x b) r := by
  intro y hy hy'
  have hne : y ≠ x := by omega
  exact Function.update_of_ne hne b m

theorem load_store_of_apart (h : Apart (p, w) (q, w')) :
    load w (store w' m q v) p = load w m p := load_congr (agree_store h)

theorem store_comm {u : Nat} (h : Apart (p, w) (q, w')) :
    store w (store w' m q v) p u = store w' (store w m p u) q v := by
  unfold Apart at h
  simp only at h
  funext x
  unfold store
  by_cases hp : p ≤ x ∧ x < p + w
  · have hq : ¬ (q ≤ x ∧ x < q + w') := by omega
    rw [if_pos hp, if_neg hq, if_pos hp]
  · rw [if_neg hp, if_neg hp]

theorem load_of_bytes (h : ∀ i < w, (m (p + i)).toNat = v / 256 ^ i % 256) :
    load w m p = v % 256 ^ w := by
  induction w generalizing p v with
  | zero => rw [load, Nat.pow_zero, Nat.mod_one]
  | succ w ih =>
    have hfirst := h 0 (Nat.succ_pos w)
    rw [Nat.add_zero, Nat.pow_zero, Nat.div_one] at hfirst
    have hrest : load w m (p + 1) = v / 256 % 256 ^ w := by
      apply ih
      intro i hi
      have hnext := h (i + 1) (Nat.succ_lt_succ hi)
      rwa [Nat.pow_succ', ← Nat.div_div_eq_div_mul, ← Nat.add_assoc, Nat.add_right_comm] at hnext
    rw [load, hfirst, hrest, Nat.pow_succ', Nat.mod_mul]

theorem load_store_self (hv : v < 256 ^ w) : load w (store w m p v) p = v := by
  have hbytes : ∀ i < w, (store w m p v (p + i)).toNat = v / 256 ^ i % 256 := by
    intro i hi
    have hin : p ≤ p + i ∧ p + i < p + w := ⟨Nat.le_add_right p i, by omega⟩
    rw [store, if_pos hin, Nat.add_sub_cancel_left]
    exact UInt8.toNat_ofNat
  rw [load_of_bytes hbytes, Nat.mod_eq_of_lt hv]

end PortableLib.Bytes
