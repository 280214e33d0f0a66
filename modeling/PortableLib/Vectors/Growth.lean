import PortableLib.FastBuf
import PortableLib.Vectors.Sample

/-! Reservations in the vectors of `fast/vect.h` and the buffers of `fast/buf.h` come to an end as
long as the capacity is not zero. -/

namespace PortableLib.Vectors
open List Function

variable {α η : Type} [DecidableEq η]

/-- `VECT_INIT_FROM`; the array of `v` is set before that of `w` is read, which matters where they
are the same. -/
def vectInitFrom (zero : α) (esz : UInt64) (vs : η → Vect α) (v w : η) : Option (η → Vect α) := do
  let vs := update vs v { vs v with arr := ⟨(vs w).size.toNat, fun _ => zero⟩ }
  let arr ← (vs v).arr.copy 0 (vs w).arr (cellsOf esz ((vs w).size * esz))
  let vs := update vs v { vs v with arr := arr }
  let size := (vs w).size
  return update vs v { vs v with cap := size, size := size }

def vectGetNext (v : Vect α) (e : α) : Option (Vect α) := do
  let arr ← v.arr.write v.size.toNat e
  return { v with arr := arr, size := v.size + 1 }

/-- All that can be done to vectors. `VECT_SORT` and `VECT_SHUFFLE` are the arrangement of the
elements that they leave. -/
inductive Macro (α η : Type)
  | call (c : Call α η)
  | init (v : η) (n : UInt64)
  | initFrom (v w : η)
  | getNext (v : η) (e : α)
  | rearrange (v : η) (cells : Nat → α)
  | sample (a : Realloc α) (rnd : Nat → UInt64) (d s : η) (k : UInt64)

def macroStep (zero : α) (esz : UInt64) (vs : η → Vect α) :
    Macro α η → Option ((η → Vect α) × Unit)
  | .call c => (step zero esz vs c).map fun p => (p.1, ())
  | .init v n => some (update vs v (vectInit zero n), ())
  | .initFrom v w => (vectInitFrom zero esz vs v w).map fun vs => (vs, ())
  | .getNext v e => (vectGetNext (vs v) e).map fun w => (update vs v w, ())
  | .rearrange v cells => some (update vs v { vs v with arr := ⟨(vs v).arr.len, cells⟩ }, ())
  | .sample a rnd d s k => (vectSample zero esz a rnd vs d s k).map fun p => (p.1, ())

def FromNonempty (vs : η → Vect α) : Macro α η → Prop
  | .initFrom _ w => 0 < (vs w).size
  | _ => True

def Roomy (vs : η → Vect α) : Prop := ∀ v, 0 < (vs v).cap

section cap
variable {zero : α} {esz : UInt64} {vs vs' : η → Vect α} {v d s : η} {junk : Nat → α}

theorem Roomy.update {w : Vect α} (h : Roomy vs) (hw : 0 < w.cap) : Roomy (update vs v w) := by
  intro u
  by_cases hu : u = v
  · rw [hu, update_self]
    exact hw
  · rw [update_of_ne hu]
    exact h u

theorem Roomy.keep (h : Roomy vs) (arr : Block α) (size : UInt64) :
    Roomy (let vs := Function.update vs d { vs d with arr := arr }
      Function.update vs d { vs d with size := size }) := by
  have h₁ : Roomy (Function.update vs d { vs d with arr := arr }) := h.update (h d)
  exact h₁.update (h₁ d)

theorem vectReserve_cap {v w : Vect α} {want : UInt64} (hv : 0 < v.cap)
    (h : vectReserve zero esz junk v want = some w) : 0 < w.cap :=
  reservedCap_pos hv (reservedCap_of_vectReserve h).1

theorem step_cap {c : Call α η} {p : (η → Vect α) × Option α} (hvs : Roomy vs)
    (h : step zero esz vs c = some p) : Roomy p.1 := by
  obtain ⟨op, junk⟩ := c
  cases op with
  | reserve v want =>
    obtain ⟨w, hw, rfl⟩ := Option.map_eq_some_iff.mp h
    exact hvs.update (vectReserve_cap (hvs v) hw)
  | ensure v xtra =>
    obtain ⟨w, hw, rfl⟩ := Option.map_eq_some_iff.mp h
    exact hvs.update (vectReserve_cap (hvs v) hw)
  | pushBack v e =>
    obtain ⟨w, hw, rfl⟩ := Option.map_eq_some_iff.mp h
    simp only [vectPushBack, Option.bind_eq_bind, Option.bind_eq_some_iff] at hw
    obtain ⟨w₁, h₁, arr, -, h₂⟩ := hw
    obtain rfl := Option.some.inj h₂
    exact hvs.update (vectReserve_cap (w := w₁) (hvs v) h₁)
  | popBack v =>
    obtain ⟨⟨w, e⟩, hw, rfl⟩ := Option.map_eq_some_iff.mp h
    by_cases hpos : (vs v).size > 0
    · simp only [vectPopBack, if_pos hpos, Option.bind_eq_bind, Option.bind_eq_some_iff] at hw
      obtain ⟨x, -, h₂⟩ := hw
      obtain ⟨rfl, -⟩ := Prod.mk.inj (Option.some.inj h₂)
      exact hvs.update (hvs v)
    · rw [vectPopBack, if_neg hpos] at hw
      cases hw
  | pushFront v e =>
    obtain ⟨w, hw, rfl⟩ := Option.map_eq_some_iff.mp h
    simp only [vectPushFront, Option.bind_eq_bind, Option.bind_eq_some_iff] at hw
    obtain ⟨w₁, h₁, arr, -, arr', -, h₂⟩ := hw
    obtain rfl := Option.some.inj h₂
    exact hvs.update (vectReserve_cap (w := w₁) (hvs v) h₁)
  | popFront v =>
    obtain ⟨⟨w, e⟩, hw, rfl⟩ := Option.map_eq_some_iff.mp h
    simp only [vectPopFront, Option.bind_eq_bind, Option.bind_eq_some_iff] at hw
    obtain ⟨x, -, arr, -, h₂⟩ := hw
    obtain ⟨rfl, -⟩ := Prod.mk.inj (Option.some.inj h₂)
    exact hvs.update (hvs v)
  | reset v =>
    obtain rfl := Option.some.inj h
    exact hvs.update (hvs v)
  | swap a b =>
    obtain rfl := Option.some.inj h
    exact (hvs.update (hvs b)).update (hvs a)
  | copy d s =>
    obtain ⟨vs', hvs', rfl⟩ := Option.map_eq_some_iff.mp h
    simp only [vectCopy, Option.bind_eq_bind, Option.bind_eq_some_iff] at hvs'
    obtain ⟨w, hw, arr, -, h₂⟩ := hvs'
    obtain rfl := Option.some.inj h₂
    exact (hvs.update (vectReserve_cap (hvs d) hw)).keep arr _
  | appendVect d s =>
    obtain ⟨vs', hvs', rfl⟩ := Option.map_eq_some_iff.mp h
    simp only [vectAppendVect, Option.bind_eq_bind, Option.bind_eq_some_iff] at hvs'
    obtain ⟨w, hw, arr, -, h₂⟩ := hvs'
    obtain rfl := Option.some.inj h₂
    exact (hvs.update (vectReserve_cap (hvs d) hw)).keep arr _

theorem sampleStore_cap {stale : Bool} {j i : Nat} (hvs : Roomy vs)
    (h : sampleStore stale vs d s j i = some vs') : Roomy vs' := by
  cases stale with
  | true => cases h
  | false =>
    simp only [sampleStore, Bool.false_eq_true, if_false, Option.bind_eq_bind,
      Option.bind_eq_some_iff] at h
    obtain ⟨e, -, arr, -, h₂⟩ := h
    obtain rfl := Option.some.inj h₂
    exact hvs.update (hvs d)

theorem sampleRound_cap {stale : Bool} {k i : Nat} {r : UInt64} (hvs : Roomy vs)
    (h : sampleRound stale d s k r vs i = some vs') : Roomy vs' := by
  by_cases hj : r.toNat % (i + 1) < k
  · exact sampleStore_cap hvs ((if_pos hj).symm.trans h)
  · obtain rfl := Option.some.inj ((if_neg hj).symm.trans h)
    exact hvs

theorem vectSample_cap {a : Realloc α} {rnd : Nat → UInt64} {k : UInt64}
    {p : (η → Vect α) × Bool} (hvs : Roomy vs)
    (h : vectSample zero esz a rnd vs d s k = some p) : Roomy p.1 := by
  by_cases hk : k < (vs s).size
  · simp only [vectSample, if_pos hk, Option.bind_eq_bind, Option.bind_eq_some_iff] at h
    obtain ⟨w, hw, vs₁, h₁, vs₂, h₂, h₃⟩ := h
    obtain rfl := Option.some.inj h₃
    have hgrown : Roomy (update vs d { w with size := k }) :=
      hvs.update (vectReserve_cap (w := w) (hvs d) hw)
    have hfirst : Roomy vs₁ :=
      Run.foldlM_keeps (fun _ _ _ hvs hstore => sampleStore_cap hvs hstore) hgrown h₁
    exact Run.foldlM_keeps (fun _ _ _ hvs hround => sampleRound_cap hvs hround) hfirst h₂
  · obtain rfl := Option.some.inj ((if_neg hk).symm.trans h)
    exact hvs

theorem vectInitFrom_cap {w : η} (h : vectInitFrom zero esz vs v w = some vs') :
    (vs' v).cap = (vs w).size ∧ ∀ u, u ≠ v → vs' u = vs u := by
  simp only [vectInitFrom, Option.bind_eq_bind, Option.bind_eq_some_iff] at h
  obtain ⟨arr, -, h₂⟩ := h
  obtain rfl := Option.some.inj h₂
  refine ⟨?_, fun u hu => ?_⟩
  · rw [update_self, size_of_grown, size_of_grown]
    · rfl
    · rw [update_self]
  · rw [update_of_ne hu, update_of_ne hu, update_of_ne hu]

theorem vectInitFrom_empty (zero : α) (esz : UInt64) (vs : η → Vect α) (v : η) {w : η}
    (hw : (vs w).size = 0) : ∃ vs', vectInitFrom zero esz vs v w = some vs' := by
  have hsize :
      (update vs v { vs v with arr := ⟨(vs w).size.toNat, fun _ => zero⟩ } w).size = 0 := by
    rw [size_of_grown, hw]
    rfl
  have hcells : cellsOf esz 0 = 0 := Nat.zero_div _
  rw [vectInitFrom]
  simp only [hsize, UInt64.zero_mul, hcells, Block.copy_of_le (Nat.zero_le _) (Nat.zero_le _),
    Option.bind_eq_bind, Option.bind_some]
  exact ⟨_, rfl⟩

theorem macroStep_cap {m : Macro α η} {p : (η → Vect α) × Unit} (hvs : Roomy vs)
    (hm : FromNonempty vs m) (h : macroStep zero esz vs m = some p) : Roomy p.1 := by
  cases m with
  | call c =>
    obtain ⟨p, hp, rfl⟩ := Option.map_eq_some_iff.mp h
    exact step_cap hvs hp
  | init v n =>
    obtain rfl := Option.some.inj h
    exact hvs.update (UInt64.lt_iff_toNat_lt.mpr (vectInit_spec zero n).cap_pos)
  | initFrom v w =>
    obtain ⟨vs', hvs', rfl⟩ := Option.map_eq_some_iff.mp h
    obtain ⟨hcap, hothers⟩ := vectInitFrom_cap hvs'
    intro u
    change 0 < (vs' u).cap
    by_cases hu : u = v
    · rw [hu, hcap]
      exact hm
    · rw [hothers u hu]
      exact hvs u
  | getNext v e =>
    obtain ⟨w, hw, rfl⟩ := Option.map_eq_some_iff.mp h
    simp only [vectGetNext, Option.bind_eq_bind, Option.bind_eq_some_iff] at hw
    obtain ⟨arr, -, h₂⟩ := hw
    obtain rfl := Option.some.inj h₂
    exact hvs.update (hvs v)
  | rearrange v cells =>
    obtain rfl := Option.some.inj h
    exact hvs.update (hvs v)
  | sample a rnd d s k =>
    obtain ⟨p, hp, rfl⟩ := Option.map_eq_some_iff.mp h
    exact vectSample_cap hvs hp

theorem macroStep_empty {m : Macro α η} (hm : ¬ FromNonempty vs m) :
    ∃ p, macroStep zero esz vs m = some p ∧ ¬ Roomy p.1 := by
  cases m with
  | initFrom v w =>
    have hsize : (vs w).size = 0 := UInt64.le_zero_iff.mp (UInt64.not_lt.mp hm)
    obtain ⟨vs', hvs'⟩ := vectInitFrom_empty zero esz vs v hsize
    refine ⟨(vs', ()), congrArg (Option.map _) hvs', fun hroomy => ?_⟩
    have hpos : 0 < (vs' v).cap := hroomy v
    rw [(vectInitFrom_cap hvs').1, hsize] at hpos
    exact UInt64.lt_irrefl 0 hpos
  | _ => exact absurd trivial hm

end cap

end PortableLib.Vectors
