import PortableLib.FastHt.Invariant

/-! The calls of `fast-ht` against a finite map from keys to values. -/

namespace PortableLib.FastHt
open List Chained Run

def mapStep (m : UInt64 → Option Ptr) : Op → (UInt64 → Option Ptr) × Ret
  | .probe _ k v =>
    match m k with
    | some v₀ => (m, .value v₀)
    | none => (Function.update m k (some v), .value 0)
  | .find k => (m, .found (m k))
  | .replace k v =>
    match m k with
    | some _ => (Function.update m k (some v), .replaced true)
    | none => (m, .replaced false)
  | .remove k => (Function.update m k none, .found (m k))

def emptyMap : UInt64 → Option Ptr := fun _ => none

/-- The memory for the state after the call could be had. -/
def Allocates (mt : Matcher) (h : Ht) (op : Op) : Prop := ∀ p ∈ step mt h op, p.1.Fits

instance (mt : Matcher) (h : Ht) (op : Op) : Decidable (Allocates mt h op) :=
  inferInstanceAs (Decidable (∀ p ∈ step mt h op, p.1.Fits))

def Refines (h : Ht) (m : UInt64 → Option Ptr) : Prop := h.WF ∧ h.Fits ∧ Represents h.slots m

def StepRefines (mt : Matcher) (h : Ht) (m : UInt64 → Option Ptr) (op : Op) : Prop :=
  ∃ p, step mt h op = some p ∧ p.1.WF ∧ Represents p.1.slots (mapStep m op).1 ∧
    p.2 = (mapStep m op).2

section Steps
variable (mt : Matcher) {h : Ht} {m : UInt64 → Option Ptr} {k : UInt64}

theorem probe_refines (hr : h.WF) (hn : h.n.toNat < 2 ^ 60) (hm : Represents h.slots m) (hk : k ≠ 0)
    (salt : UInt64) (v : Ptr) : StepRefines mt h m (.probe salt k v) := by
  cases hmk : m k with
  | some v₀ =>
    obtain ⟨h', hp, hw', hs, -⟩ := htProbe_present mt hr hn hm hk hmk salt v
    refine ⟨(h', .value v₀), by simp only [step, hp, Option.map_some], hw', ?_, ?_⟩
    · simpa only [mapStep, hmk] using hm.perm hs
    · simp only [mapStep, hmk]
  | none =>
    obtain ⟨b, b', hb, hs, -, hw', hp⟩ := htProbe_absent mt hr hm hk hmk salt v
    obtain ⟨q, hq, hwq, hsq, -⟩ := split_spec hw' hn salt b' k
    refine ⟨(noteMax q.1 q.2, .value 0), by simp only [step, hp, hq, Option.map_some],
      hwq.congr rfl rfl rfl, ?_, ?_⟩
    · simp only [mapStep, hmk]
      exact (hm.cons hmk).perm (hsq.trans (entries_set_perm_cons hb hs))
    · simp only [mapStep, hmk]

theorem find_refines (hr : h.WF) (hm : Represents h.slots m) (hk : k ≠ 0) :
    StepRefines mt h m (.find k) := by
  refine ⟨(h, .found (m k)), ?_, hr, hm, rfl⟩
  simp only [step, htFind_spec mt hr hm hk, Option.map_some]

theorem replace_refines (hr : h.WF) (hm : Represents h.slots m) (hk : k ≠ 0) (v : Ptr) :
    StepRefines mt h m (.replace k v) := by
  rcases htReplace_spec mt hr hm hk v with
    ⟨hmk, hp⟩ | ⟨v₀, b, b', rest, hmk, hb, hp, hc, hn', hs, hs'⟩
  · refine ⟨(h, .replaced false), by simp only [step, hp, Option.map_some], hr, ?_, ?_⟩
    · simpa only [mapStep, hmk] using hm
    · simp only [mapStep, hmk]
  · have hw := replace_wf hr hb hc hn' hs hs'
    refine ⟨_, by simp only [step, hp, Option.map_some]; rfl, hw, ?_, ?_⟩
    · simp only [mapStep, hmk]
      -- the old pair leaves the map, then the new pair enters it
      obtain ⟨l, hl, hl'⟩ := entries_set_exchange hb hs hs'
      have hrest := (hm.perm hl).of_cons
      have hnone : Function.update m k none k = none := Function.update_self ..
      have hboth := (hrest.cons (v := v) hnone).perm hl'
      rwa [Function.update_idem] at hboth
    · simp only [mapStep, hmk]

theorem remove_refines (hr : h.WF) (hm : Represents h.slots m) (hk : k ≠ 0) :
    StepRefines mt h m (.remove k) := by
  rcases htRemove_spec mt hr hm hk with ⟨hmk, hp⟩ | ⟨v₀, b, b', hmk, hb, hp, hc, hn', hs⟩
  · refine ⟨(h, .found none), by simp only [step, hp, Option.map_some], hr, ?_, ?_⟩
    · simp only [mapStep]
      rwa [← hmk, Function.update_eq_self]
    · simp only [mapStep, hmk]
  · refine ⟨_, by simp only [step, hp, Option.map_some]; rfl, remove_wf hr hb hc hn' hs, ?_, ?_⟩
    · exact (hm.perm (entries_set_cons_perm hb hs)).of_cons
    · simp only [mapStep, hmk]

theorem step_refines (hr : h.WF) (hfit : h.Fits) (hm : Represents h.slots m) (op : Op)
    (hk : op.key ≠ 0) : StepRefines mt h m op := by
  cases op with
  | probe salt k v => exact probe_refines mt hr (hfit.n_lt hr) hm hk salt v
  | find k => exact find_refines mt hr hm hk
  | replace k v => exact replace_refines mt hr hm hk v
  | remove k => exact remove_refines mt hr hm hk

end Steps

theorem htInit_n {size : UInt32} (hsize : size.toNat ≤ 2 ^ 31) (maxfill : UInt32) (salt : UInt64) :
    0 < (htInit size maxfill salt).n.toNat ∧ (htInit size maxfill salt).n.toNat ≤ 2 ^ 31 := by
  simp only [htInit, UInt32.toNat_toUInt64]
  split_ifs with h0 hpow
  · decide
  · have hpos : 0 < size.toUInt64.toNat := by
      rw [UInt32.toNat_toUInt64]
      exact Nat.pos_of_ne_zero fun h => h0 (UInt32.toNat_inj.mp h)
    have hb := TypeUtils.nextPow2_bounds (v := size.toUInt64) (w := 31) (by decide) hpos
      (by simpa using hsize)
    rw [UInt64.toNat_toUInt32, Nat.mod_eq_of_lt (by omega)]
    exact hb
  · exact ⟨Nat.pos_of_ne_zero fun h => h0 (UInt32.toNat_inj.mp h), hsize⟩

theorem htInit_length (size maxfill : UInt32) (salt : UInt64) :
    (htInit size maxfill salt).b.length = (htInit size maxfill salt).n.toNat := by
  simp [htInit]

theorem htInit_wf_of_pos {size maxfill : UInt32} {salt : UInt64}
    (hpos : 0 < (htInit size maxfill salt).n.toNat) : (htInit size maxfill salt).WF where
  len := htInit_length size maxfill salt
  pos := hpos
  canon := forall_mem_replicate _ (by intro g hg; cases hg)
  placed := placed_replicate _ slots_newz
  counted := forall_mem_replicate _ rfl

theorem htInit_wf {size : UInt32} (hsize : size.toNat ≤ 2 ^ 31) (maxfill : UInt32) (salt : UInt64) :
    (htInit size maxfill salt).WF :=
  htInit_wf_of_pos (htInit_n hsize maxfill salt).1

theorem htInit_slots (size maxfill : UInt32) (salt : UInt64) :
    (htInit size maxfill salt).slots = [] :=
  entries_replicate _ slots_newz

theorem htInit_fits {size : UInt32} (hsize : size.toNat ≤ 2 ^ 31) (maxfill : UInt32)
    (salt : UInt64) : (htInit size maxfill salt).Fits := by
  have hb := (htInit_n hsize maxfill salt).2
  have hlen := htInit_length size maxfill salt
  have hbags : ((htInit size maxfill salt).b.map fun b => b.head.length).sum = 0 := by
    simp [htInit, Hb.newz]
  unfold Ht.Fits
  omega

theorem htInit_refines {size : UInt32} (hsize : size.toNat ≤ 2 ^ 31) (maxfill : UInt32)
    (salt : UInt64) : Refines (htInit size maxfill salt) emptyMap := by
  refine ⟨htInit_wf hsize maxfill salt, htInit_fits hsize maxfill salt, ?_⟩
  rw [htInit_slots]
  exact represents_nil

/-- Every finite sequence of calls with non-zero keys returns what a finite map would, and the
table holds each present key in exactly one slot. -/
theorem run_refines_map (mt : Matcher) (size maxfill : UInt32) (hsize : size.toNat ≤ 2 ^ 31)
    (salt : UInt64) (ops : List Op) (hkeys : ∀ op ∈ ops, op.key ≠ 0)
    (halloc : StepsMeet (step mt) (Allocates mt) (htInit size maxfill salt) ops) :
    ∃ h rets, run (step mt) (htInit size maxfill salt) ops = some (h, rets) ∧
      rets = (runTotal mapStep emptyMap ops).2 ∧
      ∀ k, h.slots.filter (fun p => p.1 = k) =
        ((runTotal mapStep emptyMap ops).1 k).toList.map fun v => (k, v) := by
  obtain ⟨⟨h, rets⟩, hrun, hR, hrets⟩ := run_simulates (R := Refines) (f := mapStep)
    (fun s m op hs hC => by
      obtain ⟨p, hp, hw, hm, hret⟩ := step_refines mt hs.1 hs.2.1 hs.2.2 op hC.2
      exact ⟨p, hp, ⟨hw, hC.1 p hp, hm⟩, hret⟩)
    (htInit_refines hsize maxfill salt) (halloc.and_forall hkeys)
  exact ⟨h, rets, hrun, hrets, hR.2.2.filter_key⟩

theorem run_refines_map_doubling :
    ∃ h rets, run (step .software) (htInit 1 1 3)
        [.probe 5 17 9, .probe 6 33 4, .find 17, .replace 33 8, .remove 17, .find 17, .find 33] =
          some (h, rets) ∧
      rets = [.value 0, .value 0, .found (some 9), .replaced true, .found (some 9), .found none,
        .found (some 8)] := by
  obtain ⟨h, rets, hrun, hrets, -⟩ := run_refines_map .software 1 1 (by decide) 3
    [.probe 5 17 9, .probe 6 33 4, .find 17, .replace 33 8, .remove 17, .find 17, .find 33]
    (by decide) (by decide)
  exact ⟨h, rets, hrun, hrets.trans (by decide)⟩

end PortableLib.FastHt
