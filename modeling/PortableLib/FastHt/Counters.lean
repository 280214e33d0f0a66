import PortableLib.FastHt.Refinement
import Mathlib.Data.Finset.Card

/-! The counters of a table: `nodes` of the table and of each bucket, and `fill`. -/

namespace PortableLib.FastHt
open List Chained Run

/-- The documented meaning of the counters. -/
structure Ht.Exact (h : Ht) : Prop where
  nodes : h.nodes.toNat = (h.slots.map Prod.fst).toFinset.card
  bucket : ∀ b ∈ h.b, b.nodes.toNat = b.slots.length
  fill : h.fill.toNat = h.b.countP Hb.live

def load (n salt : UInt64) (ps : List (UInt64 × Ptr)) (j : Nat) : Nat :=
  ps.countP fun p => place n salt p = j

def Ht.testPct (h : Ht) : UInt64 := { h with fill := h.fill + 1 }.fpct

/-- No call probes a key stored with a `NULL` value, none removes the last key of a bucket,
and no bucket, of the table or of the doubled one, receives its `2^32`nd key. -/
def KeepsCounts (h : Ht) : Op → Prop
  | .probe salt k v =>
    (k, 0) ∉ h.slots ∧
      (h.slots.lookup k = none →
        load h.n h.salt h.slots (hash k h.n h.salt).toNat + 1 < 2 ^ 32 ∧
        (load h.n h.salt h.slots (hash k h.n h.salt).toNat = 0 → h.testPct > h.maxfill →
          ∀ j < (h.n * 2).toNat, load (h.n * 2) salt ((k, v) :: h.slots) j < 2 ^ 32))
  | .remove k =>
    h.slots.lookup k ≠ none → 2 ≤ load h.n h.salt h.slots (hash k h.n h.salt).toNat
  | .find _ => True
  | .replace _ _ => True

instance (h : Ht) (op : Op) : Decidable (KeepsCounts h op) := by
  cases op <;> unfold KeepsCounts <;> infer_instance

section Bounds
variable {h : Ht}

theorem Bag.Canon.length_slots_le {g : Bag} (hg : g.Canon) : g.slots.length ≤ 1 := by
  rcases hg.cases with ⟨-, hs⟩ | ⟨k, v, -, -, hs⟩ <;> simp [hs]

theorem Hb.Canon.length_slots_le {b : Hb} (hb : b.Canon) : b.slots.length ≤ b.head.length := by
  have := length_entries_le (E := Bag.slots) (f := fun _ => 1) fun g hg => (hb g hg).length_slots_le
  simpa [Hb.slots, entries] using this

theorem length_slots_le (hw : h.WF) : h.slots.length ≤ (h.b.map fun b => b.head.length).sum :=
  length_entries_le fun b hb => (hw.canon b hb).length_slots_le

theorem countP_live_le_length (bs : List Hb) :
    bs.countP Hb.live ≤ (bs.flatMap Hb.slots).length := by
  induction bs with
  | nil => exact Nat.le_refl _
  | cons b bs ih =>
    rw [countP_cons, flatMap_cons, length_append]
    split_ifs with hl
    · have : 0 < b.slots.length := by simpa [Hb.live, length_pos_iff] using hl
      omega
    · omega

theorem Ht.Fits.slots_lt (hf : h.Fits) (hw : h.WF) : h.slots.length < 2 ^ 57 := by
  have := length_slots_le hw
  unfold Ht.Fits at hf
  omega

theorem Ht.Fits.live_lt (hf : h.Fits) (hw : h.WF) : h.b.countP Hb.live < 2 ^ 57 :=
  lt_of_le_of_lt (countP_live_le_length h.b) (hf.slots_lt hw)

end Bounds

theorem live_of_perm_cons {b : Hb} {p : UInt64 × Ptr} {l : List (UInt64 × Ptr)}
    (h : b.slots ~ p :: l) : b.live = true := by
  have : b.slots ≠ [] := fun h0 => by rw [h0] at h; exact absurd h.length_eq (by simp)
  simpa [Hb.live] using this

theorem Hb.Counted.succ_eq_one_iff {b : Hb} (hc : b.Counted) (hlt : b.slots.length < 2 ^ 32) :
    b.nodes + 1 = 1 ↔ b.live = false := by
  have hzero : b.nodes = 0 ↔ b.live = false := by
    rw [hc, ← UInt32.toNat_inj, UInt32.toNat_ofNat', Nat.mod_eq_of_lt hlt]
    simp [Hb.live]
  rw [← hzero]
  exact ⟨fun h => by simpa using h, fun h => by rw [h]; rfl⟩

theorem Hb.Counted.toNat_nodes {b : Hb} (hc : b.Counted) (hlt : b.slots.length < 2 ^ 32) :
    b.nodes.toNat = b.slots.length := by
  rw [hc, UInt32.toNat_ofNat', Nat.mod_eq_of_lt hlt]

theorem load_perm {n salt : UInt64} {ps qs : List (UInt64 × Ptr)} (h : ps ~ qs) (j : Nat) :
    load n salt ps j = load n salt qs j := h.countP_eq _

theorem load_append (n salt : UInt64) (ps qs : List (UInt64 × Ptr)) (j : Nat) :
    load n salt (ps ++ qs) j = load n salt ps j + load n salt qs j := countP_append ..

theorem rehash_fill {n salt : UInt64} (hn : 0 < n.toNat) (qs : List (UInt64 × Ptr))
    (hq : ∀ q ∈ qs, q.1 ≠ 0) {r r' : Rehash} {ps : List (UInt64 × Ptr)} (h : RehashOk n salt r ps)
    (hfill : r.fill.toNat = r.b.countP Hb.live)
    (hload : ∀ j < n.toNat, load n salt (qs.reverse ++ ps) j < 2 ^ 32)
    (hr : qs.foldlM (rehashOne n salt) r = some r') : r'.fill.toNat = r'.b.countP Hb.live := by
  induction qs generalizing r ps with
  | nil =>
    obtain rfl : r = r' := by simpa using hr
    exact hfill
  | cons q qs ih =>
    obtain ⟨r₁, x, hr₁, h₁, hx, hb₁, hf₁⟩ := rehashOne_spec hn h (hq q mem_cons_self)
    rw [foldlM_cons, hr₁] at hr
    rw [reverse_cons, append_assoc] at hload
    refine ih (fun p hp => hq p (mem_cons_of_mem _ hp)) h₁ ?_ hload hr
    have hj : place n salt q < n.toNat := hash_lt hn q.1 salt
    have hxlen : x.slots.length < 2 ^ 32 := by
      have hcount := h.placed.countP_eq_length hx
      rw [h.perm.countP_eq] at hcount
      have hle := hload _ hj
      rw [load_append, load_append] at hle
      have : load n salt ps (place n salt q) = x.slots.length := hcount
      omega
    have hx0 := (h.counted x (mem_of_getElem? hx)).succ_eq_one_iff hxlen
    have hset := countP_set_add Hb.live hx (insertFresh x q.1 q.2)
    have hlive : (insertFresh x q.1 q.2).live = true :=
      live_of_perm_cons (.of_eq (slots_insertFresh x (hq q mem_cons_self) q.2))
    have hbound : r₁.b.countP Hb.live < 2 ^ 64 :=
      lt_of_le_of_lt (countP_le_length.trans h₁.len.le) n.toNat_lt
    rw [← hb₁, hlive, if_pos rfl] at hset
    rw [hf₁]
    by_cases hxl : x.live = true
    · rw [if_neg (by rw [hx0, hxl]; decide), hfill]
      rw [hxl, if_pos rfl] at hset
      omega
    · rw [Bool.not_eq_true] at hxl
      rw [if_pos (hx0.mpr hxl), UInt64.toNat_add, hfill, show (1 : UInt64).toNat = 1 from rfl]
      rw [hxl, if_neg (by decide)] at hset
      omega

theorem resize_counts {h h' : Ht} (hw : h.WF) (hn : h.n.toNat < 2 ^ 60) {salt : UInt64}
    (hload : ∀ j < (h.n * 2).toNat, load (h.n * 2) salt h.slots j < 2 ^ 32)
    (hr : resize salt h = some h') :
    h'.fill.toNat = h'.b.countP Hb.live ∧ ∀ b ∈ h'.b, b.slots.length < 2 ^ 32 := by
  have hpos : 0 < (h.n * 2).toNat := by
    rw [toNat_double hn]
    exact Nat.mul_pos (by decide) hw.pos
  obtain ⟨r, hr', hok⟩ := rehash_spec hpos h.slots (fun p => hw.key_ne_zero)
    (rehashOk_init (h.n * 2) salt)
  simp only [resize, hr', Option.map_some, Option.some.injEq] at hr
  subst hr
  have hload' : ∀ j < (h.n * 2).toNat, load (h.n * 2) salt (h.slots.reverse ++ []) j < 2 ^ 32 := by
    intro j hj
    rw [append_nil, load_perm (reverse_perm _)]
    exact hload j hj
  refine ⟨rehash_fill hpos h.slots (fun p => hw.key_ne_zero) (rehashOk_init _ salt) ?_ hload' hr',
    ?_⟩
  · rw [countP_replicate, if_neg (by decide)]
    rfl
  · intro b hb
    obtain ⟨j, hj⟩ := getElem?_of_mem hb
    have hlt : j < (h.n * 2).toNat := by
      rw [← hok.len]
      exact (List.getElem?_eq_some_iff.mp hj).1
    rw [← hok.placed.countP_eq_length hj, hok.perm.countP_eq]
    exact hload' j hlt

structure Ht.Counts (h : Ht) : Prop where
  nodes : h.nodes.toNat = h.slots.length
  small : ∀ b ∈ h.b, b.slots.length < 2 ^ 32
  fill : h.fill.toNat = h.b.countP Hb.live

theorem split_counts {h : Ht} {b : Hb} {k salt : UInt64} {p : Ht × Hb} (hw : h.WF)
    (hn : h.n.toNat < 2 ^ 60) (hnodes : h.nodes.toNat = h.slots.length)
    (hsmall : ∀ b ∈ h.b, b.slots.length < 2 ^ 32)
    (hfill : h.fill.toNat + (if b.nodes = 1 then 1 else 0) = h.b.countP Hb.live)
    (hload : b.nodes = 1 → h.testPct > h.maxfill →
      ∀ j < (h.n * 2).toNat, load (h.n * 2) salt h.slots j < 2 ^ 32)
    (hp : split salt h b k = some p) : p.1.Counts := by
  have hle : h.b.countP Hb.live < 2 ^ 60 :=
    lt_of_le_of_lt (countP_le_length.trans hw.len.le) hn
  simp only [split] at hp
  split_ifs at hp with h1 h2
  · obtain ⟨h', hr, hw', hs, hnodes'⟩ := resize_spec
      (h := { h with fill := h.fill + 1, splits := h.splits + 1 }) (hw.congr rfl rfl rfl) hn salt
    obtain ⟨b', hb'⟩ := hw'.bucket k
    simp only [hr, hb', Option.bind_some, Option.map_some, Option.some.injEq] at hp
    subst hp
    have hc := resize_counts (h := { h with fill := h.fill + 1, splits := h.splits + 1 })
      (hw.congr rfl rfl rfl) hn (hload h1 h2) hr
    exact ⟨by rw [hnodes', hs.length_eq]; exact hnodes, hc.2, hc.1⟩
  · obtain rfl := Option.some.inj hp
    rw [if_pos h1] at hfill
    refine ⟨hnodes, hsmall, ?_⟩
    change (h.fill + 1).toNat = h.b.countP Hb.live
    rw [UInt64.toNat_add, show (1 : UInt64).toNat = 1 from rfl]
    omega
  · obtain rfl := Option.some.inj hp
    rw [if_neg h1] at hfill
    exact ⟨hnodes, hsmall, hfill⟩

section Step
variable {h : Ht} {m : UInt64 → Option Ptr} {k : UInt64}

theorem load_eq_length {b : Hb} (hw : h.WF) (hb : h.b[(hash k h.n h.salt).toNat]? = some b) :
    load h.n h.salt h.slots (hash k h.n h.salt).toNat = b.slots.length :=
  hw.placed.countP_eq_length hb

theorem probe_counts (mt : Matcher) (hr : Refines h m) (hc : h.Counts) (hk : k ≠ 0)
    {salt : UInt64} {v : Ptr} (hok : KeepsCounts h (.probe salt k v)) {p : Ht × Ptr}
    (hp : htProbe mt salt h k v = some p) (hfit : p.1.Fits) : p.1.Counts := by
  obtain ⟨hw, hf, hm⟩ := hr
  have hn := hf.n_lt hw
  have hlook : h.slots.lookup k = m k := lookup_eq_of_mem_iff (hm.2 k)
  cases hmk : m k with
  | some v₀ =>
    -- a key stored with `NULL` would be counted again
    have hv₀ : v₀ ≠ 0 := fun h0 => hok.1 ((hm.2 k 0).mpr (h0 ▸ hmk))
    obtain ⟨h', hp', -, -, heq⟩ := htProbe_present mt hw hn hm hk hmk salt v
    obtain rfl : (h', v₀) = p := Option.some.inj (hp'.symm.trans hp)
    rw [heq hv₀]
    exact hc
  | none =>
    obtain ⟨hroom, hdbl⟩ := hok.2 (hlook.trans hmk)
    obtain ⟨b, b', hb, hs, hnb, hw', hp'⟩ := htProbe_absent mt hw hm hk hmk salt v
    obtain ⟨q, hq, hwq, hsq, -⟩ := split_spec hw' hn salt b' k
    rw [hp', hq, Option.map_some, Option.some.injEq] at hp
    subst hp
    rw [load_eq_length hw hb] at hroom hdbl
    have hnb1 : b'.nodes = 1 ↔ b.live = false := by
      rw [hnb]
      exact (hw.counted b (mem_of_getElem? hb)).succ_eq_one_iff (by omega)
    have hslots : (h.added k b').slots ~ (k, v) :: h.slots := entries_set_perm_cons hb hs
    have hlen := hslots.length_eq
    have hlt : q.1.slots.length < 2 ^ 57 := hfit.slots_lt (hwq.congr rfl rfl rfl)
    rw [hsq.length_eq] at hlt
    have hset := countP_set_add Hb.live hb b'
    rw [live_of_perm_cons hs, if_pos rfl] at hset
    have hcq : q.1.Counts := by
      refine split_counts (b := b') hw' hn ?_ (forall_mem_set hc.small ?_) ?_ ?_ hq
      · change (h.nodes + 1).toNat = _
        rw [UInt64.toNat_add, hc.nodes, show (1 : UInt64).toNat = 1 from rfl]
        rw [length_cons] at hlen
        omega
      · rw [hs.length_eq, length_cons]
        exact hroom
      · change h.fill.toNat + _ = _
        rw [hc.fill]
        cases hbl : b.live with
        | true =>
          rw [if_neg (by rw [hnb1, hbl]; decide)]
          rw [hbl, if_pos rfl] at hset
          exact (Nat.add_right_cancel hset).symm
        | false =>
          rw [if_pos (hnb1.mpr hbl)]
          rw [hbl, if_neg (by decide)] at hset
          exact hset.symm
      · intro h1 h2 j hj
        rw [load_perm hslots]
        refine hdbl ?_ h2 j hj
        simpa [Hb.live] using hnb1.mp h1
    exact ⟨hcq.nodes, hcq.small, hcq.fill⟩

theorem live_iff_length {b : Hb} : b.live = true ↔ 0 < b.slots.length := by
  simp [Hb.live, length_pos_iff]

theorem countP_live_set_of_live {bs : List Hb} {i : Nat} {b b' : Hb} (hi : bs[i]? = some b)
    (hb : b.live = true) (hb' : b'.live = true) :
    (bs.set i b').countP Hb.live = bs.countP Hb.live := by
  have := countP_set_add Hb.live hi b'
  rw [hb, hb'] at this
  exact Nat.add_right_cancel this

theorem replace_counts (mt : Matcher) (hr : Refines h m) (hc : h.Counts) (hk : k ≠ 0) {v : Ptr}
    {p : Ht × Bool} (hp : htReplace mt h k v = some p) : p.1.Counts := by
  obtain ⟨hw, -, hm⟩ := hr
  rcases htReplace_spec mt hw hm hk v with ⟨-, hp'⟩ | ⟨v₀, b, b', rest, -, hb, hp', -, -, hs, hs'⟩
  · obtain rfl := Option.some.inj (hp'.symm.trans hp)
    exact hc
  · obtain rfl := Option.some.inj (hp'.symm.trans hp)
    obtain ⟨l, hl, hl'⟩ := entries_set_exchange (E := Hb.slots) hb hs hs'
    refine ⟨?_, forall_mem_set hc.small ?_, ?_⟩
    · exact hc.nodes.trans (hl.length_eq.symm.trans hl'.length_eq.symm)
    · have := hc.small b (mem_of_getElem? hb)
      rwa [hs.length_eq, length_cons, ← length_cons (a := (k, v)), ← hs'.length_eq] at this
    · exact hc.fill.trans
        (countP_live_set_of_live hb (live_of_perm_cons hs) (live_of_perm_cons hs')).symm

theorem remove_counts (mt : Matcher) (hr : Refines h m) (hc : h.Counts) (hk : k ≠ 0)
    (hok : KeepsCounts h (.remove k)) {p : Ht × Option Ptr} (hp : htRemove mt h k = some p) :
    p.1.Counts := by
  obtain ⟨hw, -, hm⟩ := hr
  rcases htRemove_spec mt hw hm hk with ⟨-, hp'⟩ | ⟨v₀, b, b', hmk, hb, hp', -, -, hs⟩
  · obtain rfl := Option.some.inj (hp'.symm.trans hp)
    exact hc
  · obtain rfl := Option.some.inj (hp'.symm.trans hp)
    have hlook : h.slots.lookup k = m k := lookup_eq_of_mem_iff (hm.2 k)
    have hroom := hok (by rw [hlook, hmk]; exact Option.some_ne_none v₀)
    rw [load_eq_length hw hb, ← hs.length_eq, length_cons] at hroom
    have hslots := (entries_set_cons_perm (E := Hb.slots) hb hs).length_eq
    refine ⟨?_, forall_mem_set hc.small ?_, ?_⟩
    · change (h.nodes - 1).toNat = (entries Hb.slots _).length
      have hnodes := hc.nodes.trans hslots.symm
      rw [length_cons] at hnodes
      rw [UInt64.toNat_sub_of_le, hnodes]
      · rfl
      · rw [UInt64.le_iff_toNat_le, hnodes]
        exact Nat.le_add_left 1 _
    · have := hc.small b (mem_of_getElem? hb)
      rw [← hs.length_eq, length_cons] at this
      omega
    · refine hc.fill.trans (countP_live_set_of_live hb ?_ ?_).symm
      · exact live_of_perm_cons hs.symm
      · exact live_iff_length.mpr (by omega)

theorem step_counts (mt : Matcher) (hr : Refines h m) (hc : h.Counts) {op : Op} (hk : op.key ≠ 0)
    (hok : KeepsCounts h op) {p : Ht × Ret} (hp : step mt h op = some p) (hfit : p.1.Fits) :
    p.1.Counts := by
  cases op with
  | probe salt k v =>
    obtain ⟨q, hq, rfl⟩ := Option.map_eq_some_iff.mp hp
    exact probe_counts mt hr hc hk hok hq hfit
  | find k =>
    obtain ⟨q, -, rfl⟩ := Option.map_eq_some_iff.mp hp
    exact hc
  | replace k v =>
    obtain ⟨q, hq, rfl⟩ := Option.map_eq_some_iff.mp hp
    exact replace_counts mt hr hc hk hq
  | remove k =>
    obtain ⟨q, hq, rfl⟩ := Option.map_eq_some_iff.mp hp
    exact remove_counts mt hr hc hk hok hq

end Step

theorem Ht.Counts.exact {h : Ht} {m : UInt64 → Option Ptr} (hc : h.Counts) (hr : Refines h m) :
    h.Exact where
  nodes := by rw [toFinset_card_of_nodup hr.2.2.1, length_map, hc.nodes]
  bucket b hb := (hr.1.counted b hb).toNat_nodes (hc.small b hb)
  fill := hc.fill

theorem Ht.Counts.testPct_eq {h : Ht} (hc : h.Counts) (hw : h.WF) (hf : h.Fits) :
    h.testPct.toNat = 100 * (h.b.countP Hb.live + 1) / h.b.length := by
  have hlt := hf.live_lt hw
  rw [Ht.testPct, Ht.fpct, UInt64.toNat_div, UInt64.toNat_mul, UInt64.toNat_add, hc.fill, hw.len,
    show (1 : UInt64).toNat = 1 from rfl, show (100 : UInt64).toNat = 100 from rfl,
    Nat.mod_eq_of_lt (by omega), Nat.mod_eq_of_lt (by omega), Nat.mul_comm]

/-- In every run whose calls keep the counts, the counters mean what their documentation says
and the split test sees the true fill percentage. -/
theorem run_counters_exact (mt : Matcher) (size maxfill : UInt32) (hsize : size.toNat ≤ 2 ^ 31)
    (salt : UInt64) (ops : List Op) (hkeys : ∀ op ∈ ops, op.key ≠ 0)
    (hsteps : StepsMeet (step mt) (fun h op => Allocates mt h op ∧ KeepsCounts h op)
      (htInit size maxfill salt) ops) :
    ∃ h rets, run (step mt) (htInit size maxfill salt) ops = some (h, rets) ∧ h.Exact ∧
      h.testPct.toNat = 100 * (h.b.countP Hb.live + 1) / h.b.length := by
  have hinit : (∃ m, Refines (htInit size maxfill salt) m) ∧ (htInit size maxfill salt).Counts := by
    refine ⟨⟨emptyMap, htInit_refines hsize maxfill salt⟩, ⟨?_, ?_, ?_⟩⟩
    · rw [htInit_slots]
      rfl
    · exact forall_mem_replicate _ (by decide)
    · exact (countP_replicate.trans (if_neg (by decide))).symm
  obtain ⟨⟨h, rets⟩, hrun, ⟨m, hr⟩, hc⟩ := run_invariant
    (I := fun h => (∃ m, Refines h m) ∧ h.Counts)
    (fun s op hs hC => by
      obtain ⟨⟨m, hr⟩, hc⟩ := hs
      obtain ⟨p, hp, hw, hm, -⟩ := step_refines mt hr.1 hr.2.1 hr.2.2 op hC.2
      have hfit := hC.1.1 p hp
      exact ⟨p, hp, ⟨_, hw, hfit, hm⟩, step_counts mt hr hc hC.2 hC.1.2 hp hfit⟩)
    hinit (hsteps.and_forall hkeys)
  exact ⟨h, rets, hrun, hc.exact hr, hc.testPct_eq hr.1 hr.2.1⟩

theorem run_counters_exact_two_keys :
    ∃ h rets, run (step .simd) (htInit 1 1000 0)
        [.probe 0 17 9, .probe 0 33 0, .remove 17, .replace 33 5] = some (h, rets) ∧ h.Exact := by
  obtain ⟨h, rets, hrun, hex, -⟩ := run_counters_exact .simd 1 1000 (by decide) 0
    [.probe 0 17 9, .probe 0 33 0, .remove 17, .replace 33 5] (by decide) (by decide)
  exact ⟨h, rets, hrun, hex⟩

theorem not_exact_of_fill {o : Option (Ht × List Ret)} {x y : Nat} (hxy : x ≠ y)
    (ho : o.map (fun p => (p.1.fill.toNat, p.1.b.countP Hb.live)) = some (x, y)) :
    ∃ h rets, o = some (h, rets) ∧ ¬ h.Exact := by
  obtain ⟨⟨h, rets⟩, rfl, hp⟩ := Option.map_eq_some_iff.mp ho
  obtain ⟨rfl, rfl⟩ := Prod.mk.inj hp
  exact ⟨h, rets, rfl, fun hex => hxy hex.fill⟩

theorem not_exact_of_nodes {o : Option (Ht × List Ret)} {x y : Nat} (hxy : x ≠ y)
    (ho : o.map (fun p => (p.1.nodes.toNat, (p.1.slots.map Prod.fst).toFinset.card)) =
      some (x, y)) :
    ∃ h rets, o = some (h, rets) ∧ ¬ h.Exact := by
  obtain ⟨⟨h, rets⟩, rfl, hp⟩ := Option.map_eq_some_iff.mp ho
  obtain ⟨rfl, rfl⟩ := Prod.mk.inj hp
  exact ⟨h, rets, rfl, fun hex => hxy hex.nodes⟩

/-- `ht_remove` never lowers `fill`, and probing a key stored with `NULL` raises `nodes`. -/
theorem counters_drift :
    (∃ h rets, run (step .simd) (htInit 1 1000 0) [.probe 0 17 9, .remove 17] = some (h, rets) ∧
      ¬ h.Exact) ∧
    (∃ h rets, run (step .simd) (htInit 1 1000 0) [.probe 0 17 0, .probe 0 17 0] = some (h, rets) ∧
      ¬ h.Exact) := by
  constructor
  · exact not_exact_of_fill (x := 1) (y := 0) (by decide) (by decide)
  · exact not_exact_of_nodes (x := 2) (y := 1) (by decide) (by decide)

end PortableLib.FastHt
