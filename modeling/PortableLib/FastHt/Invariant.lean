import PortableLib.FastHt.Resize

/-! The representation invariant of a table and what each call does to its entries. -/

namespace PortableLib.FastHt
open List Chained

structure Ht.WF (h : Ht) : Prop where
  len : h.b.length = h.n.toNat
  pos : 0 < h.n.toNat
  canon : ∀ b ∈ h.b, b.Canon
  placed : Placed Hb.slots (place h.n h.salt) h.b
  counted : ∀ b ∈ h.b, b.Counted

/-- Buckets of 16 bytes and bags of 128 bytes fit a 64-bit address space: a table for which
this fails cannot have been allocated. -/
def Ht.Fits (h : Ht) : Prop := 16 * h.b.length + 128 * (h.b.map fun b => b.head.length).sum < 2 ^ 64

instance (h : Ht) : Decidable h.Fits := inferInstanceAs (Decidable (_ < _))

section Lookup
variable {h : Ht} {k : UInt64} {b : Hb}

theorem Ht.WF.bucket (hw : h.WF) (k : UInt64) : ∃ b, h.b[(hash k h.n h.salt).toNat]? = some b :=
  exists_bucket hw.pos hw.len k h.salt

theorem Ht.WF.mem_slots_iff (hw : h.WF) (hb : h.b[(hash k h.n h.salt).toNat]? = some b) (v : Ptr) :
    (k, v) ∈ h.slots ↔ (k, v) ∈ b.slots := hw.placed.mem_iff hb rfl

theorem Ht.WF.lookup_eq (hw : h.WF) {m : UInt64 → Option Ptr} (hm : Represents h.slots m)
    (hb : h.b[(hash k h.n h.salt).toNat]? = some b) : b.slots.lookup k = m k :=
  lookup_eq_of_mem_iff fun v => (hw.mem_slots_iff hb v).symm.trans (hm.2 k v)

theorem mem_slots_ne_zero {g : Bag} (hg : g.Canon) {p : UInt64 × Ptr} (hp : p ∈ g.slots) :
    p.1 ≠ 0 := by
  rcases hg.cases with ⟨-, hs⟩ | ⟨k, v, hk, -, hs⟩
  · rw [hs] at hp
    cases hp
  · rw [hs, mem_singleton] at hp
    rwa [hp]

theorem Ht.WF.key_ne_zero (hw : h.WF) {p : UInt64 × Ptr} (hp : p ∈ h.slots) : p.1 ≠ 0 := by
  obtain ⟨b, hb, hpb⟩ := mem_flatMap.mp hp
  obtain ⟨g, hg, hpg⟩ := mem_flatMap.mp hpb
  exact mem_slots_ne_zero (hw.canon b hb g hg) hpg

end Lookup

theorem Ht.WF.congr {h h' : Ht} (hw : h.WF) (hb : h'.b = h.b) (hn : h'.n = h.n)
    (hs : h'.salt = h.salt) : h'.WF where
  len := by rw [hb, hn, hw.len]
  pos := hn ▸ hw.pos
  canon := hb ▸ hw.canon
  placed := by rw [hb, hn, hs]; exact hw.placed
  counted := hb ▸ hw.counted

theorem Ht.WF.set {h h' : Ht} {i : Nat} {b' : Hb} (hw : h.WF) (hcanon : b'.Canon)
    (hcount : b'.Counted) (hplace : ∀ e ∈ b'.slots, place h.n h.salt e = i)
    (hb : h'.b = h.b.set i b') (hn : h'.n = h.n) (hs : h'.salt = h.salt) : h'.WF where
  len := by rw [hb, hn, length_set, hw.len]
  pos := hn ▸ hw.pos
  canon := hb ▸ forall_mem_set hw.canon hcanon
  placed := by rw [hb, hn, hs]; exact hw.placed.set hplace
  counted := hb ▸ forall_mem_set hw.counted hcount

theorem Ht.Fits.n_lt {h : Ht} (hf : h.Fits) (hw : h.WF) : h.n.toNat < 2 ^ 60 := by
  have := hw.len
  unfold Ht.Fits at hf
  omega

theorem toNat_double {n : UInt64} (hn : n.toNat < 2 ^ 60) : (n * 2).toNat = 2 * n.toNat := by
  rw [UInt64.toNat_mul, show (2 : UInt64).toNat = 2 from rfl]
  omega

theorem resize_spec {h : Ht} (hw : h.WF) (hn : h.n.toNat < 2 ^ 60) (salt : UInt64) :
    ∃ h', resize salt h = some h' ∧ h'.WF ∧ h'.slots ~ h.slots ∧ h'.nodes = h.nodes := by
  have hpos : 0 < (h.n * 2).toNat := by
    rw [toNat_double hn]
    exact Nat.mul_pos (by decide) hw.pos
  obtain ⟨r, hr, hok⟩ := rehash_spec hpos h.slots (fun p => hw.key_ne_zero)
    (rehashOk_init (h.n * 2) salt)
  refine ⟨{ h with salt := salt, n := h.n * 2, b := r.b, bagmax := r.maxbags.toUInt32,
                   maxn := r.maxn.toUInt32, fill := r.fill }, ?_, ?_, ?_, rfl⟩
  · simp only [resize, hr, Option.map_some]
  · exact ⟨hok.len, hpos, fun b hb => (hok.full b hb).canon, hok.placed, hok.counted⟩
  · refine hok.perm.trans ?_
    rw [append_nil]
    exact reverse_perm _

theorem split_spec {h : Ht} (hw : h.WF) (hn : h.n.toNat < 2 ^ 60) (salt : UInt64) (b : Hb)
    (k : UInt64) :
    ∃ p, split salt h b k = some p ∧ p.1.WF ∧ p.1.slots ~ h.slots ∧ p.1.nodes = h.nodes := by
  simp only [split]
  split_ifs
  · obtain ⟨h', hr, hw', hs, hnodes⟩ := resize_spec
      (h := { h with fill := h.fill + 1, splits := h.splits + 1 }) (hw.congr rfl rfl rfl) hn salt
    obtain ⟨b', hb'⟩ := hw'.bucket k
    refine ⟨(h', b'), ?_, hw', hs, hnodes⟩
    simp only [hr, hb', Option.bind_some, Option.map_some]
  · exact ⟨_, rfl, hw.congr rfl rfl rfl, Perm.refl _, rfl⟩
  · exact ⟨_, rfl, hw, Perm.refl _, rfl⟩

section Calls
variable {h : Ht} {m : UInt64 → Option Ptr} {k : UInt64}

theorem htProbe_present (mt : Matcher) (hw : h.WF) (hn : h.n.toNat < 2 ^ 60)
    (hm : Represents h.slots m) (hk : k ≠ 0) {v₀ : Ptr} (hmk : m k = some v₀) (salt : UInt64)
    (v : Ptr) :
    ∃ h', htProbe mt salt h k v = some (h', v₀) ∧ h'.WF ∧ h'.slots ~ h.slots ∧
      (v₀ ≠ 0 → h' = h) := by
  obtain ⟨b, hb⟩ := hw.bucket k
  have hlook := hw.lookup_eq hm hb
  rcases insert_cases mt hk v (hw.canon b (mem_of_getElem? hb)) with ⟨v₁, hl, hi⟩ | ⟨hl, -⟩
  · obtain rfl : v₁ = v₀ := by
      rw [hlook, hmk] at hl
      exact (Option.some.inj hl).symm
    by_cases hv : v₁ = 0
    · obtain ⟨p, hp, hw', hs, -⟩ := split_spec (h := { h with
        b := h.b.set (hash k h.n h.salt).toNat b, nodes := h.nodes + 1 })
        (hw.congr (set_getElem?_self hb) rfl rfl) hn salt b k
      refine ⟨noteMax p.1 p.2, ?_, hw'.congr rfl rfl rfl, hs.trans ?_, fun h0 => absurd hv h0⟩
      · simp only [htProbe, hb, hi, hv, Option.bind_some, ne_eq, not_true_eq_false, if_false, hp,
          Option.map_some]
      · rw [Ht.slots, set_getElem?_self hb]
        exact Perm.refl _
    · refine ⟨h, ?_, hw, Perm.refl _, fun _ => rfl⟩
      simp only [htProbe, hb, hi, Option.bind_some, ne_eq, hv, not_false_eq_true, if_true]
  · rw [hlook, hmk] at hl
    cases hl

def Ht.added (h : Ht) (k : UInt64) (b' : Hb) : Ht :=
  { h with b := h.b.set (hash k h.n h.salt).toNat b', nodes := h.nodes + 1 }

theorem htProbe_absent (mt : Matcher) (hw : h.WF) (hm : Represents h.slots m) (hk : k ≠ 0)
    (hmk : m k = none) (salt : UInt64) (v : Ptr) :
    ∃ b b', h.b[(hash k h.n h.salt).toNat]? = some b ∧ b'.slots ~ (k, v) :: b.slots ∧
      b'.nodes = b.nodes + 1 ∧ (h.added k b').WF ∧
      htProbe mt salt h k v =
        (split salt (h.added k b') b' k).map fun p => (noteMax p.1 p.2, 0) := by
  obtain ⟨b, hb⟩ := hw.bucket k
  have hbm := mem_of_getElem? hb
  have hlook := hw.lookup_eq hm hb
  rcases insert_cases mt hk v (hw.canon b hbm) with ⟨v₁, hl, -⟩ | ⟨-, b', hi, hcanon, hs, hnodes⟩
  · rw [hlook, hmk] at hl
    cases hl
  · have hcount : b'.Counted := (hw.counted b hbm).succ hnodes (by rw [hs.length_eq, length_cons])
    have hplace : ∀ e ∈ b'.slots, place h.n h.salt e = (hash k h.n h.salt).toNat := by
      intro e he
      rcases mem_cons.mp (hs.mem_iff.mp he) with rfl | he
      · rfl
      · exact hw.placed _ b hb e he
    refine ⟨b, b', hb, hs, hnodes, hw.set hcanon hcount hplace rfl rfl rfl, ?_⟩
    simp only [htProbe, hb, hi, Option.bind_some, ne_eq, not_true_eq_false, if_false, Ht.added]

theorem findx_spec (mt : Matcher) (hw : h.WF) (hm : Represents h.slots m) (hk : k ≠ 0) :
    ∃ b, h.b[(hash k h.n h.salt).toNat]? = some b ∧
      ((m k = none ∧ findx mt k b.head 0 = none) ∨
        ∃ v j, m k = some v ∧ findx mt k b.head 0 = some (j, 0, v) ∧
          b.head[j]? = some (Bag.ofEntry (some (k, v)))) := by
  obtain ⟨b, hb⟩ := hw.bucket k
  have hlook := hw.lookup_eq hm hb
  refine ⟨b, hb, ?_⟩
  rcases findx_cases mt hk b.head 0 (hw.canon b (mem_of_getElem? hb)) with
    ⟨hl, hf⟩ | ⟨v, j, hl, hf, hj⟩
  · exact .inl ⟨hlook.symm.trans hl, hf⟩
  · exact .inr ⟨v, j, hlook.symm.trans hl, by rw [hf, Nat.zero_add], hj⟩

theorem htFind_spec (mt : Matcher) (hw : h.WF) (hm : Represents h.slots m) (hk : k ≠ 0) :
    htFind mt h k = some (m k) := by
  obtain ⟨b, hb, ⟨hmk, hf⟩ | ⟨v, j, hmk, hf, -⟩⟩ := findx_spec mt hw hm hk
  · simp only [htFind, hb, hf, hmk, Option.map_some, Option.map_none]
  · simp only [htFind, hb, hf, hmk, Option.map_some]

theorem htReplace_spec (mt : Matcher) (hw : h.WF) (hm : Represents h.slots m) (hk : k ≠ 0)
    (v : Ptr) :
    (m k = none ∧ htReplace mt h k v = some (h, false)) ∨
      ∃ v₀ b b' rest, m k = some v₀ ∧ h.b[(hash k h.n h.salt).toNat]? = some b ∧
        htReplace mt h k v =
          some ({ h with b := h.b.set (hash k h.n h.salt).toNat b' }, true) ∧
        b'.Canon ∧ b'.nodes = b.nodes ∧ b.slots ~ (k, v₀) :: rest ∧ b'.slots ~ (k, v) :: rest := by
  obtain ⟨b, hb, ⟨hmk, hf⟩ | ⟨v₀, j, hmk, hf, hj⟩⟩ := findx_spec mt hw hm hk
  · exact .inl ⟨hmk, by simp only [htReplace, hb, hf, Option.map_some]⟩
  · obtain ⟨rest, hs, hs'⟩ := slots_modify_setVal hk v hj
    refine .inr ⟨v₀, b, ⟨b.head.modify j fun g => g.setVal 0 v, b.nodes, b.bags⟩, rest, hmk, hb,
      by simp only [htReplace, hb, hf, Option.map_some], ?_, rfl, hs, hs'⟩
    refine canon_modify (hw.canon b (mem_of_getElem? hb)) hj ?_
    rw [ofEntry_some_setVal]
    exact canon_ofEntry_some hk v

theorem htRemove_spec (mt : Matcher) (hw : h.WF) (hm : Represents h.slots m) (hk : k ≠ 0) :
    (m k = none ∧ htRemove mt h k = some (h, none)) ∨
      ∃ v₀ b b', m k = some v₀ ∧ h.b[(hash k h.n h.salt).toNat]? = some b ∧
        htRemove mt h k = some ({ h with b := h.b.set (hash k h.n h.salt).toNat b',
                                         nodes := h.nodes - 1 }, some v₀) ∧
        b'.Canon ∧ b'.nodes = b.nodes - 1 ∧ (k, v₀) :: b'.slots ~ b.slots := by
  obtain ⟨b, hb, ⟨hmk, hf⟩ | ⟨v₀, j, hmk, hf, hj⟩⟩ := findx_spec mt hw hm hk
  · exact .inl ⟨hmk, by simp only [htRemove, hb, hf, Option.map_some]⟩
  · refine .inr ⟨v₀, b, ⟨b.head.modify j fun g => g.clear 0, b.nodes - 1, b.bags⟩, hmk, hb,
      by simp only [htRemove, hb, hf, Option.map_some], ?_, rfl, slots_modify_clear hk hj⟩
    refine canon_modify (hw.canon b (mem_of_getElem? hb)) hj ?_
    rw [ofEntry_some_clear]
    exact canon_ofEntry_none

theorem Hb.Counted.pred {b b' : Hb} (hc : b.Counted) (hn : b'.nodes = b.nodes - 1)
    (hl : b.slots.length = b'.slots.length + 1) : b'.Counted := by
  rw [Hb.Counted, hl, UInt32.ofNat_add] at hc
  rw [Hb.Counted, hn, hc]
  exact UInt32.add_sub_cancel _ _

theorem replace_wf {b b' : Hb} {v₀ v : Ptr} {rest : List (UInt64 × Ptr)} (hw : h.WF)
    (hb : h.b[(hash k h.n h.salt).toNat]? = some b) (hcanon : b'.Canon) (hn : b'.nodes = b.nodes)
    (hs : b.slots ~ (k, v₀) :: rest) (hs' : b'.slots ~ (k, v) :: rest) :
    ({ h with b := h.b.set (hash k h.n h.salt).toNat b' } : Ht).WF := by
  refine hw.set hcanon ?_ ?_ rfl rfl rfl
  · rw [Hb.Counted, hs'.length_eq, length_cons, ← length_cons (a := (k, v₀)), ← hs.length_eq, hn]
    exact hw.counted b (mem_of_getElem? hb)
  · intro e he
    rcases mem_cons.mp (hs'.mem_iff.mp he) with rfl | he
    · rfl
    · exact hw.placed _ b hb e (hs.mem_iff.mpr (mem_cons_of_mem _ he))

theorem remove_wf {b b' : Hb} {v₀ : Ptr} (hw : h.WF)
    (hb : h.b[(hash k h.n h.salt).toNat]? = some b) (hcanon : b'.Canon)
    (hn : b'.nodes = b.nodes - 1) (hs : (k, v₀) :: b'.slots ~ b.slots) :
    ({ h with b := h.b.set (hash k h.n h.salt).toNat b', nodes := h.nodes - 1 } : Ht).WF := by
  refine hw.set hcanon ?_ ?_ rfl rfl rfl
  · exact (hw.counted b (mem_of_getElem? hb)).pred hn (by rw [← hs.length_eq, length_cons])
  · exact fun e he => hw.placed _ b hb e (hs.mem_iff.mp (mem_cons_of_mem _ he))

end Calls

end PortableLib.FastHt
