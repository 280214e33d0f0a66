import PortableLib.FastHt.Counters

/-! How many bags a bucket needs for its keys. A bag has seven slots, but the zeroed control byte of
a new bag reads as seven taken slots, so a bag never has room for a second key. -/

namespace PortableLib.FastHt
open List Chained Run

/-- A call of `ht_probe`; `salt` is what `rand64` returns if the table doubles. -/
structure Probe where
  salt : UInt64
  k : UInt64
  v : Ptr
  deriving DecidableEq, Repr

def probeStep (mt : Matcher) (h : Ht) (q : Probe) : Option (Ht × Ret) :=
  step mt h (.probe q.salt q.k q.v)

def NewBagNeeded (b b' : Hb) : Prop :=
  b.head.length < b'.head.length → ∀ g ∈ b.head, g.slots.length = 7

def Hb.Packed (b : Hb) : Prop := b.head.length = (b.slots.length + 6) / 7

instance (b : Hb) : Decidable b.Packed := inferInstanceAs (Decidable (_ = _))

def RehashPacks (salt : UInt64) (h : Ht) : Prop :=
  ∀ ps p rest r x x', h.slots = ps ++ p :: rest →
    ps.foldlM (rehashOne (h.n * 2) salt) ⟨replicate (h.n * 2).toNat Hb.newz, 0, 0, 0⟩ = some r →
    r.b[(hash p.1 (h.n * 2) salt).toNat]? = some x → insertQuick x p.1 p.2 = some x' →
    NewBagNeeded x x'

/-- The call allocates a bag only where it is needed, in the bucket of its key and, if the table
doubles, in all buckets, and leaves every bucket packed. -/
structure Packs (mt : Matcher) (h : Ht) (q : Probe) : Prop where
  insert : ∀ b, h.b[(hash q.k h.n h.salt).toNat]? = some b →
    NewBagNeeded b (insert mt b q.k q.v).2
  resize : ∀ b, h.b[(hash q.k h.n h.salt).toNat]? = some b → (FastHt.insert mt b q.k q.v).1 = 0 →
    (FastHt.insert mt b q.k q.v).2.nodes = 1 → h.testPct > h.maxfill →
    RehashPacks q.salt (h.added q.k (FastHt.insert mt b q.k q.v).2)
  packed : ∀ p ∈ probeStep mt h q, ∀ b ∈ p.1.b, b.Packed

def ApartIn (n salt : UInt64) (ps : List (UInt64 × Ptr)) : Prop :=
  ∀ j < n.toNat, load n salt ps j ≤ 1

instance (n salt : UInt64) (ps : List (UInt64 × Ptr)) : Decidable (ApartIn n salt ps) :=
  inferInstanceAs (Decidable (∀ j < n.toNat, load n salt ps j ≤ 1))

/-- A new key finds its bucket empty, and a call that doubles the table leaves no two keys in one
bucket of the doubled one. A key stored with `NULL` counts as new for the doubling. -/
def KeepsApart (h : Ht) (q : Probe) : Prop :=
  (h.slots.lookup q.k = none → load h.n h.salt h.slots (hash q.k h.n h.salt).toNat = 0 ∧
    (h.testPct > h.maxfill → ApartIn (h.n * 2) q.salt ((q.k, q.v) :: h.slots))) ∧
  (h.slots.lookup q.k = some 0 → h.testPct > h.maxfill → ApartIn (h.n * 2) q.salt h.slots)

instance (h : Ht) (q : Probe) : Decidable (KeepsApart h q) := inferInstanceAs (Decidable (_ ∧ _))

section Full
variable {b : Hb} {k : UInt64} {v : Ptr}

theorem Hb.Full.length_slots (h : b.Full) {g : Bag} (hg : g ∈ b.head) : g.slots.length = 1 := by
  obtain ⟨k, v, hk, rfl⟩ := h g hg
  rw [slots_ofEntry_some hk]
  rfl

theorem Hb.Full.length_head (h : b.Full) : b.slots.length = b.head.length := by
  have hone : b.head.map (fun g => g.slots.length) = b.head.map fun _ => 1 :=
    map_congr_left fun g hg => h.length_slots hg
  rw [Hb.slots, length_flatMap, hone, map_const', sum_replicate_nat, Nat.mul_one]

theorem Hb.Full.packed_iff (h : b.Full) : b.Packed ↔ b.slots.length ≤ 1 := by
  rw [Hb.Packed, ← h.length_head]
  omega

theorem newBagNeeded_refl (b : Hb) : NewBagNeeded b b := fun h => absurd h (Nat.lt_irrefl _)

theorem Hb.Full.newBagNeeded_iff (h : b.Full) (k : UInt64) (v : Ptr) :
    NewBagNeeded b (insertFresh b k v) ↔ b.slots = [] := by
  constructor
  · intro hneed
    by_contra hne
    have hpos := length_pos_iff.mpr hne
    rw [h.length_head] at hpos
    obtain ⟨g, hg⟩ := exists_mem_of_length_pos hpos
    have hseven := hneed (Nat.lt_succ_self _) g hg
    rw [h.length_slots hg] at hseven
    cases hseven
  · intro hnil _ g hg
    have hlen := h.length_head
    rw [hnil] at hlen
    rw [eq_nil_of_length_eq_zero hlen.symm] at hg
    cases hg

theorem insert_full (mt : Matcher) (hk : k ≠ 0) (v : Ptr) (h : b.Full) :
    (∃ v₀, b.slots.lookup k = some v₀ ∧ insert mt b k v = (v₀, b)) ∨
      (b.slots.lookup k = none ∧ insert mt b k v = (0, insertFresh b k v)) := by
  rcases insertScan_cases mt hk b.head 0 none h.canon with ⟨v₀, hl, hs⟩ | ⟨hl, hs | ⟨-, j, hj, -⟩⟩
  · exact Or.inl ⟨v₀, hl, by simp only [insert, hs]⟩
  · exact Or.inr ⟨hl, by simp only [insert, hs]⟩
  · -- there is no emptied bag
    obtain ⟨k', v', hk', heq⟩ := h _ (mem_of_getElem? hj)
    have hslots := congrArg Bag.slots heq
    rw [slots_ofEntry_none, slots_ofEntry_some hk'] at hslots
    cases hslots

end Full

section Doubling
variable {h : Ht} {salt : UInt64}

theorem double_pos (hw : h.WF) (hn : h.n.toNat < 2 ^ 60) : 0 < (h.n * 2).toNat := by
  rw [toNat_double hn]
  exact Nat.mul_pos (by decide) hw.pos

theorem resize_full (hw : h.WF) (hn : h.n.toNat < 2 ^ 60) {h' : Ht}
    (hr : resize salt h = some h') : (∀ b ∈ h'.b, b.Full) ∧
      ((∀ b ∈ h'.b, b.slots.length ≤ 1) ↔ ApartIn (h.n * 2) salt h.slots) := by
  obtain ⟨r, hr', hok⟩ := rehash_spec (double_pos hw hn) h.slots (fun p => hw.key_ne_zero)
    (rehashOk_init (h.n * 2) salt)
  simp only [resize, hr', Option.map_some, Option.some.injEq] at hr
  subst hr
  have hload : ∀ {j b}, r.b[j]? = some b → b.slots.length = load (h.n * 2) salt h.slots j := by
    intro j b hj
    have hperm := hok.perm
    rw [append_nil] at hperm
    rw [← hok.placed.countP_eq_length hj, hperm.countP_eq]
    exact load_perm (reverse_perm _) j
  refine ⟨hok.full, ?_, ?_⟩
  · intro hone j hj
    rw [← hok.len] at hj
    rw [← hload (getElem?_eq_getElem hj)]
    exact hone _ (getElem_mem hj)
  · intro happart b hb
    obtain ⟨j, hj⟩ := getElem?_of_mem hb
    rw [hload hj]
    apply happart
    rw [← hok.len]
    exact (List.getElem?_eq_some_iff.mp hj).1

theorem rehashPacks_of_apart (hw : h.WF) (hn : h.n.toNat < 2 ^ 60)
    (happart : ApartIn (h.n * 2) salt h.slots) : RehashPacks salt h := by
  intro ps p rest r x x' hslots hr hx hins
  have hpos := double_pos hw hn
  have hkeys : ∀ q ∈ ps, q.1 ≠ 0 := by
    intro q hq
    apply hw.key_ne_zero
    rw [hslots]
    exact mem_append_left _ hq
  obtain ⟨r', hr', hok⟩ := rehash_spec hpos ps hkeys (rehashOk_init (h.n * 2) salt)
  obtain rfl := Option.some.inj (hr'.symm.trans hr)
  have hfull := hok.full x (mem_of_getElem? hx)
  rw [insertQuick_full hfull] at hins
  obtain rfl := Option.some.inj hins
  rw [hfull.newBagNeeded_iff]
  have hlen : x.slots.length = load (h.n * 2) salt ps (place (h.n * 2) salt p) := by
    have hperm := hok.perm
    rw [append_nil] at hperm
    rw [← hok.placed.countP_eq_length hx, hperm.countP_eq]
    exact load_perm (reverse_perm _) _
  -- the key itself is one already
  have hone := happart (place (h.n * 2) salt p) (hash_lt hpos p.1 salt)
  rw [hslots, load_append, load, load, countP_cons, if_pos (decide_eq_true rfl)] at hone
  apply eq_nil_of_length_eq_zero
  rw [hlen, load]
  omega

end Doubling

/-- What holds of a table as long as no two keys ever met. -/
structure Apart (h : Ht) : Prop where
  wf : h.WF
  fits : h.Fits
  map : ∃ m, Represents h.slots m
  full : ∀ b ∈ h.b, b.Full
  single : ∀ b ∈ h.b, b.slots.length ≤ 1

section Call
variable {h : Ht} {b b' : Hb} {q : Probe} {k salt : UInt64}

theorem nodes_eq_one (hc : b.Counted) (hlen : b.slots.length = 1) : b.nodes = 1 := by
  rw [hc, hlen]
  rfl

theorem split_eq (hb : b.nodes = 1) : split salt h b k =
    if h.testPct > h.maxfill then
      (resize salt { h with fill := h.fill + 1, splits := h.splits + 1 }).bind fun h =>
        h.b[(hash k h.n h.salt).toNat]?.map fun b => (h, b)
    else some ({ h with fill := h.fill + 1 }, b) := by
  simp only [split, if_pos hb]
  rfl

theorem split_apart (hw : h.WF) (hn : h.n.toNat < 2 ^ 60) (hb : b.nodes = 1)
    (hfull : ∀ b ∈ h.b, b.Full) (hsingle : ∀ b ∈ h.b, b.slots.length ≤ 1) (salt k : UInt64) :
    ∃ p, split salt h b k = some p ∧ p.1.WF ∧ p.1.slots ~ h.slots ∧ (∀ b ∈ p.1.b, b.Full) ∧
      ((∀ b ∈ p.1.b, b.slots.length ≤ 1) ↔
        (h.testPct > h.maxfill → ApartIn (h.n * 2) salt h.slots)) := by
  obtain ⟨p, hp, hwp, hs, -⟩ := split_spec hw hn salt b k
  refine ⟨p, hp, hwp, hs, ?_⟩
  rw [split_eq hb] at hp
  by_cases hfill : h.testPct > h.maxfill
  · rw [if_pos hfill] at hp
    obtain ⟨h', hr, hp⟩ := Option.bind_eq_some_iff.mp hp
    obtain ⟨b', -, rfl⟩ := Option.map_eq_some_iff.mp hp
    obtain ⟨hfull', hone⟩ := resize_full
      (h := { h with fill := h.fill + 1, splits := h.splits + 1 }) (hw.congr rfl rfl rfl) hn hr
    exact ⟨hfull', hone.trans ⟨fun ha _ => ha, fun ha => ha hfill⟩⟩
  · rw [if_neg hfill] at hp
    obtain rfl := Option.some.inj hp
    exact ⟨hfull, iff_of_true hsingle fun hf => absurd hf hfill⟩

theorem packs_alone (mt : Matcher) (hb : h.b[(hash q.k h.n h.salt).toNat]? = some b)
    (hins : insert mt b q.k q.v = (0, b')) (hneed : NewBagNeeded b b')
    (hw : (h.added q.k b').WF) (hn : h.n.toNat < 2 ^ 60) (hone : b'.nodes = 1)
    (hfull : ∀ c ∈ (h.added q.k b').b, c.Full)
    (hsingle : ∀ c ∈ (h.added q.k b').b, c.slots.length ≤ 1) :
    ∃ p, probeStep mt h q = some p ∧ (∀ c ∈ p.1.b, c.Full) ∧
      ((∀ c ∈ p.1.b, c.slots.length ≤ 1) ↔
        (h.testPct > h.maxfill → ApartIn (h.n * 2) q.salt (h.added q.k b').slots)) ∧
      (Packs mt h q ↔
        (h.testPct > h.maxfill → ApartIn (h.n * 2) q.salt (h.added q.k b').slots)) := by
  obtain ⟨p, hp, -, -, hfullp, hsinglep⟩ := split_apart hw hn hone hfull hsingle q.salt q.k
  have hstep : probeStep mt h q = some (noteMax p.1 p.2, .value 0) := by
    have hprobe : htProbe mt q.salt h q.k q.v =
        (split q.salt (h.added q.k b') b' q.k).map fun p => (noteMax p.1 p.2, 0) := by
      simp only [htProbe, hb, hins, Option.bind_some, ne_eq, not_true_eq_false, if_false, Ht.added]
    simp only [probeStep, step, hprobe, hp, Option.map_some]
  refine ⟨_, hstep, hfullp, hsinglep, ?_, ?_⟩
  · intro hpacks
    apply hsinglep.mp
    intro c hc
    exact (hfullp c hc).packed_iff.mp (hpacks.packed _ hstep c hc)
  · intro hcond
    refine ⟨?_, ?_, ?_⟩
    · intro c hc
      obtain rfl := Option.some.inj (hb.symm.trans hc)
      rw [hins]
      exact hneed
    · intro c hc _ _ hfill
      obtain rfl := Option.some.inj (hb.symm.trans hc)
      rw [hins]
      exact rehashPacks_of_apart hw hn (hcond hfill)
    · intro p' hp' c hc
      obtain rfl := Option.some.inj (hstep.symm.trans hp')
      exact (hfullp c hc).packed_iff.mpr (hsinglep.mpr hcond c hc)

theorem apartIn_perm {n : UInt64} {ps ps' : List (UInt64 × Ptr)} (h : ps ~ ps') :
    ApartIn n salt ps ↔ ApartIn n salt ps' := by
  simp only [ApartIn, load_perm h]

section Apart
variable (mt : Matcher) (ha : Apart h) (hb : h.b[(hash q.k h.n h.salt).toNat]? = some b)
include ha hb

theorem Apart.lookup_eq : h.slots.lookup q.k = b.slots.lookup q.k := by
  obtain ⟨m, hm⟩ := ha.map
  rw [ha.wf.lookup_eq hm hb]
  exact lookup_eq_of_mem_iff (hm.2 q.k)

theorem Apart.not_packs (hl : b.slots.lookup q.k = none) (hne : b.slots ≠ [])
    (hins : insert mt b q.k q.v = (0, insertFresh b q.k q.v)) :
    ¬Packs mt h q ∧ ¬KeepsApart h q := by
  constructor
  · intro hpacks
    have hneed := hpacks.insert b hb
    rw [hins, (ha.full b (mem_of_getElem? hb)).newBagNeeded_iff] at hneed
    exact hne hneed
  · intro hkeep
    have hzero := (hkeep.1 ((ha.lookup_eq hb).trans hl)).1
    rw [load_eq_length ha.wf hb] at hzero
    exact hne (eq_nil_of_length_eq_zero hzero)

theorem Apart.packs_known {v₀ : Ptr} (hl : b.slots.lookup q.k = some v₀) (hv : v₀ ≠ 0)
    (hins : insert mt b q.k q.v = (v₀, b)) :
    probeStep mt h q = some (h, .value v₀) ∧ Packs mt h q ∧ KeepsApart h q := by
  have hstep : probeStep mt h q = some (h, .value v₀) := by
    simp only [probeStep, step, htProbe, hb, hins, Option.bind_some, ne_eq, hv,
      not_false_eq_true, if_true, Option.map_some]
  refine ⟨hstep, ⟨?_, ?_, ?_⟩, ?_⟩
  · intro c hc
    obtain rfl := Option.some.inj (hb.symm.trans hc)
    rw [hins]
    exact newBagNeeded_refl b
  · intro c hc hzero
    obtain rfl := Option.some.inj (hb.symm.trans hc)
    rw [hins] at hzero
    exact absurd hzero hv
  · intro p hp c hc
    obtain rfl := Option.some.inj (hstep.symm.trans hp)
    exact (ha.full c hc).packed_iff.mpr (ha.single c hc)
  · rw [KeepsApart, ha.lookup_eq hb, hl]
    exact ⟨fun h0 => (by cases h0), fun h0 => absurd (Option.some.inj h0) hv⟩

theorem Apart.packs_null (hl : b.slots.lookup q.k = some 0)
    (hins : insert mt b q.k q.v = (0, b)) :
    ∃ p, probeStep mt h q = some p ∧ (∀ c ∈ p.1.b, c.Full) ∧
      ((∀ c ∈ p.1.b, c.slots.length ≤ 1) ↔ KeepsApart h q) ∧
      (Packs mt h q ↔ KeepsApart h q) := by
  have hw := ha.wf
  have hbm := mem_of_getElem? hb
  have hadd : (h.added q.k b).b = h.b := set_getElem?_self hb
  have hslots : (h.added q.k b).slots = h.slots := congrArg (flatMap Hb.slots) hadd
  have hpos : 0 < b.slots.length := by
    rw [length_pos_iff]
    rintro hnil
    rw [hnil] at hl
    cases hl
  obtain ⟨p, hp, hf, hs, hpacks⟩ := packs_alone mt hb hins (newBagNeeded_refl b)
    (hw.congr hadd rfl rfl) (ha.fits.n_lt hw)
    (nodes_eq_one (hw.counted b hbm) (Nat.le_antisymm (ha.single b hbm) hpos))
    (by rw [hadd]; exact ha.full) (by rw [hadd]; exact ha.single)
  have hkeeps : KeepsApart h q ↔
      (h.testPct > h.maxfill → ApartIn (h.n * 2) q.salt (h.added q.k b).slots) := by
    rw [KeepsApart, ha.lookup_eq hb, hl, hslots]
    exact ⟨fun hkeep => hkeep.2 rfl, fun hcond => ⟨fun h0 => (by cases h0), fun _ => hcond⟩⟩
  rw [← hkeeps] at hs hpacks
  exact ⟨p, hp, hf, hs, hpacks⟩

theorem Apart.packs_new (hk : q.k ≠ 0) (hempty : b.slots = [])
    (hins : insert mt b q.k q.v = (0, insertFresh b q.k q.v)) :
    ∃ p, probeStep mt h q = some p ∧ (∀ c ∈ p.1.b, c.Full) ∧
      ((∀ c ∈ p.1.b, c.slots.length ≤ 1) ↔ KeepsApart h q) ∧
      (Packs mt h q ↔ KeepsApart h q) := by
  have hw := ha.wf
  have hbm := mem_of_getElem? hb
  have hfull := insertFresh_full (ha.full b hbm) hk q.v
  have hs := slots_insertFresh b hk q.v
  rw [hempty] at hs
  have hlen : (insertFresh b q.k q.v).slots.length = 1 := congrArg length hs
  have hcount : (insertFresh b q.k q.v).Counted :=
    (hw.counted b hbm).succ rfl (by rw [hlen, hempty]; rfl)
  have hplace : ∀ e ∈ (insertFresh b q.k q.v).slots,
      place h.n h.salt e = (hash q.k h.n h.salt).toNat := by
    intro e he
    rw [hs, mem_singleton] at he
    rw [he]
    rfl
  have hslots : (h.added q.k (insertFresh b q.k q.v)).slots ~ (q.k, q.v) :: h.slots :=
    entries_set_perm_cons hb (by rw [hs, hempty])
  obtain ⟨p, hp, hf, hone, hpacks⟩ := packs_alone mt hb hins
    (((ha.full b hbm).newBagNeeded_iff q.k q.v).mpr hempty)
    (hw.set hfull.canon hcount hplace rfl rfl rfl) (ha.fits.n_lt hw) (nodes_eq_one hcount hlen)
    (forall_mem_set ha.full hfull) (forall_mem_set ha.single hlen.le)
  have hkeeps : KeepsApart h q ↔ (h.testPct > h.maxfill →
      ApartIn (h.n * 2) q.salt (h.added q.k (insertFresh b q.k q.v)).slots) := by
    rw [KeepsApart, ha.lookup_eq hb, apartIn_perm hslots, load_eq_length hw hb, hempty]
    constructor
    · intro hkeep
      exact (hkeep.1 rfl).2
    · intro hcond
      exact ⟨fun _ => ⟨rfl, hcond⟩, nofun⟩
  rw [← hkeeps] at hone hpacks
  exact ⟨p, hp, hf, hone, hpacks⟩

end Apart

/-- A table of which every bucket has a single key is packed by a call if and only if the keys stay
apart, and then it is such a table again. -/
theorem Apart.packs_iff (mt : Matcher) (ha : Apart h) (hk : q.k ≠ 0)
    (hfits : ∀ p ∈ probeStep mt h q, p.1.Fits) :
    (Packs mt h q ↔ KeepsApart h q) ∧ (KeepsApart h q → ∀ p ∈ probeStep mt h q, Apart p.1) := by
  obtain ⟨m, hm⟩ := ha.map
  obtain ⟨b, hb⟩ := ha.wf.bucket q.k
  obtain ⟨p, hp, hwp, hmp, -⟩ := step_refines mt ha.wf ha.fits hm (.probe q.salt q.k q.v) hk
  have hnext : (∀ c ∈ p.1.b, c.Full) → (∀ c ∈ p.1.b, c.slots.length ≤ 1) →
      ∀ p' ∈ probeStep mt h q, Apart p'.1 := by
    intro hf hs p' hp'
    obtain rfl := Option.some.inj (hp.symm.trans hp')
    exact ⟨hwp, hfits p hp, ⟨_, hmp⟩, hf, hs⟩
  rcases insert_full mt hk q.v (ha.full b (mem_of_getElem? hb)) with ⟨v₀, hl, hins⟩ | ⟨hl, hins⟩
  · by_cases hv : v₀ = 0
    · subst hv
      obtain ⟨p', hp', hf, hs, hpacks⟩ := ha.packs_null mt hb hl hins
      obtain rfl := Option.some.inj (hp.symm.trans hp')
      exact ⟨hpacks, fun hkeep => hnext hf (hs.mpr hkeep)⟩
    · obtain ⟨hp', hpacks, hkeep⟩ := ha.packs_known mt hb hl hv hins
      obtain rfl := Option.some.inj (hp.symm.trans hp')
      exact ⟨iff_of_true hpacks hkeep, fun _ => hnext ha.full ha.single⟩
  · by_cases hempty : b.slots = []
    · obtain ⟨p', hp', hf, hs, hpacks⟩ := ha.packs_new mt hb hk hempty hins
      obtain rfl := Option.some.inj (hp.symm.trans hp')
      exact ⟨hpacks, fun hkeep => hnext hf (hs.mpr hkeep)⟩
    · obtain ⟨hnot, hkeep⟩ := ha.not_packs mt hb hl hempty hins
      exact ⟨iff_of_false hnot hkeep, fun h => absurd h hkeep⟩

end Call

theorem htInit_apart {size maxfill : UInt32} {salt : UInt64}
    (hpos : 0 < (htInit size maxfill salt).n.toNat) : Apart (htInit size maxfill salt) where
  wf := htInit_wf_of_pos hpos
  fits := by
    have hlen : (htInit size maxfill salt).b.length < 2 ^ 32 := by
      simp only [htInit, length_replicate]
      exact UInt32.toNat_lt _
    have hbags : ((htInit size maxfill salt).b.map fun b => b.head.length).sum = 0 := by
      simp [htInit, Hb.newz]
    unfold Ht.Fits
    omega
  map := ⟨emptyMap, by rw [htInit_slots]; exact represents_nil⟩
  full := forall_mem_replicate _ (by intro g hg; cases hg)
  single := forall_mem_replicate _ (Nat.zero_le 1)

theorem probeStep_of_no_bucket (mt : Matcher) {h : Ht} (hb : h.b = []) (q : Probe) :
    probeStep mt h q = none := by
  simp only [probeStep, step, htProbe, hb, getElem?_nil, Option.bind_none, Option.map_none]

theorem steps_of_no_bucket (mt : Matcher) {h : Ht} (hb : h.b = []) {C : Ht → Probe → Prop}
    {qs : List Probe} (hC : ∀ q, C h q) : StepsMeet (probeStep mt) C h qs := by
  cases qs with
  | nil => trivial
  | cons q qs =>
    refine ⟨hC q, fun p hp => ?_⟩
    rw [probeStep_of_no_bucket mt hb] at hp
    cases hp

/-- In a run of `ht_probe` calls every bag is allocated because it is needed, and every bucket has
as many bags as its keys need, if and only if no bucket is ever to hold two keys. -/
theorem run_packs_iff (mt : Matcher) (size maxfill : UInt32) (salt : UInt64) (qs : List Probe)
    (hkeys : ∀ q ∈ qs, q.k ≠ 0)
    (halloc : StepsMeet (probeStep mt) (fun h q => ∀ p ∈ probeStep mt h q, p.1.Fits)
      (htInit size maxfill salt) qs) :
    StepsMeet (probeStep mt) (Packs mt) (htInit size maxfill salt) qs ↔
      StepsMeet (probeStep mt) KeepsApart (htInit size maxfill salt) qs := by
  have hside := halloc.and_forall hkeys
  by_cases hpos : 0 < (htInit size maxfill salt).n.toNat
  · have hstep : ∀ h q p, Apart h →
        KeepsApart h q ∧ (∀ p ∈ probeStep mt h q, p.1.Fits) ∧ q.k ≠ 0 →
        probeStep mt h q = some p → Apart p.1 := by
      rintro h q p ha ⟨hkeep, hfits, hk⟩ hp
      exact (ha.packs_iff mt hk hfits).2 hkeep p hp
    calc StepsMeet (probeStep mt) (Packs mt) (htInit size maxfill salt) qs
      _ ↔ StepsMeet (probeStep mt)
          (fun h q => Packs mt h q ∧ (∀ p ∈ probeStep mt h q, p.1.Fits) ∧ q.k ≠ 0)
          (htInit size maxfill salt) qs := (stepsMeet_and.trans (and_iff_left hside)).symm
      _ ↔ StepsMeet (probeStep mt)
          (fun h q => KeepsApart h q ∧ (∀ p ∈ probeStep mt h q, p.1.Fits) ∧ q.k ≠ 0)
          (htInit size maxfill salt) qs :=
        stepsMeet_congr hstep
          (fun h q ha => and_congr_left fun hok => (ha.packs_iff mt hok.2 hok.1).1)
          (htInit_apart hpos)
      _ ↔ StepsMeet (probeStep mt) KeepsApart (htInit size maxfill salt) qs :=
        stepsMeet_and.trans (and_iff_left hside)
  -- a table without a bucket takes no key
  · have hn : (htInit size maxfill salt).n = 0 :=
      UInt64.toNat_inj.mp (Nat.eq_zero_of_not_pos hpos)
    have hb : (htInit size maxfill salt).b = [] := by
      apply eq_nil_of_length_eq_zero
      rw [htInit_length, hn]
      rfl
    apply iff_of_true
    · apply steps_of_no_bucket mt hb
      intro q
      have hnone : ∀ j : Nat, (htInit size maxfill salt).b[j]? = none := by
        intro j
        rw [hb, getElem?_nil]
      refine ⟨fun b hbq => ?_, fun b hbq => ?_, fun p hp => ?_⟩
      · rw [hnone] at hbq
        cases hbq
      · rw [hnone] at hbq
        cases hbq
      · rw [probeStep_of_no_bucket mt hb] at hp
        cases hp
    · apply steps_of_no_bucket mt hb
      intro q
      have hpct : ¬(htInit size maxfill salt).testPct > (htInit size maxfill salt).maxfill := by
        have hzero : (htInit size maxfill salt).testPct = 0 := by
          rw [Ht.testPct, Ht.fpct, hn, ← UInt64.toNat_inj, UInt64.toNat_div]
          exact Nat.div_zero _
        rw [hzero]
        exact UInt64.not_lt_zero
      rw [KeepsApart, htInit_slots]
      exact ⟨fun _ => ⟨rfl, fun h => absurd h hpct⟩, fun h => by cases h⟩

theorem run_packs_doubling : StepsMeet (probeStep .software) (Packs .software) (htInit 2 60 3)
    [⟨0, 17, 9⟩, ⟨5, 18, 4⟩] :=
  (run_packs_iff .software 2 60 3 [⟨0, 17, 9⟩, ⟨5, 18, 4⟩] (by decide) (by decide)).mpr
    (by decide)

/-- Two keys in the only bucket: the second one gets a bag of its own, with six slots of the first
one unused. -/
theorem second_key_second_bag :
    (∃ h rets, run (probeStep .simd) (htInit 1 1000 0) [⟨0, 17, 9⟩, ⟨0, 33, 4⟩] = some (h, rets) ∧
      h.b.map (fun b => (b.slots.length, b.head.length)) = [(2, 2)]) ∧
    ¬StepsMeet (probeStep .simd) (Packs .simd) (htInit 1 1000 0) [⟨0, 17, 9⟩, ⟨0, 33, 4⟩] := by
  have hstep : ∃ p, probeStep .simd (htInit 1 1000 0) ⟨0, 17, 9⟩ = some p ∧
      ∃ p', probeStep .simd p.1 ⟨0, 33, 4⟩ = some p' ∧
        p'.1.b.map (fun b => (b.slots.length, b.head.length)) = [(2, 2)] ∧
        ¬∀ b ∈ p'.1.b, b.Packed :=
    ⟨_, rfl, _, rfl, by decide, by decide⟩
  obtain ⟨p, hp, p', hp', hbags, hnot⟩ := hstep
  constructor
  · refine ⟨p'.1, [p.2, p'.2], ?_, hbags⟩
    simp only [run, hp, hp', Option.bind_some, Option.map_some]
  · rintro ⟨-, hrest⟩
    exact hnot ((hrest p hp).1.packed p' hp')

end PortableLib.FastHt
