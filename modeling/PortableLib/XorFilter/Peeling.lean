import Mathlib.Data.Multiset.Bind
import Mathlib.Data.Multiset.Fold
import PortableLib.Lib.Peel
import PortableLib.XorFilter.Filter

/-! The peeling loop. Its table is described by the pairs of a cell and a hash that are still in
it; the queue by what its entries say about these. -/

namespace PortableLib.XorFilter
open List Peel

def cells (size : UInt32) (h : UInt64) : List Nat :=
  match hash3 h size with
  | none => []
  | some z => [z.i.toNat, z.j.toNat, z.k.toNat]

def hits (c : Nat) (I : Multiset (Nat × UInt64)) : Multiset UInt64 :=
  (I.filter fun p => p.1 = c).map Prod.snd

def tally (c : Nat) (I : Multiset (Nat × UInt64)) : XorSet :=
  ⟨(hits c I).fold (· ^^^ ·) 0, (hits c I).card⟩

def Tallies (H : List XorSet) (I : Multiset (Nat × UInt64)) : Prop :=
  ∀ c < H.length, H[c]? = some (tally c I)

def QueueOk (cap : Nat) (q : List KeyIdx) (I : Multiset (Nat × UInt64)) : Prop :=
  ∀ e ∈ q, e.idx < cap ∧ (tally e.idx I).n ≤ 1 ∧
    ((tally e.idx I).n = 1 → e.hash = (tally e.idx I).mask)

section Tally
variable {c d cap : Nat} {h : UInt64} {I : Multiset (Nat × UInt64)} {H H' : List XorSet}
  {q : List KeyIdx} {i : UInt32}

theorem hits_cons_self : hits c ((c, h) ::ₘ I) = h ::ₘ hits c I := by
  unfold hits
  rw [Multiset.filter_cons_of_pos (p := fun p => p.1 = c) I rfl, Multiset.map_cons]

theorem hits_cons_of_ne (hne : d ≠ c) : hits c ((d, h) ::ₘ I) = hits c I := by
  unfold hits
  rw [Multiset.filter_cons_of_neg (p := fun p => p.1 = c) I hne]

theorem tally_cons_self :
    tally c ((c, h) ::ₘ I) = ⟨(tally c I).mask ^^^ h, (tally c I).n + 1⟩ := by
  unfold tally
  rw [hits_cons_self, Multiset.card_cons, Multiset.fold_cons_left, UInt64.xor_comm]

theorem tally_cons_of_ne (hne : d ≠ c) : tally c ((d, h) ::ₘ I) = tally c I := by
  unfold tally
  rw [hits_cons_of_ne hne]

theorem Tallies.set {x : XorSet} {J : Multiset (Nat × UInt64)} (hH : Tallies H I)
    (hx : x = tally c J) (hJ : ∀ d, d ≠ c → tally d I = tally d J) : Tallies (H.set c x) J := by
  intro d hd
  rw [length_set] at hd
  by_cases hdc : d = c
  · rw [hdc, getElem?_set_self (hdc ▸ hd), hx]
  · rw [getElem?_set_ne (Ne.symm hdc), hH d hd, hJ d hdc]

theorem getElem?_some_lt {x : XorSet} (hx : H[c]? = some x) (hH : Tallies H I) :
    c < H.length ∧ x = tally c I := by
  have hlt : c < H.length := (List.getElem?_eq_some_iff.mp hx).1
  exact ⟨hlt, Option.some.inj (hx.symm.trans (hH c hlt))⟩

theorem tallyAt_spec (hH : Tallies H I) (hr : tallyAt H i h = some H') :
    Tallies H' ((i.toNat, h) ::ₘ I) ∧ H'.length = H.length ∧ i.toNat < H.length := by
  obtain ⟨x, hx, rfl⟩ := Option.map_eq_some_iff.mp hr
  obtain ⟨hlt, rfl⟩ := getElem?_some_lt hx hH
  exact ⟨hH.set tally_cons_self.symm fun d hd => (tally_cons_of_ne hd.symm).symm, length_set, hlt⟩

theorem tallyAt_total (hi : i.toNat < H.length) (h : UInt64) :
    ∃ H', tallyAt H i h = some H' ∧ H'.length = H.length := by
  unfold tallyAt
  rw [getElem?_eq_getElem hi]
  exact ⟨_, rfl, length_set⟩

theorem QueueOk.cons (hq : QueueOk cap q ((c, h) ::ₘ I)) : QueueOk cap q I := by
  intro e he
  obtain ⟨hlt, hold⟩ := hq e he
  refine ⟨hlt, ?_⟩
  by_cases hec : e.idx = c
  · rw [hec, tally_cons_self] at hold
    rw [hec]
    have hzero : (tally c I).n = 0 := Nat.le_zero.mp (Nat.le_of_succ_le_succ hold.1)
    rw [hzero]
    exact ⟨Nat.zero_le 1, nofun⟩
  · rwa [tally_cons_of_ne (Ne.symm hec)] at hold

theorem updateQ_spec {r : List KeyIdx × List XorSet} (hH : Tallies H ((i.toNat, h) ::ₘ I))
    (hq : QueueOk H.length q ((i.toNat, h) ::ₘ I)) (hr : updateQ (q, H) i h = some r) :
    QueueOk r.2.length r.1 I ∧ Tallies r.2 I ∧ r.2.length = H.length ∧
      r.1.length ≤ q.length + 1 := by
  obtain ⟨x, hx, rfl⟩ := Option.map_eq_some_iff.mp hr
  obtain ⟨hlt, rfl⟩ := getElem?_some_lt hx hH
  have hmask : (tally i.toNat ((i.toNat, h) ::ₘ I)).mask ^^^ h = (tally i.toNat I).mask := by
    rw [tally_cons_self, UInt64.xor_assoc, UInt64.xor_self, UInt64.xor_zero]
  have hn : (tally i.toNat ((i.toNat, h) ::ₘ I)).n - 1 = (tally i.toNat I).n := by
    rw [tally_cons_self, Nat.add_sub_cancel]
  simp only [hmask, hn, length_set]
  refine ⟨?_, hH.set rfl fun d hd => tally_cons_of_ne hd.symm, trivial, ?_⟩
  · split_ifs with hone
    · intro e he
      rcases mem_cons.mp he with rfl | he
      · exact ⟨hlt, Nat.le_of_eq hone, fun _ => rfl⟩
      · exact hq.cons e he
    · exact hq.cons
  · split_ifs
    · exact Nat.le_of_eq length_cons
    · exact Nat.le_add_right _ _

theorem firstQ_ok (hH : Tallies H I) :
    QueueOk H.length (firstQ H) I ∧ (firstQ H).length ≤ H.length := by
  have hfold : ∀ (ps : List (XorSet × Nat)) (q : List KeyIdx),
      (∀ p ∈ ps, p.2 < H.length ∧ p.1 = tally p.2 I) → QueueOk H.length q I →
      QueueOk H.length (ps.foldl (fun q p => if p.1.n = 1 then ⟨p.1.mask, p.2⟩ :: q else q) q) I ∧
        (ps.foldl (fun q p => if p.1.n = 1 then ⟨p.1.mask, p.2⟩ :: q else q) q).length ≤
          q.length + ps.length := by
    intro ps
    induction ps with
    | nil => exact fun q _ hq => ⟨hq, Nat.le_refl _⟩
    | cons p ps ih =>
      intro q hps hq
      obtain ⟨hlt, hp⟩ := hps p mem_cons_self
      rw [foldl_cons, length_cons]
      have hrest := fun r hr => hps r (mem_cons_of_mem p hr)
      split_ifs with hone
      · have hcons : QueueOk H.length (⟨p.1.mask, p.2⟩ :: q) I := by
          intro e he
          rcases mem_cons.mp he with rfl | he
          · rw [← hp]
            exact ⟨hlt, Nat.le_of_eq hone, fun _ => rfl⟩
          · exact hq e he
        obtain ⟨hok, hlen⟩ := ih _ hrest hcons
        rw [length_cons] at hlen
        exact ⟨hok, by omega⟩
      · obtain ⟨hok, hlen⟩ := ih q hrest hq
        exact ⟨hok, by omega⟩
  have hps : ∀ p ∈ H.zipIdx, p.2 < H.length ∧ p.1 = tally p.2 I := by
    intro p hp
    have hget := mem_zipIdx_iff_getElem?.mp hp
    exact getElem?_some_lt hget hH
  obtain ⟨hok, hlen⟩ := hfold H.zipIdx [] hps fun e he => absurd he not_mem_nil
  rw [length_nil, length_zipIdx, Nat.zero_add] at hlen
  exact ⟨hok, hlen⟩

end Tally

def pairs (size : UInt32) (R : Multiset UInt64) : Multiset (Nat × UInt64) :=
  R.bind fun h => ((cells size h).map fun c => (c, h) : List (Nat × UInt64))

def KeyIdx.pair (ki : KeyIdx) : UInt64 × Nat := (ki.hash, ki.idx)

structure PeelInv (size : UInt32) (all R : Multiset UInt64) (s : Peeling) : Prop where
  tallies : Tallies s.H (pairs size R)
  queue : QueueOk s.H.length s.q (pairs size R)
  peels : Peels (cells size) (s.stack.map KeyIdx.pair)
  empty : ∀ e ∈ s.stack, (tally e.idx (pairs size R)).n = 0
  split : (s.stack.map KeyIdx.hash : Multiset UInt64) + R = all

section Loop
variable {size : UInt32} {all R : Multiset UInt64} {s s' : Peeling} {c : Nat} {h : UInt64}
  {ki : KeyIdx}

theorem pairs_cons (size : UInt32) (h : UInt64) (R : Multiset UInt64) : pairs size (h ::ₘ R) =
    ((cells size h).map fun c => (c, h) : List (Nat × UInt64)) + pairs size R :=
  Multiset.cons_bind _ _ _

theorem pairs_cons_some {z : FpIdx} (hz : hash3 h size = some z) : pairs size (h ::ₘ R) =
    (z.i.toNat, h) ::ₘ (z.j.toNat, h) ::ₘ (z.k.toNat, h) ::ₘ pairs size R := by
  rw [pairs_cons, cells, hz]
  simp only [map_cons, map_nil, ← Multiset.cons_coe, Multiset.cons_add, Multiset.coe_nil, zero_add]

theorem card_hits_cons (c : Nat) (h : UInt64) (R : Multiset UInt64) :
    (tally c (pairs size (h ::ₘ R))).n =
      (cells size h).count c + (tally c (pairs size R)).n := by
  have hown : ∀ cs : List Nat,
      (hits c ((cs.map fun c => (c, h) : List (Nat × UInt64)) + pairs size R)).card =
        cs.count c + (hits c (pairs size R)).card := by
    intro cs
    induction cs with
    | nil => simp only [map_nil, Multiset.coe_nil, zero_add, count_nil]
    | cons d cs ih =>
      rw [map_cons, ← Multiset.cons_coe, Multiset.cons_add]
      by_cases hd : d = c
      · rw [hd, hits_cons_self, Multiset.card_cons, ih, count_cons_self]
        omega
      · rw [hits_cons_of_ne hd, ih, count_cons_of_ne hd]
  rw [pairs_cons]
  exact hown _

theorem mem_of_tally_one (h1 : (tally c (pairs size R)).n = 1) :
    (tally c (pairs size R)).mask ∈ R ∧ c ∈ cells size (tally c (pairs size R)).mask := by
  obtain ⟨h, hh⟩ := Multiset.card_eq_one.mp (show (hits c (pairs size R)).card = 1 from h1)
  have hmask : (tally c (pairs size R)).mask = h := by
    unfold tally
    rw [hh, Multiset.fold_singleton, UInt64.xor_zero]
  have hmem : h ∈ hits c (pairs size R) := hh ▸ Multiset.mem_singleton_self h
  unfold hits pairs at hmem
  obtain ⟨p, hp, rfl⟩ := Multiset.mem_map.mp hmem
  obtain ⟨hp, hpc⟩ := Multiset.mem_filter.mp hp
  obtain ⟨g, hg, hpg⟩ := Multiset.mem_bind.mp hp
  obtain ⟨d, hd, rfl⟩ := mem_map.mp (Multiset.mem_coe.mp hpg)
  rw [hmask, ← hpc]
  exact ⟨hg, hd⟩

theorem sole_of_queue (hinv : PeelInv size all R s) (hq : ki ∈ s.q)
    (h1 : (tally ki.idx (pairs size R)).n = 1) : ∃ R', R = ki.hash ::ₘ R' ∧
      (cells size ki.hash).count ki.idx = 1 ∧ (tally ki.idx (pairs size R')).n = 0 := by
  have hhash := (hinv.queue ki hq).2.2 h1
  obtain ⟨hR, hcell⟩ := mem_of_tally_one h1
  rw [← hhash] at hR hcell
  obtain ⟨R', rfl⟩ := Multiset.exists_cons_of_mem hR
  have hpos := count_pos_iff.mpr hcell
  rw [card_hits_cons] at h1
  exact ⟨R', rfl, by omega, by omega⟩

theorem notMem_cells_of_empty (h0 : (tally c (pairs size R)).n = 0) (hh : h ∈ R) :
    c ∉ cells size h := by
  obtain ⟨R', rfl⟩ := Multiset.exists_cons_of_mem hh
  rw [card_hits_cons] at h0
  exact count_eq_zero.mp (by omega)

theorem updateQ_total {q : List KeyIdx} {H : List XorSet} {i : UInt32} (hi : i.toNat < H.length)
    (h : UInt64) : ∃ r, updateQ (q, H) i h = some r := by
  unfold updateQ
  rw [getElem?_eq_getElem hi]
  exact ⟨_, rfl⟩

theorem lt_of_hash3 {z : FpIdx} (hz : hash3 h size = some z) {n : Nat}
    (hcells : ∀ c ∈ cells size h, c < n) : z.i.toNat < n ∧ z.j.toNat < n ∧ z.k.toNat < n := by
  unfold cells at hcells
  rw [hz] at hcells
  simp only [mem_cons, not_mem_nil, or_false] at hcells
  exact ⟨hcells _ (.inl rfl), hcells _ (.inr (.inl rfl)), hcells _ (.inr (.inr rfl))⟩

theorem hash3_of_mem {c : Nat} (hc : c ∈ cells size h) : ∃ z, hash3 h size = some z := by
  unfold cells at hc
  cases hz : hash3 h size with
  | none =>
    rw [hz] at hc
    exact absurd hc not_mem_nil
  | some z => exact ⟨z, rfl⟩

theorem peelStep_spec {q : List KeyIdx} (hinv : PeelInv size all R s) (hq : s.q = ki :: q)
    (hcells : ∀ h ∈ R, ∀ c ∈ cells size h, c < s.H.length) :
    ∃ s' R', peelStep size { s with q := q } ki = some s' ∧ PeelInv size all R' s' ∧ R' ≤ R ∧
      s'.H.length = s.H.length ∧
      s'.q.length + 4 * R'.card + 1 ≤ s.q.length + 4 * R.card := by
  have hki : ki ∈ s.q := hq ▸ mem_cons_self
  have hrest : QueueOk s.H.length q (pairs size R) := fun e he =>
    hinv.queue e (hq ▸ mem_cons_of_mem ki he)
  have hlt := (hinv.queue ki hki).1
  have hlen : s.q.length = q.length + 1 := by rw [hq, length_cons]
  unfold peelStep
  simp only [hinv.tallies ki.idx hlt, Option.bind_some]
  split_ifs with hstale
  · exact ⟨_, R, rfl, ⟨hinv.tallies, hrest, hinv.peels, hinv.empty, hinv.split⟩, le_rfl, rfl,
      by simp only; omega⟩
  -- the key is alone in this cell, so it is taken out of all of its three
  · obtain ⟨R', rfl, hcount, hgone⟩ := sole_of_queue hinv hki (not_not.mp hstale)
    have hcell : ki.idx ∈ cells size ki.hash := count_pos_iff.mp (by omega)
    obtain ⟨z, hz⟩ := hash3_of_mem hcell
    obtain ⟨hi, hj, hk⟩ := lt_of_hash3 hz (hcells _ (Multiset.mem_cons_self _ _))
    have hpairs := pairs_cons_some (R := R') hz
    have htallies := hinv.tallies
    rw [hpairs] at htallies hrest
    obtain ⟨r₁, h₁⟩ := @updateQ_total q _ _ hi ki.hash
    obtain ⟨hq₁, ht₁, hl₁, hc₁⟩ := updateQ_spec htallies hrest h₁
    obtain ⟨r₂, h₂⟩ := @updateQ_total r₁.1 _ _ (hl₁ ▸ hj) ki.hash
    obtain ⟨hq₂, ht₂, hl₂, hc₂⟩ := updateQ_spec ht₁ hq₁ h₂
    obtain ⟨r₃, h₃⟩ := @updateQ_total r₂.1 _ _ (hl₂ ▸ hl₁ ▸ hk) ki.hash
    obtain ⟨hq₃, ht₃, hl₃, hc₃⟩ := updateQ_spec ht₂ hq₂ h₃
    -- the cells peeled before hold no key any more
    have hold : ∀ e ∈ s.stack, e.idx ∉ cells size ki.hash := fun e he =>
      notMem_cells_of_empty (hinv.empty e he) (Multiset.mem_cons_self _ _)
    refine ⟨⟨r₃.1, r₃.2, ki :: s.stack⟩, R', ?_, ⟨ht₃, hq₃, ?_, ?_, ?_⟩, Multiset.le_cons_self _ _,
      ?_, ?_⟩
    · simp only [hz, h₁, h₂, h₃, Option.bind_eq_bind, Option.bind_some]
    · refine .cons hcount (fun p hp => ?_) hinv.peels
      obtain ⟨e, he, rfl⟩ := mem_map.mp hp
      exact hold e he
    · intro e he
      rcases mem_cons.mp he with rfl | he
      · exact hgone
      · have h0 := hinv.empty e he
        rw [card_hits_cons] at h0
        omega
    · rw [← hinv.split, map_cons, ← Multiset.cons_coe, Multiset.cons_add, Multiset.add_cons]
    · simp only [hl₃, hl₂, hl₁]
    · rw [Multiset.card_cons]
      simp only
      omega

theorem peel_spec {rounds : Nat} (hinv : PeelInv size all R s)
    (hcells : ∀ h ∈ R, ∀ c ∈ cells size h, c < s.H.length)
    (hrounds : s.q.length + 4 * R.card ≤ rounds) :
    ∃ s' R', peel size rounds s = some s' ∧ PeelInv size all R' s' ∧ s'.q = [] := by
  induction rounds generalizing s R with
  | zero =>
    have hq : s.q = [] := eq_nil_of_length_eq_zero (by omega)
    exact ⟨s, R, by rw [peel, if_pos hq], hinv, hq⟩
  | succ rounds ih =>
    unfold peel
    cases hq : s.q with
    | nil => exact ⟨s, R, rfl, hinv, hq⟩
    | cons ki q =>
      obtain ⟨s₁, R₁, h₁, hinv₁, hle, hlen, hdec⟩ := peelStep_spec hinv hq hcells
      obtain ⟨s', R', h', hinv', hq'⟩ := ih hinv₁
        (fun h hh => hlen.symm ▸ hcells h (Multiset.mem_of_le hle hh)) (by omega)
      refine ⟨s', R', ?_, hinv', hq'⟩
      simp only [h₁, Option.bind_some, h']

end Loop

section Attempt
variable {size : UInt32} {seed : UInt64} {H H' : List XorSet} {R : Multiset UInt64}
  {keys : List UInt64}

structure TableOk (size : UInt32) (H : List XorSet) (R : Multiset UInt64) : Prop where
  tallies : Tallies H (pairs size R)
  cells : ∀ h ∈ R, ∀ c ∈ cells size h, c < H.length

theorem tallyKey_spec {key : UInt64} (hH : TableOk size H R)
    (hr : tallyKey size seed H key = some H') :
    TableOk size H' (hashkey key seed ::ₘ R) ∧ H'.length = H.length := by
  unfold tallyKey at hr
  simp only [Option.bind_eq_bind, Option.bind_eq_some_iff] at hr
  obtain ⟨z, hz, H₁, h₁, H₂, h₂, h₃⟩ := hr
  -- the pairs come in from the last to the first, as `pairs` lists them
  obtain ⟨ht₁, hl₁, hi⟩ := tallyAt_spec hH.tallies h₁
  obtain ⟨ht₂, hl₂, hj⟩ := tallyAt_spec ht₁ h₂
  obtain ⟨ht₃, hl₃, hk⟩ := tallyAt_spec ht₂ h₃
  have hlen : H'.length = H.length := by rw [hl₃, hl₂, hl₁]
  refine ⟨⟨?_, ?_⟩, hlen⟩
  · rw [pairs_cons_some hz]
    rwa [Multiset.cons_swap, Multiset.cons_swap (z.k.toNat, _), Multiset.cons_swap (z.j.toNat, _)]
      at ht₃
  · intro h hh c hc
    rw [hlen]
    rcases Multiset.mem_cons.mp hh with rfl | hh
    · unfold XorFilter.cells at hc
      rw [hz] at hc
      simp only [mem_cons, not_mem_nil, or_false] at hc
      rcases hc with rfl | rfl | rfl
      · exact hi
      · omega
      · omega
    · exact hH.cells h hh c hc

theorem tallyKeys_spec (hH : TableOk size H R)
    (hr : keys.foldlM (tallyKey size seed) H = some H') :
    TableOk size H' (keys.map (hashkey · seed) + R) ∧ H'.length = H.length := by
  induction keys generalizing H R with
  | nil =>
    obtain rfl := Option.some.inj hr
    exact ⟨by rwa [map_nil, Multiset.coe_nil, zero_add], rfl⟩
  | cons key keys ih =>
    rw [foldlM_cons, Option.bind_eq_bind, Option.bind_eq_some_iff] at hr
    obtain ⟨H₁, h₁, hr⟩ := hr
    obtain ⟨hH₁, hl₁⟩ := tallyKey_spec hH h₁
    obtain ⟨hok, hlen⟩ := ih hH₁ hr
    refine ⟨?_, hlen.trans hl₁⟩
    rwa [map_cons, ← Multiset.cons_coe, Multiset.cons_add, ← Multiset.add_cons]

theorem tableOk_zero (size : UInt32) (cap : Nat) : TableOk size (replicate cap ⟨0, 0⟩) 0 := by
  refine ⟨fun c hc => ?_, fun h hh => absurd hh (Multiset.notMem_zero h)⟩
  rw [length_replicate] at hc
  rw [getElem?_replicate_of_lt hc]
  rfl

structure Peeled (size : UInt32) (seed : UInt64) (keys : List UInt64) (stack : List KeyIdx) :
    Prop where
  peels : Peels (cells size) (stack.map KeyIdx.pair)
  keys : ∃ R : Multiset UInt64, (stack.map KeyIdx.hash : Multiset UInt64) + R =
    (keys.map (hashkey · seed) : Multiset UInt64)

theorem peel_table (hH : TableOk size H (keys.map (hashkey · seed))) {rounds : Nat}
    (hrounds : H.length + 4 * keys.length ≤ rounds) :
    ∃ s, peel size rounds ⟨firstQ H, H, []⟩ = some s ∧ Peeled size seed keys s.stack := by
  obtain ⟨hq, hlen⟩ := firstQ_ok hH.tallies
  have hinv : PeelInv size (keys.map (hashkey · seed)) (keys.map (hashkey · seed))
      ⟨firstQ H, H, []⟩ :=
    ⟨hH.tallies, hq, .nil, fun e he => absurd he not_mem_nil, zero_add _⟩
  have hbound : (firstQ H).length + 4 * (keys.map (hashkey · seed) : Multiset UInt64).card ≤
      rounds := by
    rw [Multiset.coe_card, length_map]
    omega
  obtain ⟨s, R, hs, hinv', -⟩ := peel_spec hinv hH.cells hbound
  exact ⟨s, hs, hinv'.peels, R, hinv'.split⟩

theorem attempt_spec {size : UInt64} {stack : List KeyIdx}
    (h : attempt size keys seed = some stack) : Peeled size.toUInt32 seed keys stack := by
  unfold attempt at h
  simp only [Option.bind_eq_bind, Option.bind_eq_some_iff] at h
  obtain ⟨H, hH, s, hs, hstack⟩ := h
  obtain ⟨hok, hlen⟩ := tallyKeys_spec (tableOk_zero _ _) hH
  rw [add_zero] at hok
  rw [length_replicate] at hlen
  obtain ⟨s', hs', hpeeled⟩ := peel_table hok (Nat.le_of_eq (by rw [hlen]))
  obtain rfl := Option.some.inj (hs.symm.trans hs')
  obtain rfl := Option.some.inj hstack
  exact hpeeled

end Attempt
end PortableLib.XorFilter
