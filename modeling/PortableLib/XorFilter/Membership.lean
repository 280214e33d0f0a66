import PortableLib.XorFilter.Peeling

/-! A filter finds the keys it was made of. -/

namespace PortableLib.XorFilter
open List Peel

section Cells
variable {size : UInt32} {h : UInt64} {z : FpIdx}

theorem toNat_mod_lt (h : UInt64) (hsize : size ≠ 0) :
    (h % size.toUInt64).toUInt32.toNat < size.toNat := by
  have hpos : 0 < size.toNat := Nat.pos_of_ne_zero fun h0 => hsize (UInt32.toNat_inj.mp h0)
  rw [UInt64.toNat_toUInt32, UInt64.toNat_mod, UInt32.toNat_toUInt64]
  exact Nat.lt_of_le_of_lt (Nat.mod_le _ _) (Nat.mod_lt _ hpos)

theorem cells_lt {c : Nat} (hc : c ∈ cells size h) : c < 3 * size.toNat := by
  unfold cells hash3 at hc
  split_ifs at hc with hsize
  · exact absurd hc not_mem_nil
  · simp only [mem_cons, not_mem_nil, or_false] at hc
    have h0 : (geth0 h size).toNat < size.toNat := toNat_mod_lt _ hsize
    have h1 : (geth1 h size).toNat < size.toNat := toNat_mod_lt _ hsize
    have h2 : (geth2 h size).toNat < size.toNat := toNat_mod_lt _ hsize
    rcases hc with rfl | rfl | rfl
    · omega
    · rw [UInt32.toNat_add]
      have := Nat.mod_le ((geth1 h size).toNat + size.toNat) (2 ^ 32)
      omega
    · rw [UInt32.toNat_add, UInt32.toNat_mul, show (2 : UInt32).toNat = 2 from rfl]
      have := Nat.mod_le (2 * size.toNat) (2 ^ 32)
      have := Nat.mod_le ((geth2 h size).toNat + 2 * size.toNat % 2 ^ 32) (2 ^ 32)
      omega

theorem cells_of_hash3 (hz : hash3 h size = some z) :
    cells size h = [z.i.toNat, z.j.toNat, z.k.toNat] := by
  unfold cells
  rw [hz]

theorem hash3_of_peels {ki : KeyIdx} {stack : List KeyIdx}
    (hp : Peels (cells size) (stack.map KeyIdx.pair)) (hki : ki ∈ stack) :
    ki.idx ∈ cells size ki.hash ∧ ∃ z, hash3 ki.hash size = some z := by
  have hcount := hp.count_eq_one ki.pair (mem_map_of_mem hki)
  have hcell : ki.idx ∈ cells size ki.hash := count_pos_iff.mp (Nat.lt_of_sub_eq_succ hcount)
  exact ⟨hcell, hash3_of_mem hcell⟩

theorem hash3_total (hsize : size ≠ 0) (h : UInt64) : ∃ z, hash3 h size = some z :=
  ⟨_, if_neg hsize⟩

end Cells

section Fill
variable {β : Type} [OfNat β 0] {b : List β} {z : FpIdx} {size : UInt32}

def view (b : List β) (c : Nat) : β := b.getD c 0

theorem getElem?_eq_view {c : Nat} (hc : c < b.length) : b[c]? = some (view b c) := by
  rw [view, getD_eq_getElem?_getD, getElem?_eq_getElem hc]
  rfl

theorem view_set {c : Nat} (hc : c < b.length) (v : β) :
    view (b.set c v) = Function.update (view b) c v := by
  funext d
  unfold view
  by_cases hd : d = c
  · rw [hd, Function.update_self, getD_eq_getElem?_getD, getElem?_set_self hc]
    rfl
  · rw [Function.update_of_ne hd, getD_eq_getElem?_getD, getElem?_set_ne (Ne.symm hd),
      getD_eq_getElem?_getD]

theorem view_replicate_zero (n c : Nat) : view (replicate n (0 : β)) c = 0 := by
  unfold view
  rw [getD_eq_getElem?_getD, getElem?_replicate]
  split_ifs
  · rfl
  · rfl

theorem cellsOf_eq (hi : z.i.toNat < b.length) (hj : z.j.toNat < b.length)
    (hk : z.k.toNat < b.length) :
    cellsOf b z = some (view b z.i.toNat, view b z.j.toNat, view b z.k.toNat) := by
  unfold cellsOf
  rw [getElem?_eq_view hi, getElem?_eq_view hj, getElem?_eq_view hk]
  rfl

variable [XorOp β] [hassoc : Std.Associative (fun a b : β => a ^^^ b)]
  [hcomm : Std.Commutative (fun a b : β => a ^^^ b)]

theorem total_cells {h : UInt64} (hzero : ∀ a : β, 0 ^^^ a = a) (hz : hash3 h size = some z)
    (f : Nat → β) : total (· ^^^ ·) 0 f (cells size h) =
      f z.i.toNat ^^^ f z.j.toNat ^^^ f z.k.toNat := by
  have hcomm0 : f z.k.toNat ^^^ 0 = f z.k.toNat := (hcomm.comm _ _).trans (hzero _)
  rw [cells_of_hash3 hz, total_cons, total_cons, total_cons]
  show f z.i.toNat ^^^ (f z.j.toNat ^^^ (f z.k.toNat ^^^ 0)) = _
  rw [hcomm0]
  exact (hassoc.assoc _ _ _).symm

theorem fill_spec (fp : UInt64 → β) {stack : List KeyIdx} (hzero : ∀ a : β, 0 ^^^ a = a)
    (hp : Peels (cells size) (stack.map KeyIdx.pair)) (hlen : 3 * size.toNat ≤ b.length) :
    ∃ b', fill fp size b stack = some b' ∧ b'.length = b.length ∧
      view b' = solve (· ^^^ ·) 0 (cells size) fp (view b) (stack.map KeyIdx.pair) := by
  induction stack generalizing b with
  | nil => exact ⟨b, rfl, rfl, rfl⟩
  | cons ki stack ih =>
    rw [map_cons] at hp
    obtain ⟨hcell, z, hz⟩ := hash3_of_peels hp mem_cons_self
    have hin : ∀ c ∈ cells size ki.hash, c < b.length := fun c hc =>
      Nat.lt_of_lt_of_le (cells_lt hc) hlen
    obtain ⟨hi, hj, hk⟩ := lt_of_hash3 hz hin
    have hv : fp ki.hash ^^^ view b z.i.toNat ^^^ view b z.j.toNat ^^^ view b z.k.toNat =
        fp ki.hash ^^^ total (· ^^^ ·) 0 (view b) (cells size ki.hash) := by
      rw [total_cells hzero hz]
      ac_rfl
    obtain ⟨b', hb', hlen', hview⟩ := ih hp.tail (b := b.set ki.idx (fp ki.hash ^^^
      total (· ^^^ ·) 0 (view b) (cells size ki.hash))) (by rwa [length_set])
    refine ⟨b', ?_, by rw [hlen', length_set], ?_⟩
    · simp only [fill, hz, cellsOf_eq hi hj hk, Option.bind_eq_bind, Option.bind_some,
        if_pos (hin _ hcell), hv, hb']
    · rw [hview, view_set (hin _ hcell)]
      rfl

theorem solved_of_filled (fp : UInt64 → β) {stack : List KeyIdx} {h : UInt64}
    (hzero : ∀ a : β, 0 ^^^ a = a) (hself : ∀ a : β, a ^^^ a = 0)
    (hp : Peels (cells size) (stack.map KeyIdx.pair)) (hh : h ∈ stack.map KeyIdx.hash) :
    total (· ^^^ ·) 0 (solve (· ^^^ ·) 0 (cells size) fp (fun _ => 0) (stack.map KeyIdx.pair))
      (cells size h) = fp h := by
  obtain ⟨e, he, rfl⟩ := mem_map.mp hh
  exact solve_spec hzero hself hp (fun _ _ => rfl) e.pair (mem_map_of_mem he)

theorem matchFp_of_filled [DecidableEq β] {fp : UInt64 → β} {stack : List KeyIdx} {h : UInt64}
    (hzero : ∀ a : β, 0 ^^^ a = a) (hself : ∀ a : β, a ^^^ a = 0)
    (hp : Peels (cells size) (stack.map KeyIdx.pair)) (hh : h ∈ stack.map KeyIdx.hash)
    (hlen : 3 * size.toNat ≤ b.length)
    (hb : view b = solve (· ^^^ ·) 0 (cells size) fp (fun _ => 0) (stack.map KeyIdx.pair))
    (hz : hash3 h size = some z) : matchFp (fp h) b z = some true := by
  have hsolved := solved_of_filled fp hzero hself hp hh
  rw [← hb] at hsolved
  have hsum := (total_cells hzero hz (view b)).symm.trans hsolved
  obtain ⟨hi, hj, hk⟩ := lt_of_hash3 hz fun c hc => Nat.lt_of_lt_of_le (cells_lt hc) hlen
  rw [matchFp, cellsOf_eq hi hj hk, Option.map_some]
  exact congrArg some (decide_eq_true hsum.symm)

end Fill

section New
variable {size : UInt64} {keys : List UInt64} {seeds : Nat → UInt64} {stack : List KeyIdx}
  {seed : UInt64}

theorem initLoop_spec {left tries : Nat}
    (h : initLoop size keys seeds left tries = some (stack, seed)) (hne : stack ≠ []) :
    Peeled size.toUInt32 seed keys stack := by
  induction left generalizing tries with
  | zero => exact absurd (congrArg Prod.fst (Option.some.inj h)).symm hne
  | succ left ih =>
    rw [initLoop, Option.bind_eq_some_iff] at h
    obtain ⟨stack', hstack', h⟩ := h
    split_ifs at h
    · obtain ⟨rfl, rfl⟩ := Prod.mk.inj (Option.some.inj h)
      exact attempt_spec hstack'
    · exact ih h

theorem mem_stack_of_key (hp : Peeled size.toUInt32 seed keys stack)
    (hlen : stack.length = keys.length) {key : UInt64} (hkey : key ∈ keys) :
    hashkey key seed ∈ stack.map KeyIdx.hash := by
  obtain ⟨R, hR⟩ := hp.keys
  have hcard := congrArg Multiset.card hR
  rw [Multiset.card_add, Multiset.coe_card, Multiset.coe_card, length_map, length_map] at hcard
  have hzero : R = 0 := Multiset.card_eq_zero.mp (by omega)
  rw [hzero, add_zero] at hR
  rw [← Multiset.mem_coe, hR, Multiset.mem_coe]
  exact mem_map_of_mem hkey

theorem newFilter_spec {β : Type} [XorOp β] [OfNat β 0] [DecidableEq β]
    [Std.Associative (fun a b : β => a ^^^ b)] [Std.Commutative (fun a b : β => a ^^^ b)]
    (fp : UInt64 → β) (g : List β → Fingerprints) (hzero : ∀ a : β, 0 ^^^ a = a)
    (hself : ∀ a : β, a ^^^ a = 0) (hinit : xorfilterInit size keys seeds = some (stack, seed))
    (hlen : stack.length = keys.length) (hne : keys ≠ []) :
    ∃ b, newFilter fp g (fun _ => 3 * size.toNat) size keys seeds =
        some (some ⟨g b, seed, size.toUInt32, UInt32.ofNat keys.length⟩) ∧
      ∀ key ∈ keys, ∃ z, hash3 (hashkey key seed) size.toUInt32 = some z ∧
        matchFp (fp (hashkey key seed)) b z = some true := by
  have hpos : 0 < keys.length := length_pos_iff.mpr hne
  have hstack : stack ≠ [] := fun h => by
    rw [h, length_nil] at hlen
    omega
  have hpeeled := initLoop_spec hinit hstack
  have hroom : 3 * size.toUInt32.toNat ≤ (replicate (3 * size.toNat) (0 : β)).length := by
    rw [length_replicate, UInt64.toNat_toUInt32]
    exact Nat.mul_le_mul_left 3 (Nat.mod_le _ _)
  obtain ⟨b, hb, hblen, hview⟩ := fill_spec fp hzero hpeeled.peels hroom
  refine ⟨b, ?_, fun key hkey => ?_⟩
  · unfold newFilter
    rw [hinit, Option.bind_some]
    simp only [if_neg (show ¬ stack.length = 0 by omega), hb, Option.map_some]
  · have hmem := mem_stack_of_key hpeeled hlen hkey
    have hzeros : view (replicate (3 * size.toNat) (0 : β)) = fun _ => 0 :=
      funext fun c => view_replicate_zero _ c
    rw [hzeros] at hview
    obtain ⟨e, he, heq⟩ := mem_map.mp hmem
    obtain ⟨z, hz⟩ := (hash3_of_peels hpeeled.peels he).2
    rw [heq] at hz
    exact ⟨z, hz, matchFp_of_filled hzero hself hpeeled.peels hmem (hblen ▸ hroom) hview hz⟩

theorem tallyKey_total {s : UInt32} (hs : s ≠ 0) {H : List XorSet}
    (hlen : 3 * s.toNat ≤ H.length) (key : UInt64) :
    ∃ H', tallyKey s seed H key = some H' ∧ H'.length = H.length := by
  obtain ⟨z, hz⟩ := hash3_total hs (hashkey key seed)
  obtain ⟨hi, hj, hk⟩ := lt_of_hash3 hz fun c hc => Nat.lt_of_lt_of_le (cells_lt hc) hlen
  obtain ⟨H₁, h₁, hl₁⟩ := tallyAt_total hi (hashkey key seed)
  obtain ⟨H₂, h₂, hl₂⟩ := tallyAt_total (hl₁ ▸ hj) (hashkey key seed)
  obtain ⟨H₃, h₃, hl₃⟩ := tallyAt_total (hl₂ ▸ hl₁ ▸ hk) (hashkey key seed)
  refine ⟨H₃, ?_, by rw [hl₃, hl₂, hl₁]⟩
  simp only [tallyKey, hz, h₁, h₂, h₃, Option.bind_eq_bind, Option.bind_some]

theorem tallyKeys_total {s : UInt32} (hs : s ≠ 0) {H : List XorSet}
    (hlen : 3 * s.toNat ≤ H.length) (seed : UInt64) (keys : List UInt64) :
    ∃ H', keys.foldlM (tallyKey s seed) H = some H' := by
  induction keys generalizing H with
  | nil => exact ⟨H, rfl⟩
  | cons key keys ih =>
    obtain ⟨H₁, h₁, hl₁⟩ := tallyKey_total hs hlen key
    obtain ⟨H', h'⟩ := ih (hl₁ ▸ hlen)
    exact ⟨H', by rw [foldlM_cons, h₁, Option.bind_eq_bind, Option.bind_some, h']⟩

theorem attempt_total (hsize : size.toUInt32 ≠ 0) (hcap : size.toNat * 3 < 2 ^ 64)
    (keys : List UInt64) (seed : UInt64) : ∃ stack, attempt size keys seed = some stack := by
  have htoNat : (size * 3).toNat = size.toNat * 3 := by
    rw [UInt64.toNat_mul]
    exact Nat.mod_eq_of_lt hcap
  have hroom : 3 * size.toUInt32.toNat ≤
      (replicate (size * 3).toNat (⟨0, 0⟩ : XorSet)).length := by
    rw [length_replicate, htoNat, UInt64.toNat_toUInt32, Nat.mul_comm]
    exact Nat.mul_le_mul_right 3 (Nat.mod_le _ _)
  obtain ⟨H, hH⟩ := tallyKeys_total hsize hroom seed keys
  obtain ⟨hok, hlen⟩ := tallyKeys_spec (tableOk_zero _ _) hH
  rw [add_zero] at hok
  rw [length_replicate] at hlen
  obtain ⟨s, hs, -⟩ := peel_table hok (Nat.le_of_eq (by rw [hlen]))
  refine ⟨s.stack, ?_⟩
  simp only [attempt, hH, hs, Option.bind_eq_bind, Option.bind_some]

theorem xorfilterInit_total (hsize : size.toUInt32 ≠ 0) (hcap : size.toNat * 3 < 2 ^ 64)
    (keys : List UInt64) (seeds : Nat → UInt64) : (xorfilterInit size keys seeds).isSome := by
  have hloop : ∀ left tries, (initLoop size keys seeds left tries).isSome := by
    intro left
    induction left with
    | zero => exact fun _ => rfl
    | succ left ih =>
      intro tries
      obtain ⟨stack, hstack⟩ := attempt_total hsize hcap keys (seeds tries)
      rw [initLoop, hstack, Option.bind_some]
      split_ifs
      · rfl
      · exact ih (tries + 1)
  exact hloop _ _

/-- The construction comes to an end, and if the peeling loop has emptied the table, then both
kinds of filter find every key. -/
theorem xorfilter_contains_keys (size : UInt64) (keys : List UInt64) (seeds : Nat → UInt64) :
    (size.toUInt32 ≠ 0 → size.toNat * 3 < 2 ^ 64 → (xorfilterInit size keys seeds).isSome) ∧
    ∀ stack seed, xorfilterInit size keys seeds = some (stack, seed) →
      stack.length = keys.length → keys ≠ [] →
      (∃ x, xorfilterNew8 (fun _ => 3 * size.toNat) size keys seeds = some (some x) ∧
        ∀ key ∈ keys, xorfilterContains x key = some true) ∧
      ∃ x, xorfilterNew16 (fun _ => 3 * size.toNat) size keys seeds = some (some x) ∧
        ∀ key ∈ keys, xorfilterContains x key = some true := by
  refine ⟨fun hsize hcap => xorfilterInit_total hsize hcap keys seeds, ?_⟩
  intro stack seed hinit hlen hne
  constructor
  · obtain ⟨b, hb, hkeys⟩ := newFilter_spec xfp8 .fp8 (fun a => UInt8.zero_xor)
      (fun a => UInt8.xor_self) hinit hlen hne
    refine ⟨_, hb, fun key hkey => ?_⟩
    obtain ⟨z, hz, hmatch⟩ := hkeys key hkey
    simp only [xorfilterContains, hz, Option.bind_some, hmatch]
  · obtain ⟨b, hb, hkeys⟩ := newFilter_spec xfp16 .fp16 (fun a => UInt16.zero_xor)
      (fun a => UInt16.xor_self) hinit hlen hne
    refine ⟨_, hb, fun key hkey => ?_⟩
    obtain ⟨z, hz, hmatch⟩ := hkeys key hkey
    simp only [xorfilterContains, hz, Option.bind_some, hmatch]

theorem xorfilter_contains_three :
    (xorfilterInit 11 [3, 1, 4] (fun _ => 7)).isSome ∧
    ∃ x, xorfilterNew8 (fun _ => 33) 11 [3, 1, 4] (fun _ => 7) = some (some x) ∧
      xorfilterContains x 3 = some true ∧ xorfilterContains x 1 = some true ∧
      xorfilterContains x 4 = some true := by
  have hall := xorfilter_contains_keys 11 [3, 1, 4] (fun _ => 7)
  have hinit : xorfilterInit 11 [3, 1, 4] (fun _ => 7) = some ([⟨10466891034475092563, 24⟩,
      ⟨11075991905606078072, 25⟩, ⟨17888333837013136625, 28⟩], 7) := by decide
  obtain ⟨⟨x, hx, hkeys⟩, -⟩ := hall.2 _ _ hinit rfl (by decide)
  exact ⟨hall.1 (by decide) (by decide), x, hx, hkeys 3 (by decide), hkeys 1 (by decide),
    hkeys 4 (by decide)⟩

end New
end PortableLib.XorFilter
