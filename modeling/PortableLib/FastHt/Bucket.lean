import PortableLib.FastHt.Canonical
import PortableLib.Lib.Chained

/-! What the bucket operations do to the entries of a chain of canonical bags. -/

namespace PortableLib.FastHt
open List Chained

def Bag.Canon (g : Bag) : Prop := ∃ e, g = Bag.ofEntry e ∧ ∀ p ∈ e, p.1 ≠ 0

def Hb.Canon (b : Hb) : Prop := ∀ g ∈ b.head, g.Canon

theorem canon_ofEntry_some {k : UInt64} (hk : k ≠ 0) (v : Ptr) :
    (Bag.ofEntry (some (k, v))).Canon :=
  ⟨_, rfl, by rintro p ⟨rfl⟩; exact hk⟩

theorem canon_ofEntry_none : (Bag.ofEntry none).Canon := ⟨none, rfl, by rintro p ⟨⟩⟩

theorem slots_ofEntry_none : (Bag.ofEntry none).slots = [] := slots_ofEntry (by rintro p ⟨⟩)

theorem slots_ofEntry_some {k : UInt64} (hk : k ≠ 0) (v : Ptr) :
    (Bag.ofEntry (some (k, v))).slots = [(k, v)] := slots_ofEntry (by rintro p ⟨rfl⟩; exact hk)

theorem Bag.Canon.cases {g : Bag} (h : g.Canon) :
    (g = Bag.ofEntry none ∧ g.slots = []) ∨
      ∃ k v, k ≠ 0 ∧ g = Bag.ofEntry (some (k, v)) ∧ g.slots = [(k, v)] := by
  obtain ⟨_ | ⟨k, v⟩, rfl, he⟩ := h
  · exact .inl ⟨rfl, slots_ofEntry_none⟩
  · exact .inr ⟨k, v, he _ rfl, rfl, slots_ofEntry_some (he _ rfl) v⟩

theorem findKeyOrAdd_none (mt : Matcher) {k : UInt64} (hk : k ≠ 0) :
    findKeyOrAdd mt (Bag.ofEntry none) k = .inr (some 0) := by
  simp only [findKeyOrAdd, scanMatches_ofEntry mt hk, ctz_control_ofEntry]
  rfl

theorem findKeyOrAdd_some (mt : Matcher) {k : UInt64} (hk : k ≠ 0) (k' : UInt64) (v : Ptr) :
    findKeyOrAdd mt (Bag.ofEntry (some (k', v))) k = if k' = k then .inl v else .inr none := by
  simp only [findKeyOrAdd, scanMatches_ofEntry mt hk, ctz_control_ofEntry]
  by_cases h : k' = k <;> simp [h, Bag.ofEntry]

theorem findKey_none (mt : Matcher) {k : UInt64} (hk : k ≠ 0) :
    findKey mt (Bag.ofEntry none) k = none := by
  simp only [findKey, scanMatches_ofEntry mt hk]
  rfl

theorem findKey_some (mt : Matcher) {k : UInt64} (hk : k ≠ 0) (k' : UInt64) (v : Ptr) :
    findKey mt (Bag.ofEntry (some (k', v))) k = if k' = k then some (0, v) else none := by
  simp only [findKey, scanMatches_ofEntry mt hk]
  by_cases h : k' = k <;> simp [h, Bag.ofEntry]

section Write
variable {k : UInt64} {v : Ptr} {b : Hb} {j : Nat}

theorem canon_modify {f : Bag → Bag} {g : Bag} (hb : b.Canon) (hj : b.head[j]? = some g)
    (hf : (f g).Canon) : ∀ g ∈ b.head.modify j f, g.Canon := by
  obtain ⟨l₁, l₂, hl, rfl⟩ := exists_split hj
  intro g' hg
  simp only [hl, modify_split, mem_append, mem_cons] at hg
  rcases hg with hg | rfl | hg
  · exact hb g' (by simp [hl, hg])
  · exact hf
  · exact hb g' (by simp [hl, hg])

theorem slots_modify_store (hk : k ≠ 0) (v : Ptr) (hj : b.head[j]? = some (Bag.ofEntry none)) :
    (b.head.modify j fun g => g.store 0 k v).flatMap Bag.slots ~ (k, v) :: b.slots := by
  obtain ⟨l₁, l₂, hl, rfl⟩ := exists_split hj
  simp only [Hb.slots, hl, modify_split, ofEntry_none_store, flatMap_append, flatMap_cons,
    slots_ofEntry_some hk, slots_ofEntry_none, nil_append, cons_append]
  exact perm_middle

theorem slots_modify_clear (hk : k ≠ 0) (hj : b.head[j]? = some (Bag.ofEntry (some (k, v)))) :
    (k, v) :: (b.head.modify j fun g => g.clear 0).flatMap Bag.slots ~ b.slots := by
  obtain ⟨l₁, l₂, hl, rfl⟩ := exists_split hj
  simp only [Hb.slots, hl, modify_split, ofEntry_some_clear, flatMap_append, flatMap_cons,
    slots_ofEntry_some hk, slots_ofEntry_none, nil_append, cons_append]
  exact perm_middle.symm

theorem slots_modify_setVal (hk : k ≠ 0) (v' : Ptr)
    (hj : b.head[j]? = some (Bag.ofEntry (some (k, v)))) :
    ∃ rest, b.slots ~ (k, v) :: rest ∧
      (b.head.modify j fun g => g.setVal 0 v').flatMap Bag.slots ~ (k, v') :: rest := by
  obtain ⟨l₁, l₂, hl, rfl⟩ := exists_split hj
  refine ⟨l₁.flatMap Bag.slots ++ l₂.flatMap Bag.slots, ?_, ?_⟩
  · simp only [Hb.slots, hl, flatMap_append, flatMap_cons, slots_ofEntry_some hk, cons_append,
      nil_append]
    exact perm_middle
  · rw [hl, modify_split, ofEntry_some_setVal]
    simp only [flatMap_append, flatMap_cons, slots_ofEntry_some hk, cons_append, nil_append]
    exact perm_middle

theorem canon_insertFresh (hb : b.Canon) (hk : k ≠ 0) (v : Ptr) : (insertFresh b k v).Canon := by
  intro g hg
  rcases mem_cons.mp hg with rfl | hg
  · rw [newz_store]
    exact canon_ofEntry_some hk v
  · exact hb g hg

theorem slots_insertFresh (b : Hb) (hk : k ≠ 0) (v : Ptr) :
    (insertFresh b k v).slots = (k, v) :: b.slots := by
  simp only [Hb.slots, insertFresh, newz_store, flatMap_cons, slots_ofEntry_some hk, cons_append,
    nil_append]

end Write

theorem lookup_cons_of_ne {k k' : UInt64} (h : k' ≠ k) (v : Ptr) (l : List (UInt64 × Ptr)) :
    ((k', v) :: l).lookup k = l.lookup k := by
  rw [lookup_cons, beq_eq_false_iff_ne.mpr (Ne.symm h)]

theorem insertScan_cases (mt : Matcher) {k : UInt64} (hk : k ≠ 0) (gs : List Bag) (i : Nat)
    (bg : Option (Nat × Fin 7)) (hgs : ∀ g ∈ gs, g.Canon) :
    (∃ v, (gs.flatMap Bag.slots).lookup k = some v ∧ insertScan mt k gs i bg = .inl v) ∨
      ((gs.flatMap Bag.slots).lookup k = none ∧
        (insertScan mt k gs i bg = .inr bg ∨
          bg = none ∧ ∃ j, gs[j]? = some (Bag.ofEntry none) ∧
            insertScan mt k gs i bg = .inr (some (i + j, 0)))) := by
  induction gs generalizing i bg with
  | nil => exact .inr ⟨rfl, .inl rfl⟩
  | cons g gs ih =>
    have hgs' : ∀ g ∈ gs, g.Canon := fun g hg => hgs g (mem_cons_of_mem _ hg)
    rcases (hgs g mem_cons_self).cases with ⟨rfl, hs⟩ | ⟨k', v', hk', rfl, hs⟩
    · simp only [flatMap_cons, hs, nil_append, insertScan, findKeyOrAdd_none mt hk, Option.map_some]
      rcases ih (i + 1) (bg <|> some (i, 0)) hgs' with h | ⟨hl, h⟩
      · exact .inl h
      · refine .inr ⟨hl, ?_⟩
        cases bg with
        -- a free slot seen earlier is kept
        | some b => exact .inl (h.resolve_right fun h' => by cases h'.1)
        | none =>
          rcases h with h | ⟨h, -⟩
          · exact .inr ⟨rfl, 0, rfl, h⟩
          · cases h
    · simp only [flatMap_cons, hs, insertScan, findKeyOrAdd_some mt hk]
      by_cases hkk : k' = k
      · subst hkk
        exact .inl ⟨v', by simp, by simp⟩
      · have hbg : (bg <|> (none : Option (Fin 7)).map fun s => (i, s)) = bg := by cases bg <;> rfl
        simp only [cons_append, nil_append, lookup_cons_of_ne hkk, if_neg hkk, hbg]
        rcases ih (i + 1) bg hgs' with h | ⟨hl, h | ⟨hb, j, hj, h⟩⟩
        · exact .inl h
        · exact .inr ⟨hl, .inl h⟩
        · refine .inr ⟨hl, .inr ⟨hb, j + 1, hj, ?_⟩⟩
          rw [h, Nat.add_assoc, Nat.add_comm 1 j]

theorem findx_cases (mt : Matcher) {k : UInt64} (hk : k ≠ 0) (gs : List Bag) (i : Nat)
    (hgs : ∀ g ∈ gs, g.Canon) :
    ((gs.flatMap Bag.slots).lookup k = none ∧ findx mt k gs i = none) ∨
      ∃ v j, (gs.flatMap Bag.slots).lookup k = some v ∧ findx mt k gs i = some (i + j, 0, v) ∧
        gs[j]? = some (Bag.ofEntry (some (k, v))) := by
  induction gs generalizing i with
  | nil => exact .inl ⟨rfl, rfl⟩
  | cons g gs ih =>
    have hgs' : ∀ g ∈ gs, g.Canon := fun g hg => hgs g (mem_cons_of_mem _ hg)
    rcases (hgs g mem_cons_self).cases with ⟨rfl, hs⟩ | ⟨k', v', hk', rfl, hs⟩
    · simp only [flatMap_cons, hs, nil_append, findx, findKey_none mt hk]
      rcases ih (i + 1) hgs' with h | ⟨v, j, hl, h, hj⟩
      · exact .inl h
      · exact .inr ⟨v, j + 1, hl, by rw [h, Nat.add_assoc, Nat.add_comm 1 j], hj⟩
    · simp only [flatMap_cons, hs, findx, findKey_some mt hk]
      by_cases hkk : k' = k
      · subst hkk
        exact .inr ⟨v', 0, by simp, by simp, rfl⟩
      · simp only [cons_append, nil_append, lookup_cons_of_ne hkk, if_neg hkk]
        rcases ih (i + 1) hgs' with h | ⟨v, j, hl, h, hj⟩
        · exact .inl h
        · exact .inr ⟨v, j + 1, hl, by rw [h, Nat.add_assoc, Nat.add_comm 1 j], hj⟩

theorem insert_cases (mt : Matcher) {k : UInt64} (hk : k ≠ 0) (v : Ptr) {b : Hb} (hb : b.Canon) :
    (∃ v₀, b.slots.lookup k = some v₀ ∧ insert mt b k v = (v₀, b)) ∨
      (b.slots.lookup k = none ∧ ∃ b', insert mt b k v = (0, b') ∧ b'.Canon ∧
        b'.slots ~ (k, v) :: b.slots ∧ b'.nodes = b.nodes + 1) := by
  rcases insertScan_cases mt hk b.head 0 none hb with ⟨v₀, hl, h⟩ | ⟨hl, h | ⟨-, j, hj, h⟩⟩
  · exact .inl ⟨v₀, hl, by simp only [insert, h]⟩
  · refine .inr ⟨hl, insertFresh b k v, by simp only [insert, h], canon_insertFresh hb hk v, ?_,
      rfl⟩
    rw [slots_insertFresh b hk]
  · rw [Nat.zero_add] at h
    have hcanon : ((Bag.ofEntry none).store 0 k v).Canon := by
      rw [ofEntry_none_store]
      exact canon_ofEntry_some hk v
    exact .inr ⟨hl, ⟨b.head.modify j fun g => g.store 0 k v, b.nodes + 1, b.bags⟩,
      by simp only [insert, h], canon_modify hb hj hcanon, slots_modify_store hk v hj, rfl⟩

def Hb.Full (b : Hb) : Prop := ∀ g ∈ b.head, ∃ k v, k ≠ 0 ∧ g = Bag.ofEntry (some (k, v))

theorem Hb.Full.canon {b : Hb} (h : b.Full) : b.Canon := by
  intro g hg
  obtain ⟨k, v, hk, rfl⟩ := h g hg
  exact canon_ofEntry_some hk v

theorem insertQuick_full {b : Hb} (h : b.Full) (k : UInt64) (v : Ptr) :
    insertQuick b k v = some (insertFresh b k v) := by
  unfold insertQuick
  split
  · rfl
  · rename_i g gs hg
    obtain ⟨k', v', -, rfl⟩ := h g (by simp [hg])
    have : findEmptySlot (Bag.ofEntry (some (k', v'))) = none := ctz_control_ofEntry _
    simp only [this]

theorem insertFresh_full {b : Hb} (h : b.Full) {k : UInt64} (hk : k ≠ 0) (v : Ptr) :
    (insertFresh b k v).Full := by
  intro g hg
  rcases mem_cons.mp hg with rfl | hg
  · exact ⟨k, v, hk, newz_store k v⟩
  · exact h g hg

end PortableLib.FastHt
