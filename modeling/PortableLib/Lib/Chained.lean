import Mathlib.Data.List.Perm.Basic
import Mathlib.Data.List.Nodup
import Mathlib.Algebra.BigOperators.Group.List.Basic
import Mathlib.Algebra.Ring.Nat

/-! Arrays of chains: each cell of an array holds a list of entries and every entry sits in
the cell that a placement function selects. -/

namespace PortableLib.Chained
open List
variable {α β ε κ ν : Type*}

theorem exists_split {l : List α} {i : Nat} {a : α} (h : l[i]? = some a) :
    ∃ l₁ l₂, l = l₁ ++ a :: l₂ ∧ l₁.length = i := by
  obtain ⟨hi, rfl⟩ := List.getElem?_eq_some_iff.mp h
  refine ⟨l.take i, l.drop (i + 1), ?_, by simp [Nat.le_of_lt hi]⟩
  rw [← drop_eq_getElem_cons hi, take_append_drop]

theorem set_split (l₁ l₂ : List α) (a b : α) : (l₁ ++ a :: l₂).set l₁.length b = l₁ ++ b :: l₂ := by
  simp

theorem set_getElem?_self {l : List α} {i : Nat} {a : α} (h : l[i]? = some a) : l.set i a = l := by
  obtain ⟨l₁, l₂, rfl, rfl⟩ := exists_split h
  exact set_split l₁ l₂ a a

theorem modify_split (l₁ l₂ : List α) (a : α) (f : α → α) :
    (l₁ ++ a :: l₂).modify l₁.length f = l₁ ++ f a :: l₂ := by
  induction l₁ with
  | nil => rfl
  | cons x l₁ ih => simp only [cons_append, length_cons, modify_succ_cons, ih]

theorem countP_set_add (p : α → Bool) {l : List α} {i : Nat} {a : α} (h : l[i]? = some a) (a' : α) :
    (l.set i a').countP p + (if p a then 1 else 0) = l.countP p + (if p a' then 1 else 0) := by
  obtain ⟨l₁, l₂, rfl, rfl⟩ := exists_split h
  simp only [set_split, countP_append, countP_cons]
  omega

theorem forall_mem_set {P : α → Prop} {l : List α} {i : Nat} {a : α} (h : ∀ b ∈ l, P b)
    (ha : P a) : ∀ b ∈ l.set i a, P b := by
  intro b hb
  rcases mem_or_eq_of_mem_set hb with hb | rfl
  · exact h b hb
  · exact ha

theorem forall_mem_replicate {P : α → Prop} (n : Nat) {a : α} (h : P a) :
    ∀ b ∈ replicate n a, P b := by
  intro b hb
  rwa [eq_of_mem_replicate hb]

section Entries
variable (E : β → List ε) (place : ε → Nat)

def entries (bs : List β) : List ε := bs.flatMap E

def Placed (bs : List β) : Prop := ∀ i b, bs[i]? = some b → ∀ e ∈ E b, place e = i

variable {E place} {bs : List β} {i : Nat} {b b' : β} {e : ε}

theorem Placed.set (h : Placed E place bs) (hb : ∀ e ∈ E b', place e = i) :
    Placed E place (bs.set i b') := by
  intro j c hc e he
  rw [getElem?_set] at hc
  split_ifs at hc with hij hlt
  · obtain rfl : b' = c := by simpa using hc
    rw [hb e he, hij]
  · exact h j c hc e he

theorem mem_entries_of_mem (hi : bs[i]? = some b) (he : e ∈ E b) : e ∈ entries E bs :=
  mem_flatMap_of_mem (mem_of_getElem? hi) he

theorem Placed.mem_iff (h : Placed E place bs) (hi : bs[i]? = some b) (he : place e = i) :
    e ∈ entries E bs ↔ e ∈ E b := by
  refine ⟨fun hmem => ?_, mem_entries_of_mem hi⟩
  obtain ⟨c, hc, hec⟩ := mem_flatMap.mp hmem
  obtain ⟨j, hj⟩ := getElem?_of_mem hc
  have hji : j = i := (h j c hj e hec).symm.trans he
  subst hji
  rw [hi] at hj
  obtain rfl : b = c := by simpa using hj
  exact hec

theorem entries_set_perm_cons (hi : bs[i]? = some b) (hb : E b' ~ e :: E b) :
    entries E (bs.set i b') ~ e :: entries E bs := by
  obtain ⟨l₁, l₂, rfl, rfl⟩ := exists_split hi
  simp only [entries, set_split, flatMap_append, flatMap_cons]
  refine ((hb.append_right _).append_left _).trans ?_
  exact perm_middle

theorem entries_set_cons_perm (hi : bs[i]? = some b) (hb : e :: E b' ~ E b) :
    e :: entries E (bs.set i b') ~ entries E bs := by
  obtain ⟨l₁, l₂, rfl, rfl⟩ := exists_split hi
  simp only [entries, set_split, flatMap_append, flatMap_cons]
  refine perm_middle.symm.trans ?_
  exact (hb.append_right _).append_left _

theorem entries_set_exchange {e' : ε} {rest : List ε} (hi : bs[i]? = some b)
    (hb : E b ~ e :: rest) (hb' : E b' ~ e' :: rest) :
    ∃ l, e :: l ~ entries E bs ∧ entries E (bs.set i b') ~ e' :: l := by
  obtain ⟨l₁, l₂, rfl, rfl⟩ := exists_split hi
  refine ⟨l₁.flatMap E ++ (rest ++ l₂.flatMap E), ?_, ?_⟩
  · simp only [entries, flatMap_append, flatMap_cons]
    exact perm_middle.symm.trans ((hb.symm.append_right _).append_left _)
  · simp only [entries, set_split, flatMap_append, flatMap_cons]
    exact ((hb'.append_right _).append_left _).trans perm_middle

theorem Placed.split (h : Placed E place bs) (hi : bs[i]? = some b) :
    ∃ l₁ l₂, bs = l₁ ++ b :: l₂ ∧ l₁.length = i ∧ (∀ e ∈ l₁.flatMap E, place e ≠ i) ∧
      ∀ e ∈ l₂.flatMap E, place e ≠ i := by
  obtain ⟨l₁, l₂, rfl, rfl⟩ := exists_split hi
  refine ⟨l₁, l₂, rfl, rfl, fun e he => ?_, fun e he => ?_⟩
  · obtain ⟨c, hc, hec⟩ := mem_flatMap.mp he
    obtain ⟨j, hj⟩ := getElem?_of_mem hc
    have hlt : j < l₁.length := (List.getElem?_eq_some_iff.mp hj).1
    have := h j c (by rw [getElem?_append_left hlt, hj]) e hec
    omega
  · obtain ⟨c, hc, hec⟩ := mem_flatMap.mp he
    obtain ⟨j, hj⟩ := getElem?_of_mem hc
    have hget : (l₁ ++ b :: l₂)[l₁.length + (j + 1)]? = some c := by
      rw [getElem?_append_right (by omega)]
      simpa using hj
    have := h _ c hget e hec
    omega

theorem Placed.filter_eq (h : Placed E place bs) (hi : bs[i]? = some b) {p : ε → Bool}
    (hp : ∀ e, p e = true → place e = i) : (entries E bs).filter p = (E b).filter p := by
  obtain ⟨l₁, l₂, rfl, rfl, h₁, h₂⟩ := h.split hi
  have hf : ∀ l : List ε, (∀ e ∈ l, place e ≠ l₁.length) → l.filter p = [] :=
    fun l hl => filter_eq_nil_iff.mpr fun e he hpe => hl e he (hp e hpe)
  simp only [entries, flatMap_append, flatMap_cons, filter_append, hf _ h₁, hf _ h₂, nil_append,
    append_nil]

theorem Placed.entries_set_filter (h : Placed E place bs) (hi : bs[i]? = some b) {p : ε → Bool}
    (hp : ∀ e, p e = true → place e = i) (hb : E b' = (E b).filter fun e => !p e) :
    entries E (bs.set i b') = (entries E bs).filter fun e => !p e := by
  obtain ⟨l₁, l₂, rfl, rfl, h₁, h₂⟩ := h.split hi
  have hf : ∀ l : List ε, (∀ e ∈ l, place e ≠ l₁.length) → (l.filter fun e => !p e) = l := by
    intro l hl
    rw [filter_eq_self]
    intro e he
    rw [Bool.not_eq_true', Bool.eq_false_iff]
    exact fun hpe => hl e he (hp e hpe)
  simp only [entries, set_split, flatMap_append, flatMap_cons, filter_append, hf _ h₁, hf _ h₂, hb]

theorem Placed.countP_eq_length (h : Placed E place bs) (hi : bs[i]? = some b) :
    (entries E bs).countP (fun e => place e = i) = (E b).length := by
  rw [countP_eq_length_filter, h.filter_eq hi fun e he => of_decide_eq_true he, filter_eq_self.mpr]
  exact fun e he => decide_eq_true (h i b hi e he)

theorem entries_replicate (n : Nat) (hb : E b = []) : entries E (replicate n b) = [] := by
  simp [entries, hb]

theorem placed_replicate (n : Nat) (hb : E b = []) : Placed E place (replicate n b) := by
  intro i c hc e he
  obtain rfl : b = c := by
    rw [getElem?_replicate] at hc
    split_ifs at hc
    exact Option.some.inj hc
  rw [hb] at he
  cases he

theorem length_entries_le {f : β → Nat} (h : ∀ b ∈ bs, (E b).length ≤ f b) :
    (entries E bs).length ≤ (bs.map f).sum := by
  induction bs with
  | nil => exact Nat.le_refl _
  | cons b bs ih =>
    have h1 := h b mem_cons_self
    have h2 := ih fun c hc => h c (mem_cons_of_mem _ hc)
    simp only [entries, flatMap_cons, length_append, map_cons, sum_cons] at h2 ⊢
    omega

end Entries

section Represents

def Represents (l : List (κ × ν)) (m : κ → Option ν) : Prop :=
  (l.map Prod.fst).Nodup ∧ ∀ k v, (k, v) ∈ l ↔ m k = some v

variable {l l' : List (κ × ν)} {m : κ → Option ν} {k : κ} {v : ν}

theorem represents_nil : Represents ([] : List (κ × ν)) fun _ => none := by
  simp [Represents]

theorem Represents.perm (h : Represents l m) (hl : l' ~ l) : Represents l' m :=
  ⟨(hl.map Prod.fst).nodup_iff.mpr h.1, fun k v => hl.mem_iff.trans (h.2 k v)⟩

variable [DecidableEq κ]

theorem Represents.cons (h : Represents l m) (hk : m k = none) :
    Represents ((k, v) :: l) (Function.update m k (some v)) := by
  refine ⟨?_, fun k' v' => ?_⟩
  · rw [map_cons, nodup_cons]
    refine ⟨fun hmem => ?_, h.1⟩
    obtain ⟨⟨k', v'⟩, hp, rfl⟩ := mem_map.mp hmem
    rw [(h.2 k' v').mp hp] at hk
    cases hk
  · by_cases hkk : k' = k
    · subst hkk
      have hnot : (k', v') ∉ l := fun hp => by rw [(h.2 k' v').mp hp] at hk; cases hk
      simp [hnot, eq_comm]
    · simp [hkk, h.2]

theorem Represents.of_cons (h : Represents ((k, v) :: l) m) :
    Represents l (Function.update m k none) := by
  have hnd := h.1
  rw [map_cons, nodup_cons] at hnd
  refine ⟨hnd.2, fun k' v' => ?_⟩
  by_cases hkk : k' = k
  · subst hkk
    have hnot : (k', v') ∉ l := fun hp => hnd.1 (mem_map.mpr ⟨_, hp, rfl⟩)
    simp [hnot]
  · rw [Function.update_of_ne hkk, ← h.2]
    simp [hkk]

theorem lookup_eq_of_mem_iff (h : ∀ v, (k, v) ∈ l ↔ m k = some v) : l.lookup k = m k := by
  cases hl : l.lookup k with
  | none =>
    rw [lookup_eq_none_iff] at hl
    cases hm : m k with
    | none => rfl
    | some v => simpa using hl _ ((h v).mpr hm)
  | some v =>
    obtain ⟨l₁, l₂, rfl, -⟩ := lookup_eq_some_iff.mp hl
    exact ((h v).mp (by simp)).symm

theorem Represents.filter_key (h : Represents l m) (k : κ) :
    l.filter (fun p => p.1 = k) = (m k).toList.map fun v => (k, v) := by
  induction l generalizing m with
  | nil =>
    have : m k = none := Option.eq_none_iff_forall_not_mem.mpr fun v hv => by
      simpa using (h.2 k v).mpr hv
    simp [this]
  | cons p l ih =>
    obtain ⟨k', v⟩ := p
    have hm : m k' = some v := (h.2 k' v).mp mem_cons_self
    have := ih h.of_cons
    by_cases hk : k' = k
    · subst hk
      simpa [hm] using this
    · rw [Function.update_of_ne (Ne.symm hk)] at this
      simp [hk, this]

end Represents

end PortableLib.Chained
