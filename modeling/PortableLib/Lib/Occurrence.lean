import Mathlib.Data.List.Range
import Mathlib.Data.List.Infix
import Mathlib.Data.Nat.Basic

/-! Where a pattern stands in a text, and what an occurrence says about shifted copies of the
pattern. A pattern is its cells and its length; what lies beyond is never looked at. -/

namespace PortableLib
variable {α : Type*}

/-- The first `m` cells of `x` stand in `t` at offset `j`. -/
def Occurs (x : Nat → α) (m : Nat) (t : Nat → α) (j : Nat) : Prop := ∀ k < m, t (j + k) = x k

instance [DecidableEq α] (x : Nat → α) (m : Nat) (t : Nat → α) : DecidablePred (Occurs x m t) :=
  fun _ => Nat.decidableBallLT _ _

def offsets (n m : Nat) : Nat := n + 1 - m

theorem lt_offsets_iff {n m j : Nat} : j < offsets n m ↔ j + m ≤ n := by
  rw [offsets]
  omega

theorem Occurs.at {x : Nat → α} {m : Nat} {t : Nat → α} {j k p : Nat} (h : Occurs x m t j)
    (hk : k < m) (hp : p = j + k) : t p = x k := by
  rw [hp]
  exact h k hk

section occurrences
variable [DecidableEq α] {x : Nat → α} {m : Nat} {t : Nat → α} {lo mid hi : Nat}

def occurrences (x : Nat → α) (m : Nat) (t : Nat → α) (lo hi : Nat) : List Nat :=
  (List.range' lo (hi - lo)).filter fun j => Occurs x m t j

theorem mem_occurrences {j : Nat} :
    j ∈ occurrences x m t lo hi ↔ lo ≤ j ∧ j < hi ∧ Occurs x m t j := by
  rw [occurrences, List.mem_filter, List.mem_range'_1, decide_eq_true_iff, ← and_assoc]
  exact and_congr_left fun _ => by omega

theorem occurrences_of_le (h : hi ≤ lo) : occurrences x m t lo hi = [] := by
  rw [occurrences, Nat.sub_eq_zero_of_le h]
  rfl

theorem occurrences_cons (hlt : lo < hi) (h : Occurs x m t lo) :
    occurrences x m t lo hi = lo :: occurrences x m t (lo + 1) hi := by
  have hlen : hi - lo = (hi - (lo + 1)) + 1 := by omega
  rw [occurrences, hlen, List.range'_succ, List.filter_cons_of_pos, occurrences]
  exact decide_eq_true h

theorem occurrences_drop (h : lo < hi → ¬ Occurs x m t lo) :
    occurrences x m t lo hi = occurrences x m t (lo + 1) hi := by
  rcases Nat.lt_or_ge lo hi with hlt | hge
  · have hlen : hi - lo = (hi - (lo + 1)) + 1 := by omega
    rw [occurrences, hlen, List.range'_succ, List.filter_cons_of_neg, occurrences]
    rw [decide_eq_true_iff]
    exact h hlt
  · rw [occurrences_of_le hge, occurrences_of_le (Nat.le_succ_of_le hge)]

theorem occurrences_skip (hle : lo ≤ mid)
    (h : ∀ j, lo ≤ j → j < mid → j < hi → ¬ Occurs x m t j) :
    occurrences x m t lo hi = occurrences x m t mid hi := by
  induction mid, hle using Nat.le_induction with
  | base => rfl
  | succ mid hle ih =>
    rw [ih fun j hj hlt => h j hj (Nat.lt_succ_of_lt hlt)]
    exact occurrences_drop (h mid hle (Nat.lt_succ_self mid))

theorem occurrences_succ (h : lo ≤ hi) :
    occurrences x m t lo (hi + 1) = if decide (Occurs x m t hi) then occurrences x m t lo hi ++ [hi]
      else occurrences x m t lo hi := by
  have hlen : hi + 1 - lo = (hi - lo) + 1 := Nat.succ_sub h
  have hlast : lo + 1 * (hi - lo) = hi := by rw [Nat.one_mul, Nat.add_sub_cancel' h]
  rw [occurrences, hlen, List.range'_concat, hlast, List.filter_append, List.filter_singleton,
    ← occurrences]
  cases decide (Occurs x m t hi) with
  | true => rfl
  | false => exact List.append_nil _

theorem occurrences_eq_nil (h : ∀ j, lo ≤ j → j < hi → ¬ Occurs x m t j) :
    occurrences x m t lo hi = [] := by
  apply List.eq_nil_iff_forall_not_mem.mpr
  intro j hj
  obtain ⟨hlo, hhi, hoc⟩ := mem_occurrences.mp hj
  exact h j hlo hhi hoc

end occurrences

section apart

/-- Goes through the offsets from left to right and keeps those that start at or after the end
of the one kept last; the first must start at or after `b`. -/
@[simp] def keepApart (m : Nat) : Nat → List Nat → List Nat
  | _, [] => []
  | b, p :: ps => if b ≤ p then p :: keepApart m (p + m) ps else keepApart m b ps

theorem keepApart_length_le (m b : Nat) (ps : List Nat) :
    (keepApart m b ps).length ≤ ps.length := by
  induction ps generalizing b with
  | nil => exact Nat.le_refl _
  | cons p ps ih =>
    rw [keepApart]
    split
    · exact Nat.succ_le_succ (ih _)
    · exact Nat.le_succ_of_le (ih _)

theorem keepApart_cons_of_lt {m b p : Nat} {ps : List Nat} (h : p < b) :
    keepApart m b (p :: ps) = keepApart m b ps := if_neg (Nat.not_le.mpr h)

theorem keepApart_occurrences [DecidableEq α] {x : Nat → α} {m : Nat} {t : Nat → α}
    {lo mid hi b : Nat} (hlo : lo ≤ mid) (hb : mid ≤ b) :
    keepApart m b (occurrences x m t lo hi) = keepApart m b (occurrences x m t mid hi) := by
  induction mid, hlo using Nat.le_induction with
  | base => rfl
  | succ mid hlo ih =>
    rw [ih (Nat.le_of_succ_le hb)]
    by_cases hoc : Occurs x m t mid
    · rcases Nat.lt_or_ge mid hi with hlt | hge
      · rw [occurrences_cons hlt hoc, keepApart_cons_of_lt hb]
      · rw [occurrences_of_le hge, occurrences_of_le (Nat.le_succ_of_le hge)]
    · rw [occurrences_drop fun _ => hoc]

theorem keepApart_eq_self_iff {m b : Nat} {ps : List Nat} :
    keepApart m b ps = ps ↔ (∀ p ∈ ps.head?, b ≤ p) ∧ ps.IsChain (fun p q => p + m ≤ q) := by
  induction ps generalizing b with
  | nil => simp [keepApart]
  | cons p ps ih =>
    rw [keepApart]
    split
    next hp =>
      rw [List.cons_eq_cons, ih, List.isChain_cons]
      simp only [List.head?_cons, Option.mem_some_iff, forall_eq', hp, true_and]
    next hp =>
      constructor
      · intro h
        have hlen := keepApart_length_le m b ps
        rw [h, List.length_cons] at hlen
        omega
      · rintro ⟨h, -⟩
        exact absurd (h p rfl) hp

theorem keepApart_occurrences_eq_iff [DecidableEq α] {x : Nat → α} {m : Nat} {t : Nat → α}
    {hi : Nat} :
    keepApart m 0 (occurrences x m t 0 hi) = occurrences x m t 0 hi ↔
      ∀ p q, p < q → q < hi → Occurs x m t p → Occurs x m t q → p + m ≤ q := by
  have htrans : Trans (fun p q : Nat => p + m ≤ q) (fun p q => p + m ≤ q) fun p q => p + m ≤ q :=
    ⟨fun hpq hqr => by omega⟩
  have hzero : ∀ p ∈ (occurrences x m t 0 hi).head?, 0 ≤ p := fun p _ => Nat.zero_le p
  rw [keepApart_eq_self_iff, and_iff_right hzero, List.isChain_iff_pairwise]
  have hsorted : (occurrences x m t 0 hi).Pairwise (· < ·) :=
    List.Pairwise.filter _ List.pairwise_lt_range'
  constructor
  · intro h p q hpq hq hop hoq
    -- the order of the list settles which of two offsets can be the earlier one
    have hfwd : (occurrences x m t 0 hi).Pairwise fun p q => p < q → p + m ≤ q :=
      h.imp fun {p q} hle (_ : p < q) => hle
    have hback : (occurrences x m t 0 hi).Pairwise (flip fun p q => p < q → p + m ≤ q) :=
      hsorted.imp fun {p q} hlt hgt => absurd hgt (Nat.lt_asymm hlt)
    have hall := List.Pairwise.forall_of_forall_of_flip
      (fun p _ hlt => absurd hlt (Nat.lt_irrefl p)) hfwd hback
    exact hall (mem_occurrences.mpr ⟨Nat.zero_le p, hpq.trans hq, hop⟩)
      (mem_occurrences.mpr ⟨Nat.zero_le q, hq, hoq⟩) hpq
  · intro h
    refine hsorted.imp_of_mem fun {p q} hp hq hpq => ?_
    obtain ⟨-, -, hop⟩ := mem_occurrences.mp hp
    obtain ⟨-, hq, hoq⟩ := mem_occurrences.mp hq
    exact h p q hpq hq hop hoq

end apart

section scan
variable {σ : Type}

@[simp] def scan (pos : σ → Nat) (step : σ → Option (Bool × σ)) (hi : Nat) :
    Nat → σ → Option (List Nat)
  | 0, _ => none
  | fuel + 1, s =>
    if pos s < hi then do
      let (found, s') ← step s
      let r ← scan pos step hi fuel s'
      return if found then pos s :: r else r
    else some []

inductive Scans (pos : σ → Nat) (step : σ → Option (Bool × σ)) (hi : Nat) : σ → σ → Prop
  | refl (s : σ) : Scans pos step hi s s
  | head {s s₁ s' : σ} {found : Bool} (hlt : pos s < hi) (hstep : step s = some (found, s₁))
      (hrest : Scans pos step hi s₁ s') : Scans pos step hi s s'

variable {pos : σ → Nat} {step : σ → Option (Bool × σ)} {hi fuel : Nat} {s s' : σ} {r : List Nat}

theorem scan_eq_some_iff (hlt : pos s < hi) :
    scan pos step hi (fuel + 1) s = some r ↔ ∃ found s₁ r₁, step s = some (found, s₁) ∧
      scan pos step hi fuel s₁ = some r₁ ∧ r = if found then pos s :: r₁ else r₁ := by
  rw [scan, if_pos hlt]
  constructor
  · intro h
    simp only [Option.bind_eq_bind, Option.bind_eq_some_iff] at h
    obtain ⟨⟨found, s₁⟩, hstep, r₁, hr₁, heq⟩ := h
    exact ⟨found, s₁, r₁, hstep, hr₁, (Option.some.inj heq).symm⟩
  · rintro ⟨found, s₁, r₁, hstep, hr₁, rfl⟩
    simp only [hstep, hr₁, Option.bind_eq_bind, Option.bind_some, pure]

theorem le_of_mem_scan (hmono : ∀ s found s', step s = some (found, s') → pos s ≤ pos s')
    (h : scan pos step hi fuel s = some r) : ∀ p ∈ r, pos s ≤ p := by
  induction fuel generalizing s r with
  | zero => cases h
  | succ fuel ih =>
    by_cases hlt : pos s < hi
    · obtain ⟨found, s₁, r₁, hstep, hr₁, rfl⟩ := (scan_eq_some_iff hlt).mp h
      have hle : ∀ p ∈ r₁, pos s ≤ p := fun p hp => (hmono s found s₁ hstep).trans (ih hr₁ p hp)
      cases found with
      | false => exact hle
      | true =>
        intro p hp
        rcases List.mem_cons.mp hp with rfl | hp
        · exact Nat.le_refl _
        · exact hle p hp
    · rw [scan, if_neg hlt] at h
      obtain rfl := Option.some.inj h
      exact fun p hp => absurd hp List.not_mem_nil

theorem Scans.keeps {J : σ → Prop} (h : Scans pos step hi s s') (hs : J s)
    (hkeep : ∀ s found s', J s → pos s < hi → step s = some (found, s') → J s') : J s' := by
  induction h with
  | refl => exact hs
  | head hlt hstep _ ih => exact ih (hkeep _ _ _ hs hlt hstep)

variable {x t : Nat → α} {m : Nat} {I C : σ → Prop}

/-- The step reports a match exactly if there is one, moves on and passes over no other one. -/
structure Faithful (x : Nat → α) (m : Nat) (t : Nat → α) (hi : Nat) (pos : σ → Nat) (s : σ)
    (found : Bool) (s' : σ) : Prop where
  lt : pos s < pos s'
  found_iff : found = true ↔ Occurs x m t (pos s)
  skip : ∀ p, pos s < p → p < pos s' → p < hi → ¬ Occurs x m t p

theorem Faithful.of_shift {found : Bool} {shift : Nat} (hpos : pos s' = pos s + shift)
    (hshift : 0 < shift) (hfound : found = true ↔ Occurs x m t (pos s))
    (hskip : ∀ d, 0 < d → d < shift → pos s + d < hi → ¬ Occurs x m t (pos s + d)) :
    Faithful x m t hi pos s found s' := by
  refine ⟨hpos ▸ Nat.lt_add_of_pos_right hshift, hfound, fun p hp hlt hphi => ?_⟩
  have hd := hskip (p - pos s) (by omega) (by omega) (by omega)
  rwa [Nat.add_sub_cancel' (Nat.le_of_lt hp)] at hd

variable [DecidableEq α]

theorem Faithful.occurrences_eq {found : Bool} (h : Faithful x m t hi pos s found s')
    (hlt : pos s < hi) :
    occurrences x m t (pos s) hi = if found then pos s :: occurrences x m t (pos s') hi
      else occurrences x m t (pos s') hi := by
  have hskip : occurrences x m t (pos s + 1) hi = occurrences x m t (pos s') hi :=
    occurrences_skip h.lt fun p hp hlt => h.skip p hp hlt
  cases found with
  | true => rw [occurrences_cons hlt (h.found_iff.mp rfl), hskip, if_pos rfl]
  | false =>
    have hnot : ¬ Occurs x m t (pos s) := fun hoc => Bool.false_ne_true (h.found_iff.mpr hoc)
    rw [occurrences_drop fun _ => hnot, hskip, if_neg Bool.false_ne_true]

/-- A step that is faithful exactly on the states that meet `C` makes a loop that finds all
occurrences exactly if all its states meet `C`. -/
theorem scan_eq_occurrences_iff
    (hmono : ∀ s found s', step s = some (found, s') → pos s ≤ pos s')
    (hgood : ∀ s, I s → pos s < hi → C s →
      ∃ found s', step s = some (found, s') ∧ I s' ∧ Faithful x m t hi pos s found s')
    (hbad : ∀ s found s', I s → pos s < hi → ¬ C s → step s = some (found, s') →
      ∃ p, pos s < p ∧ p < pos s' ∧ p < hi ∧ Occurs x m t p)
    (hs : I s) (hfuel : hi - pos s < fuel) :
    scan pos step hi fuel s = some (occurrences x m t (pos s) hi) ↔
      ∀ s', Scans pos step hi s s' → pos s' < hi → C s' := by
  induction fuel generalizing s with
  | zero => exact absurd hfuel (Nat.not_lt_zero _)
  | succ fuel ih =>
    by_cases hlt : pos s < hi
    · constructor
      · intro h
        obtain ⟨found, s₁, r₁, hstep, hr₁, hr⟩ := (scan_eq_some_iff hlt).mp h
        have hC : C s := by
          by_contra hC
          -- the occurrence the step passes over is missing from what is found
          obtain ⟨p, hp, hp', hphi, hoc⟩ := hbad s found s₁ hs hlt hC hstep
          have hmem : p ∈ occurrences x m t (pos s) hi :=
            mem_occurrences.mpr ⟨Nat.le_of_lt hp, hphi, hoc⟩
          have hnot : p ∉ r₁ := fun hmem =>
            absurd (le_of_mem_scan hmono hr₁ p hmem) (Nat.not_le.mpr hp')
          rw [hr] at hmem
          split at hmem
          · rcases List.mem_cons.mp hmem with rfl | hmem
            · exact Nat.lt_irrefl _ hp
            · exact hnot hmem
          · exact hnot hmem
        obtain ⟨found', s₁', hstep', hI, hfaith⟩ := hgood s hs hlt hC
        obtain ⟨rfl, rfl⟩ := Prod.mk.inj (Option.some.inj (hstep.symm.trans hstep'))
        have hrest : r₁ = occurrences x m t (pos s₁) hi := by
          rw [hfaith.occurrences_eq hlt] at hr
          cases found with
          | true => exact (List.cons.inj hr).2.symm
          | false => exact hr.symm
        have hlt₁ := hfaith.lt
        have hall := (ih hI (by omega)).mp (hrest ▸ hr₁)
        intro s' hs' hlt'
        cases hs' with
        | refl => exact hC
        | head _ hstep' hrest' =>
          obtain ⟨-, rfl⟩ := Prod.mk.inj (Option.some.inj (hstep.symm.trans hstep'))
          exact hall s' hrest' hlt'
      · intro h
        obtain ⟨found, s₁, hstep, hI, hfaith⟩ := hgood s hs hlt (h s (Scans.refl s) hlt)
        have hlt₁ := hfaith.lt
        have hr₁ := (ih hI (by omega)).mpr fun s' hs' => h s' (Scans.head hlt hstep hs')
        exact (scan_eq_some_iff hlt).mpr ⟨found, s₁, _, hstep, hr₁, hfaith.occurrences_eq hlt⟩
    · rw [scan, if_neg hlt, occurrences_of_le (Nat.not_lt.mp hlt), eq_self_iff_true, true_iff]
      intro s' hs' hlt'
      cases hs' with
      | refl => exact absurd hlt' hlt
      | head hlt'' _ _ => exact absurd hlt'' hlt

end scan

section shifts
variable {x : Nat → α} {m : Nat} {t : Nat → α} {i j s : Nat}

def Period (x : Nat → α) (m s : Nat) : Prop := ∀ k, s ≤ k → k < m → x (k - s) = x k

/-- Of the copy laid `s` further to the right: it agrees with the pattern after position `i` and
brings another symbol against `i`. -/
def Fits (x : Nat → α) (m i s : Nat) : Prop :=
  (∀ k, i < k → k < m → s ≤ k → x (k - s) = x k) ∧ (s ≤ i → x (i - s) ≠ x i)

structure LeastFit (x : Nat → α) (m i s : Nat) : Prop where
  pos : 0 < s
  le : s ≤ m
  fits : Fits x m i s
  least : ∀ r, 0 < r → r < s → ¬ Fits x m i r

theorem fits_iff_period (h : i < s) : Fits x m i s ↔ Period x m s := by
  constructor
  · intro hf k hk hm
    exact hf.1 k (h.trans_le hk) hm hk
  · intro hp
    exact ⟨fun k _ hm hk => hp k hk hm, fun hs => absurd hs (Nat.not_le.mpr h)⟩

theorem period_length : Period x m m := fun _ hk hm => absurd hm (Nat.not_lt.mpr hk)

theorem Occurs.period (h : Occurs x m t j) (hs : Occurs x m t (j + s)) : Period x m s := by
  intro k hk hm
  rw [← h k hm]
  exact (hs.at (by omega) (by omega)).symm

theorem Occurs.fits (hi : i < m) (hmatch : ∀ k, i < k → k < m → t (j + k) = x k)
    (hne : t (j + i) ≠ x i) (hs : Occurs x m t (j + s)) : Fits x m i s := by
  constructor
  · intro k hik hm hk
    rw [← hmatch k hik hm]
    exact (hs.at (by omega) (by omega)).symm
  · intro hle heq
    apply hne
    rw [← heq]
    exact hs.at (by omega) (by omega)

end shifts

section tails
variable {x t : Nat → α} {m n k l : Nat}

def Tail (x t : Nat → α) (n l : Nat) : Prop := l ≤ n ∧ ∀ p < l, t (n - l + p) = x p

structure LongestTail (x : Nat → α) (m : Nat) (t : Nat → α) (n l : Nat) : Prop where
  le : l ≤ m
  tail : Tail x t n l
  longest : ∀ l' ≤ m, Tail x t n l' → l' ≤ l

/-- The longest proper border of the first `q + 1` cells of `x` has length `b`. -/
structure LongestBorder (x : Nat → α) (q b : Nat) : Prop where
  le : b ≤ q
  tail : Tail x x (q + 1) b
  longest : ∀ b' ≤ q, Tail x x (q + 1) b' → b' ≤ b

theorem tail_zero : Tail x t n 0 := ⟨Nat.zero_le n, fun p hp => absurd hp (Nat.not_lt_zero p)⟩

theorem tail_succ_iff : Tail x t (n + 1) (l + 1) ↔ Tail x t n l ∧ t n = x l := by
  constructor
  · rintro ⟨hle, heq⟩
    have hln : l ≤ n := Nat.le_of_succ_le_succ hle
    refine ⟨⟨hln, fun p hp => ?_⟩, ?_⟩
    · have hp' := heq p (Nat.lt_succ_of_lt hp)
      rwa [Nat.add_sub_add_right] at hp'
    · have hl := heq l (Nat.lt_succ_self l)
      rwa [Nat.add_sub_add_right, Nat.sub_add_cancel hln] at hl
  · rintro ⟨⟨hle, heq⟩, hlast⟩
    refine ⟨Nat.succ_le_succ hle, fun p hp => ?_⟩
    rw [Nat.add_sub_add_right]
    rcases Nat.eq_or_lt_of_le (Nat.le_of_lt_succ hp) with rfl | hlt
    · rw [Nat.sub_add_cancel hle]
      exact hlast
    · exact heq p hlt

theorem Tail.tail_iff (h : Tail x t n k) (hl : l ≤ k) : Tail x t n l ↔ Tail x x k l := by
  have hkn := h.1
  have hat : ∀ p < l, t (n - l + p) = x (k - l + p) := by
    intro p hp
    rw [← h.2 (k - l + p) (by omega)]
    congr 1
    omega
  constructor
  · rintro ⟨-, heq⟩
    exact ⟨hl, fun p hp => (hat p hp).symm.trans (heq p hp)⟩
  · rintro ⟨-, heq⟩
    exact ⟨hl.trans hkn, fun p hp => (hat p hp).trans (heq p hp)⟩

theorem tail_succ_text_iff (h : l ≤ n) : Tail x (fun k => x (k + 1)) n l ↔ Tail x x (n + 1) l := by
  have hat : ∀ p, n - l + p + 1 = n + 1 - l + p := by
    intro p
    omega
  simp only [Tail, hat, h, Nat.le_succ_of_le h, true_and]

theorem longestBorder_iff (hn : n ≤ m) :
    LongestBorder x n l ↔ LongestTail x m (fun k => x (k + 1)) n l := by
  constructor
  · intro h
    refine ⟨h.le.trans hn, (tail_succ_text_iff h.le).mpr h.tail, fun l' _ ht => ?_⟩
    exact h.longest l' ht.1 ((tail_succ_text_iff ht.1).mp ht)
  · intro h
    refine ⟨h.tail.1, (tail_succ_text_iff h.tail.1).mp h.tail, fun l' hl' ht => ?_⟩
    exact h.longest l' (hl'.trans hn) ((tail_succ_text_iff hl').mpr ht)

theorem tail_length_iff {j : Nat} : Tail x t (j + m) m ↔ Occurs x m t j := by
  rw [Tail, Nat.add_sub_cancel, and_iff_right (Nat.le_add_left m j)]
  exact Iff.rfl

end tails
end PortableLib
