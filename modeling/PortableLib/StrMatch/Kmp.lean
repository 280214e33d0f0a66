import PortableLib.Lib.Block
import PortableLib.Lib.Occurrence
import PortableLib.Lib.Run

/-! `kmp_search` of `utils/strmatch.h`. -/

namespace PortableLib.StrMatch
open Run

structure Kmp (T : Type) where
  pat : Block T
  prefixTab : Block Nat

namespace Kmp

section model
variable {T : Type} [DecidableEq T]

/-- `while (k > 0 && !eq(m_pat[k], c)) k = m_prefix_tab[k-1];`, given up after so many rounds. -/
def fallBack (pat : Block T) (tab : Block Nat) (c : T) : Nat → Nat → Option Nat
  | _, 0 => some 0
  | 0, _ + 1 => none
  | fuel + 1, k + 1 => do
    if (← pat.read (k + 1)) = c then some (k + 1) else fallBack pat tab c fuel (← tab.read k)

/-- The part the loops of `calc_prefix_table` and `match` have in common. -/
def advance (pat : Block T) (tab : Block Nat) (c : T) (k : Nat) : Option Nat := do
  let k ← fallBack pat tab c pat.len k
  if (← pat.read k) = c then some (k + 1) else some k

/-- The round of `calc_prefix_table` for `q = i + 1`. -/
def prefixStep (pat : Block T) (st : Block Nat × Nat) (i : Nat) : Option (Block Nat × Nat) := do
  let k ← advance pat st.1 (← pat.read (i + 1)) st.2
  let tab ← st.1.write (i + 1) k
  return (tab, k)

def calcPrefixTable (pat : Block T) : Option (Block Nat) := do
  let tab : Block Nat := { len := pat.len, cells := fun _ => 0 }
  let st ← (List.range (pat.len - 1)).foldlM (prefixStep pat) (tab, 0)
  return st.1

def new (pat : Block T) : Option (Kmp T) := do
  return { pat := pat, prefixTab := ← calcPrefixTable pat }

def matchLoop (kmp : Kmp T) (text : Block T) : Nat → Nat → Nat → Option (Bool × Int)
  | 0, _, _ => some (false, -1)
  | n + 1, i, q => do
    let q ← advance kmp.pat kmp.prefixTab (← text.read i) q
    if q = kmp.pat.len then some (true, (i : Int) + 1 - kmp.pat.len)
    else matchLoop kmp text n (i + 1) q

def matchOne (kmp : Kmp T) (text : Block T) (textlen : Nat) : Option (Bool × Int) :=
  kmp.matchLoop text textlen 0 0

def matchallFrom (kmp : Kmp T) : Nat → Block T → Nat → Nat → Option (List Nat)
  | 0, _, _, _ => none
  | fuel + 1, text, textlen, off =>
    if 0 < textlen then do
      let (found, second) ← kmp.matchOne text textlen
      if found then
        let consume := (second + kmp.pat.len).toNat
        let matchoff := (off + second).toNat
        let r ← matchallFrom kmp fuel (text.shift consume) (textlen - consume) (off + consume)
        return matchoff :: r
      else return []
    else some []

def matchall (kmp : Kmp T) (text : Block T) (textlen : Nat) : Option (List Nat) :=
  kmp.matchallFrom (textlen + 1) text textlen 0

end model

variable {T : Type} {pat : Block T} {tab : Block Nat} {t : Nat → T} {n k fuel : Nat}

structure PrefixTable (pat : Block T) (n : Nat) (tab : Block Nat) : Prop where
  len : tab.len = pat.len
  border : ∀ q < n, LongestBorder pat.cells q (tab.cells q)

theorem occurs_shift_iff {text : Block T} {off j : Nat} :
    Occurs pat.cells pat.len (text.shift off).cells j ↔
      Occurs pat.cells pat.len text.cells (off + j) := by
  simp only [Occurs, Block.shift, Nat.add_assoc]

variable [DecidableEq T]

/-- Falling back ends at the longest tail that the next character continues, if there is one. -/
theorem fallBack_spec (htab : PrefixTable pat k tab) (hfuel : k ≤ fuel) (hk : k < pat.len)
    (htail : Tail pat.cells t n k)
    (hmax : ∀ l < pat.len, Tail pat.cells t n l → t n = pat.cells l → l ≤ k) :
    ∃ k', fallBack pat tab (t n) fuel k = some k' ∧ k' < pat.len ∧ Tail pat.cells t n k' ∧
      (k' = 0 ∨ t n = pat.cells k') ∧
      ∀ l < pat.len, Tail pat.cells t n l → t n = pat.cells l → l ≤ k' := by
  induction fuel generalizing k with
  | zero =>
    obtain rfl : k = 0 := Nat.le_zero.mp hfuel
    exact ⟨0, rfl, hk, htail, Or.inl rfl, hmax⟩
  | succ fuel ih =>
    cases k with
    | zero => exact ⟨0, rfl, hk, htail, Or.inl rfl, hmax⟩
    | succ k =>
      rw [fallBack, Block.read_of_lt hk]
      simp only [Option.bind_eq_bind, Option.bind_some]
      split
      next hsame => exact ⟨k + 1, rfl, hk, htail, Or.inr hsame.symm, hmax⟩
      next hdiff =>
        have hborder := htab.border k (Nat.lt_succ_self k)
        have hle := hborder.le
        have hread : tab.read k = some (tab.cells k) := by
          apply Block.read_of_lt
          rw [htab.len]
          omega
        rw [hread, Option.bind_some]
        apply ih ⟨htab.len, fun q hq => htab.border q (by omega)⟩ (by omega) (by omega)
        · exact (htail.tail_iff (by omega)).mpr hborder.tail
        · intro l hl ht heq
          have hlk := hmax l hl ht heq
          rcases Nat.eq_or_lt_of_le hlk with rfl | hlt
          · exact absurd heq.symm hdiff
          · exact hborder.longest l (Nat.le_of_lt_succ hlt) ((htail.tail_iff hlk).mp ht)

theorem advance_spec (htab : PrefixTable pat k tab) (hk : k < pat.len)
    (h : LongestTail pat.cells pat.len t n k) :
    ∃ k', advance pat tab (t n) k = some k' ∧ LongestTail pat.cells pat.len t (n + 1) k' := by
  obtain ⟨k₁, hfall, hlt, htail, hend, hmax⟩ := fallBack_spec htab (Nat.le_of_lt hk) hk h.tail
    fun l hl ht _ => h.longest l (Nat.le_of_lt hl) ht
  rw [advance, hfall, Option.bind_eq_bind, Option.bind_some, Block.read_of_lt hlt]
  simp only [Option.bind_eq_bind, Option.bind_some]
  -- every nonempty tail after the character is a tail before it that the character continues
  have hcont : ∀ l ≤ pat.len, Tail pat.cells t (n + 1) l →
      l = 0 ∨ ∃ l', l = l' + 1 ∧ l' ≤ k₁ ∧ t n = pat.cells l' := by
    intro l hl ht
    cases l with
    | zero => exact Or.inl rfl
    | succ l =>
      obtain ⟨ht, heq⟩ := tail_succ_iff.mp ht
      exact Or.inr ⟨l, rfl, hmax l hl ht heq, heq⟩
  split
  next hsame =>
    refine ⟨k₁ + 1, rfl, hlt, tail_succ_iff.mpr ⟨htail, hsame.symm⟩, fun l hl ht => ?_⟩
    obtain rfl | ⟨l', rfl, hle, -⟩ := hcont l hl ht
    · exact Nat.zero_le _
    · exact Nat.succ_le_succ hle
  next hdiff =>
    obtain rfl : k₁ = 0 := hend.resolve_right fun heq => hdiff heq.symm
    refine ⟨0, rfl, Nat.zero_le _, tail_zero, fun l hl ht => ?_⟩
    obtain rfl | ⟨l', rfl, hle, heq⟩ := hcont l hl ht
    · exact Nat.le_refl 0
    · obtain rfl : l' = 0 := Nat.le_zero.mp hle
      exact absurd heq.symm hdiff

theorem prefixStep_spec {i : Nat} {st : Block Nat × Nat} (hi : i < pat.len - 1)
    (h : PrefixTable pat (i + 1) st.1 ∧
      LongestTail pat.cells pat.len (fun k => pat.cells (k + 1)) i st.2) :
    ∃ st', prefixStep pat st i = some st' ∧ PrefixTable pat (i + 1 + 1) st'.1 ∧
      LongestTail pat.cells pat.len (fun k => pat.cells (k + 1)) (i + 1) st'.2 := by
  obtain ⟨htab, hlong⟩ := h
  have him : i + 1 < pat.len := Nat.add_lt_of_lt_sub hi
  have hki : st.2 ≤ i := hlong.tail.1
  have htab' : PrefixTable pat st.2 st.1 :=
    ⟨htab.len, fun q hq => htab.border q (by omega)⟩
  obtain ⟨k, hk, hnext⟩ := advance_spec htab' (by omega) hlong
  obtain ⟨tab, hwrite, hlen, hself, hother⟩ := Block.write_spec (htab.len.symm ▸ him) k
  refine ⟨(tab, k), ?_, ⟨hlen.trans htab.len, fun q hq => ?_⟩, hnext⟩
  · simp only [prefixStep, Block.read_of_lt him, hk, hwrite, Option.bind_eq_bind,
      Option.bind_some, pure]
  · rcases Nat.eq_or_lt_of_le (Nat.le_of_lt_succ hq) with rfl | hlt
    · rw [hself]
      exact (longestBorder_iff (Nat.le_of_lt him)).mpr hnext
    · rw [hother q (Nat.ne_of_lt hlt)]
      exact htab.border q hlt

theorem calcPrefixTable_spec (hm : 0 < pat.len) :
    ∃ tab, calcPrefixTable pat = some tab ∧ PrefixTable pat pat.len tab := by
  have hzero : LongestTail pat.cells pat.len (fun k => pat.cells (k + 1)) 0 0 :=
    ⟨Nat.zero_le _, tail_zero, fun l _ ht => ht.1⟩
  have hinit : PrefixTable pat (0 + 1) ⟨pat.len, fun _ => 0⟩ := by
    refine ⟨rfl, fun q hq => ?_⟩
    obtain rfl : q = 0 := by omega
    exact (longestBorder_iff (Nat.zero_le pat.len)).mpr hzero
  obtain ⟨st, hst, htab, -⟩ := foldlM_range_invariant
    (I := fun i st => PrefixTable pat (i + 1) st.1 ∧
      LongestTail pat.cells pat.len (fun k => pat.cells (k + 1)) i st.2)
    (fun i st hi => prefixStep_spec hi) (s := (⟨pat.len, fun _ => 0⟩, 0)) ⟨hinit, hzero⟩
  rw [Nat.sub_add_cancel hm] at htab
  refine ⟨st.1, ?_, htab⟩
  simp only [calcPrefixTable, hst, Option.bind_eq_bind, Option.bind_some, pure]

structure WellFormed (kmp : Kmp T) : Prop where
  pos : 0 < kmp.pat.len
  table : PrefixTable kmp.pat kmp.pat.len kmp.prefixTab

theorem new_spec (hm : 0 < pat.len) :
    ∃ kmp, new pat = some kmp ∧ kmp.pat = pat ∧ kmp.WellFormed := by
  obtain ⟨tab, htab, hborder⟩ := calcPrefixTable_spec hm
  refine ⟨⟨pat, tab⟩, ?_, rfl, hm, hborder⟩
  simp only [new, htab, Option.bind_eq_bind, Option.bind_some, pure]

section matching
variable {kmp : Kmp T} {text : Block T} {textlen : Nat}

/-- What `match` returns: the leftmost occurrence that ends at or before `e`, or that there is
none. -/
def Leftmost (pat text : Block T) (e : Nat) (res : Bool × Int) : Prop :=
  (res = (false, -1) ∧ ∀ j, j + pat.len ≤ e → ¬ Occurs pat.cells pat.len text.cells j) ∨
    ∃ j : Nat, res = (true, (j : Int)) ∧ j + pat.len ≤ e ∧
      Occurs pat.cells pat.len text.cells j ∧
      ∀ j' < j, ¬ Occurs pat.cells pat.len text.cells j'

theorem matchLoop_spec {i q : Nat} (hkmp : kmp.WellFormed) (htext : i + n ≤ text.len)
    (hq : q < kmp.pat.len) (hlong : LongestTail kmp.pat.cells kmp.pat.len text.cells i q)
    (hnone : ∀ j, j + kmp.pat.len ≤ i → ¬ Occurs kmp.pat.cells kmp.pat.len text.cells j) :
    ∃ res, kmp.matchLoop text n i q = some res ∧ Leftmost kmp.pat text (i + n) res := by
  induction n generalizing i q with
  | zero => exact ⟨(false, -1), rfl, Or.inl ⟨rfl, hnone⟩⟩
  | succ n ih =>
    have htab : PrefixTable kmp.pat q kmp.prefixTab :=
      ⟨hkmp.table.len, fun p hp => hkmp.table.border p (hp.trans hq)⟩
    obtain ⟨q', hq', hlong'⟩ := advance_spec htab hq hlong
    rw [matchLoop, Block.read_of_lt (by omega)]
    simp only [Option.bind_eq_bind, Option.bind_some, hq']
    -- an occurrence that ends with this character is a tail as long as the pattern
    have hend : ∀ j, j + kmp.pat.len = i + 1 →
        (Occurs kmp.pat.cells kmp.pat.len text.cells j ↔ q' = kmp.pat.len) := by
      intro j hj
      rw [← tail_length_iff, hj]
      constructor
      · intro ht
        exact Nat.le_antisymm hlong'.le (hlong'.longest _ (Nat.le_refl _) ht)
      · rintro rfl
        exact hlong'.tail
    split
    next hfull =>
      have hle : kmp.pat.len ≤ i + 1 := hfull ▸ hlong'.tail.1
      refine ⟨_, rfl, Or.inr ⟨i + 1 - kmp.pat.len, ?_, by omega, ?_, fun j' hj' => ?_⟩⟩
      · congr 1
        omega
      · exact (hend _ (Nat.sub_add_cancel hle)).mpr hfull
      · exact hnone j' (by omega)
    next hpart =>
      have hlt : q' < kmp.pat.len := Nat.lt_of_le_of_ne hlong'.le hpart
      have hnone' : ∀ j, j + kmp.pat.len ≤ i + 1 →
          ¬ Occurs kmp.pat.cells kmp.pat.len text.cells j := by
        intro j hj
        rcases Nat.eq_or_lt_of_le hj with heq | hj
        · exact fun hoc => hpart ((hend j heq).mp hoc)
        · exact hnone j (Nat.le_of_lt_succ hj)
      obtain ⟨res, hres, hleft⟩ := ih (by omega) hlt hlong' hnone'
      refine ⟨res, hres, ?_⟩
      rwa [Nat.add_right_comm, Nat.add_assoc] at hleft

theorem matchOne_spec (hkmp : kmp.WellFormed) (htext : textlen ≤ text.len) :
    ∃ res, kmp.matchOne text textlen = some res ∧ Leftmost kmp.pat text textlen res := by
  have hpos := hkmp.pos
  have hempty : LongestTail kmp.pat.cells kmp.pat.len text.cells 0 0 :=
    ⟨Nat.zero_le _, tail_zero, fun l _ ht => ht.1⟩
  obtain ⟨res, hres, hleft⟩ := matchLoop_spec (n := textlen) hkmp (by omega) hpos hempty
    fun j hj => by omega
  rw [Nat.zero_add] at hleft
  exact ⟨res, hres, hleft⟩

theorem matchallFrom_spec {off : Nat} (hkmp : kmp.WellFormed) (htext : textlen ≤ text.len)
    (hfuel : textlen - off < fuel) :
    kmp.matchallFrom fuel (text.shift off) (textlen - off) off =
      some (keepApart kmp.pat.len off (occurrences kmp.pat.cells kmp.pat.len text.cells off
        (offsets textlen kmp.pat.len))) := by
  induction fuel generalizing off with
  | zero => exact absurd hfuel (Nat.not_lt_zero _)
  | succ fuel ih =>
    have hpos := hkmp.pos
    rw [matchallFrom]
    split
    next hlt =>
      have hlen : textlen - off ≤ (text.shift off).len := Nat.sub_le_sub_right htext off
      obtain ⟨res, hres, ⟨rfl, hnone⟩ | ⟨j, rfl, hj, hoc, hfirst⟩⟩ := matchOne_spec hkmp hlen
      -- no match in the rest of the text
      · have hnil : occurrences kmp.pat.cells kmp.pat.len text.cells off
            (offsets textlen kmp.pat.len) = [] := by
          apply occurrences_eq_nil
          intro p hp hphi hoc
          have hend := lt_offsets_iff.mp hphi
          obtain ⟨j, rfl⟩ := Nat.exists_eq_add_of_le hp
          exact hnone j (by omega) (occurs_shift_iff.mpr hoc)
        simp only [hres, hnil, keepApart, Option.bind_eq_bind, Option.bind_some,
          if_neg Bool.false_ne_true, pure]
      -- the next search starts behind this match, so it skips what overlaps it
      · have hskip : occurrences kmp.pat.cells kmp.pat.len text.cells off
            (offsets textlen kmp.pat.len) = (off + j) :: occurrences kmp.pat.cells kmp.pat.len
              text.cells (off + j + 1) (offsets textlen kmp.pat.len) := by
          rw [occurrences_skip (Nat.le_add_right off j)]
          · exact occurrences_cons (lt_offsets_iff.mpr (by omega)) (occurs_shift_iff.mp hoc)
          · intro p hp hlt' _ hocp
            obtain ⟨j', rfl⟩ := Nat.exists_eq_add_of_le hp
            exact hfirst j' (by omega) (occurs_shift_iff.mpr hocp)
        have hconsume : ((j : Int) + kmp.pat.len).toNat = j + kmp.pat.len := by omega
        have hmatch : ((off : Int) + j).toNat = off + j := by omega
        have hfuel' : textlen - (off + (j + kmp.pat.len)) < fuel := by omega
        have hrest := ih hfuel'
        simp only [hres, Option.bind_eq_bind, Option.bind_some, if_true, hconsume, hmatch,
          Block.shift_shift, Nat.sub_sub, hrest, pure]
        rw [hskip, keepApart, if_pos (Nat.le_add_right off j), ← Nat.add_assoc,
          keepApart_occurrences (show off + j + 1 ≤ off + j + kmp.pat.len by omega) (Nat.le_refl _)]
    next hle =>
      have hhi : offsets textlen kmp.pat.len ≤ off := by
        rw [offsets]
        omega
      rw [occurrences_of_le hhi]
      rfl

theorem matchall_spec (hkmp : kmp.WellFormed) (htext : textlen ≤ text.len) :
    kmp.matchall text textlen = some (keepApart kmp.pat.len 0 (occurrences kmp.pat.cells
      kmp.pat.len text.cells 0 (offsets textlen kmp.pat.len))) := by
  have h := matchallFrom_spec hkmp htext (show textlen - 0 < textlen + 1 by omega)
  rwa [Block.shift_zero] at h

end matching

/-- For every text with no memory behind it: the table holds the longest proper borders, and `match`
returns the leftmost occurrence. -/
theorem kmp_exact (hm : 0 < pat.len) (text : Block T) :
    ∃ tab, calcPrefixTable pat = some tab ∧ new pat = some ⟨pat, tab⟩ ∧ tab.len = pat.len ∧
      (∀ q < pat.len, LongestBorder pat.cells q (tab.cells q)) ∧
      ∃ res, matchOne ⟨pat, tab⟩ text text.len = some res ∧ Leftmost pat text text.len res := by
  obtain ⟨tab, htab, hborder⟩ := calcPrefixTable_spec hm
  have hwf : WellFormed ⟨pat, tab⟩ := ⟨hm, hborder⟩
  refine ⟨tab, htab, ?_, hborder.len, hborder.border, matchOne_spec hwf (Nat.le_refl _)⟩
  simp only [new, htab, Option.bind_eq_bind, Option.bind_some, pure]

theorem kmp_exact_aba :
    ∃ tab, calcPrefixTable ⟨3, fun i => [1, 2, 1].getD i 0⟩ = some tab ∧
      new ⟨3, fun i => [1, 2, 1].getD i 0⟩ = some ⟨⟨3, fun i => [1, 2, 1].getD i 0⟩, tab⟩ ∧
      tab.len = 3 ∧
      (∀ q < 3, LongestBorder (fun i => [1, 2, 1].getD i 0) q (tab.cells q)) ∧
      ∃ res, matchOne ⟨⟨3, fun i => [1, 2, 1].getD i 0⟩, tab⟩
          ⟨6, fun i => [1, 2, 3, 1, 2, 1].getD i 0⟩ 6 = some res ∧
        Leftmost ⟨3, fun i => [1, 2, 1].getD i 0⟩ ⟨6, fun i => [1, 2, 3, 1, 2, 1].getD i 0⟩ 6 res :=
  kmp_exact (by decide) ⟨6, fun i => [1, 2, 3, 1, 2, 1].getD i 0⟩

end Kmp
end PortableLib.StrMatch
