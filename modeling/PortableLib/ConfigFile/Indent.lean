import PortableLib.ConfigFile.Lines

/-! Where the lines of a configuration go. A line belongs to the last section before it that stands
further left. The stack of `parse` holds the sections around the current one but not this itself, so
a line that comes back to a column between the current section and its lines goes one section too
far out. -/

namespace PortableLib.ConfigFile
open List Gstring StrSplit

def nearest (lines : List (List UInt8)) : Nat → Nat → Nat
  | 0, _ => 0
  | n + 1, c =>
    if ∃ s ∈ lines[n]?, isSection s = true ∧ column s < c then n + 1 else nearest lines n c

def nearestParents (lines : List (List UInt8)) : List Nat :=
  lines.zipIdx.map fun x => nearest lines x.2 (column x.1)

/-- Behind `lines`, the line `t` does not come back to a column between their last line and the
section to which that belongs. -/
def Lands (lines : List (List UInt8)) (t : List UInt8) : Prop :=
  ∀ s ∈ lines.getLast?, column t < column s →
    ∀ m, nearest lines (lines.length - 1) (column s) = m + 1 →
      ∀ u ∈ lines[m]?, column t ≤ column u

def Aligned (lines : List (List UInt8)) : Prop := ∀ i, ∀ t ∈ lines[i]?, Lands (lines.take i) t

def below (lines : List (List UInt8)) (parents : List Nat) (p : Nat) : List (List UInt8 × Nat) :=
  (((lines.zipIdx 1).zip parents).filter fun x => x.2 = p).map Prod.fst

/-- An entry as the line has it. -/
def Keeps (kv : KeyVal) (x : List UInt8 × Nat) : Prop :=
  gstrInitFrom (some (keyval (content x.1)).1) = some kv.key ∧
    gstrInitFrom (some (keyval (content x.1)).2) = some kv.val

/-- The tree in which every line is below its parent in `parents`, in the order of the lines. -/
structure TreeOf (lines : List (List UInt8)) (parents : List Nat) (h : Heap) : Prop where
  next : h.next = lines.length + 1
  length_eq : parents.length = lines.length
  before : ∀ i p : Nat, p ∈ parents[i]? → p ≤ i
  sect : ∀ p ∈ parents, (h.nodes p).master = true
  root : (h.nodes 0).col = -1 ∧ (h.nodes 0).master = true
  node : ∀ i, ∀ s ∈ lines[i]?, (h.nodes (i + 1)).col = column s ∧
    (h.nodes (i + 1)).master = isSection s ∧
    (isSection s = true → gstrInitFrom (some (content s).dropLast) = some (h.nodes (i + 1)).name)
  subtree : ∀ p ≤ lines.length, (h.nodes p).subtree =
    ((below lines parents p).filter fun x => isSection x.1).map Prod.snd
  values : ∀ p ≤ lines.length, Forall₂ Keeps (h.nodes p).values
    ((below lines parents p).filter fun x => !isSection x.1)

variable {lines : List (List UInt8)} {parents : List Nat} {s t u : List UInt8} {h h' : Heap}
  {n m p c c' : Nat} {st st' : List Nat}

/-! ## The nearest section -/

theorem nearest_le (lines : List (List UInt8)) (n c : Nat) : nearest lines n c ≤ n := by
  induction n with
  | zero => exact Nat.le_refl 0
  | succ n ih =>
    rw [nearest]
    split
    · exact Nat.le_refl _
    · exact Nat.le_succ_of_le ih

theorem nearest_append (ls : List (List UInt8)) (hn : n ≤ lines.length) (c : Nat) :
    nearest (lines ++ ls) n c = nearest lines n c := by
  induction n with
  | zero => rfl
  | succ n ih => rw [nearest, nearest, ih (Nat.le_of_succ_le hn), getElem?_append_left hn]

theorem nearest_succ_of_le (hs : s ∈ lines[n]?) (hle : c ≤ column s) :
    nearest lines (n + 1) c = nearest lines n c := by
  refine if_neg ?_
  rintro ⟨s', hs', -, hlt⟩
  obtain rfl := Option.mem_unique hs hs'
  omega

theorem nearest_succ_of_lt (hs : s ∈ lines[n]?) (hsect : isSection s = true)
    (hlt : column s < c) : nearest lines (n + 1) c = n + 1 :=
  if_pos ⟨s, hs, hsect, hlt⟩

theorem nearest_eq_succ (hm : nearest lines n c = m + 1) :
    ∃ u ∈ lines[m]?, isSection u = true ∧ column u < c := by
  induction n with
  | zero => cases hm
  | succ n ih =>
    rw [nearest] at hm
    split at hm
    case isTrue h =>
      obtain rfl := Nat.succ.inj hm
      exact h
    case isFalse => exact ih hm

theorem nearest_eq_zero_of_le (h0 : nearest lines n c = 0) (hle : c' ≤ c) :
    nearest lines n c' = 0 := by
  induction n with
  | zero => rfl
  | succ n ih =>
    rw [nearest] at h0 ⊢
    split at h0
    case isTrue => cases h0
    case isFalse h =>
      rw [if_neg, ih h0]
      rintro ⟨s, hs, hsect, hlt⟩
      exact h ⟨s, hs, hsect, hlt.trans_le hle⟩

theorem nearest_of_le (hm : nearest lines n c = m + 1) (hu : u ∈ lines[m]?) (hle : c' ≤ c) :
    nearest lines n c' = if column u < c' then m + 1 else nearest lines m c' := by
  induction n with
  | zero => cases hm
  | succ n ih =>
    rw [nearest] at hm ⊢
    split at hm
    case isTrue h =>
      obtain rfl := Nat.succ.inj hm
      obtain ⟨u', hu', hsect, -⟩ := h
      obtain rfl := Option.mem_unique hu hu'
      by_cases hlt : column u < c'
      · rw [if_pos ⟨u, hu, hsect, hlt⟩, if_pos hlt]
      · rw [if_neg hlt, if_neg]
        rintro ⟨u', hu', -, hlt'⟩
        obtain rfl := Option.mem_unique hu hu'
        exact hlt hlt'
    case isFalse h =>
      rw [if_neg, ih hm]
      rintro ⟨s, hs, hsect, hlt⟩
      exact h ⟨s, hs, hsect, hlt.trans_le hle⟩

/-! ## The stack -/

inductive Chain (lines : List (List UInt8)) : Nat → List Nat → Prop
  | root : Chain lines 0 []
  | indented : Chain lines 0 [0]
  | sect {m : Nat} {u : List UInt8} {st : List Nat} (hu : u ∈ lines[m]?)
      (h : Chain lines (nearest lines m (column u)) st) :
      Chain lines (m + 1) (nearest lines m (column u) :: st)

theorem Chain.append (ls : List (List UInt8)) (hc : Chain lines p st) :
    Chain (lines ++ ls) p st := by
  induction hc with
  | root => exact .root
  | indented => exact .indented
  | @sect m u st hu _ ih =>
    have hm : m < lines.length := (List.getElem?_eq_some_iff.mp hu).1
    rw [← nearest_append ls hm.le] at ih ⊢
    exact .sect (by rwa [getElem?_append_left hm]) ih

theorem Chain.le (hc : Chain lines p st) (hp : p ≤ n) : ∀ x ∈ st, x ≤ n := by
  induction hc generalizing n with
  | root => exact fun x hx => absurd hx not_mem_nil
  | indented => exact forall_mem_singleton.mpr (Nat.zero_le n)
  | @sect m u st _ _ ih =>
    have hle := (nearest_le lines m (column u)).trans (Nat.le_of_succ_le hp)
    exact forall_mem_cons.mpr ⟨hle, ih hle⟩

theorem Chain.le_of_mem (hc : Chain lines (m + 1) st) {x : Nat} (hx : x ∈ st) : x ≤ m := by
  cases hc with
  | @sect _ u st _ hc =>
    have hle := nearest_le lines m (column u)
    exact (mem_cons.mp hx).elim (fun h0 => h0 ▸ hle) (hc.le hle x)

theorem unwind_sublist {r : Nat × List Nat} (hr : unwind h c st = some r) : r.1 :: r.2 <+ st := by
  induction st with
  | nil => cases hr
  | cons x st ih =>
    rw [unwind] at hr
    split at hr
    · obtain rfl := Option.some.inj hr
      exact Sublist.refl _
    · exact (ih hr).cons x

theorem unwind_chain (htree : TreeOf lines parents h) (hu : u ∈ lines[m]?) (hle : c ≤ column u)
    (hc : Chain lines (m + 1) st) :
    ∃ st', unwind h c st = some (nearest lines m c, st') ∧
      Chain lines (nearest lines m c) st' := by
  induction st generalizing m u with
  | nil => cases hc
  | cons x st ih =>
    cases hc with
    | @sect _ u' _ hu' hc =>
      obtain rfl := Option.mem_unique hu hu'
      rw [unwind]
      cases hx : nearest lines m (column u) with
      | zero =>
        rw [hx] at hc
        rw [htree.root.1, if_pos (by omega), nearest_eq_zero_of_le hx hle]
        exact ⟨st, rfl, hc⟩
      | succ k =>
        -- `v` is the section around `u`: it is left of `c`, or the search goes on from it
        obtain ⟨v, hv, -⟩ := nearest_eq_succ hx
        rw [hx] at hc
        rw [(htree.node k v hv).1, nearest_of_le hx hv hle]
        by_cases hlt : column v < c
        · rw [if_pos (by exact_mod_cast hlt), if_pos hlt]
          exact ⟨st, rfl, hc⟩
        · rw [if_neg (by exact_mod_cast hlt), if_neg hlt]
          exact ih hv (Nat.not_lt.mp hlt) hc

/-- The parser behind `lines`. -/
structure Built (lines : List (List UInt8)) (parents : List Nat) (b : Builder) : Prop where
  tree : TreeOf lines parents b.heap
  prev : b.prev = lines.length
  prevcol : b.prevcol = lines.getLast?.elim 0 column
  stack : ∀ x ∈ b.top :: b.st, x ≤ lines.length ∧ (b.heap.nodes x).master = true
  first : lines = [] → b.st = []

structure Placed (lines : List (List UInt8)) (b : Builder) : Prop where
  top : b.top = lines.getLast?.elim 0 fun s => nearest lines (lines.length - 1) (column s)
  chain : Chain lines b.top b.st

theorem unwind_placed {r : Nat × List Nat} (htree : TreeOf lines parents h)
    (hchain : Chain lines (nearest lines n c) st) (hlt : c' < c) (hr : unwind h c' st = some r) :
    (r.1 = nearest lines n c' ↔
      ∀ m, nearest lines n c = m + 1 → ∀ u ∈ lines[m]?, c' ≤ column u) ∧
      (r.1 = nearest lines n c' → Chain lines r.1 r.2) := by
  cases hx : nearest lines n c with
  | zero =>
    -- only an indented first line has put the root on the stack
    rw [hx] at hchain
    have hroot : (h.nodes 0).col < (c' : Int) := by
      rw [htree.root.1]
      omega
    rw [nearest_eq_zero_of_le hx hlt.le]
    cases hchain with
    | root => cases hr
    | indented =>
      rw [unwind, if_pos hroot] at hr
      obtain rfl := Option.some.inj hr
      exact ⟨iff_of_true rfl fun m hm => absurd hm (Nat.succ_ne_zero m).symm, fun _ => .root⟩
  | succ m =>
    obtain ⟨u, hu, -⟩ := nearest_eq_succ hx
    rw [hx] at hchain
    rw [nearest_of_le hx hu hlt.le]
    by_cases hle : c' ≤ column u
    · obtain ⟨st', hunwind, hchain'⟩ := unwind_chain htree hu hle hchain
      obtain rfl := Option.some.inj (hunwind.symm.trans hr)
      rw [if_neg (Nat.not_lt.mpr hle)]
      refine ⟨iff_of_true rfl fun m' hm' u' hu' => ?_, fun _ => hchain'⟩
      obtain rfl := Nat.succ.inj hm'
      exact Option.mem_unique hu hu' ▸ hle
    · -- `u` is still the nearest, but what is on the stack comes before it
      have hmem := hchain.le_of_mem ((unwind_sublist hr).subset mem_cons_self)
      rw [if_pos (Nat.not_le.mp hle)]
      exact ⟨iff_of_false (by omega) fun h => hle (h m rfl u hu), fun h0 => by omega⟩

theorem placeAt_first {b : Builder} {r : Nat × List Nat} (hb : Built [] parents b)
    (hplaced : Placed [] b) (hr : placeAt b c = some r) : r.1 = 0 ∧ Chain [] r.1 r.2 := by
  have htop : b.top = 0 := hplaced.top
  have hcol : b.prevcol = 0 := hb.prevcol
  have hprev : b.prev = 0 := hb.prev
  rw [placeAt, hcol, hprev, hb.tree.root.2, htop, hb.first rfl, if_pos rfl] at hr
  split_ifs at hr with hgt hlt
  · obtain rfl := Option.some.inj hr
    exact ⟨rfl, .indented⟩
  · omega
  · obtain rfl := Option.some.inj hr
    exact ⟨rfl, .root⟩

/-- The place of one more line is the right one exactly if it does not land between the last line
and its section, and then the parser is behind that line as before. -/
theorem placeAt_placed {b : Builder} {r : Nat × List Nat} (hb : Built lines parents b)
    (hplaced : Placed lines b) (hr : placeAt b (column t) = some r) :
    (r.1 = nearest lines lines.length (column t) ↔ Lands lines t) ∧
      (r.1 = nearest lines lines.length (column t) → Chain lines r.1 r.2) := by
  rcases eq_nil_or_concat' lines with rfl | ⟨init, s, rfl⟩
  · have hlands : Lands [] t := fun s hs => absurd hs (by simp)
    obtain ⟨hzero, hchain⟩ := placeAt_first hb hplaced hr
    exact ⟨iff_of_true hzero hlands, fun _ => hchain⟩
  · have hlen : (init ++ [s]).length = init.length + 1 := by
      rw [length_append, length_singleton]
    have hs : s ∈ (init ++ [s])[init.length]? := by simp
    have htop : b.top = nearest (init ++ [s]) init.length (column s) := by
      rw [hplaced.top, getLast?_concat, hlen]
      rfl
    have hcol : b.prevcol = column s := by
      rw [hb.prevcol, getLast?_concat]
      rfl
    have hlands : Lands (init ++ [s]) t ↔ (column t < column s →
        ∀ m, nearest (init ++ [s]) init.length (column s) = m + 1 →
          ∀ u ∈ (init ++ [s])[m]?, column t ≤ column u) := by
      simp [Lands]
    have hchain := hplaced.chain
    rw [placeAt, hcol, hb.prev, hlen, (hb.tree.node _ s hs).2.1, htop] at hr
    rw [htop] at hchain
    rw [hlen, hlands]
    rcases lt_trichotomy (column t) (column s) with hlt | heq | hgt
    · rw [if_neg (by omega), if_pos hlt] at hr
      rw [nearest_succ_of_le hs hlt.le, forall_prop_of_true hlt]
      exact unwind_placed hb.tree hchain hlt hr
    · rw [if_neg (by omega), if_neg (by omega)] at hr
      obtain rfl := Option.some.inj hr
      rw [nearest_succ_of_le hs heq.le, heq]
      exact ⟨iff_of_true rfl fun hlt => absurd hlt (Nat.lt_irrefl _), fun _ => hchain⟩
    · rw [if_pos hgt] at hr
      split_ifs at hr with hsect
      obtain rfl := Option.some.inj hr
      rw [nearest_succ_of_lt hs hsect hgt]
      exact ⟨iff_of_true rfl fun hlt => absurd hlt (by omega), fun _ => .sect hs hchain⟩

/-! ## The tree -/

structure Grown (h : Heap) (p : Nat) (s : List UInt8) (h' : Heap) : Prop where
  next : h'.next = h.next + 1
  kept : ∀ i ≠ h.next, (h'.nodes i).col = (h.nodes i).col ∧
    (h'.nodes i).master = (h.nodes i).master ∧ (h'.nodes i).name = (h.nodes i).name
  node : (h'.nodes h.next).col = column s ∧ (h'.nodes h.next).master = isSection s ∧
    (isSection s = true → gstrInitFrom (some (content s).dropLast) = some (h'.nodes h.next).name)
  leaf : (h'.nodes h.next).subtree = [] ∧ (h'.nodes h.next).values = []
  subtree : ∀ i ≠ h.next, (h'.nodes i).subtree = (h.nodes i).subtree ++
    if i = p ∧ isSection s = true then [h.next] else []
  values : ∀ i ≠ h.next, ∃ kvs, (h'.nodes i).values = (h.nodes i).values ++ kvs ∧
    Forall₂ Keeps kvs (if i = p ∧ isSection s = false then [(s, h.next)] else [])

theorem newz_modify_nodes {x : Node} {f : Node → Node} (hp : p ≠ h.next) (i : Nat) :
    ((h.newz x).modify p f).nodes i =
      if i = h.next then x else if i = p then f (h.nodes i) else h.nodes i := by
  have hpn : (h.newz x).nodes p = h.nodes p := Function.update_of_ne hp _ _
  rw [Heap.modify, hpn]
  change Function.update (Function.update h.nodes h.next x) p _ i = _
  by_cases hip : i = p
  · rw [hip, Function.update_self, if_neg hp, if_pos rfl]
  · rw [Function.update_of_ne hip, Function.update_apply, if_neg hip]

theorem addNode_grown (hp : p ≠ h.next) (hadd : addNode h p s = some h') : Grown h p s h' := by
  obtain ⟨⟨x, f⟩, hline, rfl⟩ := Option.map_eq_some_iff.mp hadd
  have hnodes := newz_modify_nodes (x := x) (f := f) hp
  have hself := hnodes h.next
  rw [if_pos rfl] at hself
  have hother : ∀ i ≠ h.next, ((h.newz x).modify p f).nodes i =
      if i = p then f (h.nodes i) else h.nodes i := fun i hi => by rw [hnodes, if_neg hi]
  rw [lineNode] at hline
  by_cases hs : isSection s = true
  -- a section goes into the subtree of `p`
  · rw [if_pos hs] at hline
    obtain ⟨name, hname, hxf⟩ := Option.map_eq_some_iff.mp hline
    obtain ⟨rfl, rfl⟩ := Prod.mk.inj hxf
    refine ⟨rfl, fun i hi => ?_, ?_, ?_, fun i hi => ?_, fun i hi => ⟨[], ?_, ?_⟩⟩
    · rw [hother i hi]
      split <;> exact ⟨rfl, rfl, rfl⟩
    · rw [hself]
      exact ⟨rfl, hs.symm, fun _ => hname⟩
    · rw [hself]
      exact ⟨rfl, rfl⟩
    · rw [hother i hi]
      by_cases hip : i = p
      · rw [if_pos hip, if_pos ⟨hip, hs⟩]
      · rw [if_neg hip, if_neg fun h0 => hip h0.1, append_nil]
    · rw [hother i hi, append_nil]
      split <;> rfl
    · rw [if_neg fun h0 => absurd h0.2 (by rw [hs]; decide)]
      exact .nil
  -- an entry into its values; its own node stays a leaf
  · rw [if_neg hs] at hline
    obtain ⟨key, hkey, hline⟩ := Option.bind_eq_some_iff.mp hline
    obtain ⟨val, hval, hxf⟩ := Option.map_eq_some_iff.mp hline
    obtain ⟨rfl, rfl⟩ := Prod.mk.inj hxf
    have hs' : isSection s = false := Bool.not_eq_true _ ▸ hs
    refine ⟨rfl, fun i hi => ?_, ?_, ?_, fun i hi => ?_, fun i hi => ?_⟩
    · rw [hother i hi]
      split <;> exact ⟨rfl, rfl, rfl⟩
    · rw [hself]
      exact ⟨rfl, hs'.symm, fun h0 => absurd h0 hs⟩
    · rw [hself]
      exact ⟨rfl, rfl⟩
    · have hentry : ¬ (i = p ∧ isSection s = true) := fun h0 => hs h0.2
      rw [hother i hi, if_neg hentry, append_nil]
      split <;> rfl
    · rw [hother i hi]
      by_cases hip : i = p
      · rw [if_pos hip, if_pos ⟨hip, hs'⟩]
        exact ⟨[⟨key, val⟩], rfl, .cons ⟨hkey, hval⟩ .nil⟩
      · have hentry : ¬ (i = p ∧ isSection s = false) := fun h0 => hip h0.1
        rw [if_neg hip, if_neg hentry]
        exact ⟨[], (append_nil _).symm, .nil⟩

theorem below_concat (hlen : parents.length = lines.length) (t : List UInt8) (p i : Nat) :
    below (lines ++ [t]) (parents ++ [p]) i =
      below lines parents i ++ if i = p then [(t, lines.length + 1)] else [] := by
  rw [below, below, zipIdx_append, zip_append (by rw [length_zipIdx, hlen]), filter_append,
    map_append, zipIdx_singleton, Nat.add_comm 1]
  by_cases hip : i = p
  · simp [hip]
  · simp [hip, Ne.symm hip]

theorem TreeOf.below_next (h : TreeOf lines parents h') :
    below lines parents (lines.length + 1) = [] := by
  rw [below, map_eq_nil_iff, filter_eq_nil_iff]
  rintro ⟨x, p⟩ hx
  obtain ⟨i, hi, hp⟩ := getElem_of_mem (of_mem_zip hx).2
  have hlt : i < lines.length := h.length_eq ▸ hi
  have hle := h.before i p (List.getElem?_eq_some_iff.mpr ⟨hi, hp⟩)
  rw [decide_eq_true_iff]
  omega

theorem treeOf_nil : TreeOf [] [] Builder.start.heap := by
  refine ⟨rfl, rfl, ?_, fun p hp => absurd hp not_mem_nil, ⟨rfl, rfl⟩, ?_, fun p _ => rfl,
    fun p _ => .nil⟩
  · exact fun i p hp => by simp at hp
  · exact fun i s hs => by simp at hs

theorem mem_getElem?_concat {α : Type} {as : List α} {a x : α} {i : Nat} (h : x ∈ (as ++ [a])[i]?) :
    x ∈ as[i]? ∨ i = as.length ∧ x = a := by
  rcases lt_trichotomy i as.length with hlt | rfl | hgt
  · rw [getElem?_append_left hlt] at h
    exact .inl h
  · rw [getElem?_concat_length] at h
    exact .inr ⟨rfl, (Option.mem_some_iff.mp h).symm⟩
  · rw [getElem?_eq_none (by rw [length_append, length_singleton]; omega)] at h
    cases h

theorem TreeOf.concat (h₀ : TreeOf lines parents h) (hp : p ≤ lines.length)
    (hmaster : (h.nodes p).master = true) (hadd : addNode h p t = some h') :
    TreeOf (lines ++ [t]) (parents ++ [p]) h' := by
  have hnext := h₀.next
  have hgrown := addNode_grown (by omega) hadd
  have hlen : (lines ++ [t]).length = lines.length + 1 := length_append
  have hlt : ∀ i ≤ lines.length, i ≠ h.next := fun i hi => by omega
  refine ⟨?_, ?_, fun i x hx => ?_, fun x hx => ?_, ?_, fun i s hs => ?_, fun i hi => ?_,
    fun i hi => ?_⟩
  · rw [hgrown.next, hnext, hlen]
  · rw [length_append, h₀.length_eq, hlen, length_singleton]
  · rcases mem_getElem?_concat hx with hx | ⟨rfl, rfl⟩
    · exact h₀.before i x hx
    · exact h₀.length_eq ▸ hp
  · rcases mem_append.mp hx with hx | hx
    · obtain ⟨i, hi, rfl⟩ := getElem_of_mem hx
      have hle := h₀.before i _ (List.getElem?_eq_getElem hi)
      rw [(hgrown.kept _ (hlt _ (by have := h₀.length_eq; omega))).2.1]
      exact h₀.sect _ hx
    · rw [mem_singleton.mp hx, (hgrown.kept p (hlt p hp)).2.1]
      exact hmaster
  · obtain ⟨hcol, hmaster, -⟩ := hgrown.kept 0 (hlt 0 (Nat.zero_le _))
    rw [hcol, hmaster]
    exact h₀.root
  · rcases mem_getElem?_concat hs with hs | ⟨rfl, rfl⟩
    · have hi : i < lines.length := (List.getElem?_eq_some_iff.mp hs).1
      obtain ⟨hcol, hmaster, hname⟩ := hgrown.kept (i + 1) (hlt _ hi)
      rw [hcol, hmaster, hname]
      exact h₀.node i s hs
    · have hnode := hgrown.node
      rwa [hnext] at hnode
  -- only the subtree of `p` has grown, by the new node if the line is a section
  · rw [below_concat h₀.length_eq, filter_append, map_append]
    rcases Nat.le_succ_iff.mp (hlen ▸ hi) with hi | rfl
    · rw [hgrown.subtree i (hlt i hi), h₀.subtree i hi]
      by_cases hip : i = p
      · cases hs : isSection t <;> simp [hip, hs, hnext]
      · simp [hip]
    · have hleaf := hgrown.leaf.1
      rw [hnext] at hleaf
      rw [hleaf, h₀.below_next, if_neg (by omega)]
      rfl
  -- and only its values, if the line is an entry
  · rw [below_concat h₀.length_eq, filter_append]
    rcases Nat.le_succ_iff.mp (hlen ▸ hi) with hi | rfl
    · obtain ⟨kvs, hvalues, hkeeps⟩ := hgrown.values i (hlt i hi)
      rw [hvalues]
      refine rel_append (h₀.values i hi) ?_
      by_cases hip : i = p
      · cases hs : isSection t <;> simpa [hip, hs, hnext] using hkeeps
      · simpa [hip] using hkeeps
    · have hleaf := hgrown.leaf.2
      rw [hnext] at hleaf
      rw [hleaf, h₀.below_next, if_neg (by omega)]
      exact .nil

/-! ## Runs -/

theorem placeAt_forall {b : Builder} {r : Nat × List Nat} {P : Nat → Prop}
    (hprev : (b.heap.nodes b.prev).master = true → P b.prev) (hstack : ∀ x ∈ b.top :: b.st, P x)
    (hr : placeAt b c = some r) : ∀ x ∈ r.1 :: r.2, P x := by
  rw [placeAt] at hr
  split_ifs at hr with _ hmaster
  · obtain rfl := Option.some.inj hr
    exact forall_mem_cons.mpr ⟨hprev hmaster, hstack⟩
  · have hsub := unwind_sublist hr
    exact fun x hx => hstack x (mem_cons_of_mem _ (hsub.subset hx))
  · obtain rfl := Option.some.inj hr
    exact hstack

theorem nearestParents_concat (lines : List (List UInt8)) (t : List UInt8) :
    nearestParents (lines ++ [t]) =
      nearestParents lines ++ [nearest lines lines.length (column t)] := by
  rw [nearestParents, zipIdx_append, map_append, zipIdx_singleton, Nat.zero_add, map_singleton,
    nearest_append _ (Nat.le_refl _)]
  refine congrArg (· ++ _) (map_congr_left fun x hx => ?_)
  have hlt := (mem_zipIdx hx).2.1
  exact nearest_append _ (by omega) _

theorem aligned_concat : Aligned (lines ++ [t]) ↔ Aligned lines ∧ Lands lines t := by
  constructor
  · intro h
    refine ⟨fun i s hs => ?_, ?_⟩
    · have hi : i < lines.length := (List.getElem?_eq_some_iff.mp hs).1
      have hlands := h i s (by rwa [getElem?_append_left hi])
      rwa [take_append_of_le_length hi.le] at hlands
    · have hlands := h lines.length t getElem?_concat_length
      rwa [take_left] at hlands
  · rintro ⟨h, ht⟩ i s hs
    rcases mem_getElem?_concat hs with hs | ⟨rfl, rfl⟩
    · have hi : i < lines.length := (List.getElem?_eq_some_iff.mp hs).1
      rw [take_append_of_le_length hi.le]
      exact h i s hs
    · rwa [take_left]

theorem Built.attach {b : Builder} {r : Builder × Nat} (hb : Built lines parents b)
    (hr : attach b t = some r) : Built (lines ++ [t]) (parents ++ [r.2]) r.1 ∧ (Placed lines b →
      (r.2 = nearest lines lines.length (column t) ↔ Lands lines t) ∧
        (r.2 = nearest lines lines.length (column t) → Placed (lines ++ [t]) r.1)) := by
  obtain ⟨p, hplace, hr⟩ := Option.bind_eq_some_iff.mp hr
  obtain ⟨heap, hadd, rfl⟩ := Option.map_eq_some_iff.mp hr
  have hstack := placeAt_forall (fun h => ⟨hb.prev.le, h⟩) hb.stack hplace
  have hnext := hb.tree.next
  obtain ⟨hle, hmaster⟩ := hstack _ mem_cons_self
  have hgrown := addNode_grown (by omega) hadd
  have hlen : (lines ++ [t]).length = lines.length + 1 := length_append
  refine ⟨⟨hb.tree.concat hle hmaster hadd, ?_, ?_, fun x hx => ?_, ?_⟩, fun hplaced => ?_⟩
  · rw [hlen]
    exact hnext
  · rw [getLast?_concat]
    rfl
  · obtain ⟨hle, hmaster⟩ := hstack x hx
    rw [hlen]
    refine ⟨Nat.le_succ_of_le hle, ?_⟩
    rw [(hgrown.kept x (by omega)).2.1]
    exact hmaster
  · exact fun h0 => absurd h0 (concat_ne_nil t lines)
  · obtain ⟨hiff, hchain⟩ := placeAt_placed hb hplaced hplace
    refine ⟨hiff, fun hp => ⟨?_, (hchain hp).append [t]⟩⟩
    rw [getLast?_concat, hlen, Nat.add_sub_cancel, Option.elim_some,
      nearest_append _ (Nat.le_refl _)]
    exact hp

theorem built_start : Built [] [] .start := by
  refine ⟨treeOf_nil, rfl, rfl, fun x hx => ?_, fun _ => rfl⟩
  rw [mem_singleton.mp hx]
  exact ⟨Nat.le_refl 0, rfl⟩

theorem run_built {q : Builder × List Nat} (hrun : Run.run attach .start lines = some q) :
    Built lines q.2 q.1 ∧ (q.2 = nearestParents lines ↔ Aligned lines) ∧
      (q.2 = nearestParents lines → Placed lines q.1) := by
  induction lines using reverseRecOn generalizing q with
  | nil =>
    obtain rfl := Option.some.inj hrun
    exact ⟨built_start, iff_of_true rfl fun i t ht => by simp at ht, fun _ => ⟨rfl, .root⟩⟩
  | append_singleton lines t ih =>
    rw [Run.run_append_eq] at hrun
    obtain ⟨q₀, hrun₀, hrun⟩ := Option.bind_eq_some_iff.mp hrun
    obtain ⟨q₁, hrun₁, rfl⟩ := Option.map_eq_some_iff.mp hrun
    obtain ⟨r, hr, hr₁⟩ := Option.bind_eq_some_iff.mp hrun₁
    obtain rfl := Option.some.inj hr₁
    obtain ⟨hb, hiff, hplaced⟩ := ih hrun₀
    obtain ⟨hb', hstep⟩ := hb.attach hr
    have hparents : q₀.2 ++ [r.2] = nearestParents (lines ++ [t]) ↔
        q₀.2 = nearestParents lines ∧ r.2 = nearest lines lines.length (column t) := by
      rw [nearestParents_concat, append_singleton_inj]
    refine ⟨hb', ?_, fun h => ?_⟩
    · rw [hparents, aligned_concat, hiff]
      exact and_congr_right fun h => (hstep (hplaced (hiff.mpr h))).1
    · obtain ⟨h, h'⟩ := hparents.mp h
      exact (hstep (hplaced h)).2 h'

/-- A file that `parse` accepts has a tree of all its section and entry lines, and each is below the
nearest section on its left exactly if no line lands between the line before it and the section to
which that belongs. -/
theorem parents_nearest_iff {name fp : List UInt8} {junk : Nat → Nat → UInt8}
    (hp : parse name junk fp = .ok h) : ∃ q, Run.run attach .start (nodeLines fp) = some q ∧
      q.1.heap = h ∧ TreeOf (nodeLines fp) q.2 h ∧
        (q.2 = nearestParents (nodeLines fp) ↔ Aligned (nodeLines fp)) := by
  obtain ⟨q, hrun, rfl⟩ := run_of_parse hp
  obtain ⟨hb, hiff, -⟩ := run_built hrun
  exact ⟨q, hrun, rfl, hb.tree, hiff⟩

/-- The file `a:`, `    x`, `  y`. -/
def dedented : List UInt8 :=
  [0x61, 0x3a, 0x0a, 0x20, 0x20, 0x20, 0x20, 0x78, 0x0a, 0x20, 0x20, 0x79, 0x0a]

theorem run_dedented :
    (Run.run attach .start (nodeLines dedented)).map Prod.snd = some [0, 1, 0] := by
  decide

theorem parents_nearest_iff_dedented : ∃ h, parse [] (fun _ _ => 0) dedented = .ok h ∧
    ∃ q, Run.run attach .start (nodeLines dedented) = some q ∧ q.1.heap = h ∧
      TreeOf (nodeLines dedented) q.2 h ∧
        (q.2 = nearestParents (nodeLines dedented) ↔ Aligned (nodeLines dedented)) := by
  obtain ⟨q, hrun, -⟩ := Option.map_eq_some_iff.mp run_dedented
  have hp := parse_of_run [] (fun _ _ => 0) (show dedented.length < 2 ^ 29 by decide) hrun
  exact ⟨q.1.heap, hp, parents_nearest_iff hp⟩

/-- `y` stands right of `a:` but becomes an entry of the root. -/
theorem dedent_one_out : ∃ h, parse [] (fun _ _ => 0) dedented = .ok h ∧
    ¬ TreeOf (nodeLines dedented) (nearestParents (nodeLines dedented)) h := by
  obtain ⟨q, hrun, hparents⟩ := Option.map_eq_some_iff.mp run_dedented
  have hp := parse_of_run [] (fun _ _ => 0) (show dedented.length < 2 ^ 29 by decide) hrun
  obtain ⟨hb, -⟩ := run_built hrun
  refine ⟨q.1.heap, hp, fun h => ?_⟩
  have hroot := hb.tree.values 0 (Nat.zero_le _)
  rw [hparents] at hroot
  have hlen := hroot.length_eq.symm.trans (h.values 0 (Nat.zero_le _)).length_eq
  exact absurd hlen (by decide)

end PortableLib.ConfigFile
