import PortableLib.ConfigFile.Indent
import Mathlib.Algebra.BigOperators.Ring.Finset

/-! Lines that should not matter. Empty lines and comments change nothing, wherever a file has them;
a line of white space is an entry with an empty key. -/

namespace PortableLib.ConfigFile
open List Gstring StrSplit

/-- A section with what is below it, as `_dumpx` walks through it. -/
inductive Tree
  | sect (name : Gstr) (values : List KeyVal) (subtree : List Tree)

def Tree.entries : Tree → Nat
  | sect _ values subtree => values.length + (subtree.map entries).sum

@[simp] def Heap.tree (h : Heap) : Nat → Nat → Tree
  | 0, p => .sect (h.nodes p).name (h.nodes p).values []
  | depth + 1, p =>
    .sect (h.nodes p).name (h.nodes p).values ((h.nodes p).subtree.map (h.tree depth))

/-- Two parses that both report an error or make the same tree. A program that is undefined does
neither. -/
def Unchanged : Except Stop Heap → Except Stop Heap → Prop
  | .ok h, .ok h' => h.tree h.next 0 = h'.tree h'.next 0
  | .error e, .error e' => e ≠ .fault ∧ e' ≠ .fault
  | _, _ => False

/-- Of lines in which the inserted ones have the mark `true`, those that were there before. -/
def kept (ms : List (Bool × List UInt8)) : List (List UInt8) :=
  (ms.filter fun m => !m.1).map Prod.snd

def spaces (ms : List (Bool × List UInt8)) : List (List UInt8) :=
  (ms.filter fun m => m.1 ∧ m.2 ≠ [] ∧ m.2.all isspace).map Prod.snd

def upTo : Nat → List (Bool × List UInt8) → List (Bool × List UInt8)
  | 0, _ => []
  | _ + 1, [] => []
  | k + 1, (true, line) :: ms => (true, line) :: upTo (k + 1) ms
  | k + 1, (false, line) :: ms => (false, line) :: upTo k ms

/-- Where a line of white space may matter: anywhere in an accepted file, before the reported line
where the stack of sections ran out, and nowhere if an indented line has no parent. -/
def sensitive : Except Stop Heap → List (Bool × List UInt8) → List (Bool × List UInt8)
  | .ok _, ms => ms
  | .error (.indentStack _ lineno _), ms => upTo lineno ms
  | .error _, _ => []

/-- After the line `x`, the line `s` has a parent. -/
def Admits (x s : List UInt8) : Prop := column x < column s → isSection x = true

/-- The inserted lines are empty, white space or comments. They do not end in a backslash, and where
a continued line is still open, which an empty line does not end, only empty ones are inserted. -/
def Inserted : Bool → List (Bool × List UInt8) → Prop
  | _, [] => True
  | cont, (mark, line) :: ms =>
    (mark = true → line = [] ∨ cont = false ∧ line.getLast? ≠ some 0x5c ∧
      (line.all isspace = true ∨ isComment line = true)) ∧
    Inserted (if line = [] then cont else line.getLast? = some 0x5c) ms

instance decidableInserted : ∀ cont ms, Decidable (Inserted cont ms)
  | _, [] => isTrue trivial
  | cont, (mark, line) :: ms =>
    have := decidableInserted (if line = [] then cont else line.getLast? = some 0x5c) ms
    inferInstanceAs (Decidable ((mark = true → line = [] ∨ cont = false ∧
      line.getLast? ≠ some 0x5c ∧ (line.all isspace = true ∨ isComment line = true)) ∧
      Inserted (if line = [] then cont else line.getLast? = some 0x5c) ms))

variable {lines : List (List UInt8)} {parents : List Nat} {h : Heap} {n p d e : Nat}

theorem entries_zero (h : Heap) (p : Nat) : (h.tree 0 p).entries = (h.nodes p).values.length := by
  rw [Heap.tree, Tree.entries, map_nil, sum_nil, Nat.add_zero]

theorem entries_succ (h : Heap) (d p : Nat) : (h.tree (d + 1) p).entries =
    (h.nodes p).values.length + ((h.nodes p).subtree.map fun q => (h.tree d q).entries).sum := by
  rw [Heap.tree, Tree.entries, map_map]
  rfl

theorem mem_below {x : List UInt8 × Nat} (hx : x ∈ below lines parents p) :
    ∃ i, x.1 ∈ lines[i]? ∧ x.2 = i + 1 ∧ p ∈ parents[i]? := by
  obtain ⟨⟨y, q⟩, hy, rfl⟩ := mem_map.mp hx
  obtain ⟨hy, hq⟩ := mem_filter.mp hy
  obtain ⟨i, hi, hget⟩ := getElem_of_mem hy
  rw [length_zip, length_zipIdx, lt_min_iff] at hi
  rw [getElem_zip, getElem_zipIdx, Prod.mk.injEq] at hget
  obtain ⟨rfl, rfl⟩ := hget
  refine ⟨i, List.getElem?_eq_getElem hi.1, Nat.add_comm 1 i, ?_⟩
  rw [← of_decide_eq_true hq]
  exact List.getElem?_eq_getElem hi.2

theorem TreeOf.below_entry (ht : TreeOf lines parents h) (hp : (h.nodes p).master = false) :
    below lines parents p = [] := by
  refine eq_nil_iff_forall_not_mem.mpr fun x hx => ?_
  obtain ⟨i, -, -, hmem⟩ := mem_below hx
  rw [ht.sect p (List.mem_of_getElem? hmem)] at hp
  cases hp

theorem TreeOf.subtree_lt (ht : TreeOf lines parents h) (hp : p ≤ lines.length) :
    ∀ q ∈ (h.nodes p).subtree, p < q ∧ q ≤ lines.length := by
  intro q hq
  rw [ht.subtree p hp] at hq
  obtain ⟨x, hx, rfl⟩ := mem_map.mp hq
  obtain ⟨i, hi, hxi, hmem⟩ := mem_below (mem_filter.mp hx).1
  have hlt : i < lines.length := (List.getElem?_eq_some_iff.mp hi).1
  have hle := ht.before i p hmem
  omega

theorem TreeOf.entries_depth (ht : TreeOf lines parents h) (hp : p ≤ lines.length)
    (hd : lines.length ≤ p + d) : (h.tree (d + 1) p).entries = (h.tree d p).entries := by
  have hlt := ht.subtree_lt hp
  induction d generalizing p with
  | zero =>
    have hnil : (h.nodes p).subtree = [] := eq_nil_iff_forall_not_mem.mpr fun q hq => by
      have hq := hlt q hq
      omega
    rw [entries_succ, entries_zero, hnil]
    rfl
  | succ d ih =>
    rw [entries_succ, entries_succ h d]
    refine congrArg (_ + List.sum ·) (map_congr_left fun q hq => ?_)
    obtain ⟨hpq, hle⟩ := hlt q hq
    exact ih hle (by omega) (ht.subtree_lt hle)

def weight (lines : List (List UInt8)) (h : Heap) (p : Nat) : Nat :=
  (h.tree (lines.length + 1) p).entries

def share (lines : List (List UInt8)) (h : Heap) (x : List UInt8 × Nat) : Nat :=
  if isSection x.1 then weight lines h x.2 else 1

theorem sum_map_share (xs : List (List UInt8 × Nat)) : (xs.map (share lines h)).sum =
    (xs.filter fun x => !isSection x.1).length +
      (((xs.filter fun x => isSection x.1).map Prod.snd).map (weight lines h)).sum := by
  induction xs with
  | nil => rfl
  | cons x xs ih =>
    rw [map_cons, sum_cons, ih, share]
    cases hs : isSection x.1 with
    | true => simp [hs]; omega
    | false => simp [hs]; omega

theorem TreeOf.weight_eq (ht : TreeOf lines parents h) (hp : p ≤ lines.length) :
    weight lines h p = ((below lines parents p).map (share lines h)).sum := by
  rw [sum_map_share, weight, entries_succ, (ht.values p hp).length_eq, ← ht.subtree p hp]
  refine congrArg (_ + List.sum ·) (map_congr_left fun q hq => ?_)
  exact (ht.entries_depth (ht.subtree_lt hp q hq).2 (Nat.le_add_left _ q)).symm

theorem sum_filter_snd {α : Type} {l : List (α × Nat)} {n : Nat} (hl : ∀ x ∈ l, x.2 < n)
    (f : α → Nat) : ∑ p ∈ Finset.range n, (((l.filter fun x => x.2 = p).map Prod.fst).map f).sum =
      ((l.map Prod.fst).map f).sum := by
  induction l with
  | nil => exact Finset.sum_const_zero
  | cons a l ih =>
    obtain ⟨ha, hl⟩ := forall_mem_cons.mp hl
    have hcons : ∀ p, ((((a :: l).filter fun x => x.2 = p).map Prod.fst).map f).sum =
        (if p = a.2 then f a.1 else 0) +
          (((l.filter fun x => x.2 = p).map Prod.fst).map f).sum := by
      intro p
      by_cases hp : a.2 = p
      · simp [hp]
      · simp [hp, Ne.symm hp]
    simp only [hcons]
    rw [Finset.sum_add_distrib, ih hl, Finset.sum_ite_eq_of_mem' _ _ _ (Finset.mem_range.mpr ha)]
    rfl

theorem TreeOf.sum_below (ht : TreeOf lines parents h) (f : List UInt8 × Nat → Nat) :
    ∑ p ∈ Finset.range (lines.length + 1), ((below lines parents p).map f).sum =
      ((lines.zipIdx 1).map f).sum := by
  have hlen : (lines.zipIdx 1).length = parents.length := length_zipIdx.trans ht.length_eq.symm
  have hlt : ∀ x ∈ (lines.zipIdx 1).zip parents, x.2 < lines.length + 1 := by
    intro x hx
    obtain ⟨i, hi, hget⟩ := getElem_of_mem (of_mem_zip hx).2
    have hle := ht.before i x.2 (List.getElem?_eq_some_iff.mpr ⟨hi, hget⟩)
    rw [ht.length_eq] at hi
    omega
  have hsum := sum_filter_snd hlt f
  rwa [map_fst_zip hlen.le] at hsum

theorem TreeOf.share_eq (ht : TreeOf lines parents h) : ∀ x ∈ lines.zipIdx 1,
    share lines h x = weight lines h x.2 + if isSection x.1 then 0 else 1 := by
  rintro ⟨s, q⟩ hx
  obtain ⟨hq, hlt, hs⟩ := mem_zipIdx hx
  obtain ⟨i, rfl⟩ := Nat.exists_eq_add_of_le hq
  have hi : i < lines.length := by omega
  have hget : s ∈ lines[i]? := by
    rw [List.getElem?_eq_getElem hi, Option.mem_some_iff, hs]
    simp only [Nat.add_sub_cancel_left]
  rw [share]
  by_cases hsect : isSection s = true
  · rw [if_pos hsect, if_pos hsect, Nat.add_zero]
  · have hnode := (ht.node i s hget).2.1
    rw [Bool.eq_false_of_not_eq_true hsect, Nat.add_comm] at hnode
    rw [if_neg hsect, if_neg hsect, ht.weight_eq (by omega), ht.below_entry hnode]
    rfl

theorem sum_map_entry (lines : List (List UInt8)) :
    (lines.map fun s => if isSection s then 0 else 1).sum = lines.countP fun s => !isSection s := by
  induction lines with
  | nil => rfl
  | cons s lines ih =>
    rw [map_cons, sum_cons, ih, countP_cons, Nat.add_comm]
    cases isSection s <;> rfl

theorem TreeOf.entries_tree (ht : TreeOf lines parents h) :
    (h.tree h.next 0).entries = lines.countP fun s => !isSection s := by
  -- all nodes but the root are counted in their parents as well, so what is left is the root
  have hall : ∑ p ∈ Finset.range (lines.length + 1), weight lines h p =
      ((lines.zipIdx 1).map (share lines h)).sum := by
    rw [← ht.sum_below]
    refine Finset.sum_congr rfl fun p hp => ht.weight_eq ?_
    have hlt := Finset.mem_range.mp hp
    omega
  have hnodes : ∑ i ∈ Finset.range lines.length, weight lines h (i + 1) =
      ((lines.zipIdx 1).map fun x => weight lines h x.2).sum := by
    have hmap : (lines.zipIdx 1).map Prod.snd = (range lines.length).map (· + 1) := by
      rw [zipIdx_map_snd, range'_eq_map_range]
      exact map_congr_left fun i _ => Nat.add_comm 1 i
    change _ = ((lines.zipIdx 1).map (weight lines h ∘ Prod.snd)).sum
    rw [← map_map, hmap, map_map]
    rfl
  have hlines : ((lines.zipIdx 1).map fun x => if isSection x.1 then 0 else 1).sum =
      lines.countP fun s => !isSection s := by
    change ((lines.zipIdx 1).map ((fun s => if isSection s then 0 else 1) ∘ Prod.fst)).sum = _
    rw [← map_map, zipIdx_map_fst, sum_map_entry]
  rw [Finset.sum_range_succ', hnodes, map_congr_left ht.share_eq, sum_map_add, hlines] at hall
  rw [ht.next]
  exact Nat.add_left_cancel hall

theorem isSection_spaces {s : List UInt8} (hs : s.all isspace = true) : isSection s = false := by
  have hnil : (s.takeWhile (· ≠ 0)).dropWhile isspace = [] := by
    refine dropWhile_eq_nil_iff.mpr fun c hc => ?_
    exact all_eq_true.mp hs c ((takeWhile_sublist _).subset hc)
  rw [isSection, content, trimmed, hnil]
  rfl

theorem isComment_spaces {s : List UInt8} (hs : s.all isspace = true) : isComment s = false := by
  have hhash : (s.dropWhile isBlank).head? ≠ some 0x23 := fun h0 => by
    have hmem := (dropWhile_sublist _).subset (mem_of_head? h0)
    exact absurd (all_eq_true.mp hs _ hmem) (by decide)
  exact decide_eq_false hhash

theorem spaces_cons {line : List UInt8} (hnil : line ≠ []) (ms : List (Bool × List UInt8)) :
    spaces ((true, line) :: ms) =
      if line.all isspace = true then line :: spaces ms else spaces ms := by
  by_cases hspace : line.all isspace = true
  · rw [if_pos hspace]
    exact congrArg (map Prod.snd) (filter_cons_of_pos (decide_eq_true ⟨rfl, hnil, hspace⟩))
  · rw [if_neg hspace]
    refine congrArg (map Prod.snd) (filter_cons_of_neg fun h => hspace ?_)
    exact (of_decide_eq_true h).2.2

theorem joinLine_closed {cont : Bool} {pend line : List UInt8} (hpend : cont = false → pend = [])
    (hcont : (if line = [] then cont else decide (line.getLast? = some 0x5c)) = false) :
    (joinLine pend line).1 = [] := by
  rw [joinLine]
  split_ifs at hcont ⊢ with hnil hback hcomment
  · exact hpend hcont
  · cases of_decide_eq_false hcont hback
  · rfl
  · rfl

theorem joinLines_inserted {ms : List (Bool × List UInt8)} {cont : Bool} {pend : List UInt8}
    (hins : Inserted cont ms) (hpend : cont = false → pend = []) :
    joinLines pend (kept ms) <+ joinLines pend (ms.map Prod.snd) ∧
      joinLines pend (ms.map Prod.snd) ~ spaces ms ++ joinLines pend (kept ms) := by
  induction ms generalizing cont pend with
  | nil => exact ⟨Sublist.refl _, Perm.refl _⟩
  | cons m ms ih =>
    obtain ⟨mark, line⟩ := m
    obtain ⟨hline, hms⟩ := hins
    rw [map_cons, joinLines]
    cases mark with
    | false =>
      obtain ⟨hsub, hperm⟩ := @ih _ (joinLine pend line).1 hms (joinLine_closed hpend)
      rw [show kept ((false, line) :: ms) = line :: kept ms from rfl,
        show spaces ((false, line) :: ms) = spaces ms from rfl, joinLines]
      refine ⟨hsub.append_left _, (hperm.append_left _).trans ?_⟩
      rw [← append_assoc, ← append_assoc]
      exact perm_append_comm.append_right _
    | true =>
      rw [show kept ((true, line) :: ms) = kept ms from rfl]
      by_cases hnil : line = []
      · subst hnil
        exact ih hms hpend
      · obtain ⟨hcont, hback, hkind⟩ := (hline rfl).resolve_left hnil
        obtain rfl := hpend hcont
        rw [if_neg hnil] at hms
        obtain ⟨hsub, hperm⟩ := @ih _ [] hms fun _ => rfl
        rw [joinLine, if_neg hnil, if_neg hback, nil_append, spaces_cons hnil]
        by_cases hspace : line.all isspace = true
        · rw [if_pos hspace, isComment_spaces hspace]
          exact ⟨hsub.cons line, hperm.cons line⟩
        · rw [if_neg hspace, hkind.resolve_left hspace]
          exact ⟨hsub, hperm⟩

theorem nodeLines_inserted {ms : List (Bool × List UInt8)} {fp fp' : List UInt8}
    (hins : Inserted false ms) (hfp : cutLines [] fp = kept ms)
    (hfp' : cutLines [] fp' = ms.map Prod.snd) :
    nodeLines fp <+ nodeLines fp' ∧ nodeLines fp' ~ spaces ms ++ nodeLines fp := by
  rw [nodeLines, nodeLines, hfp, hfp']
  exact joinLines_inserted hins fun _ => rfl

theorem kept_upTo (k : Nat) (ms : List (Bool × List UInt8)) :
    kept (upTo k ms) = (kept ms).take k := by
  induction k, ms using upTo.induct with
  | case1 ms => rw [upTo, take_zero, kept, filter_nil, map_nil]
  | case2 k => rfl
  | case3 k line ms ih => exact ih
  | case4 k line ms ih => exact congrArg (line :: ·) ih

theorem upTo_prefix (k : Nat) (ms : List (Bool × List UInt8)) : upTo k ms <+: ms := by
  induction k, ms using upTo.induct with
  | case1 ms =>
    rw [upTo]
    exact nil_prefix
  | case2 k => exact nil_prefix
  | case3 k line ms ih => exact (prefix_cons_inj _).mpr ih
  | case4 k line ms ih => exact (prefix_cons_inj _).mpr ih

theorem Inserted.take {cont : Bool} {a b : List (Bool × List UInt8)} (h : Inserted cont (a ++ b)) :
    Inserted cont a := by
  induction a generalizing cont with
  | nil => exact trivial
  | cons m a ih => exact ⟨h.1, ih h.2⟩

theorem joinLines_append (pend : List UInt8) (a b : List (List UInt8)) :
    ∃ pend', joinLines pend (a ++ b) = joinLines pend a ++ joinLines pend' b := by
  induction a generalizing pend with
  | nil => exact ⟨pend, rfl⟩
  | cons line a ih =>
    obtain ⟨pend', h⟩ := ih (joinLine pend line).1
    refine ⟨pend', ?_⟩
    rw [cons_append, joinLines, h, joinLines, append_assoc]

theorem Built.last {b : Builder} (hb : Built lines parents b) {x : List UInt8}
    (hx : x ∈ lines.getLast?) :
    b.prevcol = column x ∧ (b.heap.nodes b.prev).master = isSection x := by
  have hlen : lines.length - 1 + 1 = lines.length :=
    Nat.sub_add_cancel (length_pos_of_mem (mem_of_getLast? hx))
  have hget := getLast?_eq_getElem? (l := lines)
  have hnode := hb.tree.node (lines.length - 1) x (hget ▸ hx)
  rw [hlen, ← hb.prev] at hnode
  refine ⟨?_, hnode.2.1⟩
  rw [hb.prevcol, Option.mem_def.mp hx]
  rfl

theorem isChain_of_run {q : Builder × List Nat} (hrun : Run.run attach .start lines = some q) :
    lines.IsChain Admits := by
  induction lines using reverseRecOn generalizing q with
  | nil => exact .nil
  | append_singleton lines s ih =>
    rw [Run.run_append_eq] at hrun
    obtain ⟨q₀, hrun₀, hrun⟩ := Option.bind_eq_some_iff.mp hrun
    refine isChain_append.mpr ⟨ih hrun₀, isChain_singleton s, fun x hx y hy hlt => ?_⟩
    obtain rfl : s = y := Option.some.inj hy
    obtain ⟨hcol, hmaster⟩ := (run_built hrun₀).1.last hx
    rw [← hmaster]
    by_contra hentry
    have href : Refuses (.noParent [] 0 zeroGstr) q₀.1 (column s) :=
      ⟨hcol ▸ hlt, Bool.eq_false_iff.mpr hentry⟩
    have hnone := href.run_none hrun₀
    rw [Run.run_append_eq, hrun₀, Option.bind_some, hrun] at hnone
    cases hnone

theorem isChain_cons_of_sublist {ls ls' : List (List UInt8)} (h : ls <+ ls')
    (hcount : ls'.countP isSection ≤ ls.countP isSection) {x : List UInt8}
    (hchain : (x :: ls').IsChain Admits) : (x :: ls).IsChain Admits := by
  induction h generalizing x with
  | slnil => exact hchain
  | @cons ls ls' w h ih =>
    have hw : isSection w = false := by
      by_contra hw
      rw [countP_cons_of_pos (Bool.eq_true_of_not_eq_false hw)] at hcount
      have hle := h.countP_le (p := isSection)
      omega
    rw [countP_cons_of_neg (Bool.eq_false_iff.mp hw)] at hcount
    obtain ⟨hx, hchain⟩ := isChain_cons_cons.mp hchain
    obtain ⟨hhead, htail⟩ := isChain_cons.mp (ih hcount hchain)
    refine isChain_cons.mpr ⟨fun y hy hlt => ?_, htail⟩
    -- `y` is not deeper than the entry `w`, so `w` was already deeper than `x`
    have hwy : ¬ column w < column y := fun hlt => by
      rw [hhead y hy hlt] at hw
      cases hw
    exact hx (hlt.trans_le (Nat.not_lt.mp hwy))
  | @cons_cons ls ls' y h ih =>
    obtain ⟨hx, hchain⟩ := isChain_cons_cons.mp hchain
    rw [countP_cons, countP_cons] at hcount
    exact isChain_cons_cons.mpr ⟨hx, ih (by omega) hchain⟩

theorem isChain_of_sublist {ls ls' : List (List UInt8)} (h : ls <+ ls')
    (hcount : ls'.countP isSection ≤ ls.countP isSection) (hchain : ls'.IsChain Admits) :
    ls.IsChain Admits := by
  -- the root is a section on the left of all lines
  have hroot : isSection [0x3a] = true := by decide
  exact (isChain_cons_of_sublist h hcount (isChain_cons.mpr ⟨fun _ _ _ => hroot, hchain⟩)).tail

theorem not_isChain_of_refuses {q : Builder × List Nat} {t name : List UInt8} {k : Nat} {l : Gstr}
    (hrun : Run.run attach .start lines = some q)
    (href : Refuses (.noParent name k l) q.1 (column t)) : ¬ (lines ++ [t]).IsChain Admits := by
  intro hchain
  obtain ⟨hlt, hmaster⟩ := href
  obtain ⟨hb, -⟩ := run_built hrun
  cases hx : lines.getLast? with
  | none =>
    have hprev := hb.prev
    rw [getLast?_eq_none_iff.mp hx, length_nil] at hprev
    rw [hprev, hb.tree.root.2] at hmaster
    cases hmaster
  | some x =>
    obtain ⟨hcol, hsect⟩ := hb.last hx
    rw [hcol] at hlt
    rw [hsect, (isChain_append.mp hchain).2.2 x hx t rfl hlt] at hmaster
    cases hmaster

theorem run_upTo {ms : List (Bool × List UInt8)} (hins : Inserted false ms) {k : Nat}
    (hspaces : spaces (upTo k ms) = [])
    (hnone : Run.run attach .start (joinLines [] ((kept ms).take k)) = none) :
    Run.run attach .start (joinLines [] (ms.map Prod.snd)) = none := by
  obtain ⟨rest, hrest⟩ := upTo_prefix k ms
  rw [← hrest] at hins
  have hupTo := hins.take
  obtain ⟨hsub, hperm⟩ := joinLines_inserted hupTo fun _ => (rfl : ([] : List UInt8) = [])
  have hlen := hperm.length_eq
  rw [hspaces, nil_append] at hlen
  rw [← kept_upTo, hsub.eq_of_length hlen.symm] at hnone
  obtain ⟨pend', hall⟩ := joinLines_append [] ((upTo k ms).map Prod.snd) (rest.map Prod.snd)
  rw [← map_append, hrest] at hall
  rw [hall, Run.run_append_eq, hnone]
  rfl

theorem all_spaces (ms : List (Bool × List UInt8)) : ∀ s ∈ spaces ms, isSection s = false := by
  intro s hs
  obtain ⟨m, hm, rfl⟩ := mem_map.mp hs
  exact isSection_spaces (of_decide_eq_true (mem_filter.mp hm).2).2.2

section Files
variable {name fp fp' : List UInt8} {junk junk' : Nat → Nat → UInt8}

theorem entries_of_parse (hp : parse name junk fp = .ok h) :
    (h.tree h.next 0).entries = (nodeLines fp).countP fun s => !isSection s := by
  obtain ⟨q, hrun, rfl⟩ := run_of_parse hp
  exact (run_built hrun).1.tree.entries_tree

theorem Unchanged.defined {r r' : Except Stop Heap} (h : Unchanged r r') :
    r ≠ .error .fault ∧ r' ≠ .error .fault := by
  cases r with
  | ok a =>
    cases r' with
    | ok a' => exact ⟨nofun, nofun⟩
    | error e' => exact h.elim
  | error e =>
    cases r' with
    | ok a' => exact h.elim
    | error e' => exact ⟨fun h0 => h.1 (Except.error.inj h0), fun h0 => h.2 (Except.error.inj h0)⟩

theorem unchanged_of_nodeLines (heq : nodeLines fp = nodeLines fp')
    (hdef : parse name junk fp ≠ .error .fault) (hdef' : parse name junk' fp' ≠ .error .fault) :
    Unchanged (parse name junk fp) (parse name junk' fp') := by
  cases hp : parse name junk fp with
  | ok a =>
    obtain ⟨q, hrun, rfl⟩ := run_of_parse hp
    cases hp' : parse name junk' fp' with
    | ok a' =>
      obtain ⟨q', hrun', rfl⟩ := run_of_parse hp'
      rw [heq, hrun'] at hrun
      exact Option.some.inj hrun ▸ rfl
    | error e' =>
      have hnone := run_of_parse_error hp' fun h0 => hdef' (h0 ▸ hp')
      rw [← heq, hrun] at hnone
      cases hnone
  | error e =>
    have hne : e ≠ .fault := fun h0 => hdef (h0 ▸ hp)
    cases hp' : parse name junk' fp' with
    | ok a' =>
      have hnone := run_of_parse_error hp hne
      obtain ⟨q', hrun', -⟩ := run_of_parse hp'
      rw [heq, hrun'] at hnone
      cases hnone
    | error e' => exact ⟨hne, fun h0 => hdef' (h0 ▸ hp')⟩

theorem Unchanged.of_errors {e : Stop} {r : Except Stop Heap} (he : e ≠ .fault)
    (hr : r ≠ .error .fault) (hnot : ∀ h, r ≠ .ok h) : Unchanged (.error e) r := by
  cases r with
  | ok h => exact absurd rfl (hnot h)
  | error e' => exact ⟨he, fun h0 => hr (h0 ▸ rfl)⟩

/-- Inserted lines change nothing if none of white space stands where it may matter, and in a file
that was accepted only then. This is said of files that overflow no integer of the parser, as none
does that is shorter than 2²⁹ bytes. -/
theorem insertion_neutral_iff (name : List UInt8) (junk junk' : Nat → Nat → UInt8)
    {ms : List (Bool × List UInt8)} {fp fp' : List UInt8} (hins : Inserted false ms)
    (hfp : cutLines [] fp = kept ms) (hfp' : cutLines [] fp' = ms.map Prod.snd) :
    (fp.length < 2 ^ 29 → parse name junk fp ≠ .error .fault) ∧
    (fp'.length < 2 ^ 29 → parse name junk' fp' ≠ .error .fault) ∧
    (spaces (sensitive (parse name junk fp) ms) = [] →
      (Unchanged (parse name junk fp) (parse name junk' fp') ↔
        parse name junk fp ≠ .error .fault ∧ parse name junk' fp' ≠ .error .fault)) ∧
    ∀ h, parse name junk fp = .ok h → (Unchanged (parse name junk fp) (parse name junk' fp') ↔
      parse name junk' fp' ≠ .error .fault ∧ spaces (sensitive (parse name junk fp) ms) = []) := by
  obtain ⟨hsub, hperm⟩ := nodeLines_inserted hins hfp hfp'
  have hneutral : spaces ms = [] → parse name junk fp ≠ .error .fault →
      parse name junk' fp' ≠ .error .fault →
      Unchanged (parse name junk fp) (parse name junk' fp') := by
    intro hspaces
    have hlen := hperm.length_eq
    rw [hspaces, nil_append] at hlen
    exact unchanged_of_nodeLines (hsub.eq_of_length hlen.symm)
  have hcount : (nodeLines fp').countP isSection ≤ (nodeLines fp).countP isSection := by
    have hzero : (spaces ms).countP isSection = 0 :=
      countP_eq_zero.mpr fun s hs => Bool.eq_false_iff.mp (all_spaces ms s hs)
    rw [hperm.countP_eq, countP_append, hzero, Nat.zero_add]
  refine ⟨parse_defined name junk, parse_defined name junk', fun hspaces => ?_, fun h hp => ?_⟩
  · refine ⟨Unchanged.defined, fun hdef => ?_⟩
    cases hp : parse name junk fp with
    | ok h =>
      rw [hp] at hspaces
      rw [← hp]
      exact hneutral hspaces hdef.1 hdef.2
    | error e =>
      have he : e ≠ .fault := fun h0 => hdef.1 (h0 ▸ hp)
      obtain ⟨k, before, t, q, hk, hjoin, hbefore, href⟩ := parse_reported hp he
      refine .of_errors he hdef.2 fun h' hp' => ?_
      obtain ⟨q', hrun, -⟩ := run_of_parse hp'
      cases e with
      | fault => exact he rfl
      | noParent nm lineno l =>
        refine not_isChain_of_refuses hbefore href ?_
        have hchain := isChain_of_sublist hsub hcount (isChain_of_run hrun)
        obtain ⟨pend', hall⟩ := joinLines_append [] ((cutLines [] fp).take k)
          ((cutLines [] fp).drop k)
        rw [take_append_drop, hjoin] at hall
        rw [nodeLines, hall] at hchain
        exact hchain.left_of_append
      | indentStack nm lineno l =>
        obtain rfl := Option.some.inj hk
        have hnone := href.run_none hbefore
        rw [← hjoin, hfp] at hnone
        rw [hp] at hspaces
        rw [nodeLines, hfp', run_upTo hins hspaces hnone] at hrun
        cases hrun
  · rw [hp]
    change Unchanged (.ok h) _ ↔ _ ∧ spaces ms = []
    constructor
    · intro hun
      refine ⟨hun.defined.2, ?_⟩
      cases hp' : parse name junk' fp' with
      | error e =>
        rw [hp'] at hun
        exact hun.elim
      | ok h' =>
        rw [hp'] at hun
        -- the trees have as many entries as the files have lines of entries
        have hcount := congrArg Tree.entries hun
        rw [entries_of_parse hp, entries_of_parse hp', hperm.countP_eq, countP_append,
          right_eq_add, countP_eq_zero] at hcount
        refine eq_nil_iff_forall_not_mem.mpr fun s hs => hcount s hs ?_
        rw [all_spaces ms s hs]
        rfl
    · rintro ⟨hdef, hspaces⟩
      rw [← hp]
      refine hneutral hspaces (fun h0 => ?_) hdef
      rw [hp] at h0
      cases h0

theorem insertion_neutral_iff_comment : Unchanged (parse [] (fun _ _ => 0) [0x61, 0x0a])
    (parse [] (fun _ _ => 0) [0x61, 0x0a, 0x23, 0x0a, 0x0a]) := by
  obtain ⟨hdef, hdef', hiff, -⟩ := @insertion_neutral_iff [] (fun _ _ => 0) (fun _ _ => 0)
    [(false, [0x61]), (true, [0x23]), (true, [])] [0x61, 0x0a] [0x61, 0x0a, 0x23, 0x0a, 0x0a]
    (by decide) (by decide) (by decide)
  exact (hiff (by decide)).mpr ⟨hdef (by decide), hdef' (by decide)⟩

/-- After the entry `a`, a line that is one space is an indented line without a parent. -/
theorem blank_line_reported :
    Inserted false [(false, [0x61]), (true, [0x20])] ∧
      cutLines [] [0x61, 0x0a] = kept [(false, [0x61]), (true, [0x20])] ∧
      cutLines [] [0x61, 0x0a, 0x20, 0x0a] = [(false, [0x61]), (true, [0x20])].map Prod.snd ∧
      ¬ Unchanged (parse [] (fun _ _ => 0) [0x61, 0x0a])
        (parse [] (fun _ _ => 0) [0x61, 0x0a, 0x20, 0x0a]) := by
  have hsome : (Run.run attach .start (nodeLines [0x61, 0x0a])).isSome = true := by
    decide
  have hnone : (Run.run attach .start (nodeLines [0x61, 0x0a, 0x20, 0x0a])).isNone = true := by
    decide
  refine ⟨by decide, by decide, by decide, fun hun => ?_⟩
  obtain ⟨q, hrun⟩ := Option.isSome_iff_exists.mp hsome
  rw [parse_of_run [] (fun _ _ => 0) (by decide) hrun] at hun
  cases hp : parse [] (fun _ _ => 0) [0x61, 0x0a, 0x20, 0x0a] with
  | ok h' =>
    obtain ⟨q', hrun', -⟩ := run_of_parse hp
    rw [hrun'] at hnone
    cases hnone
  | error e' =>
    rw [hp] at hun
    exact hun

end Files
end PortableLib.ConfigFile
