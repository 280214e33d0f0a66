import PortableLib.ConfigFile.Parse

/-! Entries are found by paths: the search interface of `configfile.c`. Names and keys are
terminated, as everything the parser makes is. -/

namespace PortableLib.ConfigFile
open List Gstring StrSplit

def gstrEqStr (g : Gstr) (s : List UInt8) : Bool := cstring g.str = some s

def findSubtree (h : Heap) (subtree : List Nat) (p : List UInt8) : Option Nat :=
  subtree.find? fun n => gstrEqStr (h.nodes n).name p

def find (h : Heap) : Nat → List (List UInt8) → Option Nat
  | n, [] => some n
  | n, p :: ps => (findSubtree h (h.nodes n).subtree p).bind fun n => find h n ps

/-- The loop of `find_leaf` over the entries of a section: the string it returns. -/
def findValue (h : Heap) (n : Nat) (leaf : List UInt8) : Option (List UInt8) :=
  ((h.nodes n).values.find? fun kv => gstrEqStr kv.key leaf).bind fun kv => cstring kv.val.str

def findLeaf (h : Heap) (start : Nat) (path : List UInt8) : Option (List UInt8) := do
  let p ← strsplitQuick 32 path [0x2f]
  let leaf ← p.getLast?
  let n ← if p.length = 1 then some start else find h start p.dropLast
  findValue h n leaf

def configSectionGetEntry (h : Heap) (start : Nat) (path : List UInt8) : Option (List UInt8) :=
  let path := if path.head? = some 0x2f then path.tail else path
  if path = [] then none else findLeaf h start path

def configGetEntry (h : Heap) (root : Nat) (path : List UInt8) : Option (List UInt8) :=
  findLeaf h root path

@[simp] def lookup (h : Heap) : Nat → List (List UInt8) → Option (List UInt8)
  | _, [] => none
  | n, [k] => findValue h n k
  | n, a :: b :: cs => (findSubtree h (h.nodes n).subtree a).bind fun n => lookup h n (b :: cs)

/-- `/a/b/.../k` -/
def joined (cs : List (List UInt8)) : List UInt8 := cs.flatMap fun c => 0x2f :: c

/-- What can stand between two separators. -/
def Component (c : List UInt8) : Prop := c ≠ [] ∧ 0x2f ∉ c ∧ 0 ∉ c

@[simp] def trimEnd : List (List UInt8) → List (List UInt8)
  | [] => []
  | [c] => if c.rdropWhile isspace = [] then [] else [c.rdropWhile isspace]
  | c :: b :: cs => c :: trimEnd (b :: cs)

/-- The components without the white space at both ends of the path, its first separator left out:
what is left of a first component that was all white space is an empty one, unless nothing at all
is left. -/
def trimEnds : List (List UInt8) → List (List UInt8)
  | [] => []
  | [c] => if trimmed c = [] then [] else [trimmed c]
  | c :: b :: cs =>
    if c.dropWhile isspace = [] ∧ trimEnd (b :: cs) = [] then []
    else c.dropWhile isspace :: trimEnd (b :: cs)

def FirstSection (h : Heap) (n : Nat) (p : List UInt8) (m : Nat) : Prop :=
  gstrEqStr (h.nodes m).name p = true ∧
    ∃ before after, (h.nodes n).subtree = before ++ m :: after ∧
      ∀ k ∈ before, (!gstrEqStr (h.nodes k).name p) = true

inductive EntryAt (h : Heap) : Nat → List (List UInt8) → List UInt8 → Prop
  | here {n : Nat} {k v : List UInt8} {kv : KeyVal} {before after : List KeyVal}
      (hkey : gstrEqStr kv.key k = true) (hvalues : (h.nodes n).values = before ++ kv :: after)
      (hfirst : ∀ e ∈ before, (!gstrEqStr e.key k) = true) (hval : cstring kv.val.str = some v) :
      EntryAt h n [k] v
  | inside {n m : Nat} {a b v : List UInt8} {cs : List (List UInt8)} (hsect : FirstSection h n a m)
      (hrest : EntryAt h m (b :: cs) v) : EntryAt h n (a :: b :: cs) v

/-- What the tree has at the path it also has at the path below the root's first section without a
name and at the path without white space at its ends, and nothing else. -/
structure Mirrors (h : Heap) (root : Nat) (cs : List (List UInt8)) : Prop where
  unnamed : ∀ v, EntryAt h root cs v ↔
    ∃ m, FirstSection h root [] m ∧ EntryAt h m (trimEnd cs) v
  trimmed : ∀ v, EntryAt h root cs v ↔ EntryAt h root (trimEnds cs) v

variable {h : Heap} {n : Nat} {c : List UInt8} {cs : List (List UInt8)}

theorem firstSection_iff {p : List UInt8} {m : Nat} :
    FirstSection h n p m ↔ findSubtree h (h.nodes n).subtree p = some m := by
  rw [findSubtree, find?_eq_some_iff_append]
  rfl

theorem entryAt_iff {v : List UInt8} : EntryAt h n cs v ↔ lookup h n cs = some v := by
  induction cs generalizing n with
  | nil => exact iff_of_false (fun hentry => by cases hentry) (Option.some_ne_none v).symm
  | cons a cs ih =>
    cases cs with
    | nil =>
      rw [lookup, findValue, Option.bind_eq_some_iff]
      simp only [find?_eq_some_iff_append]
      constructor
      · rintro ⟨hkey, hvalues, hfirst, hval⟩
        exact ⟨_, ⟨hkey, _, _, hvalues, hfirst⟩, hval⟩
      · rintro ⟨kv, ⟨hkey, before, after, hvalues, hfirst⟩, hval⟩
        exact EntryAt.here hkey hvalues hfirst hval
    | cons b cs =>
      rw [lookup, Option.bind_eq_some_iff]
      constructor
      · rintro ⟨⟩
        next m hsect hrest => exact ⟨m, firstSection_iff.mp hsect, ih.mp hrest⟩
      · rintro ⟨m, hsect, hrest⟩
        exact EntryAt.inside (firstSection_iff.mpr hsect) (ih.mpr hrest)

theorem option_eq_iff {α : Type} {x y : Option α} : x = y ↔ ∀ v, y = some v ↔ x = some v :=
  ⟨fun heq v => by rw [heq], fun h => Option.ext fun v => (h v).symm⟩

theorem mirrors_iff {root : Nat} : Mirrors h root cs ↔
    ((findSubtree h (h.nodes root).subtree []).bind fun n => lookup h n (trimEnd cs)) =
        lookup h root cs ∧
      lookup h root (trimEnds cs) = lookup h root cs := by
  rw [option_eq_iff, option_eq_iff]
  simp only [Option.bind_eq_some_iff, ← firstSection_iff, ← entryAt_iff]
  exact ⟨fun hm => ⟨hm.unnamed, hm.trimmed⟩, fun hm => ⟨hm.1, hm.2⟩⟩

theorem lookup_eq (cs : List (List UInt8)) : lookup h n cs =
    cs.getLast?.bind fun leaf => (find h n cs.dropLast).bind fun m => findValue h m leaf := by
  induction cs generalizing n with
  | nil => rfl
  | cons a cs ih =>
    cases cs with
    | nil => rfl
    | cons b cs =>
      have hlast : ∃ leaf, (b :: cs).getLast? = some leaf :=
        ⟨_, getLast?_eq_some_getLast (cons_ne_nil b cs)⟩
      obtain ⟨leaf, hleaf⟩ := hlast
      rw [lookup, getLast?_cons_cons, hleaf, dropLast_cons_of_ne_nil (cons_ne_nil b cs), find,
        Option.bind_some, Option.bind_assoc]
      congr 1
      funext m
      rw [ih, hleaf, Option.bind_some]

theorem findLeaf_eq {path : List UInt8} {ts : List (List UInt8)}
    (hts : strsplitQuick 32 path [0x2f] = some ts) : findLeaf h n path = lookup h n ts := by
  rw [findLeaf, hts, lookup_eq]
  simp only [Option.bind_eq_bind, Option.bind_some]
  cases ts with
  | nil => rfl
  | cons a ts =>
    cases ts with
    | nil => rfl
    | cons b ts => rfl

/-- The set of `/` alone. -/
def slash : Delim := initDelim [0x2f]

theorem slash_apply (x : UInt8) : slash x = decide (x = 0x2f) := by
  rw [slash, initDelim_apply]
  simp only [mem_singleton]

theorem slash_of_mem (hc : 0x2f ∉ c) : ∀ x ∈ c, slash x = false := by
  intro x hx
  rw [slash_apply]
  exact decide_eq_false fun h0 => hc (h0 ▸ hx)

theorem head?_joined (hcs : cs ≠ []) : (joined cs).head? = some 0x2f := by
  cases cs with
  | nil => exact absurd rfl hcs
  | cons c cs => rfl

theorem joined_cons (c : List UInt8) (cs : List (List UInt8)) :
    joined (c :: cs) = 0x2f :: (c ++ joined cs) := by
  rw [joined, flatMap_cons, cons_append, joined]

theorem rdropWhile_append {l m : List UInt8} {p : UInt8 → Bool} (hm : m.rdropWhile p ≠ []) :
    (l ++ m).rdropWhile p = l ++ m.rdropWhile p := by
  rw [rdropWhile, reverse_append, dropWhile_append]
  have hne : ¬(m.reverse.dropWhile p).isEmpty = true := by
    rw [List.isEmpty_iff]
    exact fun h0 => hm (by rw [rdropWhile, h0, reverse_nil])
  rw [if_neg hne, reverse_append, reverse_reverse, rdropWhile]

theorem rdropWhile_slash (m : List UInt8) :
    (0x2f :: m).rdropWhile isspace = 0x2f :: m.rdropWhile isspace := by
  by_cases hm : m.rdropWhile isspace = []
  · have hall : ∀ x ∈ m, isspace x := rdropWhile_eq_nil_iff.mp hm
    rw [hm, rdropWhile, reverse_cons,
      dropWhile_append_of_pos fun x hx => hall x (mem_reverse.mp hx)]
    rfl
  · exact rdropWhile_append (l := [0x2f]) hm

theorem head?_rdropWhile_joined (hcs : cs ≠ []) :
    ((joined cs).rdropWhile isspace).head? = some 0x2f := by
  cases cs with
  | nil => exact absurd rfl hcs
  | cons c cs =>
    rw [joined_cons, rdropWhile_slash]
    rfl

theorem rdropWhile_joined_cons (hcs : cs ≠ []) (w : List UInt8) :
    (w ++ joined cs).rdropWhile isspace = w ++ (joined cs).rdropWhile isspace :=
  rdropWhile_append fun h0 => by
    have hhead := head?_rdropWhile_joined hcs
    rw [h0] at hhead
    cases hhead

theorem runs_joined (hcs : ∀ c ∈ cs, Component c) :
    runs slash ((joined cs).rdropWhile isspace) = trimEnd cs := by
  induction cs with
  | nil => exact runs_nil
  | cons c cs ih =>
    obtain ⟨⟨hne, hslash, -⟩, hcs⟩ := forall_mem_cons.mp hcs
    cases cs with
    | nil =>
      rw [joined_cons, rdropWhile_slash, runs_cons_of_delim (by decide), trimEnd]
      change runs slash ((c ++ []).rdropWhile isspace) = _
      rw [append_nil]
      by_cases hc : c.rdropWhile isspace = []
      · rw [if_pos hc, hc, runs_nil]
      · have hd : ∀ x ∈ c.rdropWhile isspace, slash x = false :=
          fun x hx => slash_of_mem hslash x (mem_of_mem_rdropWhile hx)
        have hrun := runs_append (s := []) hc hd (fun x hx => by cases hx)
        rw [append_nil, runs_nil] at hrun
        rw [if_neg hc, hrun]
    | cons b cs =>
      have hhead := head?_rdropWhile_joined (cons_ne_nil b cs)
      rw [joined_cons, rdropWhile_slash, runs_cons_of_delim (by decide),
        rdropWhile_joined_cons (cons_ne_nil b cs), runs_append hne (slash_of_mem hslash), ih hcs,
        trimEnd]
      intro x hx
      rw [hhead] at hx
      obtain rfl := Option.some.inj hx
      decide

theorem squeezed_append {u r : List UInt8} (hu : 0x2f ∉ u) (hr : ∀ x ∈ r.head?, slash x = true) :
    squeezed slash (u ++ r) =
      if u = [] ∧ runs slash r = [] then [] else u :: runs slash r := by
  have hpos : ∀ x ∈ u, (!slash x) = true := fun x hx => by rw [slash_of_mem hu x hx]; rfl
  have hstop : r.takeWhile (!slash ·) = [] ∧ r.dropWhile (!slash ·) = r := by
    cases r with
    | nil => exact ⟨rfl, rfl⟩
    | cons x r =>
      have hx : ¬(!slash x) = true := by rw [hr x rfl]; exact Bool.false_ne_true
      exact ⟨takeWhile_cons_of_neg hx, dropWhile_cons_of_neg hx⟩
  rw [squeezed, takeWhile_append_of_pos hpos, dropWhile_append_of_pos hpos, hstop.1, hstop.2,
    append_nil]
  simp only [← runs_eq_nil_iff]
  by_cases hnil : u = []
  · simp only [hnil, nil_append, true_and]
  · rw [runs_append hnil (slash_of_mem hu) hr, if_neg (cons_ne_nil _ _), if_neg fun hx => hnil hx.1]

theorem length_trimEnd_le (cs : List (List UInt8)) : (trimEnd cs).length ≤ cs.length := by
  induction cs with
  | nil => exact Nat.le_refl 0
  | cons c cs ih =>
    cases cs with
    | nil =>
      rw [trimEnd]
      split
      · exact Nat.zero_le 1
      · exact Nat.le_refl 1
    | cons b cs =>
      rw [trimEnd, length_cons]
      exact Nat.succ_le_succ ih

theorem not_mem_joined (hcs : ∀ c ∈ cs, Component c) : 0 ∉ joined cs := by
  intro h0
  obtain ⟨c, hc, h0⟩ := mem_flatMap.mp h0
  rcases mem_cons.mp h0 with h0 | h0
  · cases h0
  · exact (hcs c hc).2.2 h0

theorem trimmed_eq_rdropWhile {t : List UInt8} (ht : ∀ x ∈ t.head?, isspace x = false) :
    trimmed t = t.rdropWhile isspace := by
  rw [trimmed]
  cases t with
  | nil => rfl
  | cons x t => rw [dropWhile_cons_of_neg (Bool.eq_false_iff.mp (ht x rfl))]

theorem isspace_head?_joined (hcs : cs ≠ []) : ∀ x ∈ (joined cs).head?, isspace x = false := by
  rw [head?_joined hcs]
  intro x hx
  obtain rfl := Option.some.inj hx
  decide

theorem slash_head?_joined (cs : List (List UInt8)) :
    ∀ x ∈ ((joined cs).rdropWhile isspace).head?, slash x = true := by
  intro x hx
  by_cases hcs : cs = []
  · subst hcs
    cases hx
  · rw [head?_rdropWhile_joined hcs] at hx
    obtain rfl := Option.some.inj hx
    decide

theorem configGetEntry_eq (h : Heap) (root : Nat) (hne : cs ≠ []) (hcs : ∀ c ∈ cs, Component c)
    (hlen : cs.length < 32) : configGetEntry h root (joined cs) =
      (findSubtree h (h.nodes root).subtree []).bind fun n => lookup h n (trimEnd cs) := by
  have htrim := length_trimEnd_le cs
  have hsq : squeezed slash (trimmed (joined cs)) =
      if trimEnd cs = [] then [] else [] :: trimEnd cs := by
    have hsq := squeezed_append (u := []) not_mem_nil (slash_head?_joined cs)
    rw [trimmed_eq_rdropWhile (isspace_head?_joined hne)]
    rw [nil_append, runs_joined hcs] at hsq
    simpa only [true_and] using hsq
  have hsplit : strsplitQuick 32 (joined cs) [0x2f] =
      some (if trimEnd cs = [] then [] else [] :: trimEnd cs) := by
    rw [strsplitQuick_eq (not_mem_joined hcs) (by decide), ← hsq]
    refine if_pos ?_
    change (squeezed slash (trimmed (joined cs))).length ≤ 32
    rw [hsq]
    split
    · exact Nat.zero_le 32
    · rw [length_cons]
      omega
  rw [configGetEntry, findLeaf_eq hsplit]
  cases htr : trimEnd cs with
  | nil =>
    rw [if_pos rfl]
    cases findSubtree h (h.nodes root).subtree [] <;> rfl
  | cons b bs =>
    rw [if_neg (cons_ne_nil b bs)]
    rfl

theorem configSectionGetEntry_eq (h : Heap) (root : Nat) (hne : cs ≠ [])
    (hcs : ∀ c ∈ cs, Component c) (hlen : cs.length < 32) :
    configSectionGetEntry h root (joined cs) = lookup h root (trimEnds cs) := by
  obtain ⟨c, cs, rfl⟩ := exists_cons_of_ne_nil hne
  obtain ⟨⟨hc, hslash, hnul⟩, hcs'⟩ := forall_mem_cons.mp hcs
  have htrim := length_trimEnd_le cs
  have h0 : 0 ∉ c ++ joined cs := fun hx =>
    (mem_append.mp hx).elim hnul (not_mem_joined hcs')
  -- trimming takes white space from the first and the last component only
  have hsq : squeezed slash (trimmed (c ++ joined cs)) = trimEnds (c :: cs) := by
    cases cs with
    | nil =>
      have hsub : 0x2f ∉ trimmed c := fun hx => hslash (mem_of_mem_trimmed hx)
      have hsq := squeezed_append (r := []) hsub (fun x hx => by cases hx)
      rw [append_nil, runs_nil] at hsq
      change squeezed slash (trimmed (c ++ [])) = _
      rw [append_nil, hsq, trimEnds]
      simp only [and_true]
    | cons b cs =>
      have hdrop : (c ++ joined (b :: cs)).dropWhile isspace =
          c.dropWhile isspace ++ joined (b :: cs) := by
        have hspace : ¬isspace 0x2f = true := by decide
        rw [dropWhile_append]
        split
        case isTrue hempty =>
          rw [List.isEmpty_iff.mp hempty, nil_append, joined_cons, dropWhile_cons_of_neg hspace]
        case isFalse => rfl
      have hsub : 0x2f ∉ c.dropWhile isspace := fun hx => hslash ((dropWhile_sublist _).subset hx)
      rw [trimmed, hdrop, rdropWhile_joined_cons (cons_ne_nil b cs),
        squeezed_append hsub (slash_head?_joined _), runs_joined hcs', trimEnds]
  -- the array of 32 pieces is large enough
  have hends : (trimEnds (c :: cs)).length ≤ 32 := by
    cases cs with
    | nil =>
      rw [trimEnds]
      split
      · exact Nat.zero_le 32
      · rw [length_singleton]
        decide
    | cons b cs =>
      rw [trimEnds]
      split
      · exact Nat.zero_le 32
      · rw [length_cons] at hlen ⊢
        omega
  have hsplit : strsplitQuick 32 (c ++ joined cs) [0x2f] = some (trimEnds (c :: cs)) := by
    rw [strsplitQuick_eq h0 (by decide), ← hsq]
    refine if_pos ?_
    change (squeezed slash (trimmed (c ++ joined cs))).length ≤ 32
    rw [hsq]
    exact hends
  rw [configSectionGetEntry, joined_cons]
  simp only [head?_cons, if_true, tail_cons]
  rw [if_neg (append_ne_nil_of_left_ne_nil hc _), findLeaf_eq hsplit]

/-- The two ways to ask agree with each other and with the walk exactly if the tree has the same at
the path, at the path below its first section without a name and at the path without white space at
its ends. -/
theorem config_lookups_agree_iff (h : Heap) (root : Nat) {cs : List (List UInt8)} (hne : cs ≠ [])
    (hcs : ∀ c ∈ cs, Component c) (hlen : cs.length < 32) :
    (configGetEntry h root (joined cs) = configSectionGetEntry h root (joined cs) ∧
      configGetEntry h root (joined cs) = lookup h root cs) ↔ Mirrors h root cs := by
  rw [configGetEntry_eq h root hne hcs hlen, configSectionGetEntry_eq h root hne hcs hlen,
    mirrors_iff]
  constructor
  · rintro ⟨hsect, hwalk⟩
    exact ⟨hwalk, hsect.symm.trans hwalk⟩
  · rintro ⟨hwalk, hsect⟩
    exact ⟨hwalk.trans hsect.symm, hwalk⟩

def ofString (s : List UInt8) : Gstr :=
  ⟨cstr s, UInt64.ofNat s.length, UInt64.ofNat (s.length + 1)⟩

theorem config_lookups_agree_mirrored :
    configGetEntry ⟨fun
        | 0 => ⟨-1, true, [1, 2], [], ofString rootName⟩
        | 2 => ⟨0, true, [3], [], ofString []⟩
        | _ => ⟨0, true, [], [⟨ofString [0x6b], ofString [0x76]⟩], ofString [0x61]⟩, 4⟩ 0
        [0x2f, 0x61, 0x2f, 0x6b] = some [0x76] ∧
    configGetEntry ⟨fun
        | 0 => ⟨-1, true, [1, 2], [], ofString rootName⟩
        | 2 => ⟨0, true, [3], [], ofString []⟩
        | _ => ⟨0, true, [], [⟨ofString [0x6b], ofString [0x76]⟩], ofString [0x61]⟩, 4⟩ 0
        [0x2f, 0x61, 0x2f, 0x6b] =
      configSectionGetEntry ⟨fun
        | 0 => ⟨-1, true, [1, 2], [], ofString rootName⟩
        | 2 => ⟨0, true, [3], [], ofString []⟩
        | _ => ⟨0, true, [], [⟨ofString [0x6b], ofString [0x76]⟩], ofString [0x61]⟩, 4⟩ 0
        [0x2f, 0x61, 0x2f, 0x6b] :=
  ⟨by decide, ((@config_lookups_agree_iff _ 0 [[0x61], [0x6b]] (by decide)
    (by simp only [mem_cons, not_mem_nil, or_false, Component, forall_eq_or_imp, forall_eq]; decide)
    (by decide)).mpr (mirrors_iff.mpr (by decide))).1⟩

/-- Without the section that has no name, `/a/k` is found only from the section. -/
theorem config_get_entry_misses_path :
    configGetEntry ⟨fun
        | 0 => ⟨-1, true, [1], [], ofString rootName⟩
        | _ => ⟨0, true, [], [⟨ofString [0x6b], ofString [0x76]⟩], ofString [0x61]⟩, 2⟩ 0
        (joined [[0x61], [0x6b]]) = none ∧
    configSectionGetEntry ⟨fun
        | 0 => ⟨-1, true, [1], [], ofString rootName⟩
        | _ => ⟨0, true, [], [⟨ofString [0x6b], ofString [0x76]⟩], ofString [0x61]⟩, 2⟩ 0
        (joined [[0x61], [0x6b]]) = some [0x76] ∧
    lookup ⟨fun
        | 0 => ⟨-1, true, [1], [], ofString rootName⟩
        | _ => ⟨0, true, [], [⟨ofString [0x6b], ofString [0x76]⟩], ofString [0x61]⟩, 2⟩ 0
        [[0x61], [0x6b]] = some [0x76] := by
  decide

end PortableLib.ConfigFile
