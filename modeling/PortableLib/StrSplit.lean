import PortableLib.Gstring.Gstr

/-! C strings are taken apart in place: `strtrim.c` and `strsplit.c`. A C string is the list of the
characters before its terminator. -/

namespace PortableLib.StrSplit
open List Gstring

/-- The copy loop of `strtrim`; `out` is what it has written, and the character at `strEnd` is the
last of it that is not a space. -/
def strtrimCopy : List UInt8 → List UInt8 → Nat → List UInt8
  | [], out, strEnd => out.take (strEnd + 1)
  | c :: str, out, strEnd =>
    strtrimCopy str (out ++ [c]) (if !isspace c then out.length else strEnd)

def strtrim : List UInt8 → List UInt8
  | [] => []
  | c :: str => if isspace c then strtrim str else strtrimCopy (c :: str) [] 0

/-- The bit array of `bits.h`, indexed by an `unsigned char`. -/
abbrev Delim : Type := UInt8 → Bool

def initDelim (tok : List UInt8) : Delim :=
  tok.foldl (fun d c => Function.update d c true) fun _ => false

/-- What `__split_sqz` works on: the characters, with a NUL where a delimiter was, and where the
strings begin that it has found. -/
structure Stra where
  buf : List UInt8
  arr : List Nat

/-- `a->arr[a->size++] = begin`, if `_stra_resize_if` finds room in an array of `n` entries. -/
def Stra.push (n : Nat) (a : Stra) (first : Nat) : Option Stra :=
  if a.arr.length + 1 ≤ n then some { a with arr := a.arr ++ [first] } else none

def splitSqzLoop (d : Delim) (n : Nat) :
    List UInt8 → Nat → Nat → UInt8 → Stra → Option (Stra × Nat)
  | [], _, first, _, a => some (a, first)
  | c :: rest, str, first, prevC, a =>
    if d c then splitSqzLoop d n rest (str + 1) first c { a with buf := a.buf.set str 0 }
    else if d prevC then do
      let a ← a.push n first
      splitSqzLoop d n rest (str + 1) str c a
    else splitSqzLoop d n rest (str + 1) first c a

def Stra.string (a : Stra) (first : Nat) : List UInt8 := (a.buf.drop first).takeWhile (· ≠ 0)

def splitSqz (d : Delim) (n : Nat) (str : List UInt8) : Option Stra := do
  let str := strtrim str
  let (a, first) ← splitSqzLoop d n str 0 0 0 ⟨str, []⟩
  if a.string first ≠ [] then a.push n first else return a

/-- `strsplit_quick` with `sqz_consec`: the strings in `strv`, or the result -1. -/
def strsplitQuick (n : Nat) (str tok : List UInt8) : Option (List (List UInt8)) :=
  (splitSqz (initDelim tok) n str).map fun a => a.arr.map a.string

theorem initDelim_apply (tok : List UInt8) (c : UInt8) : initDelim tok c = decide (c ∈ tok) := by
  have key : ∀ d : UInt8 → Bool,
      tok.foldl (fun d c => Function.update d c true) d c = (d c || decide (c ∈ tok)) := by
    induction tok with
    | nil => intro d; simp
    | cons x tok ih =>
      intro d
      rw [foldl_cons, ih]
      by_cases hx : c = x
      · simp [hx]
      · simp [hx]
  rw [initDelim, key, Bool.false_or]

theorem strtrimCopy_eq (m out : List UInt8) (e : Nat)
    (h : out = [] ∧ e = 0 ∧ (∀ c ∈ m.head?, isspace c = false) ∨
      e < out.length ∧ out.take (e + 1) = out.rdropWhile isspace) :
    strtrimCopy m out e = (out ++ m).rdropWhile isspace := by
  induction m generalizing out e with
  | nil =>
    rw [strtrimCopy, append_nil]
    rcases h with ⟨rfl, -, -⟩ | ⟨-, h⟩
    · exact take_nil
    · exact h
  | cons c m ih =>
    rw [strtrimCopy, ih (out ++ [c]), append_assoc, singleton_append]
    right
    cases hc : isspace c with
    | false =>
      have hlen : (out ++ [c]).length = out.length + 1 := length_append
      simp only [Bool.not_false, if_true]
      refine ⟨by omega, ?_⟩
      rw [rdropWhile_concat_neg _ _ _ (by rw [hc]; exact Bool.false_ne_true), ← hlen, take_length]
    | true =>
      simp only [Bool.not_true, Bool.false_eq_true, if_false]
      rcases h with ⟨-, -, hhead⟩ | ⟨hlt, htake⟩
      · rw [hhead c rfl] at hc
        cases hc
      · refine ⟨by rw [length_append]; omega, ?_⟩
        rw [rdropWhile_concat_pos _ _ _ hc, take_append_of_le_length hlt, htake]

theorem strtrim_eq (s : List UInt8) : strtrim s = trimmed s := by
  induction s with
  | nil => rfl
  | cons c s ih =>
    rw [strtrim, trimmed]
    by_cases hc : isspace c = true
    · rw [if_pos hc, dropWhile_cons_of_pos hc, ih, trimmed]
    · rw [if_neg hc, dropWhile_cons_of_neg hc]
      apply strtrimCopy_eq
      left
      refine ⟨rfl, rfl, fun c' hc' => ?_⟩
      obtain rfl := Option.some.inj hc'
      exact Bool.eq_false_iff.mpr hc

theorem mem_of_mem_rdropWhile {p : UInt8 → Bool} {x : UInt8} {s : List UInt8}
    (h : x ∈ s.rdropWhile p) : x ∈ s := by
  have hpre := rdropWhile_prefix p s
  exact hpre.subset h

theorem mem_of_mem_trimmed {x : UInt8} {s : List UInt8} (h : x ∈ trimmed s) : x ∈ s :=
  (dropWhile_sublist _).subset (mem_of_mem_rdropWhile h)

variable {d : Delim} {s t w : List UInt8}

def runs (d : Delim) : List UInt8 → List (List UInt8)
  | [] => []
  | c :: s =>
    if d c then runs d s else (c :: s.takeWhile (!d ·)) :: runs d (s.dropWhile (!d ·))
termination_by s => s.length
decreasing_by
  · exact Nat.lt_succ_self _
  · exact Nat.lt_succ_of_le (dropWhile_sublist _).length_le

theorem runs_nil : runs d [] = [] := by rw [runs]

theorem runs_cons_of_delim {c : UInt8} (hc : d c = true) : runs d (c :: s) = runs d s := by
  rw [runs, if_pos hc]

theorem runs_append (hw : w ≠ []) (hd : ∀ c ∈ w, d c = false) (hs : ∀ c ∈ s.head?, d c = true) :
    runs d (w ++ s) = w :: runs d s := by
  obtain ⟨c, w, rfl⟩ := exists_cons_of_ne_nil hw
  obtain ⟨hc, hw⟩ := forall_mem_cons.mp hd
  have hpos : ∀ x ∈ w, (!d x) = true := fun x hx => by rw [hw x hx]; rfl
  have hstop : s.takeWhile (!d ·) = [] ∧ s.dropWhile (!d ·) = s := by
    cases s with
    | nil => exact ⟨rfl, rfl⟩
    | cons x s =>
      have hx : ¬(!d x) = true := by rw [hs x rfl]; exact Bool.false_ne_true
      exact ⟨takeWhile_cons_of_neg hx, dropWhile_cons_of_neg hx⟩
  rw [cons_append, runs, if_neg (by rw [hc]; exact Bool.false_ne_true),
    takeWhile_append_of_pos hpos, dropWhile_append_of_pos hpos, hstop.1, hstop.2, append_nil]

theorem ne_nil_of_mem_runs (h : w ∈ runs d s) : w ≠ [] := by
  fun_induction runs d s with
  | case1 => cases h
  | case2 c s hc ih => exact ih h
  | case3 c s hc ih =>
    rcases mem_cons.mp h with rfl | h
    · exact cons_ne_nil _ _
    · exact ih h

def zeroed (d : Delim) (t : List UInt8) : List UInt8 := t.map fun c => if d c then 0 else c

theorem takeWhile_zeroed (h : 0 ∉ t) :
    (zeroed d t).takeWhile (· ≠ 0) = t.takeWhile (!d ·) := by
  induction t with
  | nil => rfl
  | cons c t ih =>
    have hc : c ≠ 0 := fun h0 => h (h0 ▸ mem_cons_self)
    have ih' := ih fun h0 => h (mem_cons_of_mem c h0)
    rw [zeroed] at ih' ⊢
    by_cases hd : d c = true
    · simp [hd]
    · rw [map_cons, if_neg hd, takeWhile_cons_of_pos (by simpa using hc), ih',
        takeWhile_cons_of_pos (by simpa using hd)]

/-- Where the words begin that the loop enters, and the last one, with `after` for a delimiter just
behind. -/
def marks (d : Delim) : List UInt8 → Nat → Nat → Bool → List Nat × Nat
  | [], _, first, _ => ([], first)
  | c :: rest, i, first, after =>
    if d c then marks d rest (i + 1) first true
    else if after then
      (first :: (marks d rest (i + 1) i false).1, (marks d rest (i + 1) i false).2)
    else marks d rest (i + 1) first false

theorem map_marks (rest pre : List UInt8) (h0 : 0 ∉ rest) (first : Nat) (after : Bool) :
    ((marks d rest pre.length first after).1 ++ [(marks d rest pre.length first after).2]).map
        (fun i => ((zeroed d (pre ++ rest)).drop i).takeWhile (· ≠ 0)) =
      ((zeroed d (pre ++ rest)).drop first).takeWhile (· ≠ 0) ::
        runs d (if after then rest else rest.dropWhile (!d ·)) := by
  induction rest generalizing pre first after with
  | nil =>
    rw [dropWhile_nil, ite_self, runs_nil]
    rfl
  | cons c rest ih =>
    have h0' : 0 ∉ rest := fun hx => h0 (mem_cons_of_mem c hx)
    have hpre : pre ++ c :: rest = (pre ++ [c]) ++ rest := append_cons pre c rest
    have hlen : pre.length + 1 = (pre ++ [c]).length := by rw [length_append, length_singleton]
    by_cases hc : d c = true
    · have hdrop : (c :: rest).dropWhile (!d ·) = c :: rest :=
        dropWhile_cons_of_neg (by rw [hc]; exact Bool.false_ne_true)
      rw [marks, if_pos hc, hlen, hpre, ih _ h0', if_pos rfl, hdrop, ite_self,
        runs_cons_of_delim hc]
    · have hdrop : (c :: rest).dropWhile (!d ·) = rest.dropWhile (!d ·) :=
        dropWhile_cons_of_pos (by rw [Bool.eq_false_iff.mpr hc]; rfl)
      cases after with
      | false =>
        rw [marks, if_neg hc, if_neg Bool.false_ne_true, hlen, hpre, ih _ h0',
          if_neg Bool.false_ne_true, if_neg Bool.false_ne_true, hdrop]
      | true =>
        -- the first character of a word: the one before it is entered
        have hmap : (zeroed d (pre ++ c :: rest)).drop pre.length = zeroed d (c :: rest) := by
          rw [zeroed, map_append]
          exact drop_left' (length_map _)
        have hword : ((zeroed d (pre ++ c :: rest)).drop pre.length).takeWhile (· ≠ 0) =
            c :: rest.takeWhile (!d ·) := by
          rw [hmap, takeWhile_zeroed h0, takeWhile_cons_of_pos]
          rw [Bool.eq_false_iff.mpr hc]
          rfl
        have hih := ih (pre ++ [c]) h0' pre.length false
        rw [← hpre, ← hlen, hword, if_neg Bool.false_ne_true] at hih
        rw [marks, if_neg hc, if_pos rfl, cons_append, map_cons, hih, if_pos rfl, runs, if_neg hc]

theorem set_zeroed {c : UInt8} (hc : d c = true) (pre rest : List UInt8) :
    (zeroed d pre ++ c :: rest).set pre.length 0 = zeroed d (pre ++ [c]) ++ rest := by
  rw [zeroed, zeroed, map_append, map_singleton, if_pos hc, append_assoc, singleton_append,
    set_append_right _ _ (by rw [length_map]), length_map, Nat.sub_self]
  rfl

theorem zeroed_concat {c : UInt8} (hc : ¬ d c = true) (pre rest : List UInt8) :
    zeroed d pre ++ c :: rest = zeroed d (pre ++ [c]) ++ rest := by
  rw [zeroed, zeroed, map_append, map_singleton, if_neg hc, append_assoc, singleton_append]

theorem splitSqzLoop_eq {n : Nat} (rest pre : List UInt8) (first : Nat) (prevC : UInt8)
    (arr : List Nat) (harr : arr.length ≤ n) :
    splitSqzLoop d n rest pre.length first prevC ⟨zeroed d pre ++ rest, arr⟩ =
      if arr.length + (marks d rest pre.length first (d prevC)).1.length ≤ n then
        some (⟨zeroed d (pre ++ rest), arr ++ (marks d rest pre.length first (d prevC)).1⟩,
          (marks d rest pre.length first (d prevC)).2)
      else none := by
  induction rest generalizing pre first prevC arr with
  | nil =>
    rw [splitSqzLoop, marks, append_nil, append_nil, append_nil]
    exact (if_pos harr).symm
  | cons c rest ih =>
    have hpre : pre ++ c :: rest = (pre ++ [c]) ++ rest := append_cons pre c rest
    have hlen : pre.length + 1 = (pre ++ [c]).length := by rw [length_append, length_singleton]
    by_cases hc : d c = true
    · rw [splitSqzLoop, if_pos hc, marks, if_pos hc]
      dsimp only
      rw [set_zeroed hc, hlen, ih _ first c arr harr, hpre, hc]
    · have hbuf := zeroed_concat hc pre rest
      by_cases hp : d prevC = true
      · rw [splitSqzLoop, if_neg hc, if_pos hp, marks, if_neg hc, if_pos hp]
        dsimp only
        by_cases hroom : arr.length + 1 ≤ n
        · have hih := ih (pre ++ [c]) pre.length c (arr ++ [first])
            (by rw [length_append, length_singleton]; exact hroom)
          rw [← hlen, length_append, length_singleton, Bool.eq_false_iff.mpr hc] at hih
          simp only [Stra.push, if_pos hroom, Option.bind_eq_bind, Option.bind_some]
          rw [hbuf, hih, hpre, length_cons, append_assoc arr, singleton_append, Nat.add_right_comm,
            Nat.add_assoc]
        · rw [Stra.push, if_neg hroom, if_neg (by rw [length_cons]; omega)]
          rfl
      · rw [splitSqzLoop, if_neg hc, if_neg hp, marks, if_neg hc, if_neg hp, hbuf, hlen,
          ih _ first c arr harr, hpre, Bool.eq_false_iff.mpr hc]

/-- What `__split_sqz` makes of a trimmed text: its words and, if it starts with a delimiter, an
empty string before them. -/
def squeezed (d : Delim) (t : List UInt8) : List (List UInt8) :=
  if t.all d then [] else t.takeWhile (!d ·) :: runs d (t.dropWhile (!d ·))

theorem runs_eq_nil_iff : runs d t = [] ↔ t.all d := by
  induction t with
  | nil => simp [runs]
  | cons c t ih =>
    by_cases hc : d c = true
    · rw [runs_cons_of_delim hc, ih, all_cons, hc, Bool.true_and]
    · simp [runs, hc]

theorem takeWhile_append_runs_getLast (ht : ¬t.all d) :
    (t.takeWhile (!d ·) :: runs d (t.dropWhile (!d ·))).getLast (cons_ne_nil _ _) ≠ [] := by
  by_cases hr : runs d (t.dropWhile (!d ·)) = []
  · -- without a second word the first one is not empty
    have hlast : (t.takeWhile (!d ·) :: runs d (t.dropWhile (!d ·))).getLast (cons_ne_nil _ _) =
        t.takeWhile (!d ·) := by
      simp only [hr, getLast_singleton]
    rw [hlast]
    intro hnil
    apply ht
    have heq := takeWhile_append_dropWhile (p := (!d ·)) (l := t)
    rw [hnil, nil_append] at heq
    rwa [heq, runs_eq_nil_iff] at hr
  · rw [getLast_cons hr]
    exact ne_nil_of_mem_runs (getLast_mem hr)

def stringAt (buf : List UInt8) (first : Nat) : List UInt8 := (buf.drop first).takeWhile (· ≠ 0)

theorem map_marks_all (h0 : 0 ∉ t) :
    ((marks d t 0 0 false).1 ++ [(marks d t 0 0 false).2]).map (stringAt (zeroed d t)) =
      t.takeWhile (!d ·) :: runs d (t.dropWhile (!d ·)) := by
  have hmap := map_marks (d := d) t [] h0 0 false
  rw [nil_append, length_nil, drop_zero, takeWhile_zeroed h0, if_neg Bool.false_ne_true] at hmap
  exact hmap

theorem stringAt_last (h0 : 0 ∉ t) :
    stringAt (zeroed d t) (marks d t 0 0 false).2 = [] ↔ t.all d = true := by
  have hlast : stringAt (zeroed d t) (marks d t 0 0 false).2 =
      (t.takeWhile (!d ·) :: runs d (t.dropWhile (!d ·))).getLast (cons_ne_nil _ _) := by
    simp only [← map_marks_all h0, map_append, map_singleton, getLast_append_singleton]
  rw [hlast]
  constructor
  · intro h
    by_contra ht
    exact takeWhile_append_runs_getLast ht h
  · intro ht
    have hdrop : t.dropWhile (!d ·) = t := by
      cases t with
      | nil => rfl
      | cons c t =>
        rw [all_cons, Bool.and_eq_true] at ht
        exact dropWhile_cons_of_neg (by rw [ht.1]; exact Bool.false_ne_true)
    have htake : t.takeWhile (!d ·) = [] := by
      have heq := takeWhile_append_dropWhile (p := (!d ·)) (l := t)
      rw [hdrop] at heq
      exact append_left_eq_self.mp heq
    simp only [hdrop, htake, runs_eq_nil_iff.mpr ht, getLast_singleton]

/-- Where the strings begin that `__split_sqz` enters. -/
def entered (d : Delim) (t : List UInt8) : List Nat :=
  if t.all d then [] else (marks d t 0 0 false).1 ++ [(marks d t 0 0 false).2]

theorem map_entered (h0 : 0 ∉ t) : (entered d t).map (stringAt (zeroed d t)) = squeezed d t := by
  rw [entered, squeezed]
  by_cases ht : t.all d = true
  · rw [if_pos ht, if_pos ht, map_nil]
  · rw [if_neg ht, if_neg ht, map_marks_all h0]

theorem marks_of_all (h0 : 0 ∉ t) (ht : t.all d = true) : (marks d t 0 0 false).1 = [] := by
  have hlen := congrArg List.length (map_marks_all (d := d) h0)
  have hruns : runs d (t.dropWhile (!d ·)) = [] :=
    runs_eq_nil_iff.mpr (all_eq_true.mpr fun c hc =>
      all_eq_true.mp ht c ((dropWhile_sublist _).subset hc))
  rw [hruns, length_map, length_append, length_singleton, length_singleton] at hlen
  exact length_eq_zero_iff.mp (by omega)

theorem splitSqz_eq {n : Nat} {str : List UInt8} (hstr : 0 ∉ str) (hd0 : d 0 = false) :
    splitSqz d n str = if (entered d (trimmed str)).length ≤ n then
      some ⟨zeroed d (trimmed str), entered d (trimmed str)⟩ else none := by
  have h0 : 0 ∉ trimmed str := fun hx => hstr (mem_of_mem_trimmed hx)
  have hloop := splitSqzLoop_eq (n := n) (d := d) (trimmed str) [] 0 0 [] (Nat.zero_le n)
  rw [hd0, length_nil, length_nil, Nat.zero_add, nil_append, nil_append] at hloop
  have hloop' : splitSqzLoop d n (trimmed str) 0 0 0 ⟨trimmed str, []⟩ = _ := hloop
  have hlast : ∀ arr, Stra.string ⟨zeroed d (trimmed str), arr⟩
      (marks d (trimmed str) 0 0 false).2 = [] ↔ (trimmed str).all d = true :=
    fun _ => stringAt_last h0
  rw [splitSqz, strtrim_eq]
  simp only [hloop']
  by_cases ht : (trimmed str).all d = true
  · have hnone := marks_of_all h0 ht
    rw [entered, if_pos ht, hnone, length_nil, if_pos (Nat.zero_le n), if_pos (Nat.zero_le n)]
    simp only [Option.bind_eq_bind, Option.bind_some]
    rw [if_neg (not_not.mpr ((hlast _).mpr ht))]
    rfl
  · rw [entered, if_neg ht, length_append, length_singleton]
    by_cases hroom : (marks d (trimmed str) 0 0 false).1.length + 1 ≤ n
    · rw [if_pos (by omega), if_pos hroom]
      simp only [Option.bind_eq_bind, Option.bind_some]
      rw [if_pos ((hlast _).not.mpr ht), Stra.push, if_pos hroom]
    · rw [if_neg hroom]
      by_cases hfull : (marks d (trimmed str) 0 0 false).1.length ≤ n
      · rw [if_pos hfull]
        simp only [Option.bind_eq_bind, Option.bind_some]
        rw [if_pos ((hlast _).not.mpr ht), Stra.push, if_neg hroom]
      · rw [if_neg hfull]
        rfl

theorem strsplitQuick_eq {n : Nat} {str tok : List UInt8} (hstr : 0 ∉ str) (htok : 0 ∉ tok) :
    strsplitQuick n str tok =
      if (squeezed (initDelim tok) (trimmed str)).length ≤ n then
        some (squeezed (initDelim tok) (trimmed str))
      else none := by
  have h0 : 0 ∉ trimmed str := fun hx => hstr (mem_of_mem_trimmed hx)
  have hd0 : initDelim tok 0 = false := by
    rw [initDelim_apply]
    exact decide_eq_false htok
  rw [strsplitQuick, splitSqz_eq hstr hd0, ← map_entered h0, length_map]
  split <;> rfl

end PortableLib.StrSplit
