import Mathlib.Data.List.DropRight
import PortableLib.Gstring.Gstr

/-! The parent of a path, `dirname`, worked out on a copy of the path in the caller's buffer. The
scans for the slashes never look at the first character. -/

namespace PortableLib.Dirname
open List Gstring

def slash : UInt8 := 0x2f

def dot : UInt8 := 0x2e

/-- `for (; s > buf; s--)` with a test of `*s` that leaves the loop; no place is found if the loop
comes to its end. -/
def scan (stop : UInt8 → Bool) (buf : Block UInt8) : Nat → Option (Option Nat)
  | 0 => some none
  | s + 1 => do
    let c ← buf.read (s + 1)
    if stop c then return some (s + 1)
    scan stop buf s

/-- The end of the function, from `slash:` on. -/
def rootOrDot (buf : Block UInt8) : Option (Option (Block UInt8)) := do
  let c ← buf.read 0
  let buf ← (if c ≠ slash then buf.write 0 dot else some buf)
  let buf ← buf.write 1 0
  return some buf

/-- From `found:` on, with the last component ending at `s`. -/
def found (buf : Block UInt8) (s : Nat) : Option (Option (Block UInt8)) := do
  let buf ← buf.write (s + 1) 0
  match ← scan (· = slash) buf s with
  | none => rootOrDot buf
  | some s =>
    let buf ← buf.write s 0
    return some buf

/-- `p` is without its terminator. The result may be the null pointer, and there is none after an
access outside the buffer. An empty path leaves both pointers before the buffer, where the loops end
as they do at its first character. -/
def dirname (buf : Block UInt8) (p : List UInt8) : Option (Option (Block UInt8)) := do
  let n := p.length
  if buf.len < n + 1 then return none
  let buf ← buf.copy 0 (cstr p) n
  let buf ← buf.write n 0
  match ← scan (· ≠ slash) buf (n - 1) with
  | none => rootOrDot buf
  | some s => found buf s

def stripSlashes (p : List UInt8) : List UInt8 := p.rdropWhile (· = slash)

def beforeLast (p : List UInt8) : List UInt8 := (stripSlashes p).rdropWhile (· ≠ slash)

/-- The parent: without the trailing slashes, the last component and the slashes before it. -/
def parent (p : List UInt8) : List UInt8 :=
  if p = [] then [dot]
  else if stripSlashes p = [] then [slash]
  else if beforeLast p = [] then [dot]
  else if stripSlashes (beforeLast p) = [] then [slash]
  else stripSlashes (beforeLast p)

example : parent [slash, 0x61, slash, 0x62, slash, slash] = [slash, 0x61] := by decide

/-- The buffer holds the string `s`. -/
def Holds (b : Block UInt8) (s : List UInt8) : Prop := b.first (s.length + 1) = some (s ++ [0])

/-- The null pointer for a buffer without room for the parent, and the parent in any other. -/
def Agrees (buf : Block UInt8) (p : List UInt8) : Prop :=
  if buf.len < (parent p).length + 1 then dirname buf p = some none
  else ∃ b, dirname buf p = some (some b) ∧ Holds b (parent p)

/-- At most one slash is before the last component, or two at the root. -/
def OneSlash (p : List UInt8) : Prop :=
  stripSlashes (beforeLast p) = (beforeLast p).dropLast ∨ (beforeLast p).length ≤ 2

variable {buf b : Block UInt8} {x c : UInt8} {p t s : List UInt8} {stop : UInt8 → Bool}

theorem rdropWhile_cons (f : UInt8 → Bool) (x : UInt8) (t : List UInt8) :
    (x :: t).rdropWhile f =
      if t.rdropWhile f = [] then (if f x then [] else [x]) else x :: t.rdropWhile f := by
  induction t using reverseRecOn with
  | nil => rw [rdropWhile_nil, if_pos rfl, rdropWhile_singleton]
  | append_singleton t c ih =>
    rw [← cons_append]
    by_cases hc : f c = true
    · rw [rdropWhile_concat_pos f _ c hc, rdropWhile_concat_pos f _ c hc, ih]
    · rw [rdropWhile_concat_neg f _ c hc, rdropWhile_concat_neg f _ c hc,
        if_neg (concat_ne_nil c t), cons_append]

theorem scan_spec (hcells : ∀ i < t.length, buf.cells (i + 1) = t.getD i 0)
    (hlen : t.length < buf.len) :
    scan stop buf t.length = some
      (if t.rdropWhile (fun c => !stop c) = [] then none
        else some (t.rdropWhile fun c => !stop c).length) := by
  induction t using reverseRecOn with
  | nil => rfl
  | append_singleton t c ih =>
    rw [length_append, length_singleton] at hcells hlen ⊢
    have hlast : buf.cells (t.length + 1) = c := by
      rw [hcells t.length (Nat.lt_succ_self _), getD_append_right _ _ _ _ (Nat.le_refl _),
        Nat.sub_self, getD_cons_zero]
    have hinit : ∀ i < t.length, buf.cells (i + 1) = t.getD i 0 := by
      intro i hi
      rw [hcells i (hi.trans (Nat.lt_succ_self _)), getD_append _ _ _ _ hi]
    rw [scan, Block.read_of_lt hlen, hlast, Option.bind_eq_bind, Option.bind_some]
    by_cases hstop : stop c = true
    · rw [if_pos hstop, rdropWhile_concat_neg _ _ _ (by simp [hstop]), if_neg (concat_ne_nil c t),
        length_append, length_singleton]
      rfl
    · rw [if_neg hstop, rdropWhile_concat_pos _ _ _ (by simp [hstop])]
      exact ih hinit (Nat.lt_of_succ_lt hlen)

/-- The buffer begins with the characters `l`. -/
structure Starts (b : Block UInt8) (l : List UInt8) : Prop where
  len_le : l.length ≤ b.len
  cells : ∀ i < l.length, b.cells i = l.getD i 0

theorem Starts.of_append {l r : List UInt8} (h : Starts b (l ++ r)) : Starts b l := by
  obtain ⟨hle, hcells⟩ := h
  rw [length_append] at hle hcells
  refine ⟨by omega, fun i hi => ?_⟩
  rw [hcells i (by omega), getD_append _ _ _ _ hi]

theorem Starts.write (h : Starts b s) {i : Nat} (hi : s.length ≤ i) (hlt : i < b.len) (c : UInt8) :
    ∃ b', b.write i c = some b' ∧ b'.len = b.len ∧ Starts b' s ∧ b'.cells i = c := by
  obtain ⟨b', hw, hlen, hself, hother⟩ := Block.write_spec hlt c
  refine ⟨b', hw, hlen, ⟨hlen ▸ h.len_le, fun j hj => ?_⟩, hself⟩
  rw [hother j (by omega), h.cells j hj]

theorem Starts.holds (h : Starts b s) (hlt : s.length < b.len) (hnul : b.cells s.length = 0) :
    Holds b s := by
  have hmap : (range s.length).map b.cells = s := by
    apply ext_getElem
    · rw [length_map, length_range]
    · intro i _ hi
      rw [getElem_map, getElem_range, h.cells i hi, getD_eq_getElem _ _ hi]
  rw [Holds, Block.first_of_le hlt, range_succ, map_append, hmap, map_singleton, hnul]

theorem rootOrDot_spec (h : Starts b [x]) (hlen : 2 ≤ b.len) :
    ∃ b', rootOrDot b = some (some b') ∧ Holds b' (if x = slash then [slash] else [dot]) := by
  have hzero : b.cells 0 = x := h.cells 0 Nat.one_pos
  have hpos : 0 < b.len := Nat.lt_of_lt_of_le Nat.two_pos hlen
  have hend : ∀ {b₁ : Block UInt8} {c : UInt8}, b₁.len = b.len → b₁.cells 0 = c →
      ∃ b', b₁.write 1 0 = some b' ∧ Holds b' [c] := by
    intro b₁ c hlen₁ hcell
    have hstart : Starts b₁ [c] := by
      refine ⟨by rw [length_singleton]; omega, fun i hi => ?_⟩
      rw [Nat.lt_one_iff.mp hi, hcell]
      rfl
    obtain ⟨b', hw, hlen', hstart', hnul⟩ := hstart.write (Nat.le_refl 1) (by omega) 0
    exact ⟨b', hw, hstart'.holds (by rw [length_singleton]; omega) hnul⟩
  rw [rootOrDot, Block.read_of_lt hpos, hzero]
  simp only [Option.bind_eq_bind, Option.bind_some]
  by_cases hx : x = slash
  · obtain ⟨b', hw, hholds⟩ := hend rfl (hzero.trans hx)
    rw [if_neg (not_not_intro hx), Option.bind_some, hw, if_pos hx]
    exact ⟨b', rfl, hholds⟩
  · obtain ⟨b₁, hw₁, hlen₁, hself, -⟩ := Block.write_spec hpos dot
    obtain ⟨b', hw, hholds⟩ := hend hlen₁ hself
    rw [if_pos hx, hw₁, Option.bind_some, hw, if_neg hx]
    exact ⟨b', rfl, hholds⟩

/-- What `dirname` leaves of a path that is not empty: one slash goes with the last component. -/
def cut (p : List UInt8) : List UInt8 :=
  if (beforeLast p).length ≤ 1 then (if p.headD 0 = slash then [slash] else [dot])
  else (beforeLast p).dropLast

theorem Starts.scan (h : Starts b (x :: t)) :
    scan stop b t.length = some
      (if t.rdropWhile (fun c => !stop c) = [] then none
        else some (t.rdropWhile fun c => !stop c).length) := by
  refine scan_spec (fun i hi => ?_) h.len_le
  rw [h.cells (i + 1) (Nat.succ_lt_succ hi), getD_cons_succ]

theorem copy_path (p : List UInt8) (hlen : p.length + 1 ≤ buf.len) :
    ∃ b₁ b, buf.copy 0 (cstr p) p.length = some b₁ ∧ b₁.write p.length 0 = some b ∧
      b.len = buf.len ∧ Starts b p ∧ b.cells p.length = 0 := by
  have hroom : 0 + p.length ≤ buf.len := by omega
  have hsrc : p.length ≤ (cstr p).len := Nat.le_succ _
  obtain ⟨b₁, hc, hlen₁, -, hcells⟩ := Block.copy_spec hroom hsrc
  have hstart : Starts b₁ p := by
    refine ⟨by omega, fun i hi => ?_⟩
    have hcell := hcells i hi
    rwa [Nat.zero_add] at hcell
  obtain ⟨b, hw, hlen₂, hstart₂, hnul⟩ := hstart.write (Nat.le_refl _) (by omega) 0
  exact ⟨b₁, b, hc, hw, hlen₂.trans hlen₁, hstart₂, hnul⟩

theorem found_spec (h : Starts b (x :: t)) (hlen : t.length + 1 < b.len) :
    ∃ b', found b t.length = some (some b') ∧
      Holds b' (if t.rdropWhile (· ≠ slash) = [] then (if x = slash then [slash] else [dot])
        else (x :: t.rdropWhile (· ≠ slash)).dropLast) := by
  obtain ⟨b₁, hw, hlen₁, hstart, -⟩ := h.write (Nat.le_refl _) hlen 0
  have hplain : (fun c : UInt8 => !decide (c = slash)) = fun c => decide (c ≠ slash) := by
    funext c
    rw [decide_not]
  rw [length_cons] at hw
  rw [found, hw, Option.bind_eq_bind, Option.bind_some, hstart.scan, hplain]
  by_cases hr : t.rdropWhile (· ≠ slash) = []
  · rw [if_pos hr, if_pos hr]
    exact rootOrDot_spec (Starts.of_append (r := t) hstart) (by omega)
  · rw [if_neg hr, if_neg hr]
    have hprefix : t.rdropWhile (· ≠ slash) <+: t := rdropWhile_prefix _ _
    have hle := hprefix.length_le
    obtain ⟨u, hu⟩ := hprefix
    have hcut : x :: t = (x :: t.rdropWhile (· ≠ slash)).dropLast ++
        ((x :: t.rdropWhile (· ≠ slash)).getLast (cons_ne_nil _ _) :: u) := by
      rw [← singleton_append (l := u), ← append_assoc, dropLast_concat_getLast, cons_append, hu]
    have hshort : (x :: t.rdropWhile (· ≠ slash)).dropLast.length =
        (t.rdropWhile (· ≠ slash)).length := by
      rw [length_dropLast, length_cons, Nat.add_sub_cancel]
    rw [hcut] at hstart
    obtain ⟨b₂, hw₂, hlen₂, hstart₂, hnul⟩ :=
      hstart.of_append.write hshort.le (by omega) 0
    rw [Option.bind_eq_bind, Option.bind_some]
    dsimp only
    rw [hw₂]
    exact ⟨b₂, rfl, hstart₂.holds (by omega) (hshort ▸ hnul)⟩

theorem stripSlashes_cons (x : UInt8) (t : List UInt8) :
    stripSlashes (x :: t) =
      if stripSlashes t = [] then (if x = slash then [] else [x]) else x :: stripSlashes t := by
  rw [stripSlashes, stripSlashes, rdropWhile_cons]
  simp only [decide_eq_true_eq]

theorem beforeLast_cons (x : UInt8) (t : List UInt8) :
    beforeLast (x :: t) =
      if stripSlashes t = [] then []
      else if beforeLast t = [] then (if x = slash then [x] else []) else x :: beforeLast t := by
  rw [beforeLast, stripSlashes_cons]
  by_cases hstrip : stripSlashes t = []
  · rw [if_pos hstrip, if_pos hstrip]
    split_ifs with hx
    · exact rdropWhile_nil _
    · rw [rdropWhile_singleton, if_pos (decide_eq_true hx)]
  · rw [if_neg hstrip, if_neg hstrip, rdropWhile_cons, ← beforeLast]
    simp only [decide_eq_true_eq, ite_not]

theorem dirname_cons (hlen : (x :: t).length + 1 ≤ buf.len) :
    ∃ b, dirname buf (x :: t) = some (some b) ∧ Holds b (cut (x :: t)) := by
  obtain ⟨b₁, b, hc, hw, hlenb, hstart, -⟩ := copy_path (x :: t) hlen
  have hplain : (fun c : UInt8 => !decide (c ≠ slash)) = fun c => decide (c = slash) := by
    funext c
    rw [decide_not, Bool.not_not]
  rw [dirname, if_neg (Nat.not_lt.mpr hlen)]
  simp only [Option.bind_eq_bind, hc, hw, Option.bind_some]
  rw [length_cons, Nat.add_sub_cancel, hstart.scan, hplain, ← stripSlashes, Option.bind_some, cut,
    beforeLast_cons, headD_cons]
  rw [length_cons] at hlen
  by_cases hstrip : stripSlashes t = []
  · rw [if_pos hstrip, if_pos hstrip, if_pos (show ([] : List UInt8).length ≤ 1 from Nat.zero_le 1)]
    exact rootOrDot_spec (Starts.of_append (r := t) hstart) (by omega)
  · rw [if_neg hstrip, if_neg hstrip]
    have hprefix : stripSlashes t <+: t := rdropWhile_prefix _ _
    have hshort : (stripSlashes t).length ≤ t.length := hprefix.length_le
    obtain ⟨u, hu⟩ := hprefix
    rw [← hu, ← cons_append] at hstart
    obtain ⟨b', hrun, hholds⟩ := found_spec hstart.of_append (by omega)
    rw [← beforeLast] at hholds
    refine ⟨b', hrun, ?_⟩
    by_cases hlast : beforeLast t = []
    · rw [if_pos hlast] at hholds ⊢
      rwa [if_pos (by split_ifs <;> simp)]
    · rw [if_neg hlast] at hholds ⊢
      have hpos : 0 < (beforeLast t).length := length_pos_iff.mpr hlast
      rwa [if_neg (by rw [length_cons]; omega)]

theorem beforeLast_prefix (p : List UInt8) : beforeLast p <+: p := by
  apply List.IsPrefix.trans
  · exact rdropWhile_prefix _ _
  · exact rdropWhile_prefix _ _

theorem beforeLast_eq_concat (h : beforeLast p ≠ []) :
    beforeLast p = (beforeLast p).dropLast ++ [slash] := by
  have hlast : (beforeLast p).getLast h = slash := by
    have hnot := rdropWhile_last_not _ _ h
    rw [decide_eq_true_eq, not_not] at hnot
    exact hnot
  rw [← hlast, dropLast_concat_getLast]

theorem headD_of_strip (h : stripSlashes p = []) (hp : p ≠ []) : p.headD 0 = slash := by
  obtain ⟨x, t, rfl⟩ := exists_cons_of_ne_nil hp
  exact of_decide_eq_true (rdropWhile_eq_nil_iff.mp h x mem_cons_self)

theorem headD_of_beforeLast (h : beforeLast p = []) (hstrip : stripSlashes p ≠ []) :
    p.headD 0 ≠ slash := by
  have hprefix : stripSlashes p <+: p := rdropWhile_prefix _ _
  obtain ⟨x, t, hq⟩ := exists_cons_of_ne_nil hstrip
  obtain ⟨u, hu⟩ := hprefix
  rw [← hu, hq, cons_append, headD_cons]
  have hx : x ∈ stripSlashes p := hq ▸ mem_cons_self
  exact of_decide_eq_true (rdropWhile_eq_nil_iff.mp h x hx)

theorem cut_eq_parent_iff (hp : p ≠ []) : cut p = parent p ↔ OneSlash p := by
  rw [cut, parent, if_neg hp, OneSlash]
  by_cases hstrip : stripSlashes p = []
  · have hnil : beforeLast p = [] := by
      rw [beforeLast, hstrip]
      rfl
    rw [if_pos hstrip, hnil, if_pos (show ([] : List UInt8).length ≤ 1 from Nat.zero_le 1),
      if_pos (headD_of_strip hstrip hp)]
    exact iff_of_true rfl (Or.inl rfl)
  by_cases hnil : beforeLast p = []
  · rw [if_neg hstrip, hnil, if_pos (show ([] : List UInt8).length ≤ 1 from Nat.zero_le 1),
      if_neg (headD_of_beforeLast hnil hstrip), if_pos rfl]
    exact iff_of_true rfl (Or.inl rfl)
  rw [if_neg hstrip, if_neg hnil]
  -- `r` with its last slash is what stands before the last component
  have hend := beforeLast_eq_concat hnil
  have hprefix := beforeLast_prefix p
  generalize (beforeLast p).dropLast = r at hend ⊢
  rw [hend] at hprefix ⊢
  have hstripped : stripSlashes (r ++ [slash]) = stripSlashes r :=
    rdropWhile_concat_pos _ _ _ (decide_eq_true rfl)
  rw [hstripped, length_append, length_singleton]
  rcases r with _ | ⟨x, _ | ⟨y, r⟩⟩
  · obtain ⟨u, hu⟩ := hprefix
    have hhead : p.headD 0 = slash := by
      rw [← hu]
      rfl
    rw [if_pos (show ([] : List UInt8).length + 1 ≤ 1 from Nat.le_refl 1), if_pos hhead]
    exact iff_of_true rfl (Or.inl rfl)
  -- one byte before that slash stays, a slash or not
  · rw [length_singleton, if_neg (by decide)]
    refine iff_of_true ?_ (Or.inr (Nat.le_refl 2))
    rw [stripSlashes, rdropWhile_singleton]
    by_cases hx : x = slash
    · simp [hx]
    · simp [hx]
  · have hlong : ¬ (x :: y :: r).length + 1 ≤ 2 := by
      rw [length_cons, length_cons]
      omega
    rw [if_neg fun hle => hlong (hle.trans (Nat.le_succ 1)), or_iff_left hlong]
    -- of the slashes at the end `cut` takes one, `parent` all
    by_cases hall : stripSlashes (x :: y :: r) = []
    · rw [if_pos hall, hall]
      exact iff_of_false (by simp) (by simp)
    · rw [if_neg hall]
      exact eq_comm

theorem rootOrDot_ne_null : rootOrDot b ≠ some none := by
  intro h
  obtain ⟨c, -, h⟩ := Option.bind_eq_some_iff.mp h
  obtain ⟨b₁, -, h⟩ := Option.bind_eq_some_iff.mp h
  obtain ⟨b₂, -, h⟩ := Option.bind_eq_some_iff.mp h
  cases h

theorem dirname_nil (hlen : 1 ≤ buf.len) :
    ∃ b, dirname buf [] = rootOrDot b ∧ b.len = buf.len ∧ Starts b [0] := by
  obtain ⟨b₁, b, hc, hw, hlenb, -, hnul⟩ := copy_path [] hlen
  have hstart : Starts b [0] := by
    refine ⟨hlenb ▸ hlen, fun i hi => ?_⟩
    rw [Nat.lt_one_iff.mp hi, getD_cons_zero]
    exact hnul
  refine ⟨b, ?_, hlenb, hstart⟩
  rw [dirname, if_neg (Nat.not_lt.mpr (show ([] : List UInt8).length + 1 ≤ buf.len from hlen))]
  simp only [Option.bind_eq_bind, hc, hw, Option.bind_some]
  rfl

/-- A buffer with room for the parent but not for the path is refused. -/
theorem dirname_refuses_room : ¬ Agrees ⟨4, fun _ => 0⟩ [slash, 0x61, slash, 0x62] := by
  rintro ⟨b, hrun, -⟩
  cases hrun

/-- The null pointer is for a buffer without room for the path. With room for it and for a dot, no
access is outside, and the parent of a path with one slash before its last component is stored. -/
theorem dirname_spec (buf : Block UInt8) (p : List UInt8) :
    (dirname buf p = some none ↔ buf.len < p.length + 1) ∧
      (p.length + 1 ≤ buf.len → 2 ≤ buf.len →
        ∃ b, dirname buf p = some (some b) ∧ (OneSlash p → Holds b (parent p))) := by
  constructor
  · constructor
    · intro hnull
      by_contra hlen
      have hroom := Nat.not_lt.mp hlen
      cases p with
      | nil =>
        obtain ⟨b, hrun, -⟩ := dirname_nil hroom
        exact rootOrDot_ne_null (hrun ▸ hnull)
      | cons x t =>
        obtain ⟨b, hrun, -⟩ := dirname_cons hroom
        rw [hrun] at hnull
        cases hnull
    · intro hlt
      exact if_pos hlt
  · intro hroom htwo
    cases p with
    | nil =>
      obtain ⟨b₀, hrun, hlen, hstart⟩ := dirname_nil hroom
      obtain ⟨b, hend, hholds⟩ := rootOrDot_spec hstart (hlen ▸ htwo)
      exact ⟨b, hrun.trans hend, fun _ => hholds⟩
    | cons x t =>
      obtain ⟨b, hrun, hholds⟩ := dirname_cons hroom
      exact ⟨b, hrun, fun hone => (cut_eq_parent_iff (cons_ne_nil x t)).mpr hone ▸ hholds⟩

theorem dirname_spec_two : ∃ b, dirname ⟨8, fun _ => 0⟩ [slash, 0x61, slash, 0x62] =
    some (some b) ∧ Holds b [slash, 0x61] := by
  obtain ⟨b, hrun, hholds⟩ :=
    (dirname_spec ⟨8, fun _ => 0⟩ [slash, 0x61, slash, 0x62]).2 (by decide) (by decide)
  exact ⟨b, hrun, hholds (by rw [OneSlash]; decide)⟩

end PortableLib.Dirname
