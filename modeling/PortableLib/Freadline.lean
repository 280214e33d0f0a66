import Mathlib.Data.List.TakeWhile
import PortableLib.Errno
import PortableLib.Lib.Block

/-! Reading a stream line by line, `freadline`. The terminator of a line is stored without a look at
the end of the buffer, and the end of the stream gives up what has been read of the last line. -/

namespace PortableLib.Freadline
open List

/-- What is left of the stream, and `errno` if its error indicator is set. -/
structure Stream where
  rest : List UInt8
  error : Option Errno

structure Call where
  result : Except Errno Nat
  buf : Block UInt8
  fp : Stream

def cr : UInt8 := 0x0d

def lf : UInt8 := 0x0a

/-- The look at the character after a `\r`. -/
def skipLf : List UInt8 → List UInt8
  | [] => []
  | next :: fp => if next = lf then fp else next :: fp

/-- `*str = 0` and the return; `str` counts the characters stored. -/
def finish (str : Nat) (buf : Block UInt8) (fp : Stream) : Option Call := do
  let buf ← buf.write str 0
  return ⟨.ok str, buf, fp⟩

@[simp] def readLoop (error : Option Errno) (n : Nat) :
    List UInt8 → Nat → Block UInt8 → Option Call
  | [], _, buf => some ⟨.ok 0, buf, ⟨[], error⟩⟩
  | c :: fp, str, buf =>
    match error with
    | some errno => some ⟨.error errno, buf, ⟨fp, error⟩⟩
    | none =>
      if c = cr then finish str buf ⟨skipLf fp, error⟩
      else if c = lf then finish str buf ⟨fp, error⟩
      else if str = n then some ⟨.error .enospc, buf, ⟨fp, error⟩⟩
      else do
        let buf ← buf.write str c
        readLoop error n fp (str + 1) buf

def freadline (fp : Stream) (str : Block UInt8) (n : Nat) : Option Call :=
  readLoop fp.error n fp.rest 0 str

@[simp] def calls (n : Nat) : Nat → Stream → Block UInt8 → Option (List (Stream × Call))
  | 0, _, _ => some []
  | k + 1, fp, str => do
    let c ← freadline fp str n
    let cs ← calls n k c.fp c.buf
    return (fp, c) :: cs

def readAll (n : Nat) (cells : Nat → UInt8) (input : List UInt8) : Option (List (Stream × Call)) :=
  calls n (input.length + 1) ⟨input, none⟩ ⟨n, cells⟩

/-! ## The lines of a stream -/

def Plain (c : UInt8) : Prop := c ≠ cr ∧ c ≠ lf

instance : DecidablePred Plain := fun c => inferInstanceAs (Decidable (c ≠ cr ∧ c ≠ lf))

def lineAt (rest : List UInt8) : List UInt8 := rest.takeWhile (Plain ·)

def next : List UInt8 → List UInt8
  | [] => []
  | c :: cs => if c = cr then skipLf cs else if c = lf then cs else next cs

def puts (u : List UInt8) : List (List UInt8) × List UInt8 → List (List UInt8) × List UInt8
  | ([], last) => ([], u ++ last)
  | (l :: ls, last) => ((u ++ l) :: ls, last)

/-- The lines with a terminator, CR, LF or CRLF, and what follows the last of them. The flag is set
after a CR. -/
@[simp] def lines : Bool → List UInt8 → List (List UInt8) × List UInt8
  | _, [] => ([], [])
  | afterCr, c :: cs =>
    if c = lf then
      if afterCr then lines false cs else ([] :: (lines false cs).1, (lines false cs).2)
    else if c = cr then ([] :: (lines true cs).1, (lines true cs).2)
    else puts [c] (lines false cs)

def Room (n : Nat) (l : List UInt8) : Prop := l ≠ [] ∧ l.length < n

instance (n : Nat) : DecidablePred (Room n) :=
  fun l => inferInstanceAs (Decidable (l ≠ [] ∧ l.length < n))

def short (n : Nat) (ls : List (List UInt8) × List UInt8) : List (List UInt8) :=
  (ls.1 ++ [ls.2]).filter (Room n ·)

def Call.line (c : Call) : Option (List UInt8) :=
  match c.result with
  | .ok (k + 1) => c.buf.first (k + 1)
  | _ => none

def handed (cs : List (Stream × Call)) : List (List UInt8) := cs.filterMap fun c => c.2.line

def Call.held (c : Call) : Option (List UInt8) :=
  match c.result with
  | .ok k => c.buf.first k
  | .error _ => c.buf.first c.buf.len

def taken (c : Stream × Call) : List UInt8 :=
  c.1.rest.take (c.1.rest.length - c.2.fp.rest.length)

/-- The lines that have room come back in order, and no others; `-ENOSPC` is for longer ones only;
and of a line without a terminator nothing is taken that the caller does not find. -/
structure Delivers (n : Nat) (input : List UInt8) (cs : List (Stream × Call)) : Prop where
  lines : handed cs = short n (lines false input)
  enospc : ∀ c ∈ cs, c.2.result = .error .enospc → n ≤ (lineAt c.1.rest).length
  kept : ∀ c ∈ cs, lineAt c.1.rest = c.1.rest → c.2.held = some (taken c)

def ReturnsLines (n : Nat) (cells : Nat → UInt8) (input : List UInt8) : Prop :=
  ∃ cs, readAll n cells input = some cs ∧ Delivers n input cs

/-- A line has room, or `-ENOSPC` after `-ENOSPC`, each of which takes `n + 1` characters, leaves
nothing of it; and the stream ends with a terminator. -/
def Fits (n : Nat) (input : List UInt8) : Prop :=
  (∀ l ∈ (lines false input).1, l.length < n ∨ 0 < n ∧ l.length % (n + 1) = 0) ∧
    (lines false input).2 = []

variable {n k : Nat} {rest u fp : List UInt8} {buf : Block UInt8} {c : UInt8}

theorem lines_true (fp : List UInt8) : lines true fp = lines false (skipLf fp) := by
  cases fp with
  | nil => rfl
  | cons c fp =>
    by_cases hlf : c = lf
    · rw [skipLf, if_pos hlf, lines, if_pos hlf, if_pos rfl]
    · rw [skipLf, if_neg hlf, lines, lines, if_neg hlf, if_neg hlf]

theorem puts_puts (u v : List UInt8) (p : List (List UInt8) × List UInt8) :
    puts u (puts v p) = puts (u ++ v) p := by
  obtain ⟨ls, last⟩ := p
  cases ls with
  | nil => simp only [puts, append_assoc]
  | cons l ls => simp only [puts, append_assoc]

theorem puts_nil (p : List (List UInt8) × List UInt8) : puts [] p = p := by
  obtain ⟨ls, last⟩ := p
  cases ls with
  | nil => rfl
  | cons l ls => rfl

theorem lines_append (hu : ∀ c ∈ u, Plain c) (rest : List UInt8) :
    lines false (u ++ rest) = puts u (lines false rest) := by
  induction u with
  | nil => rw [nil_append, puts_nil]
  | cons c u ih =>
    obtain ⟨⟨hcr, hlf⟩, hu⟩ := forall_mem_cons.mp hu
    rw [cons_append, lines, if_neg hlf, if_neg hcr, ih hu, puts_puts, singleton_append]

theorem lineAt_cons (hc : Plain c) (fp : List UInt8) : lineAt (c :: fp) = c :: lineAt fp :=
  takeWhile_cons_of_pos (decide_eq_true hc)

theorem lineAt_stop (hc : ¬ Plain c) (fp : List UInt8) : lineAt (c :: fp) = [] :=
  takeWhile_cons_of_neg (mt of_decide_eq_true hc)

theorem next_cons (hc : Plain c) (fp : List UInt8) : next (c :: fp) = next fp := by
  rw [next, if_neg hc.1, if_neg hc.2]

theorem plain_of_lineAt (rest : List UInt8) : ∀ c ∈ lineAt rest, Plain c := by
  intro c hc
  have hplain := mem_takeWhile_imp hc
  exact of_decide_eq_true hplain

theorem lines_last (h : lineAt rest = rest) : lines false rest = ([], rest) := by
  induction rest with
  | nil => rfl
  | cons c fp ih =>
    by_cases hc : Plain c
    · rw [lineAt_cons hc] at h
      rw [lines, if_neg hc.2, if_neg hc.1, ih (cons.inj h).2]
      rfl
    · rw [lineAt_stop hc] at h
      cases h

theorem lines_next (h : lineAt rest ≠ rest) :
    lines false rest =
      (lineAt rest :: (lines false (next rest)).1, (lines false (next rest)).2) := by
  induction rest with
  | nil => exact absurd rfl h
  | cons c fp ih =>
    by_cases hc : Plain c
    · rw [lineAt_cons hc] at h ⊢
      rw [next_cons hc, lines, if_neg hc.2, if_neg hc.1, ih fun heq => h (by rw [heq])]
      rfl
    · rw [lineAt_stop hc, lines, next]
      by_cases hlf : c = lf
      · have hcr : c ≠ cr := by
          rw [hlf]
          decide
        rw [if_pos hlf, if_neg hcr, if_pos hlf]
        rfl
      · have hcr : c = cr := by
          by_contra hcr
          exact hc ⟨hcr, hlf⟩
        rw [if_neg hlf, if_pos hcr, if_pos hcr, lines_true]

/-! ## One call -/

theorem readLoop_full (hk : k ≤ n) (hb : buf.len = n) (h : n < k + (lineAt rest).length) :
    ∃ c, readLoop none n rest k buf = some c ∧ c.result = .error .enospc ∧
      c.fp = ⟨rest.drop (n - k + 1), none⟩ ∧ c.buf.len = n := by
  induction rest generalizing k buf with
  | nil => exact absurd h (Nat.not_lt.mpr hk)
  | cons c fp ih =>
    by_cases hc : Plain c
    · rw [readLoop]
      rw [if_neg hc.1, if_neg hc.2]
      by_cases hfull : k = n
      · rw [if_pos hfull]
        refine ⟨_, rfl, rfl, ?_, hb⟩
        rw [hfull, Nat.sub_self, drop_succ_cons, drop_zero]
      · have hlt : k < n := lt_of_le_of_ne hk hfull
        rw [lineAt_cons hc, length_cons] at h
        rw [if_neg hfull, Block.write_of_lt (hb.symm ▸ hlt), Option.bind_eq_bind, Option.bind_some]
        obtain ⟨r, hr, hres, hfp, hlen⟩ :=
          @ih (k + 1) { buf with cells := Function.update buf.cells k c } hlt hb (by omega)
        refine ⟨r, hr, hres, ?_, hlen⟩
        rw [hfp, show n - k + 1 = n - (k + 1) + 1 + 1 by omega, drop_succ_cons]
    · rw [lineAt_stop hc] at h
      exact absurd h (Nat.not_lt.mpr hk)

theorem readLoop_last (hb : buf.len = n) (h : k + rest.length ≤ n) (hlast : lineAt rest = rest) :
    ∃ c, readLoop none n rest k buf = some c ∧ c.result = .ok 0 ∧ c.fp = ⟨[], none⟩ ∧
      c.buf.len = n := by
  induction rest generalizing k buf with
  | nil => exact ⟨_, rfl, rfl, rfl, hb⟩
  | cons c fp ih =>
    by_cases hc : Plain c
    · rw [lineAt_cons hc] at hlast
      rw [length_cons] at h
      have hlt : k < n := by omega
      rw [readLoop]
      rw [if_neg hc.1, if_neg hc.2, if_neg hlt.ne, Block.write_of_lt (hb.symm ▸ hlt),
        Option.bind_eq_bind, Option.bind_some]
      exact ih hb (by omega) (cons.inj hlast).2
    · rw [lineAt_stop hc] at hlast
      cases hlast

theorem readLoop_line (hb : buf.len = n) (h : k + (lineAt rest).length ≤ n)
    (hterm : lineAt rest ≠ rest) :
    ∃ b, b.len = n ∧
      (range (k + (lineAt rest).length)).map b.cells = (range k).map buf.cells ++ lineAt rest ∧
      readLoop none n rest k buf = finish (k + (lineAt rest).length) b ⟨next rest, none⟩ := by
  induction rest generalizing k buf with
  | nil => exact absurd rfl hterm
  | cons c fp ih =>
    by_cases hc : Plain c
    · rw [lineAt_cons hc] at h hterm ⊢
      rw [length_cons] at h ⊢
      have hlt : k < n := by omega
      rw [readLoop]
      rw [if_neg hc.1, if_neg hc.2, if_neg hlt.ne, Block.write_of_lt (hb.symm ▸ hlt),
        Option.bind_eq_bind, Option.bind_some, next_cons hc]
      obtain ⟨b, hlen, hcells, hrun⟩ :=
        @ih (k + 1) { buf with cells := Function.update buf.cells k c } hb (by omega)
          fun heq => hterm (by rw [heq])
      have hk : k + 1 + (lineAt fp).length = k + ((lineAt fp).length + 1) := by omega
      rw [hk] at hcells hrun
      refine ⟨b, hlen, hcells.trans ?_, hrun⟩
      have hbelow : (range k).map (Function.update buf.cells k c) = (range k).map buf.cells :=
        map_range_congr fun i hi => Function.update_of_ne hi.ne c buf.cells
      dsimp only
      rw [range_succ, map_append, hbelow, map_singleton, Function.update_self, append_assoc,
        singleton_append]
    · rw [lineAt_stop hc, length_nil, Nat.add_zero, append_nil]
      refine ⟨buf, hb, rfl, ?_⟩
      rw [readLoop, next]
      by_cases hcr : c = cr
      · rw [if_pos hcr, if_pos hcr]
      · have hlf : c = lf := by
          by_contra hlf
          exact hc ⟨hcr, hlf⟩
        rw [if_neg hcr, if_neg hcr, if_pos hlf, if_pos hlf]

inductive Outcome (n : Nat) (rest : List UInt8) : Option Call → Prop
  | full {c : Call} (hlen : n < (lineAt rest).length) (hres : c.result = .error .enospc)
      (hfp : c.fp = ⟨rest.drop (n + 1), none⟩) (hbuf : c.buf.len = n) : Outcome n rest (some c)
  | last {c : Call} (hlast : lineAt rest = rest) (hlen : rest.length ≤ n) (hres : c.result = .ok 0)
      (hfp : c.fp = ⟨[], none⟩) (hbuf : c.buf.len = n) : Outcome n rest (some c)
  | line {c : Call} (hterm : lineAt rest ≠ rest) (hlen : (lineAt rest).length < n)
      (hres : c.result = .ok (lineAt rest).length) (hfp : c.fp = ⟨next rest, none⟩)
      (hbuf : c.buf.len = n) (hline : c.buf.first (lineAt rest).length = some (lineAt rest)) :
      Outcome n rest (some c)
  | outside (hterm : lineAt rest ≠ rest) (hlen : (lineAt rest).length = n) : Outcome n rest none

theorem freadline_outcome (hb : buf.len = n) (rest : List UInt8) :
    Outcome n rest (freadline ⟨rest, none⟩ buf n) := by
  rw [freadline]
  dsimp only
  by_cases hfull : n < (lineAt rest).length
  · obtain ⟨c, hrun, hres, hfp, hlen⟩ :=
      readLoop_full (Nat.zero_le n) hb (hfull.trans_eq (Nat.zero_add _).symm)
    rw [hrun]
    exact .full hfull hres hfp hlen
  have hle : 0 + (lineAt rest).length ≤ n := by omega
  by_cases hlast : lineAt rest = rest
  · rw [hlast] at hle
    obtain ⟨c, hrun, hres, hfp, hlen⟩ := readLoop_last hb hle hlast
    rw [hrun]
    exact .last hlast (by omega) hres hfp hlen
  · obtain ⟨b, hlen, hcells, hrun⟩ := readLoop_line hb hle hlast
    rw [Nat.zero_add] at hcells hrun hle
    rw [hrun, finish]
    rcases hle.lt_or_eq with hlt | heq
    · rw [Block.write_of_lt (hlen.symm ▸ hlt), Option.bind_eq_bind, Option.bind_some]
      refine .line hlast hlt rfl rfl hlen ?_
      rw [Block.first_of_le (hlen.symm ▸ hle)]
      refine congrArg some (Eq.trans ?_ hcells)
      exact map_range_congr fun i hi => Function.update_of_ne hi.ne 0 b.cells
    · rw [Block.write, if_neg (by rw [hlen]; omega), Option.bind_eq_bind, Option.bind_none]
      exact .outside hlast heq

theorem length_next (h : rest ≠ []) : (next rest).length < rest.length := by
  have hskip : ∀ fp : List UInt8, (skipLf fp).length ≤ fp.length := by
    intro fp
    cases fp with
    | nil => exact Nat.le_refl 0
    | cons c fp =>
      rw [skipLf]
      split_ifs
      · exact Nat.le_succ _
      · exact Nat.le_refl _
  induction rest with
  | nil => exact absurd rfl h
  | cons c fp ih =>
    rw [next, length_cons]
    split_ifs
    · exact Nat.lt_succ_of_le (hskip fp)
    · exact Nat.lt_succ_self _
    · by_cases hfp : fp = []
      · rw [hfp, next]
        exact Nat.succ_pos _
      · exact (ih hfp).trans (Nat.lt_succ_self _)

/-! ## All the calls -/

structure Pieces (n : Nat) (u : List UInt8) : Prop where
  plain : ∀ c ∈ u, Plain c
  full : u.length % (n + 1) = 0

theorem pieces_nil (n : Nat) : Pieces n [] := ⟨fun _ hc => absurd hc not_mem_nil, Nat.zero_mod _⟩

theorem Pieces.eq_nil (hu : Pieces n u) (h : u.length ≤ n) : u = [] := by
  have hfull := hu.full
  rw [Nat.mod_eq_of_lt (Nat.lt_succ_of_le h)] at hfull
  exact length_eq_zero_iff.mp hfull

theorem Pieces.mod_eq (hu : Pieces n u) (v : List UInt8) :
    (u ++ v).length % (n + 1) = v.length % (n + 1) := by
  rw [length_append, Nat.add_mod, hu.full, Nat.zero_add, Nat.mod_mod]

theorem Pieces.room_iff (hu : Pieces n u) {v : List UInt8} (hv : v.length < n) :
    ((u ++ v).length < n ∨ 0 < n ∧ (u ++ v).length % (n + 1) = 0) ↔ u = [] ∨ v = [] := by
  rw [hu.mod_eq, Nat.mod_eq_of_lt (hv.trans (Nat.lt_succ_self n)), length_eq_zero_iff]
  constructor
  · rintro (hlt | ⟨-, hnil⟩)
    · rw [length_append] at hlt
      exact .inl (hu.eq_nil (by omega))
    · exact .inr hnil
  · rintro (rfl | hnil)
    · exact .inl hv
    · exact .inr ⟨Nat.zero_lt_of_lt hv, hnil⟩

theorem append_take_drop (u rest : List UInt8) (n : Nat) :
    u ++ rest.take n ++ rest.drop n = u ++ rest := by
  rw [append_assoc, take_append_drop]

theorem Pieces.append (hu : Pieces n u) (h : n < (lineAt rest).length) :
    Pieces n (u ++ rest.take (n + 1)) := by
  have hprefix : lineAt rest <+: rest := takeWhile_prefix _
  have htake : rest.take (n + 1) = (lineAt rest).take (n + 1) :=
    (prefix_iff_eq_take.mp hprefix) ▸ by rw [take_take, Nat.min_eq_left h]
  rw [htake]
  constructor
  · intro c hc
    rcases mem_append.mp hc with hc | hc
    · exact hu.plain c hc
    · exact plain_of_lineAt rest c (mem_of_mem_take hc)
  · rw [length_append, length_take, Nat.min_eq_left h, Nat.add_mod_right, hu.full]

theorem fits_last (hu : Pieces n u) (h : lineAt rest = rest) :
    Fits n (u ++ rest) ↔ u = [] ∧ rest = [] := by
  simp only [Fits, lines_append hu.plain, lines_last h, puts, not_mem_nil, false_imp_iff,
    forall_const, true_and, append_eq_nil_iff]

theorem fits_next (hu : Pieces n u) (h : lineAt rest ≠ rest) :
    Fits n (u ++ rest) ↔ ((u ++ lineAt rest).length < n ∨
      0 < n ∧ (u ++ lineAt rest).length % (n + 1) = 0) ∧ Fits n (next rest) := by
  simp only [Fits, lines_append hu.plain, lines_next h, puts, forall_mem_cons, and_assoc]

theorem short_next (hu : Pieces n u) (h : lineAt rest ≠ rest) :
    short n (lines false (u ++ rest)) =
      if Room n (u ++ lineAt rest) then (u ++ lineAt rest) :: short n (lines false (next rest))
      else short n (lines false (next rest)) := by
  rw [lines_append hu.plain, lines_next h, puts, short, short, cons_append, filter_cons]
  exact if_congr decide_eq_true_iff rfl rfl

theorem short_next_of_ne (hu : Pieces n u) (hne : u ≠ []) (h : lineAt rest ≠ rest) :
    short n (lines false (u ++ rest)) = short n (lines false (next rest)) := by
  rw [short_next hu h, if_neg]
  rintro ⟨-, hlt⟩
  rw [length_append] at hlt
  exact hne (hu.eq_nil (by omega))

theorem short_next_sublist (h : lineAt rest ≠ rest) :
    (short n (lines false (next rest))).Sublist (short n (lines false rest)) := by
  have hnext := short_next (pieces_nil n) h
  rw [nil_append, nil_append] at hnext
  rw [hnext]
  split_ifs
  · exact sublist_cons_self _ _
  · exact Sublist.refl _

theorem fits_nil : Fits n [] := ⟨fun _ hl => absurd hl not_mem_nil, rfl⟩

theorem short_nil (n : Nat) : short n (lines false []) = [] :=
  filter_eq_nil_iff.mpr fun l hl hroom => by
    rw [mem_singleton.mp hl] at hroom
    exact (of_decide_eq_true hroom).1 rfl

variable {call : Call} {cs : List (Stream × Call)}

theorem Outcome.step (h : Outcome n rest (some call)) :
    call.fp = ⟨call.fp.rest, none⟩ ∧ call.buf.len = n ∧ call.fp.rest.length ≤ rest.length - 1 := by
  cases h with
  | full hlen hres hfp hbuf =>
    rw [hfp, length_drop]
    exact ⟨rfl, hbuf, by omega⟩
  | last hlast hlen hres hfp hbuf =>
    rw [hfp]
    exact ⟨rfl, hbuf, Nat.zero_le _⟩
  | line hterm hlen hres hfp hbuf hline =>
    have hnext := length_next fun hnil : rest = [] => hterm (by rw [hnil]; rfl)
    rw [hfp]
    exact ⟨rfl, hbuf, Nat.le_sub_one_of_lt hnext⟩

theorem Outcome.enospc (h : Outcome n rest (some call)) (herr : call.result = .error .enospc) :
    n ≤ (lineAt rest).length := by
  cases h with
  | full hlen hres hfp hbuf => exact hlen.le
  | last hlast hlen hres hfp hbuf =>
    rw [hres] at herr
    cases herr
  | line hterm hlen hres hfp hbuf hline =>
    rw [hres] at herr
    cases herr

theorem Outcome.kept_iff (h : Outcome n rest (some call)) (hlast : lineAt rest = rest) :
    call.held = some (taken (⟨rest, none⟩, call)) ↔ rest = [] := by
  cases h with
  | full hlen hres hfp hbuf =>
    rw [hlast] at hlen
    refine iff_of_false (fun heq => ?_) (ne_nil_of_length_pos (Nat.zero_lt_of_lt hlen))
    rw [Call.held, hres, taken, hfp] at heq
    dsimp only at heq
    rw [Block.first_of_le (Nat.le_refl _)] at heq
    have hsame := congrArg length (Option.some.inj heq)
    rw [length_map, length_range, length_take, length_drop] at hsame
    omega
  | last _ hlen hres hfp hbuf =>
    rw [Call.held, hres, taken, hfp]
    dsimp only
    rw [Block.first_of_le (Nat.zero_le _), length_nil, Nat.sub_zero, take_length,
      Option.some.injEq]
    exact eq_comm
  | line hterm hlen hres hfp hbuf hline => exact absurd hlast hterm

theorem line_eq (hres : call.result = .ok (lineAt rest).length)
    (hline : call.buf.first (lineAt rest).length = some (lineAt rest)) :
    call.line = if lineAt rest = [] then none else some (lineAt rest) := by
  rw [Call.line, hres]
  split_ifs with hnil
  · rw [hnil]
    rfl
  · obtain ⟨j, hj⟩ := Nat.exists_eq_succ_of_ne_zero (length_pos_iff.mpr hnil).ne'
    rw [← hline, hj]

theorem short_line (hterm : lineAt rest ≠ rest) (hlt : (lineAt rest).length < n)
    (hres : call.result = .ok (lineAt rest).length)
    (hline : call.buf.first (lineAt rest).length = some (lineAt rest)) :
    short n (lines false rest) = call.line.toList ++ short n (lines false (next rest)) := by
  have hnext := short_next (pieces_nil n) hterm
  rw [nil_append, nil_append] at hnext
  rw [hnext, line_eq hres hline]
  by_cases hnil : lineAt rest = []
  · rw [if_pos hnil, if_neg fun hroom : Room n (lineAt rest) => hroom.1 hnil]
    rfl
  · rw [if_neg hnil, if_pos ⟨hnil, hlt⟩]
    rfl

theorem line_none (h : call.result = .ok 0 ∨ call.result = .error .enospc) : call.line = none := by
  rw [Call.line]
  rcases h with hres | hres
  · rw [hres]
  · rw [hres]

theorem handed_cons (c : Stream × Call) (cs : List (Stream × Call)) :
    handed (c :: cs) = c.2.line.toList ++ handed cs := by
  rw [handed, filterMap_cons]
  cases c.2.line with
  | none => rfl
  | some l => rfl

theorem delivers_cons {input input' : List UInt8} (hd : Delivers n input' cs)
    (hout : Outcome n rest (some call)) (hkept : lineAt rest = rest → rest = [])
    (hlines : short n (lines false input) = call.line.toList ++ short n (lines false input')) :
    Delivers n input ((⟨rest, none⟩, call) :: cs) := by
  refine ⟨?_, forall_mem_cons.mpr ⟨hout.enospc, hd.enospc⟩,
    forall_mem_cons.mpr ⟨fun hlast => (hout.kept_iff hlast).mpr (hkept hlast), hd.kept⟩⟩
  rw [hlines, ← hd.lines, handed_cons]

theorem delivers_of_fits (hu : Pieces n u) (hfits : Fits n (u ++ rest)) (hk : rest.length ≤ k)
    (hb : buf.len = n) :
    ∃ cs, calls n k ⟨rest, none⟩ buf = some cs ∧ Delivers n (u ++ rest) cs := by
  induction k generalizing u rest buf with
  | zero =>
    have hnil : rest = [] := length_eq_zero_iff.mp (Nat.le_zero.mp hk)
    subst hnil
    obtain ⟨rfl, -⟩ := (fits_last hu rfl).mp hfits
    exact ⟨[], rfl, (short_nil n).symm, fun c hc => absurd hc not_mem_nil,
      fun c hc => absurd hc not_mem_nil⟩
  | succ k ih =>
    rw [calls]
    have hout := freadline_outcome hb rest
    have hkept : lineAt rest = rest → rest = [] := fun hlast => ((fits_last hu hlast).mp hfits).2
    cases hcall : freadline ⟨rest, none⟩ buf n with
    | none =>
      rw [hcall] at hout
      cases hout with
      | outside hterm hlen =>
        rcases ((fits_next hu hterm).mp hfits).1 with hlt | ⟨hpos, hmod⟩
        · rw [length_append, hlen] at hlt
          omega
        · rw [hu.mod_eq, hlen, Nat.mod_eq_of_lt (Nat.lt_succ_self n)] at hmod
          exact absurd hmod hpos.ne'
    | some call =>
      rw [hcall] at hout
      obtain ⟨hfp, hbuf, hlen⟩ := hout.step
      suffices h : ∃ u', Pieces n u' ∧ Fits n (u' ++ call.fp.rest) ∧
          short n (lines false (u ++ rest)) =
            call.line.toList ++ short n (lines false (u' ++ call.fp.rest)) by
        obtain ⟨u', hu', hfits', hlines⟩ := h
        obtain ⟨cs, hcs, hd⟩ := ih hu' hfits' (by omega) hbuf
        rw [Option.bind_eq_bind, Option.bind_some, hfp, hcs]
        exact ⟨_, rfl, delivers_cons hd hout hkept hlines⟩
      cases hout with
      | full hlong hres hfp' hbuf' =>
        refine ⟨u ++ rest.take (n + 1), hu.append hlong, ?_, ?_⟩
        · rwa [hfp', append_take_drop]
        · rw [line_none (.inr hres), hfp', append_take_drop]
          rfl
      | last hlast hle hres hfp' hbuf' =>
        obtain ⟨rfl, rfl⟩ := (fits_last hu hlast).mp hfits
        refine ⟨[], pieces_nil n, ?_, ?_⟩
        · rw [hfp']
          exact fits_nil
        · rw [line_none (.inl hres), hfp']
          rfl
      | line hterm hlt hres hfp' hbuf' hline =>
        obtain ⟨hroom, hnext⟩ := (fits_next hu hterm).mp hfits
        refine ⟨[], pieces_nil n, ?_, ?_⟩
        · rwa [hfp']
        · rw [hfp']
          by_cases hone : u = []
          · rw [hone]
            exact short_line hterm hlt hres hline
          · have hnil := ((hu.room_iff hlt).mp hroom).resolve_left hone
            rw [short_next_of_ne hu hone hterm, line_eq hres hline, if_pos hnil]
            rfl

theorem calls_cons (hb : buf.len = n) (hrun : calls n (k + 1) ⟨rest, none⟩ buf = some cs) :
    ∃ call cs', cs = (⟨rest, none⟩, call) :: cs' ∧ Outcome n rest (some call) ∧
      calls n k ⟨call.fp.rest, none⟩ call.buf = some cs' := by
  rw [calls] at hrun
  obtain ⟨call, hcall, hrest⟩ := Option.bind_eq_some_iff.mp hrun
  have hout := freadline_outcome hb rest
  rw [hcall] at hout
  obtain ⟨cs', hcs, heq⟩ := Option.bind_eq_some_iff.mp hrest
  rw [hout.step.1] at hcs
  exact ⟨call, cs', (Option.some.inj heq).symm, hout, hcs⟩

theorem lineAt_append (hu : ∀ c ∈ u, Plain c) (rest : List UInt8) :
    lineAt (u ++ rest) = u ++ lineAt rest :=
  takeWhile_append_of_pos fun c hc => decide_eq_true (hu c hc)

theorem lineAt_drop (h : n < (lineAt rest).length) (hterm : lineAt rest ≠ rest) :
    lineAt (rest.drop (n + 1)) ≠ rest.drop (n + 1) := by
  intro heq
  have hsame := lineAt_append ((pieces_nil n).append h).plain (rest.drop (n + 1))
  rw [heq, nil_append, take_append_drop] at hsame
  exact hterm hsame

theorem ne_of_long (h : n < (lineAt rest).length) (hnil : lineAt rest = rest → rest = []) :
    lineAt rest ≠ rest := by
  intro hlast
  rw [hnil hlast] at h
  exact Nat.not_lt_zero _ h

theorem short_sublist (hk : rest.length ≤ k) (hb : buf.len = n)
    (hrun : calls n k ⟨rest, none⟩ buf = some cs)
    (hkept : ∀ c ∈ cs, lineAt c.1.rest = c.1.rest → c.2.held = some (taken c)) :
    (short n (lines false rest)).Sublist (handed cs) := by
  induction k generalizing rest buf cs with
  | zero =>
    have hnil : rest = [] := length_eq_zero_iff.mp (Nat.le_zero.mp hk)
    subst hnil
    rw [short_nil]
    exact nil_sublist _
  | succ k ih =>
    obtain ⟨call, cs, rfl, hout, hcs⟩ := calls_cons hb hrun
    obtain ⟨hhead, htail⟩ := forall_mem_cons.mp hkept
    obtain ⟨hfp, hbuf, hlen⟩ := hout.step
    have hrest := ih (by omega) hbuf hcs htail
    have hnil : lineAt rest = rest → rest = [] := fun hlast =>
      (hout.kept_iff hlast).mp (hhead hlast)
    rw [handed_cons]
    cases hout with
    | full hlong hres hfp' hbuf' =>
      have hterm := ne_of_long hlong hnil
      have hpiece := (pieces_nil n).append hlong
      have hne : [] ++ rest.take (n + 1) ≠ [] := by
        rw [nil_append]
        refine ne_nil_of_length_pos ?_
        have hprefix : lineAt rest <+: rest := takeWhile_prefix _
        have hle := hprefix.length_le
        rw [length_take]
        omega
      have hdrop := lineAt_drop hlong hterm
      have hshort := short_next_of_ne hpiece hne hdrop
      rw [append_take_drop, nil_append] at hshort
      rw [hfp'] at hrest
      rw [hshort, line_none (.inr hres)]
      exact (short_next_sublist hdrop).trans hrest
    | last hlast hle hres hfp' hbuf' =>
      rw [hnil hlast, short_nil]
      exact nil_sublist _
    | line hterm hlt hres hfp' hbuf' hline =>
      rw [hfp'] at hrest
      rw [short_line hterm hlt hres hline]
      exact (Sublist.refl _).append hrest

theorem fits_of_calls (hu : Pieces n u) (hterm : u ≠ [] → lineAt rest ≠ rest)
    (hk : rest.length ≤ k) (hb : buf.len = n) (hrun : calls n k ⟨rest, none⟩ buf = some cs)
    (hkept : ∀ c ∈ cs, lineAt c.1.rest = c.1.rest → c.2.held = some (taken c))
    (hlines : handed cs = short n (lines false (u ++ rest))) : Fits n (u ++ rest) := by
  induction k generalizing u rest buf cs with
  | zero =>
    have hnil : rest = [] := length_eq_zero_iff.mp (Nat.le_zero.mp hk)
    subst hnil
    have hone : u = [] := by
      by_contra hne
      exact hterm hne rfl
    exact (fits_last hu rfl).mpr ⟨hone, rfl⟩
  | succ k ih =>
    obtain ⟨call, cs, rfl, hout, hcs⟩ := calls_cons hb hrun
    obtain ⟨hhead, htail⟩ := forall_mem_cons.mp hkept
    obtain ⟨hfp, hbuf, hlen⟩ := hout.step
    have hnil : lineAt rest = rest → rest = [] := fun hlast =>
      (hout.kept_iff hlast).mp (hhead hlast)
    rw [handed_cons] at hlines
    cases hout with
    | full hlong hres hfp' hbuf' =>
      have hterm' := ne_of_long hlong hnil
      rw [line_none (.inr hres), ← append_take_drop u rest (n + 1)] at hlines
      rw [hfp'] at hcs hlen
      dsimp only at hcs hlen
      rw [← append_take_drop u rest (n + 1)]
      exact ih (hu.append hlong) (fun _ => lineAt_drop hlong hterm') (by omega) hbuf hcs htail
        hlines
    | last hlast hle hres hfp' hbuf' =>
      have hone : u = [] := by
        by_contra hne
        exact hterm hne hlast
      exact (fits_last hu hlast).mpr ⟨hone, hnil hlast⟩
    | line hterm' hlt hres hfp' hbuf' hline =>
      rw [hfp'] at hcs hlen
      dsimp only at hcs hlen hlines
      suffices h : (u = [] ∨ lineAt rest = []) ∧ handed cs = short n (lines false (next rest)) by
        obtain ⟨hroom, hsame⟩ := h
        exact (fits_next hu hterm').mpr ⟨(hu.room_iff hlt).mpr hroom,
          ih (pieces_nil n) (fun hne => absurd rfl hne) (by omega) hbuf hcs htail hsame⟩
      by_cases hone : u = []
      · rw [hone, nil_append, short_line hterm' hlt hres hline] at hlines
        exact ⟨.inl hone, append_cancel_left hlines⟩
      · -- the end of a line in pieces would be one line too many
        rw [short_next_of_ne hu hone hterm'] at hlines
        have hsub := (short_sublist (by omega) hbuf hcs htail).length_le
        have hcount := congrArg length hlines
        rw [length_append] at hcount
        have hno : call.line.toList = [] := length_eq_zero_iff.mp (by omega)
        rw [hno, nil_append] at hlines
        refine ⟨.inr ?_, hlines⟩
        by_contra hne
        rw [line_eq hres hline, if_neg hne] at hno
        cases hno

/-- A last line without a terminator is read and given up. -/
theorem freadline_loses_last_line : ¬ ReturnsLines 16 (fun _ => 0) [0x68, 0x69] := by
  rintro ⟨cs, hrun, hd⟩
  have hfits := fits_of_calls (pieces_nil 16) (fun hne => absurd rfl hne) (Nat.le_succ _) rfl hrun
    hd.kept hd.lines
  exact absurd hfits.2 (by decide)

/-- The lines come back exactly if each has room, or a length that is a number of full pieces of
`n + 1` characters, and there is nothing behind the last terminator. -/
theorem returnsLines_iff (n : Nat) (cells : Nat → UInt8) (input : List UInt8) :
    ReturnsLines n cells input ↔ Fits n input := by
  constructor
  · rintro ⟨cs, hrun, hd⟩
    exact fits_of_calls (pieces_nil n) (fun hne => absurd rfl hne) (Nat.le_succ _) rfl hrun
      hd.kept hd.lines
  · intro hfits
    exact delivers_of_fits (pieces_nil n) hfits (Nat.le_succ _) rfl

end PortableLib.Freadline
