import PortableLib.Lib.Cuts
import PortableLib.Lib.InPlace
import PortableLib.Errno
import PortableLib.StrUnquote
import PortableLib.Gstring.Escape

/-! Fields between separators, with quotes around them or a part of them, cut out of a string in
place: `strsplit_csv.c`. The size of the array is not negative, and no pointer but that to the
separators is null. -/

namespace PortableLib.StrSplitCsv
open List Cuts InPlace Gstring Gstring.Escape StrUnquote

structure Csv where
  q : UInt8
  k : Nat
  sub : Nat
  p : Nat
  str : Block UInt8
  sv : Block (Option Nat)

/-- `__add_delim`, and the assertion behind it. -/
def addSep (v : Block UInt32) (c : UInt8) : Option (Block UInt32) := do
  let v ← addDelim v (ofChar c)
  if ← isDelim v (ofChar c) then return v else none

/-- `if (k == sv_size) return -ENOSPC; *p++ = 0; sv[k++] = sub;` -/
def enter (svSize : Nat) (a : Csv) : Option (Except Errno Csv) := do
  if a.k = svSize then return .error .enospc
  let str ← a.str.write a.p 0
  let sv ← a.sv.write a.k (some a.sub)
  return .ok { a with k := a.k + 1, p := a.p + 1, str := str, sv := sv }

/-- `*p++ = c` -/
def copy (c : UInt8) (a : Csv) : Option Csv := do
  let str ← a.str.write a.p c
  return { a with p := a.p + 1, str := str }

def onQuote (i : Nat) (c : UInt8) (a : Csv) : Option Csv := do
  if a.q = c then
    if (← readAt a.str (i - 1)) = 0x5c then
      let str ← writeAt a.str (a.p - 1) a.q
      return { a with str := str }
    else return { a with q := 0 }
  else if a.q ≠ 0 then copy c a
  else return { a with q := c }

def round (v : Block UInt32) (svSize i : Nat) (c : UInt8) (a : Csv) :
    Option (Except Errno Csv) := do
  if IsQuote c then return .ok (← onQuote i c a)
  let delim ← isDelim v (ofChar c)
  if delim ∧ a.q = 0 then return (← enter svSize a).map fun a => { a with sub := a.p }
  return .ok (← copy c a)

def finish (svSize : Nat) (a : Csv) : Option (Except Errno Csv) :=
  if a.sub ≠ a.p then
    if a.q ≠ 0 then return .error .einval
    else enter svSize a
  else return .ok a

def strsplitCsv (sv : Block (Option Nat)) (svSize : Nat) (str : Block UInt8)
    (sep : Option (List UInt8)) : Option (Except Errno Csv) := do
  let v ← (sep.getD [0x2c]).foldlM addSep ⟨8, fun _ => 0⟩
  goOn (finish svSize) (← loop Csv.str 0 (round v svSize) str.len 0 ⟨0, 0, 0, 0, str, sv⟩)

/-! ## The characters, one after the other -/

structure Quote where
  q : Option UInt8
  prev : UInt8

def Quote.step (t : Quote) (c : UInt8) : Quote where
  q := if ¬ IsQuote c then t.q
    else if t.q = none then some c
    else if t.q = some c ∧ t.prev ≠ 0x5c then none
    else t.q
  prev := c

def openQuote (s : List UInt8) : Option UInt8 := (s.foldl Quote.step ⟨none, 0⟩).q

structure Scan where
  quote : Quote
  cur : List UInt8
  done : List (List UInt8)

def Scan.step (sep : List UInt8) (t : Scan) (c : UInt8) : Scan :=
  if IsQuote c then
    if t.quote.q = none then ⟨t.quote.step c, t.cur, t.done⟩
    else if t.quote.q = some c then
      if t.quote.prev = 0x5c then ⟨t.quote.step c, t.cur.dropLast ++ [c], t.done⟩
      else ⟨t.quote.step c, t.cur, t.done⟩
    else ⟨t.quote.step c, t.cur ++ [c], t.done⟩
  else if c ∈ sep ∧ t.quote.q = none then ⟨t.quote.step c, [], t.done ++ [t.cur]⟩
  else ⟨t.quote.step c, t.cur ++ [c], t.done⟩

def scan (sep s : List UInt8) : Scan := s.foldl (Scan.step sep) ⟨⟨none, 0⟩, [], []⟩

variable {sep s u w : List UInt8} {c : UInt8} {n i : Nat} {a : Csv} {t : Scan} {v : Block UInt32}

theorem Scan.step_quote : (t.step sep c).quote = t.quote.step c := by
  unfold Scan.step
  split_ifs <;> rfl

theorem Quote.step_of_not_isQuote {t : Quote} (hc : ¬ IsQuote c) : (t.step c).q = t.q := if_pos hc

theorem Quote.step_opens {t : Quote} (hc : IsQuote c) (hq : t.q = none) :
    (t.step c).q = some c := by
  simp only [Quote.step, hc, hq, not_true_eq_false, if_false, if_true]

theorem Quote.step_closes {t : Quote} (hc : IsQuote c) (hq : t.q = some c) (hp : t.prev ≠ 0x5c) :
    (t.step c).q = none := by
  simp only [Quote.step, hc, hq, hp, not_true_eq_false, if_false, reduceCtorEq, ne_eq,
    not_false_eq_true, and_self, if_true]

theorem Quote.step_stays {t : Quote} (hq : t.q ≠ none) (h : t.q = some c → t.prev = 0x5c) :
    (t.step c).q = t.q := by
  unfold Quote.step
  dsimp only
  split_ifs with hc hclose
  · exact absurd (h hclose.1) hclose.2
  · rfl
  · rfl

/-- An open quote is a quote character, and behind a backslash it is not empty. -/
structure Scan.Sound (t : Scan) : Prop where
  isQuote : ∀ q, t.quote.q = some q → IsQuote q
  kept : t.quote.q ≠ none → t.quote.prev = 0x5c → t.cur ≠ []

theorem not_isQuote_backslash : ¬ IsQuote 0x5c := by decide

theorem Scan.Sound.step (h : t.Sound) : (t.step sep c).Sound := by
  constructor
  · intro q hq
    rw [Scan.step_quote] at hq
    unfold Quote.step at hq
    dsimp only at hq
    split_ifs at hq with hc hnone hclose
    · exact Option.some.inj hq ▸ hc
    · exact h.isQuote q hq
    · exact h.isQuote q hq
  · intro hq hprev
    rw [Scan.step_quote] at hq hprev
    obtain rfl : c = 0x5c := hprev
    rw [Quote.step_of_not_isQuote not_isQuote_backslash] at hq
    rw [Scan.step, if_neg not_isQuote_backslash, if_neg fun hsep => hq hsep.2]
    exact concat_ne_nil _ _

/-! ## The loop -/

structure Tracks (n i : Nat) (s : List UInt8) (a : Csv) (t : Scan) : Prop where
  left : Left 0 a.str i s
  room : a.sv.len = n
  place : a.p ≤ i
  prev : t.quote.q ≠ none → ∃ j, i = j + 1 ∧ a.p ≤ j ∧ a.str.cells j = t.quote.prev
  quote : a.q = t.quote.q.getD 0
  field : a.p = a.sub + t.cur.length
  cur : Held a.str a.sub t.cur
  done : Pieces 0 a.str a.sub a.sv t.done
  count : a.k = t.done.length

theorem Tracks.cell (h : Tracks n i (c :: s) a t) : a.str.cells i = c := h.left.cells_eq 0

theorem Tracks.lt_of_quote (h : Tracks n i s a t) (hq : t.quote.q ≠ none) : a.p < i := by
  obtain ⟨j, rfl, hj, -⟩ := h.prev hq
  exact Nat.lt_succ_of_le hj

theorem Tracks.turn (h : Tracks n i (c :: s) a t) :
    Tracks n (i + 1) s { a with q := (t.quote.step c).q.getD 0 }
      ⟨t.quote.step c, t.cur, t.done⟩ where
  left := h.left.tail
  room := h.room
  place := Nat.le_succ_of_le h.place
  prev _ := ⟨i, rfl, h.place, h.cell⟩
  quote := rfl
  field := h.field
  cur := h.cur
  done := h.done
  count := h.count

theorem Tracks.copy (h : Tracks n i (c :: s) a t) (hq : (t.quote.step c).q = t.quote.q) :
    ∃ a', copy c a = some a' ∧ Tracks n (i + 1) s a' ⟨t.quote.step c, t.cur ++ [c], t.done⟩ := by
  obtain ⟨str, hw, -, -, hold⟩ := Block.write_spec (h.left.lt_len h.place) c
  refine ⟨{ a with p := a.p + 1, str := str }, by rw [StrSplitCsv.copy, hw]; rfl, ?_⟩
  have hfield := h.field
  exact {
    left := h.left.tail.write hw (Nat.lt_succ_of_le h.place)
    room := h.room
    place := Nat.succ_le_succ h.place
    prev := by
      intro hopen
      have hlt := h.lt_of_quote (hq ▸ hopen)
      exact ⟨i, rfl, hlt, (hold i hlt.ne').trans h.cell⟩
    quote := h.quote.trans (hq ▸ rfl)
    field := by rw [hfield, length_append, length_singleton, Nat.add_assoc]
    cur := h.cur.write (hfield ▸ hw)
    done := h.done.write hw (hfield ▸ Nat.le_add_right _ _)
    count := h.count }

theorem Tracks.unescape (h : Tracks n i (c :: s) a t) (hcur : t.cur ≠ [])
    (hq : (t.quote.step c).q = t.quote.q) (hopen : t.quote.q ≠ none) :
    ∃ str, writeAt a.str (a.p - 1) c = some str ∧ Tracks n (i + 1) s { a with str := str }
      ⟨t.quote.step c, t.cur.dropLast ++ [c], t.done⟩ := by
  obtain ⟨f, x, hf⟩ : ∃ f x, t.cur = f ++ [x] := ⟨_, _, (dropLast_append_getLast hcur).symm⟩
  have hfield := h.field
  rw [hf, length_append, length_singleton] at hfield
  have hlt := h.lt_of_quote hopen
  obtain ⟨str, hw, -, -, hold⟩ :=
    Block.write_spec (b := a.str) (i := a.sub + f.length) (h.left.lt_len (by omega)) c
  have hcast : ((a.p : Int) - 1).toNat = a.sub + f.length := by omega
  refine ⟨str, by rw [writeAt, if_pos (by omega), hcast, hw], ?_⟩
  rw [hf, dropLast_concat]
  exact {
    left := h.left.tail.write hw (by omega)
    room := h.room
    place := Nat.le_succ_of_le h.place
    prev := fun _ => ⟨i, rfl, h.place, (hold i (by omega)).trans h.cell⟩
    quote := h.quote.trans (hq ▸ rfl)
    field := by rw [length_append, length_singleton, hfield]
    cur := (held_concat.mp (hf ▸ h.cur)).1.write hw
    done := h.done.write hw (Nat.le_add_right _ _)
    count := h.count }

theorem Tracks.enter (h : Tracks n i s a t) (hroom : t.done.length < n) :
    ∃ str sv,
      enter n a = some (.ok { a with k := a.k + 1, p := a.p + 1, str := str, sv := sv }) ∧
        a.str.write a.p 0 = some str ∧ sv.len = n ∧
        Pieces 0 str (a.p + 1) sv (t.done ++ [t.cur]) := by
  obtain ⟨str, hw, -, hnew, hold⟩ := Block.write_spec (h.left.lt_len h.place) (0 : UInt8)
  have hfield := h.field
  have hdone := (h.done.write hw (hfield ▸ Nat.le_add_right _ _)).frame (fun _ _ => rfl)
    (show a.sub ≤ a.p + 1 by omega)
  have hpiece : Piece 0 str (a.p + 1) a.sub t.cur := by
    refine ⟨?_, h.cur.frame fun j hj => hold j ?_, hfield ▸ hnew⟩
    · rw [← hfield]
      exact Nat.lt_succ_self _
    · rw [hfield]
      exact hj.ne
  obtain ⟨sv, hsv, hlen, hpieces⟩ := hdone.push hpiece (h.room ▸ hroom)
  refine ⟨str, sv, ?_, hw, hlen.trans h.room, hpieces⟩
  have hk : a.k ≠ n := h.count ▸ hroom.ne
  rw [StrSplitCsv.enter, if_neg hk, hw, h.count]
  simp only [Option.bind_eq_bind, Option.bind_some, hsv]
  rfl

theorem Tracks.separate (h : Tracks n i (c :: s) a t) (hroom : t.done.length < n)
    (hq : (t.quote.step c).q = none) (hopen : t.quote.q = none) :
    ∃ a', StrSplitCsv.enter n a = some (.ok a') ∧ Tracks n (i + 1) s { a' with sub := a'.p }
      ⟨t.quote.step c, [], t.done ++ [t.cur]⟩ := by
  obtain ⟨str, sv, hent, hw, hlen, hpieces⟩ := h.enter hroom
  refine ⟨_, hent, ?_⟩
  exact {
    left := h.left.tail.write hw (Nat.lt_succ_of_le h.place)
    room := hlen
    place := Nat.succ_le_succ h.place
    prev := fun hne => absurd hq hne
    quote := h.quote.trans (by rw [hq, hopen])
    field := rfl
    cur := held_nil
    done := hpieces
    count := by rw [length_append, length_singleton, h.count] }

theorem Tracks.onQuote (sep : List UInt8) (h : Tracks n i (c :: s) a t) (ht : t.Sound)
    (hc : IsQuote c) :
    ∃ a', StrSplitCsv.onQuote i c a = some a' ∧ Tracks n (i + 1) s a' (t.step sep c) := by
  have hc0 := hc.ne_zero
  have hquote := h.quote
  rw [StrSplitCsv.onQuote, Scan.step, if_pos hc]
  rcases hq : t.quote.q with _ | q
  · have hne : a.q ≠ c := by
      rw [hquote, hq]
      exact hc0.symm
    have hzero : a.q = 0 := by rw [hquote, hq, Option.getD_none]
    rw [if_neg hne, if_neg (not_not_intro hzero), if_pos rfl]
    have hturn := h.turn
    rw [Quote.step_opens hc hq] at hturn
    exact ⟨_, rfl, hturn⟩
  · have hopen : t.quote.q ≠ none := hq ▸ Option.some_ne_none q
    obtain rfl : a.q = q := by rw [hquote, hq, Option.getD_some]
    rw [if_neg (Option.some_ne_none a.q)]
    by_cases hqc : a.q = c
    · subst hqc
      obtain ⟨j, hj, hle, hprev⟩ := h.prev hopen
      have hcast : ((i : Int) - 1).toNat = j := by omega
      have hread : readAt a.str (i - 1) = some t.quote.prev := by
        rw [readAt, if_pos (by omega), hcast, Block.read_of_lt (h.left.lt_len (by omega)), hprev]
      rw [if_pos rfl, if_pos rfl, hread]
      simp only [Option.bind_eq_bind, Option.bind_some]
      by_cases hesc : t.quote.prev = 0x5c
      · have hstays := Quote.step_stays (c := a.q) hopen fun _ => hesc
        obtain ⟨str, hw, htracks⟩ := h.unescape (ht.kept hopen hesc) hstays hopen
        rw [if_pos hesc, if_pos hesc, hw]
        exact ⟨_, rfl, htracks⟩
      · have hturn := h.turn
        rw [Quote.step_closes hc hq hesc] at hturn
        rw [if_neg hesc, if_neg hesc]
        exact ⟨_, rfl, hturn⟩
    · have hq0 : a.q ≠ 0 := (ht.isQuote a.q hq).ne_zero
      have hqc' : some a.q ≠ some c := fun heq => hqc (Option.some.inj heq)
      rw [if_neg hqc, if_neg hqc', if_pos hq0]
      exact h.copy (Quote.step_stays hopen fun heq => absurd (hq ▸ heq) hqc')

/-- Where the field ends. -/
def Ends (sep : List UInt8) (t : Scan) (c : UInt8) : Prop :=
  ¬ IsQuote c ∧ c ∈ sep ∧ t.quote.q = none

theorem Tracks.round (hd : Delims v sep) (h : Tracks n i (c :: s) a t) (ht : t.Sound)
    (hc : c < 0x80) (hroom : Ends sep t c → t.done.length < n) :
    ∃ a', StrSplitCsv.round v n i c a = some (.ok a') ∧ Tracks n (i + 1) s a' (t.step sep c) := by
  rw [StrSplitCsv.round]
  by_cases hquote : IsQuote c
  · obtain ⟨a', ha, htracks⟩ := h.onQuote sep ht hquote
    rw [if_pos hquote, ha]
    exact ⟨a', rfl, htracks⟩
  · have hstep := Quote.step_of_not_isQuote (t := t.quote) hquote
    rw [if_neg hquote, isDelim_char hd hc, Scan.step, if_neg hquote]
    simp only [Option.bind_eq_bind, Option.bind_some]
    have hq : a.q = 0 ↔ t.quote.q = none := by
      rw [h.quote]
      rcases hq : t.quote.q with _ | q
      · simp
      · simp [(ht.isQuote q hq).ne_zero]
    by_cases hsep : c ∈ sep ∧ t.quote.q = none
    · obtain ⟨a', ha, htracks⟩ := h.separate (hroom ⟨hquote, hsep⟩) (hstep.trans hsep.2) hsep.2
      rw [if_pos ⟨decide_eq_true hsep.1, hq.mpr hsep.2⟩, if_pos hsep, ha]
      exact ⟨_, rfl, htracks⟩
    · obtain ⟨a', ha, htracks⟩ := h.copy hstep
      rw [if_neg fun h => hsep ⟨of_decide_eq_true h.1, hq.mp h.2⟩, if_neg hsep, ha]
      exact ⟨a', rfl, htracks⟩

theorem round_eq_none (hd : Delims v sep) (hc : ¬ c < 0x80) : round v n i c a = none := by
  have hquote : ¬ IsQuote c := by
    rintro (rfl | rfl)
    · exact hc (by decide)
    · exact hc (by decide)
  have hbig : ¬ (ofChar c).toNat < 256 := by
    rw [ofChar_of_not_lt hc]
    omega
  rw [round, if_neg hquote, isDelim_eq_none hd hbig]
  rfl

theorem Tracks.round_full (hd : Delims v sep) (h : Tracks n i s a t) (hc : c < 0x80)
    (hends : Ends sep t c) (hfull : t.done.length = n) :
    StrSplitCsv.round v n i c a = some (.error .enospc) := by
  obtain ⟨hquote, hsep, hq⟩ := hends
  have hzero : a.q = 0 := by rw [h.quote, hq, Option.getD_none]
  rw [StrSplitCsv.round, if_neg hquote, isDelim_char hd hc]
  simp only [Option.bind_eq_bind, Option.bind_some]
  rw [if_pos ⟨decide_eq_true hsep, hzero⟩, StrSplitCsv.enter, if_pos (h.count.trans hfull)]
  rfl

theorem Scan.Sound.foldl (h : t.Sound) : (u.foldl (Scan.step sep) t).Sound := by
  induction u generalizing t with
  | nil => exact h
  | cons c u ih => exact ih h.step

theorem Scan.step_ends (h : Ends sep t c) :
    t.step sep c = ⟨t.quote.step c, [], t.done ++ [t.cur]⟩ := by
  rw [Scan.step, if_neg h.1, if_pos h.2]

theorem Scan.done_step (h : ¬ Ends sep t c) : (t.step sep c).done = t.done := by
  rw [Scan.step]
  by_cases hquote : IsQuote c
  · rw [if_pos hquote]
    split_ifs <;> rfl
  · rw [if_neg hquote, if_neg fun hsep => h ⟨hquote, hsep⟩]

theorem Scan.done_le_step : t.done.length ≤ (t.step sep c).done.length := by
  by_cases hends : Ends sep t c
  · rw [Scan.step_ends hends, length_append]
    exact Nat.le_add_right _ _
  · exact (congrArg length (Scan.done_step hends)).ge

theorem Scan.done_le_foldl : t.done.length ≤ (u.foldl (Scan.step sep) t).done.length := by
  induction u generalizing t with
  | nil => exact le_rfl
  | cons c u ih => exact Scan.done_le_step.trans ih

theorem Tracks.loop_append (hd : Delims v sep) (h : Tracks n i (u ++ w) a t) (ht : t.Sound)
    (h0 : 0 ∉ u) (hu : ∀ c ∈ u, c < 0x80)
    (hroom : (u.foldl (Scan.step sep) t).done.length ≤ n) (fuel : Nat) :
    ∃ a', loop Csv.str 0 (StrSplitCsv.round v n) (fuel + u.length) i a =
        loop Csv.str 0 (StrSplitCsv.round v n) fuel (i + u.length) a' ∧
      Tracks n (i + u.length) w a' (u.foldl (Scan.step sep) t) := by
  have hround : ∀ i c s a t, Tracks n i (c :: s) a t ∧ t.Sound → c ≠ 0 →
      (c < 0x80 ∧ (Ends sep t c → t.done.length < n)) → ∃ a',
        StrSplitCsv.round v n i c a = some (.ok a') ∧
          Tracks n (i + 1) s a' (t.step sep c) ∧ (t.step sep c).Sound := by
    rintro i c s a t ⟨h, ht⟩ - ⟨hc, hends⟩
    obtain ⟨a', ha, htracks⟩ := h.round hd ht hc hends
    exact ⟨a', ha, htracks, ht.step⟩
  have hfits : ∀ p c q, u = p ++ c :: q → c < 0x80 ∧
      (Ends sep (p.foldl (Scan.step sep) t) c →
        (p.foldl (Scan.step sep) t).done.length < n) := by
    rintro p c q rfl
    refine ⟨hu c (mem_append_right p mem_cons_self), fun hends => ?_⟩
    rw [foldl_append, foldl_cons, Scan.step_ends hends] at hroom
    have hle := Scan.done_le_foldl.trans hroom
    rw [length_append] at hle
    exact hle
  obtain ⟨a', hloop, htracks, -⟩ := InPlace.loop_append
    (fun i s a t => Tracks n i s a t ∧ t.Sound) (Scan.step sep) _ (fun _ _ _ _ h => h.1.left)
    hround h0 hfits ⟨h, ht⟩ fuel
  exact ⟨a', hloop, htracks⟩

/-! ## The function -/

theorem addSep_eq (hd : Delims v sep) : addSep v c = addDelim v (ofChar c) := by
  rw [addSep]
  by_cases hc : c < 0x80
  · obtain ⟨v', hv', hd'⟩ := addDelim_spec hd hc
    rw [hv']
    simp only [Option.bind_eq_bind, Option.bind_some]
    rw [isDelim_char hd' hc, decide_eq_true (mem_append_right _ (mem_singleton_self c))]
    rfl
  · rw [addDelim_eq_none hd hc]
    rfl

theorem foldlM_addSep (hd : Delims v sep) :
    s.foldlM addSep v = s.foldlM (fun v c => addDelim v (ofChar c)) v := by
  induction s generalizing v sep with
  | nil => rfl
  | cons c s ih =>
    rw [foldlM_cons, foldlM_cons, addSep_eq hd]
    by_cases hc : c < 0x80
    · obtain ⟨v', hv', hd'⟩ := addDelim_spec hd hc
      rw [hv']
      exact ih hd'
    · rw [addDelim_eq_none hd hc]
      rfl

variable {sv : Block (Option Nat)} {osep : Option (List UInt8)}

theorem strsplitCsv_eq_none (hsep : ∃ c ∈ osep.getD [0x2c], ¬ c < 0x80) {str : Block UInt8} :
    strsplitCsv sv n str osep = none := by
  rw [strsplitCsv, foldlM_addSep delims_empty, delims_eq_none delims_empty hsep]
  rfl

theorem strsplitCsv_start (hsep : ∀ c ∈ osep.getD [0x2c], c < 0x80) (hlen : sv.len = n) :
    ∃ v a, Delims v (osep.getD [0x2c]) ∧ Tracks n 0 s a ⟨⟨none, 0⟩, [], []⟩ ∧
      strsplitCsv sv n (cstr s) osep =
        (loop Csv.str 0 (round v n) (s.length + 1) 0 a).bind (goOn (finish n)) := by
  obtain ⟨v, hv, hd⟩ := delims_spec delims_empty hsep
  refine ⟨v, ⟨0, 0, 0, 0, cstr s, sv⟩, hd, ?_, ?_⟩
  · exact {
      left := ⟨by rw [Nat.zero_add]; rfl, fun j => by rw [Nat.zero_add]; rfl⟩
      room := hlen
      place := le_rfl
      prev := fun hne => absurd rfl hne
      quote := rfl
      field := rfl
      cur := held_nil
      done := pieces_nil
      count := rfl }
  · rw [strsplitCsv, foldlM_addSep delims_empty, hv]
    rfl

theorem sound_nil : (⟨⟨none, 0⟩, [], []⟩ : Scan).Sound :=
  ⟨fun _ h => absurd h (by simp), fun h => absurd rfl h⟩

theorem strsplitCsv_append (hsep : ∀ c ∈ osep.getD [0x2c], c < 0x80) (hlen : sv.len = n)
    (h0 : 0 ∉ u) (hu : ∀ c ∈ u, c < 0x80)
    (hroom : (scan (osep.getD [0x2c]) u).done.length ≤ n) :
    ∃ v a, Delims v (osep.getD [0x2c]) ∧ Tracks n u.length w a (scan (osep.getD [0x2c]) u) ∧
      strsplitCsv sv n (cstr (u ++ w)) osep =
        (loop Csv.str 0 (round v n) (w.length + 1) u.length a).bind (goOn (finish n)) := by
  obtain ⟨v, a, hd, htracks, hstart⟩ := strsplitCsv_start (s := u ++ w) hsep hlen
  obtain ⟨a', hloop, h'⟩ := htracks.loop_append hd sound_nil h0 hu hroom (w.length + 1)
  rw [Nat.zero_add] at hloop h'
  refine ⟨v, a', hd, h', ?_⟩
  rw [hstart, ← hloop, length_append, Nat.add_comm u.length, Nat.add_right_comm]

theorem strsplitCsv_all (hsep : ∀ c ∈ osep.getD [0x2c], c < 0x80) (hlen : sv.len = n)
    (h0 : 0 ∉ s) (hs : ∀ c ∈ s, c < 0x80)
    (hroom : (scan (osep.getD [0x2c]) s).done.length ≤ n) :
    ∃ a, Tracks n s.length [] a (scan (osep.getD [0x2c]) s) ∧
      strsplitCsv sv n (cstr s) osep = finish n a := by
  obtain ⟨v, a, -, htracks, hrun⟩ := strsplitCsv_append (w := []) hsep hlen h0 hs hroom
  refine ⟨a, htracks, ?_⟩
  rw [append_nil, length_nil, loop_nil htracks.left] at hrun
  exact hrun

theorem strsplitCsv_full (hsep : ∀ c ∈ osep.getD [0x2c], c < 0x80) (hlen : sv.len = n)
    (h0 : 0 ∉ u) (hu : ∀ c ∈ u, c < 0x80) (hc0 : c ≠ 0) (hc : c < 0x80)
    (hends : Ends (osep.getD [0x2c]) (scan (osep.getD [0x2c]) u) c)
    (hfull : (scan (osep.getD [0x2c]) u).done.length = n) :
    strsplitCsv sv n (cstr (u ++ c :: w)) osep = some (.error .enospc) := by
  obtain ⟨v, a, hd, htracks, hrun⟩ := strsplitCsv_append (w := c :: w) hsep hlen h0 hu hfull.le
  rw [hrun, length_cons, loop_cons htracks.left hc0, htracks.round_full hd hc hends hfull]
  rfl

theorem exists_high (hs : ¬ ∀ c ∈ s, c < 0x80) :
    ∃ u c w, s = u ++ c :: w ∧ (∀ x ∈ u, x < 0x80) ∧ ¬ c < 0x80 := by
  induction s with
  | nil => exact absurd (forall_mem_nil _) hs
  | cons x s ih =>
    by_cases hx : x < 0x80
    · obtain ⟨u, c, w, rfl, hu, hc⟩ := ih fun h => hs (forall_mem_cons.mpr ⟨hx, h⟩)
      exact ⟨x :: u, c, w, rfl, forall_mem_cons.mpr ⟨hx, hu⟩, hc⟩
    · exact ⟨[], x, s, rfl, forall_mem_nil _, hx⟩

theorem strsplitCsv_high (h : ¬ ∀ c ∈ osep.getD [0x2c] ++ s, c < 0x80) (hlen : sv.len = n)
    (h0 : 0 ∉ s) (hroom : (scan (osep.getD [0x2c]) s).done.length ≤ n) (w : List UInt8) :
    strsplitCsv sv n (cstr (s ++ w)) osep = none := by
  by_cases hsep : ∀ c ∈ osep.getD [0x2c], c < 0x80
  · obtain ⟨u, c, t, rfl, hu, hc⟩ := exists_high fun hs => h (forall_mem_append.mpr ⟨hsep, hs⟩)
    rw [scan, foldl_append] at hroom
    obtain ⟨v, a, hd, htracks, hrun⟩ := strsplitCsv_append (w := c :: (t ++ w)) hsep hlen
      (fun hmem => h0 (mem_append_left _ hmem)) hu (Scan.done_le_foldl.trans hroom)
    have hc0 : c ≠ 0 := fun heq => h0 (heq ▸ mem_append_right u mem_cons_self)
    rw [append_assoc, cons_append, hrun, length_cons, loop_cons htracks.left hc0,
      round_eq_none hd hc]
    rfl
  · push Not at hsep
    obtain ⟨c, hc, hge⟩ := hsep
    exact strsplitCsv_eq_none ⟨c, hc, hge⟩

theorem Tracks.finish_empty (h : Tracks n i s a t) (hcur : t.cur = []) :
    finish n a = some (.ok a) := by
  have hfield := h.field
  rw [hcur, length_nil, Nat.add_zero] at hfield
  rw [finish, if_neg (not_not_intro hfield.symm)]
  rfl

theorem Tracks.pending (h : Tracks n i s a t) (hcur : t.cur ≠ []) : a.sub ≠ a.p := by
  have hpos := length_pos_iff.mpr hcur
  have hfield := h.field
  omega

theorem Tracks.finish_open (h : Tracks n i s a t) (ht : t.Sound) (hcur : t.cur ≠ [])
    (hq : t.quote.q ≠ none) : finish n a = some (.error .einval) := by
  obtain ⟨q, hq⟩ := Option.ne_none_iff_exists'.mp hq
  have hopen : a.q ≠ 0 := by
    rw [h.quote, hq, Option.getD_some]
    exact (ht.isQuote q hq).ne_zero
  rw [finish, if_pos (h.pending hcur), if_pos hopen]
  rfl

theorem Tracks.finish_closed (h : Tracks n i s a t) (hcur : t.cur ≠ []) (hq : t.quote.q = none) :
    finish n a = StrSplitCsv.enter n a := by
  have hzero : a.q = 0 := by rw [h.quote, hq, Option.getD_none]
  rw [finish, if_pos (h.pending hcur), if_neg (not_not_intro hzero)]

theorem Tracks.enter_full (h : Tracks n i s a t) (hfull : t.done.length = n) :
    StrSplitCsv.enter n a = some (.error .enospc) := by
  rw [StrSplitCsv.enter, if_pos (h.count.trans hfull)]
  rfl

/-! ## Open quotes -/

/-- `-EINVAL` is the result exactly if a quote is open at the end. -/
def Rejects (sv : Block (Option Nat)) (n : Nat) (s : List UInt8) (osep : Option (List UInt8)) :
    Prop :=
  ∃ r, strsplitCsv sv n (cstr s) osep = some r ∧ (r = .error .einval ↔ openQuote s ≠ none)

inductive Blank (sep : List UInt8) : List UInt8 → Prop
  | nil : Blank sep []
  | separator (s : List UInt8) (c : UInt8) (hq : openQuote s = none) (hc : ¬ IsQuote c)
      (hsep : c ∈ sep) : Blank sep (s ++ [c])
  | pair (s : List UInt8) (q : UInt8) (h : Blank sep s) (hq : IsQuote q) : Blank sep (s ++ [q, q])

theorem scan_quote : (scan sep s).quote = s.foldl Quote.step ⟨none, 0⟩ := by
  have key : ∀ t : Scan, (s.foldl (Scan.step sep) t).quote = s.foldl Quote.step t.quote := by
    induction s with
    | nil => exact fun _ => rfl
    | cons c s ih =>
      intro t
      rw [foldl_cons, ih, Scan.step_quote, foldl_cons]
  exact key _

theorem scan_q (sep : List UInt8) : (scan sep s).quote.q = openQuote s :=
  congrArg Quote.q scan_quote

theorem scan_concat : scan sep (s ++ [c]) = (scan sep s).step sep c := foldl_concat _ _ _ _

theorem Scan.step_opens (hc : IsQuote c) (hq : t.quote.q = none) :
    t.step sep c = ⟨⟨some c, c⟩, t.cur, t.done⟩ := by
  have hopens := Quote.step_opens hc hq
  rw [Scan.step, if_pos hc, if_pos hq, ← hopens]
  rfl

theorem Scan.step_closes (hc : IsQuote c) (hq : t.quote.q = some c) (hp : t.quote.prev ≠ 0x5c) :
    t.step sep c = ⟨⟨none, c⟩, t.cur, t.done⟩ := by
  have hcloses := Quote.step_closes hc hq hp
  rw [Scan.step, if_pos hc, if_neg (hq ▸ Option.some_ne_none c), if_pos hq, if_neg hp, ← hcloses]
  rfl

theorem Scan.step_cases (h : (t.step sep c).cur = []) :
    IsQuote c ∧ t.quote.q = none ∨ IsQuote c ∧ t.quote.q = some c ∧ t.quote.prev ≠ 0x5c ∨
      Ends sep t c := by
  rw [Scan.step] at h
  split_ifs at h with hc hnone hsame hesc hsep
  · exact Or.inl ⟨hc, hnone⟩
  · exact absurd h (concat_ne_nil _ _)
  · exact Or.inr (Or.inl ⟨hc, hsame, hesc⟩)
  · exact absurd h (concat_ne_nil _ _)
  · exact Or.inr (Or.inr ⟨hc, hsep⟩)
  · exact absurd h (concat_ne_nil _ _)

theorem blank_of_cur (hcur : (scan sep s).cur = []) :
    ((scan sep s).quote.q = none → Blank sep s) ∧
      ∀ q, (scan sep s).quote.q = some q → IsQuote q ∧ ∃ t, s = t ++ [q] ∧ Blank sep t := by
  induction s using reverseRecOn with
  | nil => exact ⟨fun _ => Blank.nil, fun q hq => absurd hq (Option.some_ne_none q).symm⟩
  | append_singleton t c ih =>
    rw [scan_concat] at hcur ⊢
    rcases Scan.step_cases hcur with ⟨hc, hq⟩ | ⟨hc, hq, hp⟩ | hends
    · rw [Scan.step_opens hc hq] at hcur ⊢
      refine ⟨fun hnone => absurd hnone (Option.some_ne_none c), fun q hsome => ?_⟩
      obtain rfl : c = q := Option.some.inj hsome
      exact ⟨hc, t, rfl, (ih hcur).1 hq⟩
    · rw [Scan.step_closes hc hq hp] at hcur ⊢
      obtain ⟨-, t', rfl, hblank⟩ := (ih hcur).2 c hq
      refine ⟨fun _ => ?_, fun q hsome => absurd hsome (Option.some_ne_none q).symm⟩
      rw [append_assoc]
      exact Blank.pair t' c hblank hc
    · have hclosed := hends.2.2
      have hstep := Quote.step_of_not_isQuote (t := (scan sep t).quote) hends.1
      rw [Scan.step_quote, hstep, hclosed]
      exact ⟨fun _ => Blank.separator t c (scan_q sep ▸ hclosed) hends.1 hends.2.1,
        fun q hsome => absurd hsome (Option.some_ne_none q).symm⟩

theorem isQuote_ne_backslash {q : UInt8} (hq : IsQuote q) : q ≠ 0x5c := by
  rintro rfl
  exact not_isQuote_backslash hq

theorem Blank.scan_eq (h : Blank sep s) :
    (scan sep s).cur = [] ∧ (scan sep s).quote.q = none := by
  induction h with
  | nil => exact ⟨rfl, rfl⟩
  | separator s c hq hc hsep =>
    rw [scan_concat, Scan.step_ends ⟨hc, hsep, (scan_q sep).trans hq⟩]
    exact ⟨rfl, (Quote.step_of_not_isQuote hc).trans ((scan_q sep).trans hq)⟩
  | pair s q _ hq ih =>
    rw [← singleton_append, ← append_assoc, scan_concat, scan_concat, Scan.step_opens hq ih.2,
      Scan.step_closes hq rfl (isQuote_ne_backslash hq)]
    exact ⟨ih.1, rfl⟩

theorem opened_iff : ((scan sep s).cur = [] ∧ (scan sep s).quote.q ≠ none) ↔
    ∃ t q, s = t ++ [q] ∧ Blank sep t ∧ IsQuote q := by
  constructor
  · rintro ⟨hcur, hopen⟩
    obtain ⟨q, hq⟩ := Option.ne_none_iff_exists'.mp hopen
    obtain ⟨hquote, t, rfl, hblank⟩ := (blank_of_cur hcur).2 q hq
    exact ⟨t, q, rfl, hblank, hquote⟩
  · rintro ⟨t, q, rfl, hblank, hquote⟩
    rw [scan_concat, Scan.step_opens hquote hblank.scan_eq.2]
    exact ⟨hblank.scan_eq.1, Option.some_ne_none q⟩

theorem rejects_ascii (hsep : ∀ c ∈ osep.getD [0x2c], c < 0x80) (hlen : sv.len = n) (h0 : 0 ∉ s)
    (hs : ∀ c ∈ s, c < 0x80) (hroom : (scan (osep.getD [0x2c]) s).done.length ≤ n) :
    Rejects sv n s osep ↔ ¬ ((scan (osep.getD [0x2c]) s).cur = [] ∧
      (scan (osep.getD [0x2c]) s).quote.q ≠ none) := by
  obtain ⟨a, h, hrun⟩ := strsplitCsv_all hsep hlen h0 hs hroom
  rw [Rejects, hrun, ← scan_q (osep.getD [0x2c])]
  by_cases hcur : (scan (osep.getD [0x2c]) s).cur = []
  · rw [h.finish_empty hcur]
    simp [hcur]
  · rw [iff_true_right fun hopened => hcur hopened.1]
    by_cases hq : (scan (osep.getD [0x2c]) s).quote.q = none
    · rw [h.finish_closed hcur hq, hq]
      rcases hroom.lt_or_eq with hlt | hfull
      · obtain ⟨str, sv', hent, -⟩ := h.enter hlt
        rw [hent]
        simp
      · rw [h.enter_full hfull]
        simp
    · rw [h.finish_open sound_nil.foldl hcur hq]
      simp [hq]

/-- `strsplit_csv` reports the open quotes of a string for which the array is large enough exactly
if all characters are indices into the bit vector and the string does not end with the opening
quote of a field that has begun with nothing but pairs of quotes. -/
theorem rejects_iff (hlen : sv.len = n) (h0 : 0 ∉ s)
    (hroom : (scan (osep.getD [0x2c]) s).done.length ≤ n) :
    Rejects sv n s osep ↔ (∀ c ∈ osep.getD [0x2c] ++ s, c < 0x80) ∧
      ¬ ∃ t q, s = t ++ [q] ∧ Blank (osep.getD [0x2c]) t ∧ IsQuote q := by
  by_cases hall : ∀ c ∈ osep.getD [0x2c] ++ s, c < 0x80
  · obtain ⟨hsep, hs⟩ := forall_mem_append.mp hall
    rw [and_iff_right hall, rejects_ascii hsep hlen h0 hs hroom, opened_iff]
  · have hrun := strsplitCsv_high hall hlen h0 hroom []
    rw [append_nil] at hrun
    refine iff_of_false ?_ fun h => hall h.1
    rintro ⟨r, hr, -⟩
    rw [hrun] at hr
    cases hr

theorem rejects_iff_open : Rejects ⟨1, fun _ => none⟩ 1 [0x22, 0x61] none :=
  (rejects_iff rfl (by decide) (by decide)).mpr ⟨by simp, fun ⟨t, q, hs, _, hq⟩ => by
    obtain rfl : q = 0x61 := by
      have hlast := congrArg getLast? hs
      rw [getLast?_concat] at hlast
      exact (Option.some.inj hlast).symm
    exact absurd hq (by decide)⟩

theorem not_rejects_of_ok {k : Nat} (hopen : openQuote s ≠ none)
    (hrun : (strsplitCsv sv n (cstr s) osep).map (Except.map Csv.k) = some (.ok k)) :
    ¬ Rejects sv n s osep := by
  rintro ⟨r, hr, hiff⟩
  rw [hr, hiff.mpr hopen] at hrun
  cases hrun

/-- An open quote at the end of `"` and of `abc,"` goes unnoticed. -/
theorem strsplitCsv_ignores_open :
    ((strsplitCsv ⟨1, fun _ => none⟩ 1 (cstr [0x22]) none).map (Except.map Csv.k)) =
        some (.ok 0) ∧
      ((strsplitCsv ⟨2, fun _ => none⟩ 2 (cstr [0x61, 0x62, 0x63, 0x2c, 0x22]) none).map
        (Except.map Csv.k)) = some (.ok 1) ∧
      ¬ Rejects ⟨1, fun _ => none⟩ 1 [0x22] none ∧
      ¬ Rejects ⟨2, fun _ => none⟩ 2 [0x61, 0x62, 0x63, 0x2c, 0x22] none :=
  ⟨by decide, by decide, not_rejects_of_ok (k := 0) (by decide) (by decide),
    not_rejects_of_ok (k := 1) (by decide) (by decide)⟩

/-! ## Quoted fields -/

def quoted (f : List UInt8) : List UInt8 :=
  0x22 :: f.flatMap (fun c => if c = 0x22 then [0x5c, 0x22] else [c]) ++ [0x22]

inductive Joined (sep : List UInt8) : List (List UInt8) → List UInt8 → Prop
  | single (f : List UInt8) : Joined sep [f] (quoted f)
  | cons (f : List UInt8) (c : UInt8) (fs : List (List UInt8)) (s : List UInt8) (hc : c ∈ sep)
      (h : Joined sep fs s) : Joined sep (f :: fs) (quoted f ++ c :: s)

/-- The fields come out if there are entries for them, and `-ENOSPC` if there are not. -/
def Splits (sv : Block (Option Nat)) (n : Nat) (s : List UInt8) (osep : Option (List UInt8))
    (fs : List (List UInt8)) : Prop :=
  ∃ r, strsplitCsv sv n (cstr s) osep = some r ∧
    (fs.length ≤ n → ∃ a, r = .ok a ∧ a.k = fs.length ∧ a.str.len = s.length + 1 ∧
      Pieces 0 a.str (s.length + 1) a.sv fs) ∧
    (n < fs.length → r = .error .enospc)

variable {f x : List UInt8} {fs d : List (List UInt8)} {p : UInt8}

theorem Scan.step_keeps (hq : t.quote.q ≠ none) (hc : t.quote.q ≠ some c) :
    t.step sep c = ⟨⟨t.quote.q, c⟩, t.cur ++ [c], t.done⟩ := by
  have hstays := Quote.step_stays hq fun heq => absurd heq hc
  have hsep : ¬ (c ∈ sep ∧ t.quote.q = none) := fun h => hq h.2
  rw [← hstays, Scan.step, if_neg hq, if_neg hc, if_neg hsep, ite_self]
  rfl

theorem Scan.step_escaped (hc : IsQuote c) (hq : t.quote.q = some c) (hp : t.quote.prev = 0x5c) :
    t.step sep c = ⟨⟨some c, c⟩, t.cur.dropLast ++ [c], t.done⟩ := by
  have hne : t.quote.q ≠ none := hq ▸ Option.some_ne_none c
  have hstays := Quote.step_stays (c := c) hne fun _ => hp
  rw [← hq, ← hstays, Scan.step, if_pos hc, if_neg hne, if_pos hq, if_pos hp]
  rfl

theorem scan_body (sep : List UInt8) (hf : 0x5c ∉ f) (hp : p ≠ 0x5c) : ∃ p', p' ≠ 0x5c ∧
    (f.flatMap fun c => if c = 0x22 then [0x5c, 0x22] else [c]).foldl (Scan.step sep)
      ⟨⟨some 0x22, p⟩, x, d⟩ = ⟨⟨some 0x22, p'⟩, x ++ f, d⟩ := by
  induction f generalizing p x with
  | nil => exact ⟨p, hp, by rw [append_nil]; rfl⟩
  | cons c f ih =>
    rw [mem_cons, not_or] at hf
    rw [flatMap_cons, foldl_append, append_cons]
    by_cases hc : c = 0x22
    · subst hc
      have hslash : Scan.step sep ⟨⟨some 0x22, p⟩, x, d⟩ 0x5c =
          ⟨⟨some 0x22, 0x5c⟩, x ++ [0x5c], d⟩ :=
        Scan.step_keeps (Option.some_ne_none _) fun heq => absurd (Option.some.inj heq) (by decide)
      rw [if_pos rfl, foldl_cons, foldl_cons, foldl_nil, hslash,
        Scan.step_escaped (Or.inl rfl) rfl rfl, dropLast_concat]
      exact ih hf.2 (by decide)
    · rw [if_neg hc, foldl_cons, foldl_nil, Scan.step_keeps (Option.some_ne_none _)
        fun heq => hc (Option.some.inj heq).symm]
      exact ih hf.2 (Ne.symm hf.1)

theorem scan_quoted (hf : 0x5c ∉ f) :
    (quoted f).foldl (Scan.step sep) ⟨⟨none, p⟩, [], d⟩ = ⟨⟨none, 0x22⟩, f, d⟩ := by
  have hquote : IsQuote 0x22 := Or.inl rfl
  obtain ⟨p', hp', hbody⟩ := scan_body sep (x := []) (d := d) hf
    (isQuote_ne_backslash hquote)
  have hopens : Scan.step sep ⟨⟨none, p⟩, [], d⟩ 0x22 = ⟨⟨some 0x22, 0x22⟩, [], d⟩ :=
    Scan.step_opens hquote rfl
  rw [quoted, foldl_concat, foldl_cons, hopens, hbody, Scan.step_closes hquote rfl hp', nil_append]

theorem Joined.scan_eq (h : Joined sep fs s) (hfs : ∀ f ∈ fs, 0x5c ∉ f)
    (hsep : ∀ c ∈ sep, ¬ IsQuote c) : ∃ gs f, fs = gs ++ [f] ∧
      s.foldl (Scan.step sep) ⟨⟨none, p⟩, [], d⟩ = ⟨⟨none, 0x22⟩, f, d ++ gs⟩ := by
  induction h generalizing p d with
  | single f => exact ⟨[], f, rfl, by rw [append_nil, scan_quoted (hfs f (mem_singleton_self f))]⟩
  | cons f c fs s hc _ ih =>
    obtain ⟨hf, hfs⟩ := forall_mem_cons.mp hfs
    have hstep : Scan.step sep ⟨⟨none, 0x22⟩, f, d⟩ c = ⟨⟨none, c⟩, [], d ++ [f]⟩ := by
      rw [Scan.step_ends ⟨hsep c hc, hc, rfl⟩, Quote.step, if_pos (hsep c hc)]
    obtain ⟨gs, g, rfl, hscan⟩ := ih (p := c) (d := d ++ [f]) hfs
    refine ⟨f :: gs, g, rfl, ?_⟩
    rw [foldl_append, scan_quoted hf, foldl_cons, hstep, hscan, append_assoc, singleton_append]

theorem Joined.take (h : Joined sep fs s) {m : Nat} (hm : m + 1 < fs.length) :
    ∃ u c w, s = u ++ c :: w ∧ c ∈ sep ∧ Joined sep (fs.take (m + 1)) u := by
  induction h generalizing m with
  | single f => exact absurd hm (by simp)
  | cons f c fs s hc h ih =>
    cases m with
    | zero => exact ⟨quoted f, c, s, rfl, hc, Joined.single f⟩
    | succ m =>
      obtain ⟨u, c', w, rfl, hc', hu⟩ := ih (Nat.lt_of_succ_lt_succ hm)
      exact ⟨quoted f ++ c :: u, c', w, by rw [append_assoc, cons_append], hc',
        Joined.cons f c _ u hc hu⟩

theorem Joined.parts (h : Joined sep fs s) (n : Nat) :
    ∃ u w, s = u ++ w ∧ Joined sep (fs.take (n + 1)) u ∧
      (w = [] ∧ fs.length ≤ n + 1 ∨ ∃ c w', c ∈ sep ∧ w = c :: w' ∧ n + 1 < fs.length) := by
  rcases Nat.lt_or_ge (n + 1) fs.length with hlt | hle
  · obtain ⟨u, c, w, hs, hc, hu⟩ := h.take hlt
    exact ⟨u, c :: w, hs, hu, Or.inr ⟨c, w, hc, rfl, hlt⟩⟩
  · refine ⟨s, [], (append_nil s).symm, ?_, Or.inl ⟨rfl, hle⟩⟩
    rwa [take_of_length_le hle]

theorem forall_quoted {P : UInt8 → Prop} (hquote : P 0x22) (hslash : P 0x5c) :
    (∀ c ∈ quoted f, P c) ↔ ∀ c ∈ f, P c := by
  rw [quoted, forall_mem_append, forall_mem_cons, forall_mem_singleton, and_iff_left hquote,
    and_iff_right hquote]
  simp only [mem_flatMap, forall_exists_index, and_imp]
  constructor
  · intro h c hc
    by_cases hc' : c = 0x22
    · exact hc' ▸ hquote
    · exact h c c hc (by rw [if_neg hc']; exact mem_singleton_self c)
  · intro h c x hx hc
    split_ifs at hc
    · rcases mem_pair.mp hc with rfl | rfl
      · exact hslash
      · exact hquote
    · exact mem_singleton.mp hc ▸ h x hx

theorem Joined.forall_iff {P : UInt8 → Prop} (h : Joined sep fs s) (hsep : ∀ c ∈ sep, P c)
    (hquote : P 0x22) (hslash : P 0x5c) : (∀ c ∈ s, P c) ↔ ∀ f ∈ fs, ∀ c ∈ f, P c := by
  induction h with
  | single f => rw [forall_quoted hquote hslash, forall_mem_singleton]
  | cons f c fs s hc _ ih =>
    rw [forall_mem_append, forall_mem_cons, forall_quoted hquote hslash, ih,
      and_iff_right (hsep c hc), forall_mem_cons]

theorem splits_ascii (hlen : sv.len = n) (hsep : ∀ c ∈ osep.getD [0x2c], ¬ IsQuote c)
    (h0 : 0 ∉ s) (hfs : ∀ f ∈ fs, 0x5c ∉ f) (hlast : fs.getLast? ≠ some [])
    (hjoin : Joined (osep.getD [0x2c]) fs s) (hle : fs.length ≤ n + 1)
    (hS : ∀ c ∈ osep.getD [0x2c], c < 0x80) (hs : ∀ c ∈ s, c < 0x80) : Splits sv n s osep fs := by
  obtain ⟨gs, f, rfl, hscan⟩ := hjoin.scan_eq (p := 0) (d := []) hfs hsep
  rw [nil_append] at hscan
  rw [length_append, length_singleton] at hle
  have hdone : (scan (osep.getD [0x2c]) s).done.length ≤ n :=
    (congrArg (fun t => t.done.length) hscan).trans_le (Nat.le_of_succ_le_succ hle)
  obtain ⟨a, htracks, hrun⟩ := strsplitCsv_all hS hlen h0 hs hdone
  rw [scan, hscan] at htracks
  have hf : f ≠ [] := fun hf => hlast (by rw [getLast?_concat, hf])
  rw [Splits, hrun, htracks.finish_closed hf rfl, length_append, length_singleton]
  rcases (Nat.le_of_succ_le_succ hle).lt_or_eq with hlt | hfull
  · obtain ⟨str, sv', hent, hw, -, hpieces⟩ := htracks.enter hlt
    refine ⟨_, hent, fun _ => ⟨_, rfl, congrArg (· + 1) htracks.count, ?_, ?_⟩,
      fun hlt' => absurd hlt' (Nat.not_lt.mpr hlt)⟩
    · obtain ⟨-, rfl⟩ := Block.eq_of_write hw
      exact htracks.left.len_eq
    · exact hpieces.frame (fun _ _ => rfl) (Nat.succ_le_succ htracks.place)
  · rw [htracks.enter_full hfull]
    exact ⟨_, rfl, fun hle' => absurd hfull.ge (Nat.not_le.mpr hle'), fun _ => rfl⟩

/-- Quoted fields are split again exactly if the separators, and the characters of the fields up to
the one that does not fit, are indices into the bit vector. -/
theorem fieldsSplit_iff (hlen : sv.len = n)
    (hsep : ∀ c ∈ osep.getD [0x2c], c ≠ 0 ∧ c ≠ 0x5c ∧ ¬ IsQuote c)
    (hfs : ∀ f ∈ fs, 0 ∉ f ∧ 0x5c ∉ f) (hlast : fs.getLast? ≠ some [])
    (hjoin : Joined (osep.getD [0x2c]) fs s) :
    Splits sv n s osep fs ↔ (∀ c ∈ osep.getD [0x2c], c < 0x80) ∧
      ∀ f ∈ fs.take (n + 1), ∀ c ∈ f, c < 0x80 := by
  obtain ⟨u, w, rfl, hu, hw⟩ := hjoin.parts n
  have hnul : ∀ x ∈ u ++ w, x ≠ 0 := by
    rw [hjoin.forall_iff (fun c hc => (hsep c hc).1) (by decide) (by decide)]
    exact fun f hf c hc hc0 => (hfs f hf).1 (hc0 ▸ hc)
  have hquotes : ∀ c ∈ osep.getD [0x2c], ¬ IsQuote c := fun c hc => (hsep c hc).2.2
  have h0 : 0 ∉ u := fun hmem => hnul 0 (mem_append_left w hmem) rfl
  obtain ⟨gs, f, hgs, hscan⟩ := hu.scan_eq (p := 0) (d := [])
    (fun f hf => (hfs f (mem_of_mem_take hf)).2) hquotes
  rw [nil_append] at hscan
  have hdone : (scan (osep.getD [0x2c]) u).done.length + 1 = min (n + 1) fs.length := by
    rw [scan, hscan, ← length_take, hgs, length_append, length_singleton]
  by_cases hall : ∀ c ∈ osep.getD [0x2c] ++ u, c < 0x80
  · obtain ⟨hS, hascii⟩ := forall_mem_append.mp hall
    refine iff_of_true ?_ ⟨hS, (hu.forall_iff hS (by decide) (by decide)).mp hascii⟩
    rcases hw with ⟨rfl, hle⟩ | ⟨c, w, hc, rfl, hlt⟩
    · rw [append_nil] at hjoin ⊢
      exact splits_ascii hlen hquotes h0 (fun f hf => (hfs f hf).2) hlast hjoin hle hS hascii
    · have hends : Ends (osep.getD [0x2c]) (scan (osep.getD [0x2c]) u) c :=
        ⟨hquotes c hc, hc, congrArg (fun t => t.quote.q) hscan⟩
      have hrun := strsplitCsv_full (w := w) hS hlen h0 hascii (hsep c hc).1 (hS c hc) hends
        (by omega)
      exact ⟨_, hrun, fun hle => absurd hlt (by omega), fun _ => rfl⟩
  · refine iff_of_false ?_ fun h => hall (forall_mem_append.mpr
      ⟨h.1, (hu.forall_iff h.1 (by decide) (by decide)).mpr h.2⟩)
    rintro ⟨r, hr, -⟩
    rw [strsplitCsv_high hall hlen h0 (by omega) w] at hr
    cases hr

theorem fieldsSplit_iff_two : Splits ⟨2, fun _ => none⟩ 2
    [0x22, 0x61, 0x3b, 0x22, 0x2c, 0x22, 0x5c, 0x22, 0x22] none [[0x61, 0x3b], [0x22]] :=
  (fieldsSplit_iff rfl (forall_mem_singleton.mpr (by decide)) (by decide) (by decide)
    (Joined.cons [0x61, 0x3b] 0x2c [[0x22]] [0x22, 0x5c, 0x22, 0x22] (by decide)
      (Joined.single [0x22]))).mpr ⟨by simp, by simp⟩

/-- A character that is negative as a `char` selects a word outside the bit vector, also between
quotes. -/
theorem strsplitCsv_outside :
    Joined [0x2c] [[0x80]] [0x22, 0x80, 0x22] ∧
      (strsplitCsv ⟨1, fun _ => none⟩ 1 (cstr [0x22, 0x80, 0x22]) none).isNone ∧
      ¬ Splits ⟨1, fun _ => none⟩ 1 [0x22, 0x80, 0x22] none [[0x80]] := by
  have hnone : strsplitCsv ⟨1, fun _ => none⟩ 1 (cstr [0x22, 0x80, 0x22]) none = none :=
    strsplitCsv_high (s := [0x22, 0x80, 0x22]) (fun h => absurd (h 0x80 (by decide)) (by decide))
      rfl (by decide) (by decide) []
  refine ⟨Joined.single [0x80], by rw [hnone]; rfl, ?_⟩
  rintro ⟨r, hr, -⟩
  rw [hnone] at hr
  cases hr

end PortableLib.StrSplitCsv
