import PortableLib.Lib.Cuts
import PortableLib.Lib.InPlace
import PortableLib.Errno
import PortableLib.StrUnquote
import PortableLib.StrSplit.Arrays

/-! Splitting a line into arguments as a shell does, in place: `splitargs.c`. -/

namespace PortableLib.SplitArgs
open List Cuts InPlace Gstring StrUnquote
open StrSplit.Arrays (int)

structure Args where
  i : Nat
  k : Int
  inquote : UInt8
  eow : Bool
  p : Nat
  s : Block UInt8
  args : Block (Option Nat)

def addArg (z : Nat) (a : Args) : Option (Except Errno Args) := do
  if a.k = 0 then return .error .enospc
  let args ← a.args.write a.i (some z)
  let k ← int (a.k - 1)
  return .ok { a with i := a.i + 1, k := k, args := args }

/-- `if (*p) ADDARG(p)` -/
def addWord (a : Args) : Option (Except Errno Args) := do
  let c ← a.s.read a.p
  if c ≠ 0 then addArg a.p a else return .ok a

def round (j : Nat) (c : UInt8) (a : Args) : Option (Except Errno Args) := do
  if a.inquote ≠ 0 then
    if c = a.inquote then
      let s ← a.s.write j 0
      let r ← addArg (a.p + 1) { a with s := s }
      return r.map fun a => { a with p := j + 1, inquote := 0 }
    else return .ok a
  else if isspace c then
    let s ← a.s.write j 0
    return .ok { a with s := s, eow := true }
  else
    let a := if IsQuote c then { a with inquote := c } else a
    if a.eow then
      let r ← addWord a
      return r.map fun a => { a with p := j, eow := false }
    else return .ok a

def finish (a : Args) : Option (Except Errno Args) :=
  if a.inquote ≠ 0 then some (.error .einval) else addWord a

def strsplitargs (args : Block (Option Nat)) (n : Nat) (s : Block UInt8) :
    Option (Except Errno Args) := do
  goOn finish (← loop Args.s 0 round s.len 0 ⟨0, toInt n, 0, false, 0, s, args⟩)

/-! ## The array -/

variable {n j m z : Nat} {a : Args} {fs : List (List UInt8)} {f s u w : List UInt8} {c q : UInt8}

/-- The entries that an `int` counts down from `n`, and then the error or an `int` that is too
small. -/
def room (n : Nat) : Nat := n % 2 ^ 31

def overflow (n : Nat) : Option (Except Errno Args) :=
  if n % 2 ^ 32 < 2 ^ 31 then some (.error .enospc) else none

theorem room_le (n : Nat) : room n ≤ n := Nat.mod_le n _

theorem toInt_eq (n : Nat) : toInt n = room n - if n % 2 ^ 32 < 2 ^ 31 then 0 else 2 ^ 31 := by
  have hsize : Int32.size = 4294967296 := rfl
  have hroom : room n = n % 2147483648 := rfl
  rw [toInt, Int32.toInt_ofNat', Int.bmod, hsize, hroom]
  split_ifs <;> omega

/-- The arguments `fs` have been added, all of them below `m`. -/
structure Holds (n m : Nat) (a : Args) (fs : List (List UInt8)) : Prop where
  len_eq : a.args.len = n
  count : a.i = fs.length
  left : a.k = toInt n - a.i
  pieces : Pieces 0 a.s m a.args fs

theorem Holds.inquote (h : Holds n m a fs) (x : UInt8) : Holds n m { a with inquote := x } fs :=
  ⟨h.len_eq, h.count, h.left, h.pieces⟩

theorem Holds.write (h : Holds n m a fs) {b : Block UInt8} (hw : a.s.write j c = some b)
    (hm : m ≤ j) : Holds n m { a with s := b } fs :=
  ⟨h.len_eq, h.count, h.left, h.pieces.write hw hm⟩

theorem Holds.addArg (h : Holds n m a fs) {m' : Nat} (hm : m ≤ m') (hp : Piece 0 a.s m' z f)
    (hroom : fs.length < room n) :
    ∃ i k args, addArg z a = some (.ok { a with i := i, k := k, args := args }) ∧
      Holds n m' { a with i := i, k := k, args := args } (fs ++ [f]) := by
  have hint := toInt_eq n
  have hcount := h.count
  have hleft := h.left
  have hlt := (hroom.trans_le (room_le n)).trans_eq h.len_eq.symm
  obtain ⟨args, hw, hlen, hpieces⟩ := (h.pieces.frame (fun _ _ => rfl) hm).push hp hlt
  have hlow : room n < 2 ^ 31 := Nat.mod_lt n (by decide)
  have hk : a.k ≠ 0 := by
    split_ifs at hint <;> omega
  have hk' : int (a.k - 1) = some (a.k - 1) := by
    refine if_pos ?_
    split_ifs at hint <;> omega
  refine ⟨a.i + 1, a.k - 1, args, ?_, hlen.trans h.len_eq, ?_, ?_, hpieces⟩
  · rw [SplitArgs.addArg, if_neg hk, hcount, hw]
    simp only [Option.bind_eq_bind, Option.bind_some, hk']
    rfl
  · rw [length_append, length_singleton, ← hcount]
  · dsimp only
    omega

theorem Holds.addArg_full (h : Holds n m a fs) (hfull : fs.length = room n) :
    SplitArgs.addArg z a = overflow n := by
  have hint := toInt_eq n
  have hcount := h.count
  have hleft := h.left
  rw [SplitArgs.addArg, overflow]
  split_ifs at hint ⊢ with hk hlow hlow
  · rfl
  · omega
  · omega
  · have hk' : int (a.k - 1) = none := by
      refine if_neg ?_
      omega
    simp only [hk', Option.bind_eq_bind, Option.bind_none, Option.bind_fun_none]

/-! ## The characters, one after the other -/

structure Tok where
  cur : List UInt8
  eow : Bool
  quote : Option (UInt8 × List UInt8)
  done : List (List UInt8)

def Tok.text (t : Tok) : List UInt8 :=
  match t.quote with
  | none => t.cur
  | some (q, body) => t.cur ++ q :: body

def Tok.flush (t : Tok) : List (List UInt8) := if t.cur = [] then t.done else t.done ++ [t.cur]

def Tok.step (t : Tok) (c : UInt8) : Tok :=
  match t.quote with
  | some (q, body) =>
    if c = q then ⟨[], false, none, t.done ++ [t.text.tail]⟩
    else ⟨t.cur, false, some (q, body ++ [c]), t.done⟩
  | none =>
    if isspace c then ⟨t.cur, true, none, t.done⟩
    else if IsQuote c then
      if t.eow then ⟨[], false, some (c, []), t.flush⟩ else ⟨t.cur, false, some (c, []), t.done⟩
    else if t.eow then ⟨[c], false, none, t.flush⟩
    else ⟨t.cur ++ [c], false, none, t.done⟩

def tok (s : List UInt8) : Tok := s.foldl Tok.step ⟨[], false, none, []⟩

/-- A word has no NUL and no quotes, and an open quote is a quote character. -/
structure Tok.Sound (t : Tok) : Prop where
  cur : ∀ c ∈ t.cur, c ≠ 0 ∧ ¬ IsQuote c
  quote : ∀ q body, t.quote = some (q, body) → IsQuote q ∧ t.eow = false

variable {t : Tok}

theorem Tok.text_of_none (hq : t.quote = none) : t.text = t.cur := by
  rw [Tok.text, hq]

theorem Tok.text_of_some {body : List UInt8} (hq : t.quote = some (q, body)) :
    t.text = t.cur ++ q :: body := by
  rw [Tok.text, hq]

theorem Tok.Sound.step (ht : t.Sound) (hc : c ≠ 0) : (t.step c).Sound := by
  have hnil : ∀ c ∈ ([] : List UInt8), c ≠ 0 ∧ ¬ IsQuote c := forall_mem_nil _
  have hnone : ∀ (q : UInt8) (body : List UInt8), none = some (q, body) →
      IsQuote q ∧ (false = false) := fun _ _ h => absurd h.symm (Option.some_ne_none _)
  rcases hq : t.quote with _ | ⟨q, body⟩
  · rw [Tok.step, hq]
    dsimp only
    split_ifs with hspace hquote heow heow
    · exact ⟨ht.cur, fun _ _ h => absurd h.symm (Option.some_ne_none _)⟩
    · exact ⟨hnil, fun q body h => by cases h; exact ⟨hquote, rfl⟩⟩
    · exact ⟨ht.cur, fun q body h => by cases h; exact ⟨hquote, rfl⟩⟩
    · exact ⟨forall_mem_singleton.mpr ⟨hc, hquote⟩, hnone⟩
    · exact ⟨forall_mem_append.mpr ⟨ht.cur, forall_mem_singleton.mpr ⟨hc, hquote⟩⟩, hnone⟩
  · rw [Tok.step, hq]
    dsimp only
    split_ifs with hclose
    · exact ⟨hnil, hnone⟩
    · exact ⟨ht.cur, fun q' body' h => by cases h; exact ⟨(ht.quote q body hq).1, rfl⟩⟩

/-! ## The loop -/

structure Tracks (n j : Nat) (s : List UInt8) (a : Args) (t : Tok) : Prop where
  left : Left 0 a.s j s
  inquote : a.inquote = t.quote.elim 0 Prod.fst
  eow : a.eow = t.eow
  held : Held a.s a.p t.text
  ended : t.eow = true → a.p + t.text.length < j ∧ a.s.cells (a.p + t.text.length) = 0
  goesOn : t.eow = false → a.p + t.text.length = j
  holds : Holds n a.p a t.done

theorem Tracks.place (h : Tracks n j s a t) : a.p + t.text.length ≤ j := by
  rcases heow : t.eow with _ | _
  · exact (h.goesOn heow).le
  · exact (h.ended heow).1.le

theorem Tracks.cell (h : Tracks n j (c :: s) a t) : a.s.cells j = c := h.left.cells_eq 0

theorem Tracks.inquote_of_none (h : Tracks n j s a t) (hq : t.quote = none) : a.inquote = 0 := by
  rw [h.inquote, hq]
  rfl

theorem Tracks.inquote_of_some (h : Tracks n j s a t) {body : List UInt8}
    (hq : t.quote = some (q, body)) : a.inquote = q := by
  rw [h.inquote, hq]
  rfl

theorem Holds.addWord (h : Holds n a.p a t.done) (ht : t.Sound) (hq : t.quote = none)
    (hheld : Held a.s a.p t.text) {m' : Nat} (hlt : a.p + t.text.length < m') (hm : m' ≤ a.s.len)
    (hstop : a.s.cells (a.p + t.text.length) = 0) (hroom : t.flush.length ≤ room n) :
    ∃ i k args, SplitArgs.addWord a = some (.ok { a with i := i, k := k, args := args }) ∧
      Holds n m' { a with i := i, k := k, args := args } t.flush := by
  rw [Tok.text_of_none hq] at *
  have hread : a.s.read a.p = some (a.s.cells a.p) := Block.read_of_lt (by omega)
  rw [SplitArgs.addWord, hread]
  simp only [Option.bind_eq_bind, Option.bind_some]
  by_cases hcur : t.cur = []
  · rw [hcur, length_nil, Nat.add_zero] at hstop
    rw [if_neg (not_not_intro hstop), Tok.flush, if_pos hcur]
    exact ⟨a.i, a.k, a.args, rfl, h.len_eq, h.count, h.left,
      h.pieces.frame (fun _ _ => rfl) (by omega)⟩
  · obtain ⟨c, w, hcw⟩ := exists_cons_of_ne_nil hcur
    have hhead : a.s.cells a.p ≠ 0 := by
      rw [hcw] at hheld
      rw [(held_cons.mp hheld).1]
      exact (ht.cur c (hcw ▸ mem_cons_self)).1
    rw [Tok.flush, if_neg hcur, length_append] at hroom
    rw [if_pos hhead, Tok.flush, if_neg hcur]
    exact h.addArg (by omega) ⟨hlt, hheld, hstop⟩ hroom

theorem Tracks.keep (h : Tracks n j (c :: s) a t) (heow : t.eow = false) {t' : Tok}
    (htext : t'.text = t.text ++ [c]) (heow' : t'.eow = false) (hdone : t'.done = t.done) :
    Tracks n (j + 1) s { a with inquote := t'.quote.elim 0 Prod.fst } t' := by
  have hend := h.goesOn heow
  exact {
    left := h.left.tail
    inquote := rfl
    eow := h.eow.trans (heow.trans heow'.symm)
    held := by
      rw [htext]
      exact held_concat.mpr ⟨h.held, hend ▸ h.cell⟩
    ended := fun hne => absurd hne (heow' ▸ Bool.false_ne_true)
    goesOn := fun _ => by
      rw [htext, length_append, length_singleton, ← hend, Nat.add_assoc]
    holds := hdone ▸ h.holds.inquote _ }

theorem Tracks.close (h : Tracks n j (c :: s) a t) (ht : t.Sound) {body : List UInt8}
    (hq : t.quote = some (c, body)) (hroom : t.done.length < room n) :
    ∃ a', SplitArgs.round j c a = some (.ok a') ∧
      Tracks n (j + 1) s a' ⟨[], false, none, t.done ++ [t.text.tail]⟩ := by
  have hc0 := (ht.quote c body hq).1.ne_zero
  have hinquote := h.inquote_of_some hq
  have hend := h.goesOn (ht.quote c body hq).2
  obtain ⟨b, hw, hlen, hnew, hold⟩ := Block.write_spec (h.left.lt_len (Nat.le_refl j)) (0 : UInt8)
  obtain ⟨x, f, hxf⟩ : ∃ x f, t.text = x :: f := by
    rw [Tok.text_of_some hq]
    exact exists_cons_of_ne_nil (append_ne_nil_of_right_ne_nil _ (cons_ne_nil _ _))
  rw [hxf, length_cons] at hend
  have hheld := h.held
  rw [hxf] at hheld
  have hpiece : Piece 0 b (j + 1) (a.p + 1) f := by
    refine ⟨by omega, (held_cons.mp hheld).2.frame fun i hi => hold i (by omega), ?_⟩
    rw [Nat.add_assoc, Nat.add_comm 1, hend, hnew]
  obtain ⟨i, k, args, hadd, hholds⟩ :=
    (h.holds.write hw (by omega)).addArg (by omega) hpiece hroom
  refine ⟨{ a with i := i, k := k, inquote := 0, p := j + 1, s := b, args := args }, ?_, ?_⟩
  · rw [SplitArgs.round, if_pos (hinquote.trans_ne hc0), if_pos hinquote.symm, hw]
    simp only [Option.bind_eq_bind, Option.bind_some]
    rw [hadd]
    rfl
  · exact {
      left := h.left.tail.write hw (Nat.lt_succ_self j)
      inquote := rfl
      eow := h.eow.trans (ht.quote c body hq).2
      held := held_nil
      ended := fun hne => absurd hne Bool.false_ne_true
      goesOn := fun _ => rfl
      holds := by
        rw [hxf]
        exact ⟨hholds.len_eq, hholds.count, hholds.left, hholds.pieces⟩ }

theorem Tracks.space (h : Tracks n j (c :: s) a t) (hq : t.quote = none)
    (hspace : isspace c = true) : ∃ a', SplitArgs.round j c a = some (.ok a') ∧
      Tracks n (j + 1) s a' ⟨t.cur, true, none, t.done⟩ := by
  have hinquote := h.inquote_of_none hq
  have hplace := h.place
  have htext := Tok.text_of_none hq
  rw [htext] at hplace
  obtain ⟨b, hw, hlen, hnew, hold⟩ := Block.write_spec (h.left.lt_len (Nat.le_refl j)) (0 : UInt8)
  refine ⟨{ a with s := b, eow := true }, ?_, ?_⟩
  · rw [SplitArgs.round, if_neg (not_not_intro hinquote), if_pos hspace, hw]
    rfl
  · exact {
      left := h.left.tail.write hw (Nat.lt_succ_self j)
      inquote := hinquote
      eow := rfl
      held := (htext ▸ h.held).frame fun i hi => hold i (by omega)
      ended := by
        intro _
        refine ⟨Nat.lt_succ_of_le hplace, ?_⟩
        change b.cells (a.p + t.cur.length) = 0
        rcases heow : t.eow with _ | _
        · have hend := h.goesOn heow
          rw [htext] at hend
          rw [hend, hnew]
        · have hended := h.ended heow
          rw [htext] at hended
          rw [hold _ hended.1.ne, hended.2]
      goesOn := fun hne => absurd hne.symm Bool.false_ne_true
      holds := by
        have hholds := h.holds.write hw (by omega)
        exact ⟨hholds.len_eq, hholds.count, hholds.left, hholds.pieces⟩ }

theorem Tracks.begin (h : Tracks n j (c :: s) a t) (ht : t.Sound) (hq : t.quote = none)
    (heow : t.eow = true) (hroom : t.flush.length ≤ room n) {t' : Tok} (htext : t'.text = [c])
    (heow' : t'.eow = false) (hdone : t'.done = t.flush) :
    ∃ a', ((addWord { a with inquote := t'.quote.elim 0 Prod.fst }).bind fun r =>
        some (r.map fun a => { a with p := j, eow := false })) = some (.ok a') ∧
      Tracks n (j + 1) s a' t' := by
  have hended := h.ended heow
  obtain ⟨i, k, args, hadd, hholds⟩ := Holds.addWord
    (a := { a with inquote := t'.quote.elim 0 Prod.fst }) (h.holds.inquote _) ht hq h.held hended.1
    (h.left.lt_len (Nat.le_refl j)).le hended.2 hroom
  refine ⟨_, by rw [hadd]; rfl, ?_⟩
  exact {
    left := h.left.tail
    inquote := rfl
    eow := heow'.symm
    held := htext ▸ held_cons.mpr ⟨h.cell, held_nil⟩
    ended := fun hne => absurd hne (heow' ▸ Bool.false_ne_true)
    goesOn := fun _ => by rw [htext]; rfl
    holds := hdone ▸ ⟨hholds.len_eq, hholds.count, hholds.left, hholds.pieces⟩ }

theorem Tracks.word (h : Tracks n j (c :: s) a t) (ht : t.Sound) (hq : t.quote = none)
    (hspace : ¬ isspace c = true) {t' : Tok}
    (hquote : t'.quote.elim 0 Prod.fst = if IsQuote c then c else 0) (heow' : t'.eow = false)
    (hended : t.eow = true → t'.text = [c] ∧ t'.done = t.flush ∧ t.flush.length ≤ room n)
    (hgoesOn : t.eow = false → t'.text = t.text ++ [c] ∧ t'.done = t.done) :
    ∃ a', SplitArgs.round j c a = some (.ok a') ∧ Tracks n (j + 1) s a' t' := by
  have hinquote := h.inquote_of_none hq
  have ha : (if IsQuote c then { a with inquote := c } else a) =
      { a with inquote := t'.quote.elim 0 Prod.fst } := by
    rw [hquote]
    split_ifs
    · rfl
    · rw [← hinquote]
  rw [SplitArgs.round, if_neg (not_not_intro hinquote), if_neg hspace, ha]
  rcases heow : t.eow with _ | _
  · obtain ⟨htext, hdone⟩ := hgoesOn heow
    refine ⟨_, if_neg ?_, h.keep heow htext heow' hdone⟩
    rw [h.eow, heow]
    exact Bool.false_ne_true
  · obtain ⟨htext, hdone, hroom⟩ := hended heow
    obtain ⟨a', ha', htracks⟩ := h.begin ht hq heow hroom htext heow' hdone
    refine ⟨a', ?_, htracks⟩
    rw [← ha']
    exact if_pos (h.eow.trans heow)

theorem Tracks.round (h : Tracks n j (c :: s) a t) (ht : t.Sound)
    (hroom : (t.step c).done.length ≤ room n) :
    ∃ a', SplitArgs.round j c a = some (.ok a') ∧ Tracks n (j + 1) s a' (t.step c) := by
  rw [Tok.step] at hroom ⊢
  rcases hq : t.quote with _ | ⟨q, body⟩
  · simp only [hq] at hroom ⊢
    by_cases hspace : isspace c = true
    · rw [if_pos hspace]
      exact h.space hq hspace
    · rw [if_neg hspace] at hroom ⊢
      have htext := Tok.text_of_none hq
      -- inside a word, and after the white space that ends one
      rcases heow : t.eow with _ | _
      · have hne : t.eow ≠ true := heow ▸ Bool.false_ne_true
        simp only [heow, Bool.false_eq_true, if_false] at hroom ⊢
        by_cases hquote : IsQuote c
        · rw [if_pos hquote]
          exact h.word ht hq hspace (if_pos hquote).symm rfl (fun h => absurd h hne)
            fun _ => ⟨by rw [htext]; rfl, rfl⟩
        · rw [if_neg hquote]
          exact h.word ht hq hspace (if_neg hquote).symm rfl (fun h => absurd h hne)
            fun _ => ⟨by rw [htext]; rfl, rfl⟩
      · have hne : t.eow ≠ false := heow.trans_ne (by decide)
        simp only [heow, if_true] at hroom ⊢
        by_cases hquote : IsQuote c
        · rw [if_pos hquote] at hroom ⊢
          exact h.word ht hq hspace (if_pos hquote).symm rfl (fun _ => ⟨rfl, rfl, hroom⟩)
            fun h => absurd h hne
        · rw [if_neg hquote] at hroom ⊢
          exact h.word ht hq hspace (if_neg hquote).symm rfl (fun _ => ⟨rfl, rfl, hroom⟩)
            fun h => absurd h hne
  · simp only [hq] at hroom ⊢
    by_cases hclose : c = q
    · subst hclose
      rw [if_pos rfl] at hroom ⊢
      rw [length_append] at hroom
      exact h.close ht hq hroom
    · rw [if_neg hclose]
      -- between quotes every other character is kept
      have hinquote := h.inquote_of_some hq
      have hq0 := (ht.quote q body hq).1.ne_zero
      have htext : Tok.text ⟨t.cur, false, some (q, body ++ [c]), t.done⟩ = t.text ++ [c] := by
        rw [Tok.text_of_some hq, append_assoc]
        rfl
      have hkeep := h.keep (ht.quote q body hq).2 htext rfl rfl
      refine ⟨a, ?_, ?_⟩
      · rw [SplitArgs.round, if_pos (hinquote.trans_ne hq0),
          if_neg fun heq => hclose (heq.trans hinquote)]
        rfl
      · subst hinquote
        exact hkeep

theorem Tok.done_le_flush : t.done.length ≤ t.flush.length := by
  rw [Tok.flush]
  split_ifs
  · exact le_rfl
  · rw [length_append]
    exact Nat.le_add_right _ _

theorem Tok.done_le_step : t.done.length ≤ (t.step c).done.length := by
  rw [Tok.step]
  split
  · split_ifs
    · rw [length_append]
      exact Nat.le_add_right _ _
    · exact le_rfl
  · split_ifs
    · exact le_rfl
    · exact Tok.done_le_flush
    · exact le_rfl
    · exact Tok.done_le_flush
    · exact le_rfl

theorem Tok.flush_le : t.flush.length ≤ t.done.length + 1 := by
  rw [Tok.flush]
  split_ifs
  · exact Nat.le_succ _
  · exact length_append.le

theorem Tok.step_le : (t.step c).done.length ≤ t.done.length + 1 := by
  rw [Tok.step]
  split
  · split_ifs
    · exact length_append.le
    · exact Nat.le_succ _
  · split_ifs
    · exact Nat.le_succ _
    · exact Tok.flush_le
    · exact Nat.le_succ _
    · exact Tok.flush_le
    · exact Nat.le_succ _

theorem Tok.done_le_foldl : t.done.length ≤ (u.foldl Tok.step t).done.length := by
  induction u generalizing t with
  | nil => exact le_rfl
  | cons c u ih => exact Tok.done_le_step.trans ih

theorem sound_nil : (⟨[], false, none, []⟩ : Tok).Sound :=
  ⟨forall_mem_nil _, fun _ _ h => absurd h.symm (Option.some_ne_none _)⟩

theorem sound_tok (h0 : 0 ∉ s) : (tok s).Sound := by
  induction s using reverseRecOn with
  | nil => exact sound_nil
  | append_singleton s c ih =>
    rw [mem_append, not_or, mem_singleton] at h0
    rw [tok, foldl_concat]
    exact (ih h0.1).step (Ne.symm h0.2)

theorem tok_concat : tok (s ++ [c]) = (tok s).step c := foldl_concat _ _ _ _

theorem strsplitargs_append (args : Block (Option Nat)) (hlen : args.len = n) (h0 : 0 ∉ u)
    (hroom : (tok u).done.length ≤ room n) : ∃ a, Tracks n u.length w a (tok u) ∧
      strsplitargs args n (cstr (u ++ w)) =
        (loop Args.s 0 round (w.length + 1) u.length a).bind (goOn finish) := by
  have hround : ∀ j c s a t, Tracks n j (c :: s) a t ∧ t.Sound → c ≠ 0 →
      (t.step c).done.length ≤ room n → ∃ a', round j c a = some (.ok a') ∧
        Tracks n (j + 1) s a' (t.step c) ∧ (t.step c).Sound := by
    rintro j c s a t ⟨h, ht⟩ hc hroom
    obtain ⟨a', ha', htracks⟩ := h.round ht hroom
    exact ⟨a', ha', htracks, ht.step hc⟩
  have hfits : ∀ p c q, u = p ++ c :: q →
      ((p.foldl Tok.step ⟨[], false, none, []⟩).step c).done.length ≤ room n := by
    rintro p c q rfl
    rw [tok, foldl_append, foldl_cons] at hroom
    exact Tok.done_le_foldl.trans hroom
  have hstart : Tracks n 0 (u ++ w) ⟨0, toInt n, 0, false, 0, cstr (u ++ w), args⟩
      ⟨[], false, none, []⟩ := {
    left := ⟨by rw [Nat.zero_add]; rfl, fun j => by rw [Nat.zero_add]; rfl⟩
    inquote := rfl
    eow := rfl
    held := held_nil
    ended := fun hne => absurd hne Bool.false_ne_true
    goesOn := fun _ => rfl
    holds := ⟨hlen, rfl, (sub_zero _).symm, pieces_nil⟩ }
  obtain ⟨a, hloop, htracks, -⟩ := InPlace.loop_append
    (fun j s a t => Tracks n j s a t ∧ t.Sound) Tok.step _ (fun _ _ _ _ h => h.1.left)
    hround h0 hfits ⟨hstart, sound_nil⟩ (w.length + 1)
  rw [Nat.zero_add] at hloop htracks
  refine ⟨a, htracks, ?_⟩
  rw [← hloop, strsplitargs]
  have hfuel : (cstr (u ++ w)).len = w.length + 1 + u.length := by
    change (u ++ w).length + 1 = _
    rw [length_append, Nat.add_comm u.length, Nat.add_right_comm]
  rw [hfuel]
  rfl

theorem Tracks.stop (h : Tracks n j [] a t) :
    a.p + t.text.length < j + 1 ∧ a.s.cells (a.p + t.text.length) = 0 := by
  refine ⟨Nat.lt_succ_of_le h.place, ?_⟩
  rcases heow : t.eow with _ | _
  · rw [h.goesOn heow]
    exact h.left.cells_eq 0
  · exact (h.ended heow).2

theorem Tracks.finish_closed (h : Tracks n j s a t) (hq : t.quote = none) :
    finish a = addWord a := by
  have hinquote := h.inquote_of_none hq
  exact if_neg (not_not_intro hinquote)

theorem strsplitargs_fits {args : Block (Option Nat)} (hlen : args.len = n) (h0 : 0 ∉ s)
    (hq : (tok s).quote = none) (hroom : (tok s).flush.length ≤ room n) :
    ∃ a, strsplitargs args n (cstr s) = some (.ok a) ∧ a.i = (tok s).flush.length ∧
      a.s.len = s.length + 1 ∧ Pieces 0 a.s (s.length + 1) a.args (tok s).flush := by
  have hdone : (tok s).done.length ≤ room n := Tok.done_le_flush.trans hroom
  obtain ⟨a, h, hrun⟩ := strsplitargs_append (w := []) args hlen h0 hdone
  obtain ⟨hlt, hstop⟩ := h.stop
  have hlen := h.left.len_eq
  obtain ⟨i, k, args', hadd, hholds⟩ := h.holds.addWord (sound_tok h0) hq h.held hlt hlen.ge hstop
    hroom
  refine ⟨_, ?_, hholds.count, hlen, hholds.pieces⟩
  rw [append_nil, length_nil, loop_nil h.left] at hrun
  rw [hrun, Option.bind_some, goOn, h.finish_closed hq, hadd]

theorem Holds.addWord_full (h : Holds n m a t.done) (ht : t.Sound) (hq : t.quote = none)
    (hheld : Held a.s a.p t.text) (hlt : a.p < a.s.len) (hfull : t.done.length = room n)
    (hmore : room n < t.flush.length) : SplitArgs.addWord a = overflow n := by
  have hcur : t.cur ≠ [] := by
    intro hcur
    rw [Tok.flush, if_pos hcur] at hmore
    exact hmore.ne' hfull
  obtain ⟨c, w, hcw⟩ := exists_cons_of_ne_nil hcur
  have hhead : a.s.cells a.p ≠ 0 := by
    rw [Tok.text_of_none hq, hcw] at hheld
    rw [(held_cons.mp hheld).1]
    exact (ht.cur c (hcw ▸ mem_cons_self)).1
  rw [SplitArgs.addWord, Block.read_of_lt hlt]
  simp only [Option.bind_eq_bind, Option.bind_some]
  rw [if_pos hhead, h.addArg_full hfull]

theorem overflow_bind (g : Args → Args) :
    ((overflow n).bind fun r => some (r.map g)) = overflow n := by
  rw [overflow]
  split_ifs <;> rfl

theorem Tracks.round_full (h : Tracks n j (c :: s) a t) (ht : t.Sound)
    (hfull : t.done.length = room n) (hmore : room n < (t.step c).done.length) :
    SplitArgs.round j c a = overflow n := by
  rw [Tok.step] at hmore
  rcases hq : t.quote with _ | ⟨q, body⟩
  · have hinquote := h.inquote_of_none hq
    have hword : ¬ isspace c = true → t.eow = true → room n < t.flush.length →
        SplitArgs.round j c a = overflow n := by
      intro hspace heow hmore
      have heow' : (if IsQuote c then { a with inquote := c } else a).eow = true := by
        split_ifs
        all_goals exact h.eow.trans heow
      have hadd : SplitArgs.addWord (if IsQuote c then { a with inquote := c } else a) =
          overflow n := by
        have hlt := h.left.lt_len ((Nat.le_add_right _ _).trans h.place)
        split_ifs
        · exact (h.holds.inquote c).addWord_full ht hq h.held hlt hfull hmore
        · exact h.holds.addWord_full ht hq h.held hlt hfull hmore
      rw [SplitArgs.round, if_neg (not_not_intro hinquote), if_neg hspace]
      dsimp only
      rw [if_pos heow', hadd]
      exact overflow_bind _
    simp only [hq] at hmore
    split_ifs at hmore with hspace hquote heow heow
    · exact absurd hfull hmore.ne'
    · exact hword hspace heow hmore
    · exact absurd hfull hmore.ne'
    · exact hword hspace heow hmore
    · exact absurd hfull hmore.ne'
  · simp only [hq] at hmore
    split_ifs at hmore with hclose
    · subst hclose
      have hinquote := h.inquote_of_some hq
      have hc0 := (ht.quote c body hq).1.ne_zero
      obtain ⟨b, hw, -⟩ := Block.write_spec (h.left.lt_len (Nat.le_refl j)) (0 : UInt8)
      have hadd : SplitArgs.addArg (a.p + 1) { a with s := b } = overflow n :=
        (h.holds.write hw ((Nat.le_add_right _ _).trans h.place)).addArg_full hfull
      rw [SplitArgs.round, if_pos (hinquote.trans_ne hc0), if_pos hinquote.symm, hw]
      simp only [Option.bind_eq_bind, Option.bind_some]
      rw [hadd]
      exact overflow_bind _
    · exact absurd hfull hmore.ne'

theorem exists_more (h : m < (tok s).done.length) : ∃ p c w, s = p ++ c :: w ∧
    (tok p).done.length = m ∧ m < ((tok p).step c).done.length := by
  induction s using reverseRecOn with
  | nil => exact absurd h (Nat.not_lt_zero m)
  | append_singleton s c ih =>
    rcases Nat.lt_or_ge m (tok s).done.length with hlt | hle
    · obtain ⟨p, c', w, rfl, hp, hmore⟩ := ih hlt
      exact ⟨p, c', w ++ [c], by rw [append_assoc, cons_append], hp, hmore⟩
    · rw [tok_concat] at h
      have hstep := h.trans_le Tok.step_le
      exact ⟨s, c, [], rfl, hle.antisymm (Nat.le_of_lt_succ hstep), h⟩

theorem strsplitargs_full {args : Block (Option Nat)} (hlen : args.len = n) (h0 : 0 ∉ s)
    (hq : (tok s).quote = none) (hmore : room n < (tok s).flush.length) :
    strsplitargs args n (cstr s) = overflow n := by
  rcases Nat.lt_or_ge (room n) (tok s).done.length with hlt | hle
  · obtain ⟨p, c, w, rfl, hp, hmore⟩ := exists_more hlt
    rw [mem_append, not_or, mem_cons, not_or] at h0
    obtain ⟨a, h, hrun⟩ := strsplitargs_append (w := c :: w) args hlen h0.1 hp.le
    rw [hrun, length_cons, loop_cons h.left (Ne.symm h0.2.1),
      h.round_full (sound_tok h0.1) hp hmore, overflow]
    split_ifs <;> rfl
  · obtain ⟨a, h, hrun⟩ := strsplitargs_append (w := []) args hlen h0 hle
    have hfull := hle.antisymm (Nat.le_of_lt_succ (hmore.trans_le Tok.flush_le))
    have hlt := h.left.lt_len ((Nat.le_add_right _ _).trans h.place)
    rw [append_nil, length_nil, loop_nil h.left] at hrun
    rw [hrun, Option.bind_some, goOn, h.finish_closed hq,
      h.holds.addWord_full (sound_tok h0) hq h.held hlt hfull hmore]

/-! ## Quoted arguments -/

/-- An argument as it stands in a line: a plain word, or anything between two quotes. -/
inductive Rendered : List UInt8 → List UInt8 → Prop
  | plain (f : List UInt8) (hne : f ≠ []) (hf : ∀ c ∈ f, isspace c = false ∧ ¬ IsQuote c) :
      Rendered f f
  | quoted (q : UInt8) (f : List UInt8) (hq : IsQuote q) (hf : q ∉ f) : Rendered f (q :: f ++ [q])

inductive Line : List (List UInt8) → List UInt8 → Prop
  | nil (sp : List UInt8) (hsp : ∀ c ∈ sp, isspace c = true) : Line [] sp
  | cons (sp f x : List UInt8) (fs : List (List UInt8)) (s : List UInt8)
      (hsp : ∀ c ∈ sp, isspace c = true) (hx : Rendered f x) (h : Line fs s)
      (hs : fs ≠ [] → ∃ c ∈ s.head?, isspace c = true) : Line (f :: fs) (sp ++ x ++ s)

/-- The arguments come out if there are entries for them, and `-ENOSPC` if there are not. -/
def Splits (args : Block (Option Nat)) (n : Nat) (s : List UInt8) (fs : List (List UInt8)) : Prop :=
  (fs.length ≤ n → ∃ a, strsplitargs args n (cstr s) = some (.ok a) ∧ a.i = fs.length ∧
    a.s.len = s.length + 1 ∧ Pieces 0 a.s (s.length + 1) a.args fs) ∧
  (n < fs.length → strsplitargs args n (cstr s) = some (.error .enospc))

variable {x y : List UInt8} {d : List (List UInt8)}

theorem isspace_quote (hq : IsQuote q) : ¬ isspace q = true := by
  rcases hq with rfl | rfl
  · decide
  · decide

def Tok.Ready (t : Tok) : Prop := t.quote = none ∧ (t.eow = true ∨ t.cur = [])

theorem Tok.step_space (hq : t.quote = none) (hc : isspace c = true) :
    t.step c = ⟨t.cur, true, none, t.done⟩ := by
  rw [Tok.step, hq]
  exact if_pos hc

theorem Tok.Ready.step_quote (h : t.Ready) (hq : IsQuote q) :
    t.step q = ⟨[], false, some (q, []), t.flush⟩ := by
  rw [Tok.step, h.1]
  dsimp only
  rw [if_neg (isspace_quote hq), if_pos hq]
  split_ifs with heow
  · rfl
  · have hcur := h.2.resolve_left heow
    rw [Tok.flush, if_pos hcur, hcur]

theorem Tok.Ready.step_word (h : t.Ready) (hc : isspace c = false ∧ ¬ IsQuote c) :
    t.step c = ⟨[c], false, none, t.flush⟩ := by
  rw [Tok.step, h.1]
  dsimp only
  rw [if_neg (Bool.eq_false_iff.mp hc.1), if_neg hc.2]
  split_ifs with heow
  · rfl
  · have hcur := h.2.resolve_left heow
    rw [Tok.flush, if_pos hcur, hcur, nil_append]

theorem foldl_word (hf : ∀ c ∈ f, isspace c = false ∧ ¬ IsQuote c) :
    f.foldl Tok.step ⟨x, false, none, d⟩ = ⟨x ++ f, false, none, d⟩ := by
  induction f generalizing x with
  | nil => rw [append_nil]; rfl
  | cons c f ih =>
    obtain ⟨hc, hf⟩ := forall_mem_cons.mp hf
    have hstep : Tok.step ⟨x, false, none, d⟩ c = ⟨x ++ [c], false, none, d⟩ := by
      rw [Tok.step]
      dsimp only
      rw [if_neg (Bool.eq_false_iff.mp hc.1), if_neg hc.2]
      rfl
    rw [foldl_cons, hstep, ih hf, append_assoc, singleton_append]

theorem foldl_body (hf : q ∉ f) :
    f.foldl Tok.step ⟨x, false, some (q, y), d⟩ = ⟨x, false, some (q, y ++ f), d⟩ := by
  induction f generalizing y with
  | nil => rw [append_nil]; rfl
  | cons c f ih =>
    rw [mem_cons, not_or] at hf
    have hstep : Tok.step ⟨x, false, some (q, y), d⟩ c = ⟨x, false, some (q, y ++ [c]), d⟩ :=
      if_neg (Ne.symm hf.1)
    rw [foldl_cons, hstep, ih hf.2, append_assoc, singleton_append]

theorem foldl_spaces (hq : t.quote = none) (hs : ∀ c ∈ s, isspace c = true) :
    s.foldl Tok.step t = ⟨t.cur, t.eow || !s.isEmpty, none, t.done⟩ := by
  induction s generalizing t with
  | nil => rw [foldl_nil, isEmpty_nil, Bool.not_true, Bool.or_false, ← hq]
  | cons c s ih =>
    obtain ⟨hc, hs⟩ := forall_mem_cons.mp hs
    rw [foldl_cons, Tok.step_space hq hc, ih rfl hs, isEmpty_cons, Bool.not_false, Bool.or_true,
      Bool.true_or]

theorem Rendered.head (hx : Rendered f x) : ∃ c w, x = c :: w ∧ isspace c = false := by
  cases hx with
  | plain _ hne hf =>
    obtain ⟨c, w, rfl⟩ := exists_cons_of_ne_nil hne
    exact ⟨c, w, rfl, (hf c mem_cons_self).1⟩
  | quoted q _ hq _ => exact ⟨q, _, rfl, Bool.eq_false_iff.mpr (isspace_quote hq)⟩

theorem Tok.Ready.foldl_rendered (h : t.Ready) (hx : Rendered f x) :
    (x.foldl Tok.step t).quote = none ∧ (x.foldl Tok.step t).flush = t.flush ++ [f] := by
  cases hx with
  | plain _ hne hf =>
    obtain ⟨c, w, rfl⟩ := exists_cons_of_ne_nil hne
    obtain ⟨hc, hw⟩ := forall_mem_cons.mp hf
    rw [foldl_cons, h.step_word hc, foldl_word hw, singleton_append]
    exact ⟨rfl, rfl⟩
  | quoted q _ hq hf =>
    have hclose : Tok.step ⟨[], false, some (q, f), t.flush⟩ q =
        ⟨[], false, none, t.flush ++ [f]⟩ := if_pos rfl
    rw [foldl_concat, foldl_cons, h.step_quote hq, foldl_body hf, nil_append, hclose]
    exact ⟨rfl, rfl⟩

theorem Line.foldl_eq (h : Line fs s) (hq : t.quote = none)
    (hready : t.Ready ∨ fs = [] ∨ ∃ c ∈ s.head?, isspace c = true) :
    (s.foldl Tok.step t).quote = none ∧ (s.foldl Tok.step t).flush = t.flush ++ fs := by
  induction h generalizing t with
  | nil sp hsp =>
    rw [foldl_spaces hq hsp, append_nil]
    exact ⟨rfl, rfl⟩
  | cons sp f x fs s hsp hx h hs ih =>
    have hspaces := foldl_spaces hq hsp
    have hready' : Tok.Ready (sp.foldl Tok.step t) := by
      rw [hspaces]
      refine ⟨rfl, ?_⟩
      rcases hready with ⟨-, heow | hcur⟩ | hnil | ⟨c, hc, hspace⟩
      · exact Or.inl (by rw [heow, Bool.true_or])
      · exact Or.inr hcur
      · cases hnil
      · cases sp with
        | nil =>
          obtain ⟨c', w, rfl, hc'⟩ := hx.head
          obtain rfl : c' = c := Option.some.inj hc
          exact absurd hspace (Bool.eq_false_iff.mp hc')
        | cons => exact Or.inl (Bool.or_true _)
    obtain ⟨hquote, hflush⟩ := hready'.foldl_rendered hx
    have hnext : fs = [] ∨ ∃ c ∈ s.head?, isspace c = true := or_iff_not_imp_left.mpr hs
    obtain ⟨hquote', hflush'⟩ := ih hquote (Or.inr hnext)
    have hsame : (sp.foldl Tok.step t).flush = t.flush := by rw [hspaces]; rfl
    rw [foldl_append, foldl_append]
    refine ⟨hquote', ?_⟩
    rw [hflush', hflush, hsame, append_assoc, singleton_append]

theorem Line.tok_eq (h : Line fs s) : (tok s).quote = none ∧ (tok s).flush = fs :=
  h.foldl_eq rfl (Or.inl ⟨rfl, Or.inr rfl⟩)

/-- `strsplitargs` inverts quoting exactly if there are not more arguments than an `int` counts down
from `n`, or more than `n` and the `int` is not negative. -/
theorem lineSplits_iff {args : Block (Option Nat)} (hlen : args.len = n) (h : Line fs s)
    (h0 : 0 ∉ s) :
    Splits args n s fs ↔
      fs.length ≤ n % 2 ^ 31 ∨ n < fs.length ∧ n % 2 ^ 32 < 2 ^ 31 := by
  obtain ⟨hq, hflush⟩ := h.tok_eq
  have hle := room_le n
  rcases Nat.lt_or_ge (room n) fs.length with hmore | hfits
  · have hrun := strsplitargs_full hlen h0 hq (hflush.symm ▸ hmore)
    have hnot : ¬ fs.length ≤ n % 2 ^ 31 := Nat.not_le.mpr hmore
    rw [Splits, hrun, or_iff_right hnot, overflow]
    constructor
    · rintro ⟨hok, herr⟩
      rcases Nat.lt_or_ge n fs.length with hlt | hge
      · refine ⟨hlt, ?_⟩
        by_contra hlow
        rw [if_neg hlow] at herr
        cases herr hlt
      · obtain ⟨a, ha, -⟩ := hok hge
        split_ifs at ha
        cases ha
    · rintro ⟨hlt, hlow⟩
      rw [if_pos hlow]
      exact ⟨fun hge => absurd hlt (Nat.not_lt.mpr hge), fun _ => rfl⟩
  · refine iff_of_true ⟨fun _ => ?_, fun hlt => absurd hlt (by omega)⟩ (Or.inl hfits)
    obtain ⟨a, hrun, hcount, hlen', hpieces⟩ := strsplitargs_fits hlen h0 hq (hflush.symm ▸ hfits)
    rw [hflush] at hcount hpieces
    exact ⟨a, hrun, hcount, hlen', hpieces⟩

theorem lineSplits_iff_three : Splits ⟨3, fun _ => none⟩ 3
    [0x20, 0x61, 0x20, 0x22, 0x62, 0x20, 0x63, 0x22, 0x20, 0x27, 0x27]
    [[0x61], [0x62, 0x20, 0x63], []] := by
  have hspace : ∀ c ∈ [(0x20 : UInt8)], isspace c = true := forall_mem_singleton.mpr rfl
  have hplain : Rendered [0x61] [0x61] :=
    Rendered.plain [0x61] (by decide) (forall_mem_singleton.mpr (by decide))
  have hquoted : Rendered [0x62, 0x20, 0x63] [0x22, 0x62, 0x20, 0x63, 0x22] :=
    Rendered.quoted 0x22 [0x62, 0x20, 0x63] (by decide) (by decide)
  have hempty : Rendered [] [0x27, 0x27] := Rendered.quoted 0x27 [] (by decide) (by decide)
  have hend := Line.cons [0x20] _ _ _ _ hspace hempty (Line.nil [] (forall_mem_nil _))
    fun h => absurd rfl h
  have hline := Line.cons [0x20] _ _ _ _ hspace hplain
    (Line.cons [0x20] _ _ _ _ hspace hquoted hend fun _ => ⟨0x20, rfl, rfl⟩)
    fun _ => ⟨0x20, rfl, rfl⟩
  exact (lineSplits_iff rfl hline (by decide)).mpr (Or.inl (by decide))

/-- An array of 2^32 entries is taken for one without entries. -/
theorem strsplitargs_truncates : Line [[0x61]] [0x61] ∧
    strsplitargs ⟨2 ^ 32, fun _ => none⟩ (2 ^ 32) (cstr [0x61]) = some (.error .enospc) ∧
    ¬ Splits ⟨2 ^ 32, fun _ => none⟩ (2 ^ 32) [0x61] [[0x61]] := by
  have hplain : Rendered [0x61] [0x61] :=
    Rendered.plain [0x61] (by decide) (forall_mem_singleton.mpr (by decide))
  have hline : Line [[0x61]] [0x61] := Line.cons [] [0x61] [0x61] [] [] (forall_mem_nil _) hplain
    (Line.nil [] (forall_mem_nil _)) fun h => absurd rfl h
  have hrun : strsplitargs ⟨2 ^ 32, fun _ => none⟩ (2 ^ 32) (cstr [0x61]) =
      some (.error .enospc) := by
    rw [strsplitargs_full rfl (by decide) (by decide) (by decide)]
    rfl
  refine ⟨hline, hrun, fun h => ?_⟩
  obtain ⟨a, ha, -⟩ := h.1 (by decide)
  rw [hrun] at ha
  cases ha

/-! ## The characters of the arguments -/

/-- A line as a shell reads it: the quote that is open, whether a word goes on, the characters
without unquoted white space and quoting quotes, and how many words and quotes have begun. -/
structure Shell where
  quote : Option UInt8
  word : Bool
  out : List UInt8
  parts : Nat

def Shell.step (k : Shell) (c : UInt8) : Shell :=
  match k.quote with
  | some q =>
    if c = q then ⟨none, false, k.out, k.parts⟩ else ⟨some q, false, k.out ++ [c], k.parts⟩
  | none =>
    if isspace c then ⟨none, false, k.out, k.parts⟩
    else if IsQuote c then ⟨some c, false, k.out, k.parts + 1⟩
    else ⟨none, true, k.out ++ [c], if k.word then k.parts else k.parts + 1⟩

def shell (s : List UInt8) : Shell := s.foldl Shell.step ⟨none, false, [], 0⟩

/-- A quote opens directly behind an unquoted character. -/
def Glued (s : List UInt8) : Prop :=
  ∃ p q r, s = p ++ q :: r ∧ (shell p).word = true ∧ IsQuote q

/-- The arguments, put together, are the characters of the line. -/
def Keeps (args : Block (Option Nat)) (n : Nat) (s : List UInt8) : Prop :=
  ∃ a fs, strsplitargs args n (cstr s) = some (.ok a) ∧ a.i = fs.length ∧
    Pieces 0 a.s (s.length + 1) a.args fs ∧ (∀ f ∈ fs, 0 ∉ f) ∧ fs.flatten = (shell s).out

variable {k : Shell}

theorem shell_concat : shell (s ++ [c]) = (shell s).step c := foldl_concat _ _ _ _

theorem glued_nil : ¬ Glued [] := by
  rintro ⟨p, q, r, hs, -⟩
  exact append_ne_nil_of_right_ne_nil p (cons_ne_nil q r) hs.symm

theorem glued_concat : Glued (s ++ [c]) ↔ Glued s ∨ (shell s).word = true ∧ IsQuote c := by
  constructor
  · rintro ⟨p, q, r, hs, hword, hq⟩
    rcases eq_nil_or_concat r with rfl | ⟨r, x, rfl⟩
    · obtain ⟨rfl, hcq⟩ := append_inj' hs rfl
      exact Or.inr ⟨hword, (singleton_injective hcq) ▸ hq⟩
    · rw [concat_eq_append, ← cons_append, ← append_assoc] at hs
      exact Or.inl ⟨p, q, r, (append_inj' hs rfl).1, hword, hq⟩
  · rintro (⟨p, q, r, rfl, hword, hq⟩ | ⟨hword, hc⟩)
    · exact ⟨p, q, r ++ [c], by rw [append_assoc, cons_append], hword, hq⟩
    · exact ⟨s, c, [], rfl, hword, hc⟩

/-- The same quote is open, and a word goes on in both. -/
structure Agrees (t : Tok) (k : Shell) : Prop where
  quote : k.quote = t.quote.map Prod.fst
  word : k.word = true ↔ t.quote = none ∧ t.eow = false ∧ t.cur ≠ []

theorem Agrees.step (h : Agrees t k) : Agrees (t.step c) (k.step c) := by
  have hquote := h.quote
  rw [Tok.step, Shell.step]
  rcases hq : t.quote with _ | ⟨q, body⟩
  · rw [hq] at hquote
    rw [hquote]
    dsimp only [Option.map_none]
    by_cases hspace : isspace c = true
    · rw [if_pos hspace, if_pos hspace]
      exact ⟨rfl, by simp⟩
    · rw [if_neg hspace, if_neg hspace]
      by_cases hc : IsQuote c
      · rw [if_pos hc, if_pos hc]
        split_ifs
        all_goals exact ⟨rfl, by simp⟩
      · rw [if_neg hc, if_neg hc]
        split_ifs
        all_goals exact ⟨rfl, by simp⟩
  · rw [hq] at hquote
    rw [hquote]
    dsimp only [Option.map_some]
    split_ifs
    all_goals exact ⟨rfl, by simp⟩

def Tok.out (t : Tok) : List UInt8 :=
  t.done.flatten ++ match t.quote with
    | none => t.cur
    | some _ => t.text.tail

def Tok.parts (t : Tok) : Nat :=
  match t.quote with
  | none => t.flush.length
  | some _ => t.done.length + 1

/-- Nothing is lost yet. -/
structure Exact (t : Tok) (k : Shell) : Prop where
  out : k.out = t.out
  parts : k.parts = t.parts
  cur : t.quote ≠ none → t.cur = []

theorem Tok.flatten_flush : t.flush.flatten = t.done.flatten ++ t.cur := by
  rw [Tok.flush]
  split_ifs with hcur
  · rw [hcur, append_nil]
  · rw [flatten_append, flatten_singleton]

theorem Agrees.ready_iff (h : Agrees t k) (hq : t.quote = none) : t.Ready ↔ k.word = false := by
  rw [← Bool.not_eq_true, h.word, Tok.Ready, and_iff_right hq, and_iff_right hq,
    ← Bool.not_eq_true, not_and_not_right, imp_iff_not_or, not_not]

theorem Tok.step_goesOn (hq : t.quote = none) (h : ¬ t.Ready) (hspace : ¬ isspace c = true) :
    t.step c = if IsQuote c then ⟨t.cur, false, some (c, []), t.done⟩
      else ⟨t.cur ++ [c], false, none, t.done⟩ := by
  have heow : ¬ t.eow = true := fun heow => h ⟨hq, Or.inl heow⟩
  rw [Tok.step, hq]
  dsimp only
  rw [if_neg hspace, if_neg heow, if_neg heow]

theorem Tok.out_of_none (hq : t.quote = none) : t.out = t.done.flatten ++ t.cur := by
  rw [Tok.out, hq]

theorem Tok.out_of_some {body : List UInt8} (hq : t.quote = some (q, body)) :
    t.out = t.done.flatten ++ (t.cur ++ q :: body).tail := by
  rw [Tok.out, Tok.text_of_some hq, hq]

theorem Tok.out_push {body : List UInt8} (hq : t.quote = some (q, body)) :
    Tok.out ⟨t.cur, false, some (q, body ++ [c]), t.done⟩ = t.out ++ [c] := by
  have hne : t.cur ++ q :: body ≠ [] := append_ne_nil_of_right_ne_nil _ (cons_ne_nil _ _)
  rw [Tok.out_of_some hq, Tok.out_of_some rfl, append_assoc, ← tail_append_of_ne_nil hne,
    append_assoc, cons_append]

theorem Tok.out_close {body : List UInt8} (hq : t.quote = some (q, body)) :
    (t.done ++ [t.text.tail]).flatten = t.out := by
  rw [flatten_append, flatten_singleton, Tok.text_of_some hq, Tok.out_of_some hq]

theorem Exact.step (h : Exact t k) (ha : Agrees t k) (hglue : ¬ (k.word = true ∧ IsQuote c)) :
    Exact (t.step c) (k.step c) := by
  have hquote := ha.quote
  have hout := h.out
  have hparts := h.parts
  rw [Tok.parts] at hparts
  rw [Shell.step]
  rcases hq : t.quote with _ | ⟨q, body⟩
  · rw [hq] at hquote hparts
    rw [Tok.out_of_none hq] at hout
    rw [hquote]
    dsimp only [Option.map_none] at hparts ⊢
    by_cases hspace : isspace c = true
    · rw [if_pos hspace, Tok.step_space hq hspace]
      exact ⟨hout, hparts, fun hne => absurd rfl hne⟩
    · rw [if_neg hspace]
      by_cases hc : IsQuote c
      -- a quote inside a word would be glued to it, so one can only open an argument
      · have hready : t.Ready := (ha.ready_iff hq).mpr
          (Bool.eq_false_iff.mpr fun hword => hglue ⟨hword, hc⟩)
        rw [if_pos hc, hready.step_quote hc]
        refine ⟨?_, congrArg (· + 1) hparts, fun _ => rfl⟩
        rw [Tok.out_of_some rfl, Tok.flatten_flush, hout]
        exact (append_nil _).symm
      · rw [if_neg hc]
        by_cases hready : t.Ready
        · have hword := (ha.ready_iff hq).mp hready
          rw [hready.step_word ⟨Bool.eq_false_iff.mpr hspace, hc⟩, hword]
          refine ⟨?_, ?_, fun hne => absurd rfl hne⟩
          · rw [Tok.out_of_none rfl, Tok.flatten_flush, hout]
          · change k.parts + 1 = (t.flush ++ [[c]]).length
            rw [hparts, length_append, length_singleton]
        · have hword : k.word = true := by
            rw [← Bool.not_eq_false, ← ha.ready_iff hq]
            exact hready
          -- the character continues the word in both
          have hcur : t.cur ≠ [] := fun hcur => hready ⟨hq, Or.inr hcur⟩
          have hne : t.cur ++ [c] ≠ [] := concat_ne_nil _ _
          rw [Tok.step_goesOn hq hready hspace, if_neg hc, hword]
          refine ⟨?_, ?_, fun hne => absurd rfl hne⟩
          · rw [Tok.out_of_none rfl, hout, append_assoc]
          · rw [Tok.flush, if_neg hcur, length_append] at hparts
            rw [Tok.parts, Tok.flush, if_neg hne, length_append]
            exact hparts
  · rw [hq] at hquote hparts
    rw [hquote, Tok.step, hq]
    dsimp only [Option.map_some] at hparts ⊢
    split_ifs with hclose
    · refine ⟨?_, ?_, fun hne => absurd rfl hne⟩
      · rw [Tok.out_of_none rfl, append_nil, Tok.out_close hq, hout]
      · rw [Tok.parts, Tok.flush, if_pos rfl, length_append]
        exact hparts
    · refine ⟨?_, hparts, fun _ => h.cur (hq ▸ Option.some_ne_none _)⟩
      rw [Tok.out_push hq, hout]

def Broken (t : Tok) (k : Shell) : Prop :=
  ∃ x y : List UInt8, x.length = y.length ∧ x ≠ y ∧ x <+: k.out ∧
    (y <+: t.done.flatten ∨ t.quote ≠ none ∧ y <+: t.out)

theorem Shell.out_step : k.out <+: (k.step c).out := by
  rw [Shell.step]
  split
  · split_ifs
    · exact prefix_rfl
    · exact prefix_append _ _
  · split_ifs
    · exact prefix_rfl
    · exact prefix_rfl
    all_goals exact prefix_append _ _

theorem Tok.flatten_step : t.done.flatten <+: (t.step c).done.flatten := by
  have hflush : t.done.flatten <+: t.flush.flatten := Tok.flatten_flush ▸ prefix_append _ _
  rw [Tok.step]
  split
  · split_ifs
    · exact flatten_append ▸ prefix_append _ _
    · exact prefix_rfl
  · split_ifs
    · exact prefix_rfl
    · exact hflush
    · exact prefix_rfl
    · exact hflush
    · exact prefix_rfl

theorem Broken.step (h : Broken t k) : Broken (t.step c) (k.step c) := by
  obtain ⟨x, y, hlen, hne, hx, hy⟩ := h
  refine ⟨x, y, hlen, hne, hx.trans Shell.out_step, ?_⟩
  rcases hy with hy | ⟨hopen, hy⟩
  · exact Or.inl (hy.trans Tok.flatten_step)
  · obtain ⟨⟨q, body⟩, hq⟩ := Option.ne_none_iff_exists'.mp hopen
    rw [Tok.step, hq]
    dsimp only
    split_ifs
    · left
      rw [Tok.out_close hq]
      exact hy
    · right
      rw [Tok.out_push hq]
      exact ⟨Option.some_ne_none _, hy.trans (prefix_append _ _)⟩

theorem Exact.glue (h : Exact t k) (ha : Agrees t k) (ht : t.Sound) (hword : k.word = true)
    (hc : IsQuote c) : Broken (t.step c) (k.step c) := by
  obtain ⟨hq, heow, hcur⟩ := ha.word.mp hword
  have hready : ¬ t.Ready := fun hready => by
    rw [(ha.ready_iff hq).mp hready] at hword
    cases hword
  have hout := h.out
  rw [Tok.out_of_none hq] at hout
  rw [Tok.step_goesOn hq hready (isspace_quote hc), if_pos hc]
  refine ⟨k.out, t.done.flatten ++ (t.cur ++ [c]).tail, ?_, ?_, Shell.out_step,
    Or.inr ⟨Option.some_ne_none _, prefix_rfl⟩⟩
  · rw [hout, length_append, length_append, length_tail, length_append, length_singleton,
      Nat.add_sub_cancel]
  · intro heq
    rw [hout, tail_append_of_ne_nil hcur] at heq
    have hmem : c ∈ t.cur := append_cancel_left heq ▸ mem_append_right _ (mem_singleton_self c)
    exact (ht.cur c hmem).2 hc

/-- Without a quote behind a word nothing is lost, and with one the characters are others. -/
theorem exact_or_broken (h0 : 0 ∉ s) : Agrees (tok s) (shell s) ∧
    (¬ Glued s ∧ Exact (tok s) (shell s) ∨ Glued s ∧ Broken (tok s) (shell s)) := by
  induction s using reverseRecOn with
  | nil =>
    exact ⟨⟨rfl, by decide⟩, Or.inl ⟨glued_nil, rfl, rfl, fun _ => rfl⟩⟩
  | append_singleton s c ih =>
    rw [mem_append, not_or] at h0
    obtain ⟨ha, ih⟩ := ih h0.1
    rw [tok_concat, shell_concat, glued_concat]
    refine ⟨ha.step, ?_⟩
    rcases ih with ⟨hnot, hexact⟩ | ⟨hglued, hbroken⟩
    · rw [or_iff_right hnot]
      by_cases hglue : (shell s).word = true ∧ IsQuote c
      · exact Or.inr ⟨hglue, hexact.glue ha (sound_tok h0.1) hglue.1 hglue.2⟩
      · exact Or.inl ⟨hglue, hexact.step ha hglue⟩
    · exact Or.inr ⟨Or.inl hglued, hbroken.step⟩

theorem Broken.flatten_ne (h : Broken t k) (hq : t.quote = none) : t.flush.flatten ≠ k.out := by
  obtain ⟨x, y, hlen, hne, hx, hy⟩ := h
  intro heq
  have hy' : y <+: k.out := by
    rw [← heq, Tok.flatten_flush]
    exact (hy.resolve_right fun h => h.1 hq).trans (prefix_append _ _)
  exact hne ((prefix_of_prefix_length_le hx hy' hlen.le).eq_of_length hlen)

theorem Tok.mem_out_step {z : UInt8} (h : z ∈ (t.step c).out) : z ∈ t.out ∨ z = c := by
  rcases hq : t.quote with _ | ⟨q, body⟩
  · by_cases hspace : isspace c = true
    · rw [Tok.step_space hq hspace] at h
      exact Or.inl (Tok.out_of_none hq ▸ h)
    · rw [Tok.out_of_none hq]
      by_cases hready : t.Ready
      · by_cases hc : IsQuote c
        · rw [hready.step_quote hc, Tok.out_of_some rfl, Tok.flatten_flush] at h
          exact Or.inl ((mem_append.mp h).resolve_right not_mem_nil)
        · rw [hready.step_word ⟨Bool.eq_false_iff.mpr hspace, hc⟩, Tok.out_of_none rfl,
            Tok.flatten_flush, mem_append, mem_singleton] at h
          exact h
      · rw [Tok.step_goesOn hq hready hspace] at h
        split_ifs at h
        · rw [Tok.out_of_some rfl, mem_append] at h
          rw [mem_append, or_assoc]
          refine h.imp_right fun htail => ?_
          exact (mem_append.mp (mem_of_mem_tail htail)).imp_right mem_singleton.mp
        · rw [Tok.out_of_none rfl, ← append_assoc, mem_append, mem_singleton] at h
          exact h
  · rw [Tok.step, hq] at h
    dsimp only at h
    split_ifs at h
    · rw [Tok.out_of_none rfl, append_nil, Tok.out_close hq] at h
      exact Or.inl h
    · rw [Tok.out_push hq, mem_append, mem_singleton] at h
      exact h

theorem nul_not_mem_out (h0 : 0 ∉ s) : 0 ∉ (tok s).out := by
  induction s using reverseRecOn with
  | nil => exact not_mem_nil
  | append_singleton s c ih =>
    rw [mem_append, not_or, mem_singleton] at h0
    rw [tok_concat]
    exact fun hmem => (Tok.mem_out_step hmem).elim (ih h0.1) h0.2

theorem keeps_iff_flush {args : Block (Option Nat)} (hlen : args.len = n) (h0 : 0 ∉ s)
    (hq : (tok s).quote = none) : Keeps args n s ↔
      (tok s).flush.length ≤ room n ∧ (tok s).flush.flatten = (shell s).out := by
  have hnul : ∀ f ∈ (tok s).flush, 0 ∉ f := by
    intro f hf hmem
    refine nul_not_mem_out h0 ?_
    rw [Tok.out_of_none hq, ← Tok.flatten_flush]
    exact mem_flatten.mpr ⟨f, hf, hmem⟩
  constructor
  · rintro ⟨a, fs, hrun, hcount, hpieces, hfs, hout⟩
    rcases Nat.lt_or_ge (room n) (tok s).flush.length with hmore | hfits
    · rw [strsplitargs_full hlen h0 hq hmore, overflow] at hrun
      split_ifs at hrun
      cases hrun
    · obtain ⟨a', hrun', hcount', -, hpieces'⟩ := strsplitargs_fits hlen h0 hq hfits
      rw [hrun] at hrun'
      cases hrun'
      have heq := hpieces'.unique hpieces (hcount'.symm.trans hcount) hnul hfs
      exact ⟨hfits, heq ▸ hout⟩
  · rintro ⟨hfits, hout⟩
    obtain ⟨a, hrun, hcount, -, hpieces⟩ := strsplitargs_fits hlen h0 hq hfits
    exact ⟨a, _, hrun, hcount, hpieces, hnul, hout⟩

/-- `strsplitargs` keeps the characters of a line exactly if no quote opens directly behind a word
and there are not more words and quotes than an `int` counts down from `n`. -/
theorem keeps_iff {args : Block (Option Nat)} (hlen : args.len = n) (h0 : 0 ∉ s)
    (hbalanced : (shell s).quote = none) :
    Keeps args n s ↔ ¬ Glued s ∧ (shell s).parts ≤ n % 2 ^ 31 := by
  obtain ⟨ha, hcases⟩ := exact_or_broken h0
  have hq : (tok s).quote = none := by
    have hquote := ha.quote
    rw [hbalanced] at hquote
    exact Option.map_eq_none_iff.mp hquote.symm
  rw [keeps_iff_flush hlen h0 hq]
  rcases hcases with ⟨hnot, hexact⟩ | ⟨hglued, hbroken⟩
  · have hparts := hexact.parts
    rw [Tok.parts, hq] at hparts
    have hout : (tok s).flush.flatten = (shell s).out := by
      rw [hexact.out, Tok.out_of_none hq, Tok.flatten_flush]
    rw [hparts, and_iff_right hnot, and_iff_left hout]
    rfl
  · exact iff_of_false (fun h => hbroken.flatten_ne hq h.2) fun h => h.1 hglued

theorem keeps_iff_three : Keeps ⟨3, fun _ => none⟩ 3 [0x61, 0x20, 0x22, 0x62, 0x22, 0x63] := by
  refine (keeps_iff rfl (by decide) (by decide)).mpr ⟨?_, by decide⟩
  change ¬ Glued ([] ++ [0x61] ++ [0x20] ++ [0x22] ++ [0x62] ++ [0x22] ++ [0x63])
  simp only [glued_concat, glued_nil, false_or]
  decide

/-- `ab"cd"` becomes `b"cd`. -/
theorem strsplitargs_loses :
    ((strsplitargs ⟨2, fun _ => none⟩ 2 (cstr [0x61, 0x62, 0x22, 0x63, 0x64, 0x22])).map
      (Except.map fun a => (a.i, a.args.cells 0, a.s.first 7))) =
        some (.ok (1, some 1, some [0x61, 0x62, 0x22, 0x63, 0x64, 0, 0])) ∧
      ¬ Keeps ⟨2, fun _ => none⟩ 2 [0x61, 0x62, 0x22, 0x63, 0x64, 0x22] :=
  ⟨by decide, fun h => absurd ((keeps_iff_flush rfl (by decide) (by decide)).mp h).2 (by decide)⟩

end PortableLib.SplitArgs
