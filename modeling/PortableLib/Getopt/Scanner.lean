import PortableLib.Getopt.Parse

/-! The place of the scanner in the argument vector. Between two calls `argv` is the words that are
done, the operands that were skipped, the option words behind them and the rest; a rotation is due
when an operand follows, or at the end. -/

namespace PortableLib.Getopt
open List Juggling

variable {cfg : Config} {L : Long} {A N O R W : List Str} {w place : Str} {st st' : State}
  {seen : Bool} {k n : Nat}

theorem gcdLoop_eq {fuel a b : Nat} (hb : 0 < b) (hfuel : b < fuel) :
    gcdLoop fuel a b = some (a.gcd b) := by
  induction fuel generalizing a b with
  | zero => exact absurd hfuel (Nat.not_lt_zero b)
  | succ fuel ih =>
    rw [gcdLoop, if_neg (Nat.ne_of_gt hb)]
    split
    · next hmod => rw [Nat.gcd_comm, Nat.gcd_eq_left (Nat.dvd_of_mod_eq_zero hmod)]
    · next hmod =>
      have hlt : a % b < b := Nat.mod_lt a hb
      rw [ih (Nat.pos_of_ne_zero hmod) (by omega), Nat.gcd_comm b, ← Nat.gcd_rec b a, Nat.gcd_comm]

theorem permuteArgs_blocks (hO : O ≠ []) :
    permuteArgs A.length (A.length + N.length) (A.length + (N.length + O.length))
        (fun i => (A ++ (N ++ (O ++ R)))[i]?) =
      some fun i => (A ++ (O ++ (N ++ R)))[i]? := by
  have hpos : 0 < O.length := length_pos_iff.mpr hO
  rw [← followAll_blocks hO]
  simp only [permuteArgs]
  rw [show A.length + N.length - A.length = N.length by omega,
    show A.length + (N.length + O.length) - (A.length + N.length) = O.length by omega,
    show A.length + (N.length + O.length) - A.length = N.length + O.length by omega, gcd,
    gcdLoop_eq hpos (Nat.lt_succ_self _)]
  rfl

/-- The place of the scanner: the words that are done, the operands that were skipped, the options
behind them, of which there are some if `seen`, and the rest, `k` words of which are read. -/
structure At (cfg : Config) (A N O R : List Str) (seen : Bool) (k : Nat) (place : Str)
    (st : State) : Prop where
  prog : A ≠ []
  nargv : st.nargv = fun i => (A ++ (N ++ (O ++ R)))[i]?
  nargc : cfg.nargc = A.length + (N.length + (O.length + R.length))
  optind : st.optind = A.length + (N.length + O.length) + k
  optreset : st.optreset = false
  place : st.place = place
  nonoptStart : st.nonoptStart = if N = [] then none else some A.length
  nonoptEnd : st.nonoptEnd = if N = [] ∨ seen = false then none else some (A.length + N.length)

def Between (cfg : Config) (A N O R : List Str) (st : State) : Prop :=
  At cfg A N O R (O ≠ []) 0 [] st

theorem At.take (h : At cfg A N O (W ++ R) seen (W.length + k) place st) :
    At cfg A N (O ++ W) R seen k place st where
  prog := h.prog
  nargv := by rw [h.nargv, append_assoc]
  nargc := by
    rw [h.nargc, length_append, length_append]
    omega
  optind := by
    rw [h.optind, length_append]
    omega
  optreset := h.optreset
  place := h.place
  nonoptStart := h.nonoptStart
  nonoptEnd := h.nonoptEnd

theorem At.taken (h : At cfg A N O (w :: R) seen (k + 1) place st) (hk : k ≤ R.length) :
    At cfg A N (O ++ w :: R.take k) (R.drop k) seen 0 place st := by
  have hlen : (w :: R.take k).length = k + 1 := by rw [length_cons, length_take_of_le hk]
  have hsplit : w :: R = (w :: R.take k) ++ R.drop k := by rw [cons_append, take_append_drop]
  rw [hsplit, ← hlen, ← Nat.add_zero (w :: R.take k).length] at h
  exact h.take

theorem At.between (h : At cfg A N O (w :: R) true (k + 1) [] st) (hk : k ≤ R.length) :
    Between cfg A N (O ++ w :: R.take k) (R.drop k) st := by
  rw [Between, decide_eq_true (append_ne_nil_of_right_ne_nil O (cons_ne_nil w _))]
  exact h.taken hk

theorem At.nargv_get (h : At cfg A N O R seen k place st) : st.nargv st.optind = R[k]? := by
  have hlen : A.length + (N.length + O.length) + k = (A ++ (N ++ O)).length + k := by
    rw [length_append, length_append]
  have hsplit : A ++ (N ++ (O ++ R)) = A ++ (N ++ O) ++ R := by simp only [append_assoc]
  rw [h.nargv, h.optind, hlen]
  change (A ++ (N ++ (O ++ R)))[(A ++ (N ++ O)).length + k]? = R[k]?
  rw [hsplit, getElem?_add]

theorem At.nargc_le (h : At cfg A N O R seen k place st) :
    cfg.nargc ≤ st.optind ↔ R.length ≤ k := by
  rw [h.nargc, h.optind]
  omega

theorem At.permute (h : At cfg A N O R true 0 place st) (hO : O ≠ []) :
    ∃ st', Getopt.permute st = some st' ∧ st'.nargv = (fun i => (A ++ (O ++ (N ++ R)))[i]?) ∧
      st'.optind = A.length + O.length ∧ st'.out = st.out ∧ st'.place = st.place ∧
      st'.optreset = st.optreset := by
  have hstart := h.nonoptStart
  have hend := h.nonoptEnd
  have hind := h.optind
  have hnargv := h.nargv
  rw [Getopt.permute]
  by_cases hN : N = []
  · subst hN
    rw [if_pos rfl] at hstart
    rw [hstart]
    refine ⟨st, rfl, ?_, ?_, rfl, rfl, rfl⟩
    · rw [hnargv]
      rfl
    · rw [hind]
      simp only [length_nil, Nat.zero_add, Nat.add_zero]
  · rw [if_neg hN] at hstart
    rw [if_neg (by simp only [hN, Bool.true_eq_false, or_self, not_false_eq_true])] at hend
    rw [hstart, hend, hind, Nat.add_zero, hnargv]
    simp only [permuteArgs_blocks hO]
    refine ⟨_, rfl, rfl, ?_, rfl, rfl, rfl⟩
    change A.length + (N.length + O.length) - (A.length + N.length - A.length) = _
    omega

theorem Between.skip (h : Between cfg A N O (w :: R) st) :
    ∃ st', Getopt.skip st = some st' ∧ Between cfg (A ++ O) (N ++ [w]) [] R st' ∧
      st'.out = st.out := by
  have hnargc := h.nargc
  have hind := h.optind
  have hplaces : ∀ {st' : State}, st'.nargv = (fun i => (A ++ (O ++ (N ++ w :: R)))[i]?) →
      st'.optind = st.optind + 1 → st'.optreset = st.optreset → st'.place = st.place →
      st'.nonoptStart = some (A.length + O.length) → st'.nonoptEnd = none →
      Between cfg (A ++ O) (N ++ [w]) [] R st' := by
    intro st' hnargv hoptind hreset hplace hstart hend
    refine ⟨append_ne_nil_of_left_ne_nil h.prog O, ?_, ?_, ?_, hreset.trans h.optreset,
      hplace.trans h.place, ?_, ?_⟩
    · rw [hnargv]
      simp only [append_assoc, nil_append, singleton_append]
    · rw [hnargc]
      simp only [length_append, length_cons, length_nil]
      omega
    · rw [hoptind, hind]
      simp only [length_append, length_cons, length_nil]
      omega
    · rw [hstart, if_neg (append_ne_nil_of_right_ne_nil N (cons_ne_nil w [])), length_append]
    · rw [hend, if_pos (.inr (decide_eq_false (not_not_intro rfl)))]
  have hstart := h.nonoptStart
  have hend := h.nonoptEnd
  rw [Getopt.skip]
  by_cases hN : N = []
  · subst hN
    rw [if_pos rfl] at hstart
    rw [hstart]
    refine ⟨_, rfl, hplaces h.nargv rfl rfl rfl ?_ ?_, rfl⟩
    · change some st.optind = _
      rw [hind]
      simp only [length_nil, Nat.zero_add, Nat.add_zero]
    · exact hend.trans (if_pos (.inl rfl))
  · rw [if_neg hN] at hstart
    by_cases hO : O = []
    · subst hO
      rw [if_pos (.inr (decide_eq_false (not_not_intro rfl)))] at hend
      rw [hstart, hend]
      exact ⟨_, rfl, hplaces h.nargv rfl rfl rfl hstart hend, rfl⟩
    · rw [if_neg (by simp only [hN, hO, ne_eq, not_false_eq_true, decide_true,
        Bool.true_eq_false, or_self])] at hend
      have hrotate := permuteArgs_blocks (A := A) (N := N) (R := w :: R) hO
      rw [hstart, hend]
      simp only [h.nargv, hind, Nat.add_zero, hrotate]
      refine ⟨_, rfl, hplaces rfl ?_ rfl rfl ?_ rfl, rfl⟩
      · rw [hind]
      · change some (A.length + (N.length + O.length) - (A.length + N.length - A.length)) = _
        rw [show A.length + (N.length + O.length) - (A.length + N.length - A.length) =
          A.length + O.length by omega]

theorem prefix_one {a : UInt8} {l : Str} : [a] <+: l ↔ l.head? = some a := by
  cases l with
  | nil => exact ⟨fun h => absurd (prefix_nil.mp h) (cons_ne_nil a []), nofun⟩
  | cons b l =>
    rw [cons_prefix_cons, head?_cons, Option.some.injEq]
    exact ⟨fun h => h.1.symm, fun h => ⟨h.symm, nil_prefix⟩⟩

theorem prefix_two {a b : UInt8} {l : Str} :
    [a, b] <+: l ↔ l.head? = some a ∧ l.tail.head? = some b := by
  cases l with
  | nil => exact ⟨fun h => absurd (prefix_nil.mp h) (cons_ne_nil a [b]), nofun⟩
  | cons c l =>
    rw [cons_prefix_cons, prefix_one, head?_cons, Option.some.injEq, tail_cons, eq_comm]

theorem findLetter_kind (cfg : Config) (c : UInt8) :
    match kind cfg c with
    | .unknown => findLetter cfg c = none
    | .long => ∃ oli, findLetter cfg c = some oli ∧ c = 0x57 ∧ oli.tail.head? = some 0x3b
    | .flag => ∃ oli, findLetter cfg c = some oli ∧ ¬(c = 0x57 ∧ oli.tail.head? = some 0x3b) ∧
      oli.tail.head? ≠ some 0x3a
    | .required => ∃ oli, findLetter cfg c = some oli ∧
      ¬(c = 0x57 ∧ oli.tail.head? = some 0x3b) ∧ oli.tail.head? = some 0x3a ∧
        oli.tail.tail.head? ≠ some 0x3a
    | .optional => ∃ oli, findLetter cfg c = some oli ∧
      ¬(c = 0x57 ∧ oli.tail.head? = some 0x3b) ∧ oli.tail.head? = some 0x3a ∧
        oli.tail.tail.head? = some 0x3a := by
  simp only [kind, findLetter, strchr]
  by_cases hcolon : c = 0x3a
  · rw [if_pos hcolon, if_pos hcolon]
  rw [if_neg hcolon, if_neg hcolon]
  cases hdrop : (if ignoreFirst cfg then cfg.options.tail else cfg.options).dropWhile
      (· != c) with
  | nil => rfl
  | cons x marks =>
    simp only [prefix_one, prefix_two]
    by_cases hlong : c = 0x57 ∧ marks.head? = some 0x3b
    · rw [if_pos hlong]
      exact ⟨_, rfl, hlong⟩
    rw [if_neg hlong]
    by_cases hone : marks.head? = some 0x3a
    · by_cases htwo : marks.tail.head? = some 0x3a
      · rw [if_pos ⟨hone, htwo⟩]
        exact ⟨_, rfl, hlong, hone, htwo⟩
      · rw [if_neg fun h => htwo h.2, if_pos hone]
        exact ⟨_, rfl, hlong, hone, htwo⟩
    · rw [if_neg fun h => hone h.1, if_neg hone]
      exact ⟨_, rfl, hlong, hone⟩

theorem At.move (h : At cfg A N O R seen k place st) (j : Nat) (place' : Str) (o : Out) :
    At cfg A N O R seen (k + j) place'
      { st with optind := st.optind + j, place := place', out := o } where
  prog := h.prog
  nargv := h.nargv
  nargc := h.nargc
  optind := by
    change st.optind + j = _
    rw [h.optind, Nat.add_assoc]
  optreset := h.optreset
  place := rfl
  nonoptStart := h.nonoptStart
  nonoptEnd := h.nonoptEnd

def Lettered (cfg : Config) (A N O : List Str) (w : Str) (R : List Str) (cs : Str) (st : State) :
    Letter → Prop
  | .event e more k => k ≤ R.length ∧ ∃ st', optLetter cfg st = some (e.retval, st') ∧
      st'.out = e.out cfg st.out ∧
      if more then At cfg A N O (w :: R) true 0 cs st'
      else At cfg A N O (w :: R) true (k + 1) [] st'
  | .long arg k => k ≤ R.length ∧ ∃ st', optLetter cfg st = some (-2, st') ∧ st'.out = st.out ∧
      At cfg A N O (w :: R) true k arg st'

variable {c : UInt8} {cs : Str}

theorem At.nextWord (h : At cfg A N O (w :: R) true 0 place st) (o : Out) :
    if cs ≠ [] then
      At cfg A N O (w :: R) true 0 cs { Getopt.nextWord { st with place := cs } with out := o }
    else At cfg A N O (w :: R) true 1 []
      { Getopt.nextWord { st with place := cs } with out := o } := by
  by_cases hcs : cs = []
  · subst hcs
    rw [if_neg (not_not_intro rfl)]
    exact h.move 1 [] o
  · rw [if_pos hcs, Getopt.nextWord, if_neg hcs]
    exact h.move 0 cs o

theorem Out.optarg_none {o : Out} (h : o.optarg = none) : { o with optarg := none } = o := by
  rw [← h]

theorem out_option (c : UInt8) (arg : Option Str) (o : Out) :
    (Event.option c arg).out cfg o = { o with optarg := arg } := rfl

theorem out_error {o : Out} (h : o.optarg = none) (r b : Int) (m : Message) :
    (Event.error r b m).out cfg o = { warnx cfg m o with optopt := b } := by
  simp only [Event.out, Event.error, Out.optarg_none h]

theorem optLetter_unknown (h : At cfg A N O (w :: R) true 0 (c :: cs) st)
    (harg : st.out.optarg = none) (hk : kind cfg c = .unknown) :
    Lettered cfg A N O w R cs st (letter cfg c cs R) := by
  have hfind := findLetter_kind cfg c
  rw [hk] at hfind
  simp only [letter, hk, optLetter, h.place, hfind, Lettered, decide_eq_true_eq]
  refine ⟨Nat.zero_le _, _, rfl, ?_, h.nextWord _⟩
  rw [Event.unknown, out_error harg]
  simp only [nextWord]
  split
  all_goals rfl

theorem optLetter_flag (h : At cfg A N O (w :: R) true 0 (c :: cs) st)
    (harg : st.out.optarg = none) (hk : kind cfg c = .flag) :
    Lettered cfg A N O w R cs st (letter cfg c cs R) := by
  have hfind := findLetter_kind cfg c
  rw [hk] at hfind
  obtain ⟨oli, hfind, hlong, hone⟩ := hfind
  simp only [letter, hk, optLetter, h.place, hfind, if_neg hlong, if_pos hone, Lettered,
    decide_eq_true_eq]
  have hout : (nextWord { st with place := cs }).out = st.out := by
    rw [nextWord]
    split
    all_goals rfl
  refine ⟨Nat.zero_le _, _, rfl, ?_, ?_⟩
  · rw [out_option, Out.optarg_none harg, hout]
  · exact h.nextWord (nextWord { st with place := cs }).out

theorem optLetter_optional (h : At cfg A N O (w :: R) true 0 (c :: cs) st)
    (hk : kind cfg c = .optional) :
    Lettered cfg A N O w R cs st (letter cfg c cs R) := by
  have hfind := findLetter_kind cfg c
  rw [hk] at hfind
  obtain ⟨oli, hfind, hlong, hone, htwo⟩ := hfind
  simp only [letter, hk, Lettered]
  refine ⟨Nat.zero_le _, ?_⟩
  simp only [optLetter, h.place, hfind]
  rw [if_neg hlong, if_neg (not_not_intro hone)]
  by_cases hcs : cs = []
  · rw [if_neg (not_not_intro hcs), if_neg (not_not_intro htwo), if_pos hcs]
    exact ⟨_, rfl, rfl, h.move 1 [] _⟩
  · rw [if_pos hcs, if_neg hcs]
    exact ⟨_, rfl, rfl, h.move 1 [] _⟩

theorem optLetter_required (h : At cfg A N O (w :: R) true 0 (c :: cs) st)
    (harg : st.out.optarg = none) (hk : kind cfg c = .required) :
    Lettered cfg A N O w R cs st (letter cfg c cs R) := by
  have hfind := findLetter_kind cfg c
  rw [hk] at hfind
  obtain ⟨oli, hfind, hlong, hone, htwo⟩ := hfind
  have hnext : cfg.nargc ≤ st.optind + 1 ↔ (w :: R).length ≤ 1 := (h.move 1 cs st.out).nargc_le
  have hget : st.nargv (st.optind + 1) = R[0]? := (h.move 1 cs st.out).nargv_get
  have hread : optLetter cfg st = if cs ≠ [] then some (int c, { st with
          place := [], optind := st.optind + 1, out := { st.out with optarg := some cs } })
      else if cfg.nargc ≤ st.optind + 1 then some (missing cfg c { st with
          place := cs, optind := st.optind + 1, out := { st.out with optarg := none } })
      else some (int c, { st with
        place := [], optind := st.optind + 1 + 1
        out := { st.out with optarg := st.nargv (st.optind + 1) } }) := by
    simp only [optLetter, h.place, hfind]
    rw [if_neg hlong, if_neg (not_not_intro hone), if_pos htwo]
  simp only [letter, hk]
  by_cases hcs : cs = []
  · rw [if_neg (not_not_intro hcs)] at hread ⊢
    cases R with
    | nil =>
      rw [if_pos (hnext.mpr le_rfl)] at hread
      refine ⟨le_rfl, _, hread, ?_, h.move 1 [] _⟩
      rw [Event.missing, out_error harg, Out.optarg_none harg]
    | cons v R =>
      rw [if_neg (by rw [hnext]; simp only [length_cons]; omega), hget] at hread
      exact ⟨Nat.succ_le_succ (Nat.zero_le _), _, hread, rfl, h.move 2 [] _⟩
  · rw [if_pos hcs] at hread ⊢
    exact ⟨Nat.zero_le _, _, hread, rfl, h.move 1 [] _⟩

theorem optLetter_long (h : At cfg A N O (w :: R) true 0 (c :: cs) st)
    (harg : st.out.optarg = none) (hk : kind cfg c = .long) :
    Lettered cfg A N O w R cs st (letter cfg c cs R) := by
  have hfind := findLetter_kind cfg c
  rw [hk] at hfind
  obtain ⟨oli, hfind, hW⟩ := hfind
  have hnext : cfg.nargc ≤ st.optind + 1 ↔ (w :: R).length ≤ 1 := (h.move 1 cs st.out).nargc_le
  have hget : st.nargv (st.optind + 1) = R[0]? := (h.move 1 cs st.out).nargv_get
  have hread : optLetter cfg st = if cs ≠ [] then some (-2, { st with place := cs })
      else if cfg.nargc ≤ st.optind + 1 then some (missing cfg c { st with
          place := cs, optind := st.optind + 1 })
      else (st.nargv (st.optind + 1)).map fun w => (-2, { st with
        place := w, optind := st.optind + 1 }) := by
    simp only [optLetter, h.place, hfind]
    rw [if_pos hW]
  simp only [letter, hk]
  by_cases hcs : cs = []
  · rw [if_neg (not_not_intro hcs)] at hread ⊢
    cases R with
    | nil =>
      rw [if_pos (hnext.mpr le_rfl)] at hread
      refine ⟨le_rfl, _, hread, ?_, h.move 1 [] _⟩
      rw [Event.missing, out_error harg]
    | cons v R =>
      rw [if_neg (by rw [hnext]; simp only [length_cons]; omega), hget] at hread
      exact ⟨Nat.succ_le_succ (Nat.zero_le _), _, hread, rfl, h.move 1 v st.out⟩
  · rw [if_pos hcs] at hread ⊢
    exact ⟨Nat.zero_le _, _, hread, rfl, h.move 0 cs st.out⟩

theorem optLetter_spec (h : At cfg A N O (w :: R) true 0 (c :: cs) st)
    (harg : st.out.optarg = none) : Lettered cfg A N O w R cs st (letter cfg c cs R) := by
  cases hk : kind cfg c with
  | unknown => exact optLetter_unknown h harg hk
  | flag => exact optLetter_flag h harg hk
  | required => exact optLetter_required h harg hk
  | optional => exact optLetter_optional h hk
  | long => exact optLetter_long h harg hk

end PortableLib.Getopt
