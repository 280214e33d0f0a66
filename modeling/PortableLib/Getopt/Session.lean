import PortableLib.Getopt.Scanner

/-! Calling `getopt` or `getopt_long` until it returns -1 reports what the parse of the command line
says, and leaves the option words in front of the operands, both in their order. -/

namespace PortableLib.Getopt
open List

def call (cfg : Config) (long : State → Option (Int × State)) (st : State) :
    Option (Int × State) := do
  let (retval, st) ← getoptInternal cfg st
  if retval = -2 then long st else return (retval, st)

theorem getopt_eq_call (cfg : Config) :
    getopt cfg = call cfg fun st => optionsEnd { st with optind := st.optind + 1 } := rfl

theorem getoptLong_eq_call (cfg : Config) :
    getoptLong cfg = call cfg fun st =>
      if st.place = [] then optionsEnd { st with optind := st.optind + 1, place := [] }
      else longOption cfg st.place { st with optind := st.optind + 1, place := [] } := rfl

def session (call : State → Option (Int × State)) : Nat → State →
    Option (List (Int × Out) × State)
  | 0, _ => none
  | n + 1, st => (call st).bind fun q =>
    if q.1 = -1 then some ([], q.2)
    else (session call n q.2).map fun r => ((q.1, q.2.out) :: r.1, r.2)

def report (cfg : Config) : Out → List Event → List (Int × Out)
  | _, [] => []
  | o, e :: es => (e.retval, e.out cfg o) :: report cfg (e.out cfg o) es

/-- The calls report the events and leave the argument vector and `optind` as given. -/
def Ends (cfg : Config) (call : State → Option (Int × State)) (st : State) (es : List Event)
    (argv : List Str) (n : Nat) : Prop :=
  ∃ st', session call (es.length + 1) st = some (report cfg st.out es, st') ∧
    st'.nargv = (fun i => argv[i]?) ∧ st'.optind = n

def Done (r : Option (Int × State)) (argv : List Str) (n : Nat) : Prop :=
  ∃ st', r = some (-1, st') ∧ st'.nargv = (fun i => argv[i]?) ∧ st'.optind = n

section Sessions

variable {cfg : Config} {f : State → Option (Int × State)} {st st' : State} {es : List Event}
  {e : Event} {argv : List Str} {n : Nat}

theorem Done.ends (h : Done (f st) argv n) : Ends cfg f st [] argv n := by
  obtain ⟨st', hf, hargv, hind⟩ := h
  refine ⟨st', ?_, hargv, hind⟩
  change ((f st).bind fun q => _) = _
  rw [hf]
  rfl

theorem Ends.cons (h : Ends cfg f st' es argv n) (hf : f st = some (e.retval, st'))
    (hne : e.retval ≠ -1) (hout : st'.out = e.out cfg st.out) :
    Ends cfg f st (e :: es) argv n := by
  obtain ⟨st'', hrun, hargv, hind⟩ := h
  refine ⟨st'', ?_, hargv, hind⟩
  change ((f st).bind fun q => _) = _
  rw [hf, Option.bind_some]
  change (if e.retval = -1 then _ else (session f (es.length + 1) st').map _) = _
  rw [if_neg hne, hrun, hout]
  rfl

theorem Ends.congr (h : Ends cfg f st' es argv n) (hf : f st = f st') (hout : st'.out = st.out) :
    Ends cfg f st es argv n := by
  obtain ⟨st'', hrun, hargv, hind⟩ := h
  refine ⟨st'', ?_, hargv, hind⟩
  rw [← hout, ← hrun]
  change ((f st).bind fun q => _) = ((f st').bind fun q => _)
  rw [hf]

end Sessions

section Calls

variable {cfg : Config} {L : Long} {A N O R : List Str} {w place : Str} {st st' : State}
  {seen : Bool} {k : Nat} {c : UInt8} {cs : Str} {long : State → Option (Int × State)}

/-- `getopt_internal` begins with this. -/
def State.cleared (st : State) : State := { st with out := { st.out with optarg := none } }

theorem At.restore (h : At cfg A N O R seen k place st) (o : Out) :
    At cfg A N O R seen k place { st with out := o } :=
  ⟨h.prog, h.nargv, h.nargc, h.optind, h.optreset, h.place, h.nonoptStart, h.nonoptEnd⟩

theorem At.cleared (h : At cfg A N O R seen k place st) : At cfg A N O R seen k place st.cleared :=
  h.restore _

theorem At.unseen (seen' : Bool) (h : At cfg A [] O R seen k place st) :
    At cfg A [] O R seen' k place st :=
  ⟨h.prog, h.nargv, h.nargc, h.optind, h.optreset, h.place, h.nonoptStart,
    (h.nonoptEnd.trans (if_pos (.inl rfl))).trans (if_pos (.inl rfl)).symm⟩

theorem At.internal (h : At cfg A N O R seen k place st) :
    getoptInternal cfg st = start cfg (cfg.nargc - st.optind + 1) st.cleared := by
  have hind : st.optind ≠ 0 := by
    have hpos := length_pos_iff.mpr h.prog
    rw [h.optind]
    omega
  simp only [getoptInternal, State.cleared, h.optreset, if_neg hind, Bool.false_eq_true, if_false]

def handle (long : State → Option (Int × State)) (q : Int × State) : Option (Int × State) :=
  if q.1 = -2 then long q.2 else some q

theorem call_eq (cfg : Config) (long : State → Option (Int × State)) (st : State) :
    call cfg long st = (getoptInternal cfg st).bind (handle long) := rfl

theorem At.call_letter (h : At cfg A N O (w :: R) seen 0 (c :: cs) st) :
    call cfg long st = (optLetter cfg st.cleared).bind (handle long) := by
  rw [call_eq, h.internal, start]
  have hscan : ¬(st.cleared.optreset || decide (st.cleared.place = [])) = true := by
    rw [h.cleared.optreset, h.cleared.place]
    exact nofun
  rw [if_neg hscan]

theorem Between.start_nil (h : Between cfg A N O [] st) (fuel : Nat) :
    start cfg (fuel + 1) st = argsEnd st := by
  have hend : cfg.nargc ≤ st.optind := h.nargc_le.mpr le_rfl
  obtain ⟨nargv, optind, optreset, place, nonoptStart, nonoptEnd, out⟩ := st
  obtain rfl : optreset = false := h.optreset
  obtain rfl : place = [] := h.place
  simp only [start, decide_true, Bool.or_true, if_true]
  rw [if_pos hend]

def atWord (cfg : Config) (fuel : Nat) (w : Str) (st : State) : Option (Int × State) :=
  if w.head? ≠ some 0x2d ∨ w.tail = [] then
    if inOrder cfg then
      some (INORDER, { st with
        optind := st.optind + 1, out := { st.out with optarg := some w } })
    else if !PERMUTE cfg then some (-1, st)
    else (Getopt.skip st).bind (start cfg fuel)
  else
    let st := { st with
      place := w.tail
      nonoptEnd := if st.nonoptStart ≠ none ∧ st.nonoptEnd = none then some st.optind
        else st.nonoptEnd }
    if w.tail.head? = some 0x2d then some (-2, { st with place := w.tail.tail })
    else optLetter cfg st

theorem Between.start_cons (h : Between cfg A N O (w :: R) st) (fuel : Nat) :
    start cfg (fuel + 1) st = atWord cfg fuel w st := by
  have hend : ¬cfg.nargc ≤ st.optind := by
    rw [h.nargc_le]
    exact Nat.not_succ_le_zero _
  have hget : st.nargv st.optind = some w := h.nargv_get
  obtain ⟨nargv, optind, optreset, place, nonoptStart, nonoptEnd, out⟩ := st
  obtain rfl : optreset = false := h.optreset
  obtain rfl : place = [] := h.place
  simp only [start, decide_true, Bool.or_true, if_true]
  rw [if_neg hend, show nargv optind = some w from hget]
  rfl

theorem Between.argsEnd (h : Between cfg A N O R st) :
    Done (Getopt.argsEnd st) (A ++ (O ++ (N ++ R))) (A.length + O.length) := by
  have hplace : { st with place := [] } = st := by
    rw [← h.place]
  have hstart := h.nonoptStart
  have hend := h.nonoptEnd
  have hind := h.optind
  rw [Getopt.argsEnd, hplace]
  by_cases hO : O = []
  · subst hO
    rw [if_pos (.inr (decide_eq_false (not_not_intro rfl)))] at hend
    rw [if_neg (not_not_intro hend)]
    by_cases hN : N = []
    · subst hN
      rw [if_pos rfl] at hstart
      rw [if_neg (not_not_intro hstart)]
      exact ⟨_, rfl, h.nargv, hind⟩
    · rw [if_neg hN] at hstart
      rw [if_pos (by rw [hstart]; exact Option.some_ne_none _)]
      refine ⟨_, rfl, h.nargv, ?_⟩
      change st.nonoptStart.getD 0 = _
      rw [hstart]
      rfl
  · have hseen : At cfg A N O R true 0 [] st := by
      have h' := h
      rwa [Between, decide_eq_true hO] at h'
    by_cases hN : N = []
    · subst hN
      rw [if_pos rfl] at hstart
      rw [if_pos (.inl rfl)] at hend
      rw [if_neg (not_not_intro hend), if_neg (not_not_intro hstart)]
      refine ⟨_, rfl, h.nargv, ?_⟩
      change st.optind = _
      rw [hind]
      simp only [length_nil, Nat.zero_add, Nat.add_zero]
    · rw [if_neg (by simp only [hN, hO, ne_eq, not_false_eq_true, decide_true,
        Bool.true_eq_false, or_self])] at hend
      obtain ⟨st', hpermute, hargv, hind', -⟩ := hseen.permute hO
      rw [if_pos (by rw [hend]; exact Option.some_ne_none _), hpermute]
      exact ⟨_, rfl, hargv, hind'⟩

theorem Between.enter (h : Between cfg A N O (w :: R) st) (place : Str) :
    At cfg A N O (w :: R) true 0 place { st with
      place := place
      nonoptEnd := if st.nonoptStart ≠ none ∧ st.nonoptEnd = none then some st.optind
        else st.nonoptEnd } where
  prog := h.prog
  nargv := h.nargv
  nargc := h.nargc
  optind := h.optind
  optreset := h.optreset
  place := rfl
  nonoptStart := h.nonoptStart
  nonoptEnd := by
    have hstart := h.nonoptStart
    have hend := h.nonoptEnd
    change (if st.nonoptStart ≠ none ∧ st.nonoptEnd = none then some st.optind
      else st.nonoptEnd) = _
    by_cases hN : N = []
    · rw [if_pos hN] at hstart
      rw [if_pos (.inl hN)] at hend
      rw [if_neg fun hp => hp.1 hstart, hend, if_pos (.inl hN)]
    · have hmark : (if N = [] ∨ true = false then none else some (A.length + N.length)) =
          some (A.length + N.length) := if_neg fun hor => hor.elim hN nofun
      rw [if_neg hN] at hstart
      rw [hmark]
      by_cases hO : O = []
      · subst hO
        rw [if_pos (.inr (decide_eq_false (not_not_intro rfl)))] at hend
        rw [if_pos ⟨by rw [hstart]; exact Option.some_ne_none _, hend⟩, h.optind]
        rfl
      · rw [if_neg (by simp only [hN, hO, ne_eq, not_false_eq_true, decide_true,
          Bool.true_eq_false, or_self])] at hend
        have hkeep : ¬(st.nonoptStart ≠ none ∧ st.nonoptEnd = none) :=
          fun hp => absurd (hend.symm.trans hp.2) nofun
        rw [if_neg hkeep, hend]

theorem Between.cleared (h : Between cfg A N O R st) : Between cfg A N O R st.cleared :=
  At.cleared h

theorem Between.internal_cons (h : Between cfg A N O (w :: R) st) :
    getoptInternal cfg st = atWord cfg (cfg.nargc - st.optind) w st.cleared := by
  rw [At.internal h, h.cleared.start_cons]

theorem Between.call_nil (h : Between cfg A N O [] st) :
    Done (call cfg long st) (A ++ (O ++ (N ++ []))) (A.length + O.length) := by
  obtain ⟨st', hend, hargv, hind⟩ := h.cleared.argsEnd
  refine ⟨st', ?_, hargv, hind⟩
  rw [call_eq, At.internal h, h.cleared.start_nil, hend]
  rfl

theorem isOption_iff : isOption w = true ↔ ¬(w.head? ≠ some 0x2d ∨ w.tail = []) := by
  simp only [isOption, Bool.and_eq_true, beq_iff_eq, bne_iff_ne, ne_eq, not_or, not_not]

theorem not_isOption (hw : isOption w = false) : w.head? ≠ some 0x2d ∨ w.tail = [] := by
  by_contra hopt
  exact absurd (hw.symm.trans (isOption_iff.mpr hopt)) nofun

theorem Between.call_skip (long : State → Option (Int × State))
    (h : Between cfg A N O (w :: R) st) (hw : isOption w = false)
    (horder : inOrder cfg = false) (hperm : PERMUTE cfg = true) :
    ∃ st', Between cfg (A ++ O) (N ++ [w]) [] R st' ∧ call cfg long st = call cfg long st' ∧
      st'.out = st.out := by
  obtain ⟨st', hskip, hbetween, hout⟩ := h.cleared.skip
  have hrestore : Between cfg (A ++ O) (N ++ [w]) [] R { st' with out := st.out } :=
    At.restore hbetween st.out
  refine ⟨_, hrestore, ?_, rfl⟩
  have hclear : { st' with out := st.out }.cleared = st' := by
    rw [State.cleared]
    change { st' with out := st.cleared.out } = st'
    rw [← hout]
  have hfuel : cfg.nargc - st.optind = cfg.nargc - st'.optind + 1 := by
    rw [h.optind, hbetween.optind, h.nargc]
    simp only [length_append, length_cons, length_nil]
    omega
  rw [call_eq, call_eq, h.internal_cons, At.internal hrestore, hclear, atWord,
    if_pos (not_isOption hw), horder, hperm, hskip, hfuel]
  rfl

theorem Between.call_inorder (long : State → Option (Int × State))
    (h : Between cfg A [] O (w :: R) st) (hw : isOption w = false)
    (horder : inOrder cfg = true) :
    ∃ st', call cfg long st = some ((Event.operand w).retval, st') ∧
      st'.out = (Event.operand w).out cfg st.out ∧ Between cfg A [] (O ++ [w]) R st' := by
  have hmoved := (At.unseen true h).move 1 [] { st.out with optarg := some w }
  have hplace : st.cleared.place = [] := h.place
  refine ⟨_, ?_, rfl, hmoved.between (Nat.zero_le _)⟩
  rw [call_eq, h.internal_cons, atWord, if_pos (not_isOption hw), if_pos horder, hplace]
  rfl

theorem Between.call_stop (h : Between cfg A [] O (w :: R) st) (hw : isOption w = false)
    (horder : inOrder cfg = false) (hperm : PERMUTE cfg = false) :
    Done (call cfg long st) (A ++ (O ++ w :: R)) (A.length + O.length) := by
  refine ⟨st.cleared, ?_, h.nargv, ?_⟩
  · rw [call_eq, h.internal_cons, atWord, if_pos (not_isOption hw), horder, hperm]
    rfl
  · change st.optind = _
    rw [h.optind]
    simp only [length_nil, Nat.zero_add, Nat.add_zero]

theorem Between.call_option (long : State → Option (Int × State))
    (h : Between cfg A N O (w :: R) st) (hw : isOption w = true) :
    ∃ st', At cfg A N O (w :: R) true 0 w.tail st' ∧ st'.out = { st.out with optarg := none } ∧
      call cfg long st = if w.tail.head? = some 0x2d then long { st' with place := w.tail.tail }
        else (optLetter cfg st').bind (handle long) := by
  refine ⟨_, h.cleared.enter w.tail, rfl, ?_⟩
  rw [call_eq, h.internal_cons, atWord, if_neg (isOption_iff.mp hw)]
  by_cases hdash : w.tail.head? = some 0x2d
  · rw [if_pos hdash, if_pos hdash]
    rfl
  · rw [if_neg hdash, if_neg hdash]

theorem At.optionsEnd (h : At cfg A N O R true 0 place st) (hO : O ≠ []) :
    Done (Getopt.optionsEnd st) (A ++ (O ++ (N ++ R))) (A.length + O.length) := by
  obtain ⟨st', hpermute, hargv, hind, -⟩ := h.permute hO
  rw [Getopt.optionsEnd, hpermute]
  exact ⟨_, rfl, hargv, hind⟩

def LongMeets (cfg : Config) (L : Long) (long : State → Option (Int × State)) : Prop :=
  ∀ A N O w R arg k st, At cfg A N O (w :: R) true k arg st → k ≤ R.length →
    st.out.optarg = none →
      match L arg (R.drop k) with
      | none => Done (long st) (A ++ ((O ++ w :: R.take k) ++ (N ++ R.drop k)))
        (A.length + (O ++ w :: R.take k).length)
      | some (e, n) => e.retval ≠ -1 ∧ k + n ≤ R.length ∧ ∃ st',
        long st = some (e.retval, st') ∧ st'.out = e.out cfg st.out ∧
          At cfg A N O (w :: R) true (k + n + 1) [] st'

theorem noLong_meets : LongMeets cfg noLong fun st =>
    Getopt.optionsEnd { st with optind := st.optind + 1 } := by
  intro A N O w R arg k st h hk _
  have hmoved : At cfg A N O (w :: R) true (k + 1) arg { st with optind := st.optind + 1 } := by
    have hplace := h.place
    have h1 := h.move 1 arg st.out
    rwa [← hplace] at h1 ⊢
  exact (hmoved.taken hk).optionsEnd (append_ne_nil_of_right_ne_nil O (cons_ne_nil w _))

theorem findLong_lt {name : Str} {os : List LongOption} {i j : Nat} {m : Option Nat}
    (hm : ∀ m' ∈ m, m' < i) (hj : findLong name os i m = .found j) : j < i + os.length := by
  induction os generalizing i m with
  | nil =>
    cases m with
    | none => cases hj
    | some m' =>
      obtain rfl := Match.found.inj hj
      exact hm m' rfl
  | cons o os ih =>
    have hlater : ∀ {m}, (∀ m' ∈ m, m' < i + 1) → findLong name os (i + 1) m = .found j →
        j < i + (o :: os).length := by
      intro m hm hj
      have hlt := ih hm hj
      rw [length_cons]
      omega
    rw [findLong.eq_def] at hj
    dsimp only at hj
    split at hj
    · exact hlater (fun m' hm' => Nat.lt_succ_of_lt (hm m' hm')) hj
    split at hj
    · obtain rfl := Match.found.inj hj
      rw [length_cons]
      omega
    cases m with
    | none =>
      refine hlater ?_ hj
      intro m' hm'
      obtain rfl := Option.some.inj hm'
      exact Nat.lt_succ_self i
    | some m' => cases hj

theorem strchr_valueOf (arg : Str) : (strchr arg 0x3d).map tail = valueOf arg := by
  rw [strchr, valueOf]
  cases arg.dropWhile (· != 0x3d) with
  | nil => rfl
  | cons x v => rfl

def Taken (cfg : Config) (A N O : List Str) (w : Str) (R : List Str) (k : Nat) (st : State)
    (r : Int × State) (e : Event × Nat) : Prop :=
  k + e.2 ≤ R.length ∧ r.1 = e.1.retval ∧ r.2.out = e.1.out cfg st.out ∧
    At cfg A N O (w :: R) true (k + e.2 + 1) [] r.2

theorem badLong_taken (h : At cfg A N O (w :: R) true (k + 1) [] st) (hk : k ≤ R.length)
    (harg : st.out.optarg = none) (m : Message) (b r : Int) :
    Taken cfg A N O w R k st (badLong cfg m b r st) (.error r b m, 0) :=
  ⟨hk, rfl, (out_error harg r b m).symm, h.restore _⟩

section Found

variable {arg name v : Str} {value : Option Str} {i : Nat} {l : LongOption} {rest : List Str}

theorem foundLong_value (hl : l.hasArg = requiredArgument ∨ l.hasArg = optionalArgument) :
    foundLong cfg arg name (some v) i l st =
      (l.retval, { st with out := l.store i { st.out with optarg := some v } }) := by
  have hno : l.hasArg ≠ noArgument := by
    rcases hl with hl | hl
    all_goals
      rw [hl]
      decide
  rw [foundLong, if_neg fun h => hno h.1, if_pos hl, if_pos (Option.some_ne_none v)]
  exact if_neg fun h => Option.some_ne_none v h.2

theorem foundLong_next (hl : l.hasArg = requiredArgument) (hv : st.nargv st.optind = some v) :
    foundLong cfg arg name none i l st = (l.retval, { st with
      optind := st.optind + 1, out := l.store i { st.out with optarg := some v } }) := by
  have hor : l.hasArg = requiredArgument ∨ l.hasArg = optionalArgument := .inl hl
  rw [foundLong, if_neg fun h => h.2 rfl, if_pos hor, if_neg (not_not_intro rfl), if_pos hl, hv]
  exact if_neg fun h => Option.some_ne_none v h.2

theorem foundLong_missing (hl : l.hasArg = requiredArgument) (hv : st.nargv st.optind = none)
    (harg : st.out.optarg = none) :
    foundLong cfg arg name none i l st =
      badLong cfg (.recargstring arg) l.optopt (BADARG cfg) st := by
  have hor : l.hasArg = requiredArgument ∨ l.hasArg = optionalArgument := .inl hl
  rw [foundLong, if_neg fun h => h.2 rfl, if_pos hor, if_neg (not_not_intro rfl), if_pos hl, hv]
  simp only [Out.optarg_none harg]
  exact if_pos ⟨hl, trivial⟩

theorem foundLong_plain (hl : l.hasArg ≠ requiredArgument)
    (hvalue : value = none ∨ (l.hasArg ≠ noArgument ∧ l.hasArg ≠ optionalArgument)) :
    foundLong cfg arg name value i l st = (l.retval, { st with out := l.store i st.out }) := by
  have hno : ¬(l.hasArg = noArgument ∧ value ≠ none) :=
    fun h => hvalue.elim h.2 fun hv => hv.1 h.1
  rw [foundLong, if_neg hno]
  by_cases hor : l.hasArg = requiredArgument ∨ l.hasArg = optionalArgument
  · have hnone : value = none := by
      rcases hvalue with hnone | hneither
      · exact hnone
      · exact absurd hor (not_or.mpr ⟨hl, hneither.2⟩)
    rw [if_pos hor, if_neg (not_not_intro hnone), if_neg hl]
    exact if_neg fun h => hl h.1
  · rw [if_neg hor]
    exact if_neg fun h => hl h.1

theorem foundLong_taken (h : At cfg A N O (w :: R) true (k + 1) [] st) (hk : k ≤ R.length)
    (harg : st.out.optarg = none) (hl : cfg.longOptions[i]? = some l) :
    Taken cfg A N O w R k st
      (foundLong cfg arg (arg.takeWhile (· != 0x3d)) (valueOf arg) i l st)
      (longFound cfg arg i l (R.drop k)) := by
  have hout : ∀ arg : Option Str, l.store i { st.out with optarg := arg } =
      (Event.mk l.retval arg none (some i)).out cfg st.out := by
    intro arg
    simp only [Event.out, hl]
  have hstored : l.store i st.out = (Event.mk l.retval none none (some i)).out cfg st.out := by
    rw [← hout, Out.optarg_none harg]
  have hnargv : st.nargv st.optind = R[k]? := h.nargv_get
  unfold longFound
  by_cases hno : l.hasArg = noArgument ∧ valueOf arg ≠ none
  · rw [foundLong, if_pos hno, if_pos hno]
    exact badLong_taken h hk harg _ _ _
  rw [if_neg hno]
  by_cases hreq : l.hasArg = requiredArgument
  · rw [if_pos hreq]
    cases hvalue : valueOf arg with
    | some v =>
      rw [foundLong_value (.inl hreq)]
      exact ⟨hk, rfl, hout (some v), h.restore _⟩
    | none =>
      cases hrest : R.drop k with
      | nil =>
        have hget : st.nargv st.optind = none :=
          hnargv.trans (getElem?_eq_none (drop_eq_nil_iff.mp hrest))
        rw [foundLong_missing hreq hget harg]
        exact badLong_taken h hk harg _ _ _
      | cons v rest =>
        have hget : st.nargv st.optind = some v := by
          rw [hnargv, ← head?_drop, hrest, head?_cons]
        have hlt : k + 1 ≤ R.length := by
          by_contra hle
          rw [drop_eq_nil_of_le (by omega)] at hrest
          cases hrest
        rw [foundLong_next hreq hget]
        have hmoved := h.move 1 [] (l.store i { st.out with optarg := some v })
        rw [← h.place] at hmoved
        exact ⟨hlt, rfl, hout (some v), h.place ▸ hmoved⟩
  · rw [if_neg hreq]
    by_cases hopt : l.hasArg = optionalArgument
    · rw [if_pos hopt]
      cases hvalue : valueOf arg with
      | some v =>
        rw [foundLong_value (.inr hopt)]
        exact ⟨hk, rfl, hout (some v), h.restore _⟩
      | none =>
        rw [foundLong_plain hreq (.inl rfl)]
        exact ⟨hk, rfl, hstored, h.restore _⟩
    · rw [if_neg hopt, foundLong_plain hreq]
      · exact ⟨hk, rfl, hstored, h.restore _⟩
      · rcases Classical.em (valueOf arg = none) with hnone | hsome
        · exact .inl hnone
        · exact .inr ⟨fun h => hno ⟨h, hsome⟩, hopt⟩

theorem longOption_taken (arg : Str) (h : At cfg A N O (w :: R) true (k + 1) [] st)
    (hk : k ≤ R.length) (harg : st.out.optarg = none) :
    ∃ r, longOption cfg arg st = some r ∧
      Taken cfg A N O w R k st r (longEvent cfg arg (R.drop k)) := by
  rw [longOption, longEvent, strchr_valueOf]
  cases hfind : findLong (arg.takeWhile (· != 0x3d)) cfg.longOptions 0 none with
  | ambiguous => exact ⟨_, rfl, badLong_taken h hk harg _ _ _⟩
  | unknown => exact ⟨_, rfl, badLong_taken h hk harg _ _ _⟩
  | found i =>
    have hi : i < cfg.longOptions.length := by
      rw [← Nat.zero_add cfg.longOptions.length]
      exact findLong_lt (fun m hm => absurd hm (Option.not_mem_none m)) hfind
    simp only [getElem?_eq_getElem hi]
    exact ⟨_, rfl, foundLong_taken h hk harg (getElem?_eq_getElem hi)⟩

end Found

theorem BADARG_pos (cfg : Config) : 0 < BADARG cfg := by
  rw [BADARG]
  split
  · decide
  · decide

theorem retval_ne {l : LongOption} (h : l.flag = none → l.val ≠ -1) : l.retval ≠ -1 := by
  rw [LongOption.retval]
  split
  · next hflag => exact h hflag
  · decide

theorem longFound_retval {arg : Str} {i : Nat} {l : LongOption} {rest : List Str}
    (hl : l.retval ≠ -1) : (longFound cfg arg i l rest).1.retval ≠ -1 := by
  have hbad : BADARG cfg ≠ -1 := by
    have hpos := BADARG_pos cfg
    omega
  simp only [longFound]
  repeat' split
  all_goals first | exact hbad | exact hl

theorem longEvent_retval (hval : ∀ l ∈ cfg.longOptions, l.flag = none → l.val ≠ -1) (arg : Str)
    (rest : List Str) : (longEvent cfg arg rest).1.retval ≠ -1 := by
  have hbad : BADCH ≠ -1 := by decide
  rw [longEvent]
  split
  · exact hbad
  · exact hbad
  · split
    · exact hbad
    · next hl => exact longFound_retval (retval_ne (hval _ (mem_of_getElem? hl)))

theorem allLong_meets (hval : ∀ l ∈ cfg.longOptions, l.flag = none → l.val ≠ -1) :
    LongMeets cfg (allLong cfg) fun st =>
      if st.place = [] then Getopt.optionsEnd { st with optind := st.optind + 1, place := [] }
      else longOption cfg st.place { st with optind := st.optind + 1, place := [] } := by
  intro A N O w R arg k st h hk hclear
  have hmoved := h.move 1 [] st.out
  rw [allLong]
  by_cases harg : arg = []
  · rw [if_pos harg]
    have hplace : st.place = [] := h.place.trans harg
    simp only [if_pos hplace]
    exact (hmoved.taken hk).optionsEnd (append_ne_nil_of_right_ne_nil O (cons_ne_nil w _))
  · rw [if_neg harg]
    have hplace : st.place ≠ [] := fun hnil => harg (h.place.symm.trans hnil)
    obtain ⟨r, hr, hle, hret, hout, hat⟩ := longOption_taken arg hmoved hk hclear
    simp only [if_neg hplace]
    refine ⟨longEvent_retval hval arg _, hle, r.2, ?_, hout, hat⟩
    rw [h.place, hr, ← hret]

end Calls

end PortableLib.Getopt
