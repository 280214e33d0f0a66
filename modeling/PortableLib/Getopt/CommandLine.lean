import Mathlib.Data.List.TakeWhile
import PortableLib.Getopt.Session

/-! The calls of `getopt` and of `getopt_long` against the parse of the command line: by induction
on the words that are left, and inside a word on its letters. -/

namespace PortableLib.Getopt
open List

variable {cfg : Config} {L : Long} {long : State → Option (Int × State)} {A N O R : List Str}
  {w : Str} {st st₀ : State} {k n : Nat} {c : UInt8} {cs : Str} {es : List Event} {argv : List Str}

theorem mem_options_of_kind (h : kind cfg c ≠ .unknown) : c ∈ cfg.options := by
  by_contra hmem
  refine h ?_
  have hdrop : (if ignoreFirst cfg then cfg.options.tail else cfg.options).dropWhile
      (· != c) = [] := by
    rw [dropWhile_eq_nil_iff]
    intro x hx
    have hx' : x ∈ cfg.options := by
      split at hx
      · exact mem_of_mem_tail hx
      · exact hx
    exact bne_iff_ne.mpr fun heq => hmem (heq ▸ hx')
  simp only [kind, hdrop]
  exact ite_self _

theorem letter_retval (hopts : ∀ c ∈ cfg.options, int c ≠ -1 ∧ int c ≠ -2) {e : Event} {more : Bool}
    (h : letter cfg c cs R = .event e more k) : e.retval ≠ -1 ∧ e.retval ≠ -2 := by
  have hbad : BADARG cfg ≠ -1 ∧ BADARG cfg ≠ -2 := by
    have hpos := BADARG_pos cfg
    omega
  have hc : kind cfg c ≠ .unknown → int c ≠ -1 ∧ int c ≠ -2 :=
    fun hk => hopts c (mem_options_of_kind hk)
  cases hk : kind cfg c with
  | unknown =>
    simp only [letter, hk, Letter.event.injEq] at h
    rw [← h.1]
    exact ⟨(by decide : BADCH ≠ -1), (by decide : BADCH ≠ -2)⟩
  | flag | optional =>
    simp only [letter, hk, Letter.event.injEq] at h
    rw [← h.1]
    exact hc (by rw [hk]; intro hun; cases hun)
  | required =>
    have hint := hc (by rw [hk]; intro hun; cases hun)
    simp only [letter, hk] at h
    split at h
    · rw [← (Letter.event.inj h).1]
      exact hint
    split at h
    · rw [← (Letter.event.inj h).1]
      exact hbad
    · rw [← (Letter.event.inj h).1]
      exact hint
  | long =>
    simp only [letter, hk] at h
    split at h
    · cases h
    split at h
    · rw [← (Letter.event.inj h).1]
      exact hbad
    · cases h

theorem letter_last {e : Event} : letter cfg c [] R ≠ .event e true k := by
  intro h
  cases hk : kind cfg c with
  | unknown | flag | optional =>
    simp only [letter, hk, Letter.event.injEq] at h
    exact absurd h.2.1 (by decide)
  | required | long =>
    simp only [letter, hk] at h
    rw [if_neg (not_not_intro rfl)] at h
    split at h
    all_goals cases h

theorem out_optarg (e : Event) (o : Out) (arg : Option Str) :
    e.out cfg { o with optarg := arg } = e.out cfg o := rfl

structure Follows (cfg : Config) (long : State → Option (Int × State)) (A N O : List Str) (w : Str)
    (R : List Str) (o : Word) (es : List Event) (argv : List Str) (n : Nat) : Prop where
  ended : o.ended = true → es = [] ∧
    argv = A ++ ((O ++ w :: R.take o.taken) ++ (N ++ R.drop o.taken)) ∧
      n = A.length + (O ++ w :: R.take o.taken).length
  goesOn : o.ended = false → ∀ st, Between cfg A N (O ++ w :: R.take o.taken) (R.drop o.taken) st →
    Ends cfg (call cfg long) st es argv n

theorem longWord_ends {arg : Str} (hL : LongMeets cfg L long)
    (h : At cfg A N O (w :: R) true k arg st) (hk : k ≤ R.length)
    (hcall : call cfg long st₀ = long st) (hout : st.out = { st₀.out with optarg := none })
    (hrest : Follows cfg long A N O w R (longWord L arg R k) es argv n) :
    Ends cfg (call cfg long) st₀ ((longWord L arg R k).events ++ es) argv n := by
  have hmeets := hL A N O w R arg k st h hk (by rw [hout])
  rw [longWord] at hrest ⊢
  cases hLong : L arg (R.drop k) with
  | none =>
    simp only [hLong] at hmeets hrest ⊢
    obtain ⟨rfl, rfl, rfl⟩ := hrest.ended rfl
    rw [← hcall] at hmeets
    exact hmeets.ends
  | some p =>
    obtain ⟨e, m⟩ := p
    simp only [hLong] at hmeets hrest ⊢
    obtain ⟨hne, hle, st', hst', hout', hat⟩ := hmeets
    refine Ends.cons (hrest.goesOn rfl st' (hat.between hle)) (hcall.trans hst') hne ?_
    rw [hout', hout, out_optarg]

theorem letter_ends (hopts : ∀ c ∈ cfg.options, int c ≠ -1 ∧ int c ≠ -2)
    (hL : LongMeets cfg L long) (h : At cfg A N O (w :: R) true 0 (c :: cs) st)
    (hcall : call cfg long st₀ = (optLetter cfg st).bind (handle long))
    (hout : st.out = { st₀.out with optarg := none })
    (hrest : Follows cfg long A N O w R (letters cfg L R (c :: cs)) es argv n)
    (hmore : ∀ st, cs ≠ [] → At cfg A N O (w :: R) true 0 cs st →
      Follows cfg long A N O w R (letters cfg L R cs) es argv n →
        Ends cfg (call cfg long) st ((letters cfg L R cs).events ++ es) argv n) :
    Ends cfg (call cfg long) st₀ ((letters cfg L R (c :: cs)).events ++ es) argv n := by
  have hletter := optLetter_spec h (by rw [hout])
  rw [letters] at hrest ⊢
  cases hl : letter cfg c cs R with
  | event e more k =>
    obtain ⟨hne1, hne2⟩ := letter_retval hopts hl
    rw [hl] at hletter
    obtain ⟨hk, st', hst', hout', hat⟩ := hletter
    have hreturn : call cfg long st₀ = some (e.retval, st') := by
      rw [hcall, hst', Option.bind_some, handle, if_neg hne2]
    have hseen : st'.out = e.out cfg st₀.out := by
      rw [hout', hout, out_optarg]
    cases more with
    | true =>
      simp only [hl] at hrest ⊢
      refine Ends.cons (hmore st' ?_ hat ⟨hrest.ended, hrest.goesOn⟩) hreturn hne1 hseen
      rintro rfl
      exact letter_last hl
    | false =>
      simp only [hl] at hrest ⊢
      exact Ends.cons (hrest.goesOn rfl st' (hat.between hk)) hreturn hne1 hseen
  | long arg k =>
    rw [hl] at hletter
    obtain ⟨hk, st', hst', hout', hat⟩ := hletter
    simp only [hl] at hrest ⊢
    refine longWord_ends hL hat hk ?_ (hout'.trans hout) hrest
    rw [hcall, hst', Option.bind_some, handle, if_pos rfl]

theorem letters_ends (hopts : ∀ c ∈ cfg.options, int c ≠ -1 ∧ int c ≠ -2)
    (hL : LongMeets cfg L long) (h : At cfg A N O (w :: R) true 0 (c :: cs) st)
    (hcall : call cfg long st₀ = (optLetter cfg st).bind (handle long))
    (hout : st.out = { st₀.out with optarg := none })
    (hrest : Follows cfg long A N O w R (letters cfg L R (c :: cs)) es argv n) :
    Ends cfg (call cfg long) st₀ ((letters cfg L R (c :: cs)).events ++ es) argv n := by
  induction cs generalizing c st st₀ with
  | nil => exact letter_ends hopts hL h hcall hout hrest fun _ hne => absurd rfl hne
  | cons d cs ih =>
    refine letter_ends hopts hL h hcall hout hrest fun st' _ hat hfollows => ?_
    exact ih hat.cleared hat.call_letter rfl hfollows

theorem word_ends (hopts : ∀ c ∈ cfg.options, int c ≠ -1 ∧ int c ≠ -2)
    (hL : LongMeets cfg L long) (h : Between cfg A N O (w :: R) st) (hw : isOption w = true)
    (hrest : Follows cfg long A N O w R (word cfg L R w.tail) es argv n) :
    Ends cfg (call cfg long) st ((word cfg L R w.tail).events ++ es) argv n := by
  obtain ⟨st', hat, hout, hcall⟩ := h.call_option long hw
  have hne : w.tail ≠ [] := fun hnil => isOption_iff.mp hw (.inr hnil)
  obtain ⟨c, cs, hcs⟩ := exists_cons_of_ne_nil hne
  rw [hcs] at hat hcall hrest ⊢
  by_cases hdash : c = 0x2d
  · subst hdash
    rw [head?_cons, if_pos rfl] at hcall
    exact longWord_ends hL (hat.move 0 cs st'.out) (Nat.zero_le _) hcall hout hrest
  · have hword : word cfg L R (c :: cs) = letters cfg L R (c :: cs) := by
      unfold word
      split
      · next heq => exact absurd (cons.inj heq).1 hdash
      · rfl
    rw [head?_cons, if_neg fun h => hdash (Option.some.inj h)] at hcall
    rw [hword] at hrest ⊢
    exact letters_ends hopts hL hat hcall hout hrest

theorem parse_skip (hk : k ≤ R.length) : parse cfg L k R =
    ⟨(parse cfg L 0 (R.drop k)).events, R.take k ++ (parse cfg L 0 (R.drop k)).words,
      (parse cfg L 0 (R.drop k)).operands⟩ := by
  induction R generalizing k with
  | nil =>
    obtain rfl := Nat.le_zero.mp hk
    rfl
  | cons w R ih =>
    cases k with
    | zero => rfl
    | succ k =>
      rw [parse, ih (Nat.le_of_succ_le_succ hk)]
      rfl

theorem parse_ended (hw : isOption w = true) (hended : (word cfg L R w.tail).ended = true) :
    parse cfg L 0 (w :: R) = ⟨(word cfg L R w.tail).events,
      w :: R.take (word cfg L R w.tail).taken, R.drop (word cfg L R w.tail).taken⟩ := by
  simp only [parse, hw, hended, if_true]

theorem parse_option (hw : isOption w = true) (hended : (word cfg L R w.tail).ended = false)
    (hk : (word cfg L R w.tail).taken ≤ R.length) :
    parse cfg L 0 (w :: R) =
      ⟨(word cfg L R w.tail).events ++
          (parse cfg L 0 (R.drop (word cfg L R w.tail).taken)).events,
        w :: R.take (word cfg L R w.tail).taken ++
          (parse cfg L 0 (R.drop (word cfg L R w.tail).taken)).words,
        (parse cfg L 0 (R.drop (word cfg L R w.tail).taken)).operands⟩ := by
  simp only [parse, hw, hended, if_true, Bool.false_eq_true, if_false, parse_skip hk, cons_append]

theorem parse_in_order (hw : isOption w = false) (horder : inOrder cfg = true) :
    parse cfg L 0 (w :: R) = ⟨.operand w :: (parse cfg L 0 R).events,
      w :: (parse cfg L 0 R).words, (parse cfg L 0 R).operands⟩ := by
  simp only [parse, hw, horder, if_true, Bool.false_eq_true, if_false]

theorem parse_permute (hw : isOption w = false) (horder : inOrder cfg = false)
    (hperm : PERMUTE cfg = true) :
    parse cfg L 0 (w :: R) = ⟨(parse cfg L 0 R).events, (parse cfg L 0 R).words,
      w :: (parse cfg L 0 R).operands⟩ := by
  simp only [parse, hw, horder, hperm, if_true, Bool.false_eq_true, if_false]

theorem parse_stop (hw : isOption w = false) (horder : inOrder cfg = false)
    (hperm : PERMUTE cfg = false) : parse cfg L 0 (w :: R) = ⟨[], [], w :: R⟩ := by
  simp only [parse, hw, horder, hperm, Bool.false_eq_true, if_false]

/-- A long option does not take more words than there are. -/
def Fits (L : Long) : Prop := ∀ arg rest e n, L arg rest = some (e, n) → n ≤ rest.length

theorem longWord_taken_le (hfit : Fits L) {arg : Str} (hk : k ≤ R.length) :
    (longWord L arg R k).taken ≤ R.length := by
  rw [longWord]
  split
  · exact hk
  · next e n hL =>
    have hle := hfit arg _ e n hL
    rw [length_drop] at hle
    change k + n ≤ R.length
    omega

theorem letter_taken_le (cfg : Config) (c : UInt8) (cs : Str) (R : List Str) :
    match letter cfg c cs R with
    | .event _ _ k => k ≤ R.length
    | .long _ k => k ≤ R.length := by
  have hone : ∀ (w : Str) (R : List Str), 1 ≤ (w :: R).length :=
    fun w R => Nat.succ_le_succ (Nat.zero_le _)
  cases hk : kind cfg c with
  | unknown | flag | optional =>
    simp only [letter, hk]
    exact Nat.zero_le _
  | required | long =>
    simp only [letter, hk]
    by_cases hcs : cs = []
    · rw [if_neg (not_not_intro hcs)]
      cases R with
      | nil => exact Nat.zero_le _
      | cons w R => exact hone w R
    · rw [if_pos hcs]
      exact Nat.zero_le _

theorem letters_taken_le (hfit : Fits L) (cs : Str) : (letters cfg L R cs).taken ≤ R.length := by
  induction cs with
  | nil => exact Nat.zero_le _
  | cons c cs ih =>
    have hle := letter_taken_le cfg c cs R
    rw [letters]
    cases hl : letter cfg c cs R with
    | event e more k =>
      rw [hl] at hle
      cases more with
      | true => exact ih
      | false => exact hle
    | long arg k =>
      rw [hl] at hle
      exact longWord_taken_le hfit hle

theorem word_taken_le (hfit : Fits L) (cs : Str) : (word cfg L R cs).taken ≤ R.length := by
  unfold word
  split
  · exact longWord_taken_le hfit (Nat.zero_le _)
  · exact letters_taken_le hfit _

theorem not_permute_of_in_order (h : inOrder cfg = true) : PERMUTE cfg = false := by
  rw [inOrder, Bool.and_eq_true] at h
  rw [PERMUTE, ignoreFirst, h.2, Bool.true_or, Bool.not_true, Bool.and_false]

theorem parse_ends (hopts : ∀ c ∈ cfg.options, int c ≠ -1 ∧ int c ≠ -2)
    (hL : LongMeets cfg L long) (hfit : Fits L) (h : Between cfg A N O R st)
    (hN : PERMUTE cfg = false → N = []) :
    Ends cfg (call cfg long) st (parse cfg L 0 R).events
      (A ++ (O ++ ((parse cfg L 0 R).words ++ (N ++ (parse cfg L 0 R).operands))))
      (A.length + (O.length + (parse cfg L 0 R).words.length)) := by
  induction hlen : R.length using Nat.strong_induction_on generalizing R A N O st with
  | _ m ih =>
  cases R with
  | nil => exact h.call_nil.ends
  | cons w R =>
    subst hlen
    cases hw : isOption w with
    | true =>
      have hk : (word cfg L R w.tail).taken ≤ R.length := word_taken_le hfit w.tail
      cases hended : (word cfg L R w.tail).ended with
      | true =>
        rw [parse_ended hw hended, ← append_nil (word cfg L R w.tail).events]
        refine word_ends hopts hL h hw ⟨fun _ => ⟨rfl, ?_, ?_⟩, fun hgo => ?_⟩
        · simp only [append_assoc, cons_append]
        · rw [length_append]
        · exact absurd (hended.symm.trans hgo) nofun
      | false =>
        rw [parse_option hw hended hk]
        refine word_ends hopts hL h hw ⟨fun hend => ?_, fun _ st' hst' => ?_⟩
        · exact absurd (hended.symm.trans hend) nofun
        · have hlt : (R.drop (word cfg L R w.tail).taken).length < (w :: R).length := by
            rw [length_drop, length_cons]
            omega
          have hrest := ih _ hlt hst' hN rfl
          simp only [append_assoc, length_append] at hrest ⊢
          rwa [Nat.add_assoc] at hrest
    | false =>
      cases horder : inOrder cfg with
      | true =>
        obtain rfl := hN (not_permute_of_in_order horder)
        obtain ⟨st', hcall, hout, hst'⟩ := h.call_inorder long hw horder
        have hrest := ih _ (Nat.lt_succ_self R.length) hst' (fun _ => rfl) rfl
        rw [parse_in_order hw horder]
        refine Ends.cons ?_ hcall (by decide : INORDER ≠ -1) hout
        simp only [append_assoc, singleton_append, length_append, length_singleton] at hrest
        rwa [Nat.add_assoc, Nat.add_comm 1] at hrest
      | false =>
        cases hperm : PERMUTE cfg with
        | true =>
          obtain ⟨st', hst', hcall, hout⟩ := h.call_skip long hw horder hperm
          have hrest := ih _ (Nat.lt_succ_self R.length) hst'
            (fun hfalse => absurd (hperm.symm.trans hfalse) nofun) rfl
          rw [parse_permute hw horder hperm]
          refine Ends.congr ?_ hcall hout
          simp only [append_assoc, nil_append, singleton_append, length_append, length_nil,
            Nat.zero_add] at hrest
          rwa [Nat.add_assoc] at hrest
        | false =>
          rw [parse_stop hw horder hperm]
          obtain rfl := hN hperm
          exact (h.call_stop hw horder hperm).ends

theorem parse_splits (hfit : Fits L) (R : List Str) :
    (parse cfg L 0 R).words <+ R ∧ (parse cfg L 0 R).operands <+ R ∧
      ((parse cfg L 0 R).words ++ (parse cfg L 0 R).operands).Perm R := by
  induction hlen : R.length using Nat.strong_induction_on generalizing R with
  | _ m ih =>
  cases R with
  | nil => exact ⟨Sublist.slnil, Sublist.slnil, Perm.nil⟩
  | cons w R =>
    subst hlen
    cases hw : isOption w with
    | true =>
      have hk : (word cfg L R w.tail).taken ≤ R.length := word_taken_le hfit w.tail
      cases hended : (word cfg L R w.tail).ended with
      | true =>
        rw [parse_ended hw hended]
        refine ⟨(take_sublist _ R).cons_cons w, (drop_sublist _ R).cons w, ?_⟩
        rw [cons_append, take_append_drop]
      | false =>
        rw [parse_option hw hended hk]
        have hlt : (R.drop (word cfg L R w.tail).taken).length < (w :: R).length := by
          rw [length_drop, length_cons]
          omega
        obtain ⟨hwords, hoperands, hperm⟩ := ih _ hlt _ rfl
        refine ⟨?_, (hoperands.trans (drop_sublist _ R)).cons w, ?_⟩
        · have happ := (Sublist.refl (R.take (word cfg L R w.tail).taken)).append hwords
          rw [take_append_drop] at happ
          exact happ.cons_cons w
        · have hsplit : w :: R.take (word cfg L R w.tail).taken ++
              R.drop (word cfg L R w.tail).taken = w :: R := by
            rw [cons_append, take_append_drop]
          have happ := hperm.append_left (w :: R.take (word cfg L R w.tail).taken)
          rwa [hsplit, ← append_assoc] at happ
    | false =>
      obtain ⟨hwords, hoperands, hpermute⟩ := ih _ (Nat.lt_succ_self R.length) R rfl
      cases horder : inOrder cfg with
      | true =>
        rw [parse_in_order hw horder]
        exact ⟨hwords.cons_cons w, hoperands.cons w, hpermute.cons w⟩
      | false =>
        cases hperm : PERMUTE cfg with
        | true =>
          rw [parse_permute hw horder hperm]
          exact ⟨hwords.cons w, hoperands.cons_cons w, perm_middle.trans (hpermute.cons w)⟩
        | false =>
          rw [parse_stop hw horder hperm]
          exact ⟨nil_sublist _, Sublist.refl _, Perm.refl _⟩

/-- The state that a program begins with; `optreset` makes any other one as good. -/
structure Fresh (cfg : Config) (prog : Str) (ws : List Str) (st : State) : Prop where
  nargv : st.nargv = fun i => (prog :: ws)[i]?
  nargc : cfg.nargc = ws.length + 1
  optind : st.optind = 0 ∨ st.optind = 1
  scanner : st.optreset = true ∨
    (st.place = [] ∧ st.nonoptStart = none ∧ st.nonoptEnd = none)

def State.reset (st : State) : State :=
  { st with optind := 1, optreset := false, place := [], nonoptStart := none, nonoptEnd := none }

variable {prog : Str} {ws : List Str}

theorem Fresh.between (h : Fresh cfg prog ws st) : Between cfg [prog] [] [] ws st.reset where
  prog := cons_ne_nil _ _
  nargv := h.nargv
  nargc := by
    rw [h.nargc]
    simp only [length_nil, length_singleton]
    omega
  optind := rfl
  optreset := rfl
  place := rfl
  nonoptStart := rfl
  nonoptEnd := rfl

theorem start_reset (fuel : Nat) (st : State) (hreset : st.optreset = true) :
    start cfg (fuel + 1) st = start cfg (fuel + 1) { st with optreset := false, place := [] } := by
  obtain ⟨nargv, optind, optreset, place, nonoptStart, nonoptEnd, out⟩ := st
  obtain rfl : optreset = true := hreset
  simp only [start, Bool.true_or, Bool.false_or, decide_true, if_true]
  rfl

theorem Fresh.call (h : Fresh cfg prog ws st) :
    Getopt.call cfg long st = Getopt.call cfg long st.reset := by
  have hind : (if st.optind = 0 then 1 else st.optind) = 1 := by
    rcases h.optind with h0 | h1
    · rw [if_pos h0]
    · rw [h1, if_neg Nat.one_ne_zero]
  rw [call_eq, call_eq]
  congr 1
  rw [getoptInternal, getoptInternal]
  simp only [hind]
  cases hreset : st.optreset with
  | true =>
    simp only [if_true]
    rw [start_reset _ _ rfl]
    rfl
  | false =>
    obtain ⟨hplace, hstart, hend⟩ := h.scanner.resolve_left (Bool.eq_false_iff.mp hreset)
    simp only [hplace, hstart, hend]
    rfl

theorem Fresh.ends (h : Fresh cfg prog ws st)
    (hopts : ∀ c ∈ cfg.options, int c ≠ -1 ∧ int c ≠ -2) (hL : LongMeets cfg L long)
    (hfit : Fits L) : Ends cfg (Getopt.call cfg long) st (parse cfg L 0 ws).events
      (prog :: ((parse cfg L 0 ws).words ++ (parse cfg L 0 ws).operands))
      ((parse cfg L 0 ws).words.length + 1) := by
  have hends := parse_ends hopts hL hfit h.between fun _ => rfl
  refine Ends.congr ?_ h.call rfl
  simp only [singleton_append, nil_append, length_singleton, length_nil, Nat.zero_add] at hends
  rwa [Nat.add_comm] at hends

theorem noLong_fits : Fits noLong := fun _ _ _ _ h => absurd h nofun

theorem longFound_taken_le (cfg : Config) (arg : Str) (i : Nat) (l : LongOption)
    (rest : List Str) : (longFound cfg arg i l rest).2 ≤ rest.length := by
  unfold longFound
  split
  · exact Nat.zero_le _
  split
  · split
    · exact Nat.zero_le _
    · cases rest with
      | nil => exact le_rfl
      | cons w rest => exact Nat.succ_le_succ (Nat.zero_le _)
  split
  · exact Nat.zero_le _
  · exact Nat.zero_le _

theorem allLong_fits (cfg : Config) : Fits (allLong cfg) := by
  intro arg rest e n h
  rw [allLong] at h
  split at h
  · cases h
  · have hn : n = (longEvent cfg arg rest).2 := by rw [Option.some.inj h]
    rw [hn, longEvent]
    split
    · exact Nat.zero_le _
    · exact Nat.zero_le _
    · split
      · exact Nat.zero_le _
      · exact longFound_taken_le cfg arg _ _ rest

/-- Calling `getopt` or `getopt_long` until it returns -1 reports the events of the command line, in
order and each with all that the caller can see, and leaves in `argv` the words of the options in
front of the operands, `optind` being at the first operand. -/
theorem command_line (cfg : Config) (prog : Str) (ws : List Str) (st : State)
    (h : Fresh cfg prog ws st) (hopts : ∀ c ∈ cfg.options, int c ≠ -1 ∧ int c ≠ -2)
    (hval : ∀ l ∈ cfg.longOptions, l.flag = none → l.val ≠ -1) :
    ∀ f L, (f, L) = (getopt cfg, noLong) ∨ (f, L) = (getoptLong cfg, allLong cfg) →
      Ends cfg f st (parse cfg L 0 ws).events
        (prog :: ((parse cfg L 0 ws).words ++ (parse cfg L 0 ws).operands))
        ((parse cfg L 0 ws).words.length + 1) ∧
      (parse cfg L 0 ws).words <+ ws ∧ (parse cfg L 0 ws).operands <+ ws ∧
        ((parse cfg L 0 ws).words ++ (parse cfg L 0 ws).operands).Perm ws := by
  rintro f L (heq | heq)
  · obtain ⟨rfl, rfl⟩ := Prod.mk.inj heq
    exact ⟨h.ends hopts noLong_meets noLong_fits, parse_splits noLong_fits ws⟩
  · obtain ⟨rfl, rfl⟩ := Prod.mk.inj heq
    exact ⟨h.ends hopts (allLong_meets hval) (allLong_fits cfg), parse_splits (allLong_fits cfg) ws⟩

/-- `ab:` and `--all`, and `p x -ab v --al -- -a`. -/
def demo : Config where
  nargc := 7
  options := [0x61, 0x62, 0x3a]
  longOptions := [⟨[0x61, 0x6c, 0x6c], 0, none, 5⟩]
  opterr := false
  posixlyCorrect := false

def demoWords : List Str :=
  [[0x78], [0x2d, 0x61, 0x62], [0x76], [0x2d, 0x2d, 0x61, 0x6c], [0x2d, 0x2d], [0x2d, 0x61]]

def demoState : State :=
  ⟨fun i => ([0x70] :: demoWords)[i]?, 1, false, [], none, none, ⟨none, 0, 0, fun _ => 0, []⟩⟩

theorem command_line_demo :
    Ends demo (getoptLong demo) demoState
      [.option 0x61 none, .option 0x62 (some [0x76]), ⟨5, none, none, some 0⟩]
      [[0x70], [0x2d, 0x61, 0x62], [0x76], [0x2d, 0x2d, 0x61, 0x6c], [0x2d, 0x2d], [0x78],
        [0x2d, 0x61]] 5 :=
  (command_line demo [0x70] demoWords demoState ⟨rfl, rfl, .inr rfl, .inr ⟨rfl, rfl, rfl⟩⟩
    (forall_iff_forall_mem.mp (by decide)) (forall_iff_forall_mem.mp (by decide)) _ _
    (.inr rfl)).1

end PortableLib.Getopt
