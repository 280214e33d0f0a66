import PortableLib.ConfigFile.RoundTrip
import PortableLib.Lib.Run

/-! The parser on a file of any bytes: the file is cut into lines, continued lines are joined,
comments are dropped, and what is left is put below its parents line by line. The growable strings
are gone from this machine; the heap it builds is that of `parse`. -/

namespace PortableLib.ConfigFile
open List Gstring StrSplit

def cutLines : List UInt8 → List UInt8 → List (List UInt8)
  | acc, [] => if acc = [] then [] else [acc]
  | acc, c :: fp =>
    if c = 0x0d then
      match fp with
      | [] => [acc]
      | next :: rest =>
        if next ≠ 0x0a then acc :: cutLines [] (next :: rest) else acc :: cutLines [] rest
    else if c = 0x0a then acc :: cutLines [] fp
    else cutLines (acc ++ [c]) fp

def column (s : List UInt8) : Nat := width (s.takeWhile isBlank)

def isComment (s : List UInt8) : Bool := (s.dropWhile isBlank).head? = some 0x23

def content (s : List UInt8) : List UInt8 := trimmed (s.takeWhile (· ≠ 0))

def isSection (s : List UInt8) : Bool := (content s).getLast? = some 0x3a

def joinLine (pend line : List UInt8) : List UInt8 × List (List UInt8) :=
  if line = [] then (pend, [])
  else if line.getLast? = some 0x5c then (pend ++ line.dropLast, [])
  else ([], if isComment (pend ++ line) then [] else [pend ++ line])

def joinLines : List UInt8 → List (List UInt8) → List (List UInt8)
  | _, [] => []
  | pend, line :: ls => (joinLine pend line).2 ++ joinLines (joinLine pend line).1 ls

def nodeLines (fp : List UInt8) : List (List UInt8) := joinLines [] (cutLines [] fp)

/-- The variables of `parse` that make the tree. -/
structure Builder where
  heap : Heap
  top : Nat
  prev : Nat
  prevcol : Nat
  st : List Nat

def Parser.builder (ps : Parser) : Builder := ⟨ps.heap, ps.top, ps.prev, ps.prevcol, ps.st⟩

def placeAt (s : Builder) (c : Nat) : Option (Nat × List Nat) :=
  if c > s.prevcol then
    if (s.heap.nodes s.prev).master then some (s.prev, s.top :: s.st) else none
  else if c < s.prevcol then unwind s.heap c s.st
  else some (s.top, s.st)

def lineNode (next : Nat) (s : List UInt8) : Option (Node × (Node → Node)) :=
  if isSection s then
    (gstrInitFrom (some (content s).dropLast)).map fun name =>
      (⟨column s, true, [], [], name⟩, fun n => { n with subtree := n.subtree ++ [next] })
  else
    (gstrInitFrom (some (keyval (content s)).1)).bind fun key =>
      (gstrInitFrom (some (keyval (content s)).2)).map fun val =>
        (⟨column s, false, [], [], zeroGstr⟩,
          fun n => { n with values := n.values ++ [⟨key, val⟩] })

def addNode (h : Heap) (parent : Nat) (s : List UInt8) : Option Heap :=
  (lineNode h.next s).map fun p => (h.newz p.1).modify parent p.2

def attach (s : Builder) (line : List UInt8) : Option (Builder × Nat) :=
  (placeAt s (column line)).bind fun p => (addNode s.heap p.1 line).map fun heap =>
    (⟨heap, p.1, s.heap.next, column line, p.2⟩, p.1)

variable {name : List UInt8} {ps ps' : Parser} {g l : Gstr} {s pend line fp : List UInt8}

/-! ## One node -/

theorem initGstr_cstr {b : Block UInt8} (h : Terminated b s) (n : UInt64) :
    initGstr n (some b) = initGstr n (some (cstr s)) := by
  have hc := terminated_cstr h.nulFree
  have hlen := strlen_spec h (Nat.zero_le _) (by rw [Nat.zero_add]; exact h.room)
  have hlen' := strlen_spec hc (Nat.zero_le _) (by rw [Nat.zero_add]; exact hc.room)
  have hcells : ∀ i < s.length + 1, b.cells i = (cstr s).cells i := by
    intro i hi
    rcases (Nat.lt_succ_iff.mp hi).lt_or_eq with hlt | rfl
    · rw [h.cell hlt, hc.cell hlt]
    · rw [h.nul, hc.nul]
  simp only [initGstr, hlen, hlen', Option.bind_eq_bind, Option.bind_some,
    Block.copy_congr h.room hc.room hcells]

theorem gstrDup_eq (h : Carries g s) : gstrDup g = gstrInitFrom (some s) := by
  have hlen : g.len = UInt64.ofNat s.length := by rw [← h.len_eq, UInt64.ofNat_toNat]
  rw [gstrDup, initGstr_cstr h.term, hlen]
  rfl

theorem takeWhile_ne_zero (s : List UInt8) : 0 ∉ s.takeWhile (· ≠ 0) := by
  intro h0
  have hne := mem_takeWhile_imp h0
  simp at hne

theorem terminated_of_text (h : Text l s) : Terminated l.str (s.takeWhile (· ≠ 0)) := by
  have hlen : (s.takeWhile (· ≠ 0)).length ≤ s.length := (takeWhile_sublist _).length_le
  refine ⟨hlen.trans_lt h.room, ?_, ?_, takeWhile_ne_zero s⟩
  · apply List.ext_getElem
    · rw [length_map, length_range]
    · intro i _ hi
      have hpre := takeWhile_prefix (fun c : UInt8 => decide (c ≠ 0)) (l := s)
      rw [getElem_map, getElem_range, h.cell (hi.trans_le hlen)]
      exact (hpre.getElem hi).symm
  · have hsplit := takeWhile_append_dropWhile (p := fun c : UInt8 => decide (c ≠ 0)) (l := s)
    cases hd : s.dropWhile (· ≠ 0) with
    | nil =>
      rw [hd, append_nil] at hsplit
      rw [hsplit]
      exact h.nul
    | cons c t =>
      have hc : c = 0 := by
        have hnot := head?_dropWhile_not (fun c : UInt8 => decide (c ≠ 0)) s
        rw [hd] at hnot
        simpa using hnot
      rw [hd] at hsplit
      have hlt : (s.takeWhile (· ≠ 0)).length < s.length := by
        conv_rhs => rw [← hsplit, length_append, length_cons]
        omega
      rw [h.cell hlt]
      have hget := getElem_of_eq hsplit.symm hlt
      rw [hget, getElem_append_right (Nat.le_refl _)]
      simpa using hc

theorem newnode_eq (h : Text l s) : ∃ l', (∃ w, Carries l' w) ∧ ∀ hp p,
    newnode hp p l (column s) = (addNode hp p s).map fun h => (h, l') := by
  have hcar : Carries { l with len := UInt64.ofNat (s.takeWhile (· ≠ 0)).length }
      (s.takeWhile (· ≠ 0)) := by
    refine ⟨h.block, ?_, show Terminated l.str _ from terminated_of_text h⟩
    have hlen : (s.takeWhile (· ≠ 0)).length ≤ s.length := (takeWhile_sublist _).length_le
    have hcap := l.len.toNat_lt
    have hl := h.len_eq
    exact UInt64.toNat_ofNat_of_lt' (by change _ < 2 ^ 64; omega)
  -- `gstr_trim` looks for the end of the line itself
  obtain ⟨g₁, hg₁, h₁⟩ : ∃ g₁, gstrTrim l = some g₁ ∧ Carries g₁ (content s) := hcar.trim
  obtain ⟨g₂, hg₂, h₂⟩ := h₁.text.chopIf (s := [0x3a]) (by decide)
  have hnul : 0 ∉ content s := h₁.term.nulFree
  have hlast : (content s).getLastD 0 = 0x3a ↔ isSection s = true := by
    rw [isSection, decide_eq_true_iff, getLastD_eq_getLast?]
    cases (content s).getLast? with
    | none => simp
    | some c => simp
  simp only [mem_singleton, exists_eq_right, Option.mem_def] at h₂
  refine ⟨g₂, ?_, ?_⟩
  · refine ⟨_, h₂.carries fun h0 => hnul ?_⟩
    split at h0
    · exact dropLast_subset _ h0
    · exact h0
  · intro hp p
    rw [newnode, hg₁]
    simp only [Option.bind_eq_bind, Option.bind_some, hg₂, hlast]
    by_cases hs : isSection s = true
    · have hcolon : (content s).getLast? = some 0x3a := by simpa [isSection] using hs
      rw [if_pos hcolon] at h₂
      have hdup := gstrDup_eq (h₂.carries fun h0 => hnul (dropLast_subset _ h0))
      rw [if_pos hs, addNode, lineNode, if_pos hs, hdup]
      cases gstrInitFrom (some (content s).dropLast) with
      | none => rfl
      | some name => rfl
    · have hcolon : (content s).getLast? ≠ some 0x3a := by simpa [isSection] using hs
      rw [if_neg hcolon] at h₂
      have hcstring := cstring_spec (h₂.carries hnul).term
      rw [if_neg hs, addNode, lineNode, if_neg hs, hcstring]
      simp only [Option.bind_some]
      cases gstrInitFrom (some (keyval (content s)).1) with
      | none => rfl
      | some key =>
        simp only [Option.bind_some]
        cases gstrInitFrom (some (keyval (content s)).2) with
        | none => rfl
        | some val => rfl

/-! ## One line -/

def Stop.lineno : Stop → Option Nat
  | .fault => none
  | .noParent _ lineno _ => some lineno
  | .indentStack _ lineno _ => some lineno

/-- Why a line in column `c` is not placed. -/
def Refuses : Stop → Builder → Nat → Prop
  | .fault, _, _ => False
  | .noParent _ _ _, s, c => s.prevcol < c ∧ (s.heap.nodes s.prev).master = false
  | .indentStack _ _ _, s, c => c < s.prevcol ∧ unwind s.heap c s.st = none

theorem Refuses.placeAt {e : Stop} {b : Builder} {c : Nat} (h : Refuses e b c) :
    placeAt b c = none := by
  rw [ConfigFile.placeAt]
  cases e with
  | fault => exact h.elim
  | noParent =>
    obtain ⟨hlt, hmaster⟩ := h
    rw [if_pos hlt, hmaster]
    rfl
  | indentStack =>
    obtain ⟨hlt, hunwind⟩ := h
    rw [if_neg hlt.not_gt, if_pos hlt, hunwind]

theorem Stop.ne_fault {e : Stop} {k : Nat} (h : e.lineno = some k) : e ≠ .fault := by
  rintro rfl
  cases h

theorem place_eq (name : List UInt8) (ps : Parser) (c : Nat) : ∃ e : Stop,
    e.lineno = some ps.lineno ∧ (placeAt ps.builder c = none → Refuses e ps.builder c) ∧
    place name ps c = (placeAt ps.builder c).elim (.error e) .ok := by
  have hat : placeAt ps.builder c =
      if c > ps.prevcol then
        if (ps.heap.nodes ps.prev).master then some (ps.prev, ps.top :: ps.st) else none
      else if c < ps.prevcol then unwind ps.heap c ps.st
      else some (ps.top, ps.st) := rfl
  rw [place, hat]
  by_cases hgt : c > ps.prevcol
  · rw [if_pos hgt, if_pos hgt]
    cases hmaster : (ps.heap.nodes ps.prev).master with
    | true =>
      refine ⟨.noParent name ps.lineno ps.l, rfl, fun hnone => ?_, rfl⟩
      exact absurd hnone (Option.some_ne_none _)
    | false => exact ⟨.noParent name ps.lineno ps.l, rfl, fun _ => ⟨hgt, hmaster⟩, rfl⟩
  · rw [if_neg hgt, if_neg hgt]
    by_cases hlt : c < ps.prevcol
    · rw [if_pos hlt, if_pos hlt]
      refine ⟨.indentStack name ps.lineno ps.l, rfl, fun hnone => ⟨hlt, hnone⟩, ?_⟩
      cases unwind ps.heap c ps.st with
      | none => rfl
      | some p => rfl
    · rw [if_neg hlt, if_neg hlt]
      refine ⟨.indentStack name ps.lineno ps.l, rfl, fun hnone => ?_, rfl⟩
      exact absurd hnone (Option.some_ne_none _)

theorem takeWhile_isBlank (s : List UInt8) :
    (s.takeWhile isBlank).length ≤ s.length := (takeWhile_sublist _).length_le

theorem read_nonblank (h : Text l s) : ∃ c, l.str.read (s.takeWhile isBlank).length = some c ∧
    (c = 0x23 ↔ isComment s = true) := by
  have hsplit := takeWhile_append_dropWhile (p := isBlank) (l := s)
  have hle := takeWhile_isBlank s
  rw [isComment, decide_eq_true_iff]
  cases hd : s.dropWhile isBlank with
  | nil =>
    rw [hd, append_nil] at hsplit
    refine ⟨0, ?_, by simp⟩
    rw [hsplit, Block.read_of_lt h.room, h.nul]
  | cons c t =>
    rw [hd] at hsplit
    have hlt : (s.takeWhile isBlank).length < s.length := by
      conv_rhs => rw [← hsplit, length_append, length_cons]
      omega
    refine ⟨c, ?_, by simp⟩
    rw [Block.read_of_lt (hlt.trans h.room), h.cell hlt, getElem_of_eq hsplit.symm hlt,
      getElem_append_right (Nat.le_refl _)]
    simp

theorem reset_text (h : Text l s) : ∃ l', gstrReset l = some l' ∧ Text l' [] := by
  obtain ⟨l', hl', hold, -⟩ := gstrReset_spec h.block (h.block ▸ (Nat.zero_le _).trans_lt h.room)
  exact ⟨l', hl', hold.text⟩

theorem parseNode_eq (name : List UInt8) (h : Text ps.l s) : ∃ l₀ l₁ e, Text l₀ [] ∧ Text l₁ [] ∧
    e.lineno = some ps.lineno ∧
    (placeAt ps.builder (column s) = none → Refuses e ps.builder (column s)) ∧
    parseNode name ps =
      if column s < 2 ^ 31 then
        if isComment s then .ok { ps with l := l₀ }
        else (placeAt ps.builder (column s)).elim (.error e) fun p =>
          (addNode ps.heap p.1 s).elim (.error .fault) fun heap =>
            .ok { ps with
              heap := heap, l := l₁, top := p.1, prev := ps.heap.next, prevcol := column s,
              st := p.2 }
      else .error .fault := by
  obtain ⟨l₀, hl₀, h₀⟩ := reset_text h
  obtain ⟨e, hno, href, hplace⟩ := place_eq name ps (column s)
  obtain ⟨l', ⟨w, hw⟩, hnew⟩ := newnode_eq h
  obtain ⟨l₁, hl₁, h₁⟩ := reset_text hw.text
  obtain ⟨c, hread, hc⟩ := read_nonblank h
  refine ⟨l₀, l₁, e, h₀, h₁, hno, href, ?_⟩
  rw [parseNode, cols_spec h]
  by_cases hcol : column s < 2 ^ 31
  · rw [if_pos hcol, if_pos (show width (s.takeWhile isBlank) < 2 ^ 31 from hcol)]
    change (orFault (ps.l.str.read (s.takeWhile isBlank).length) >>= _) = _
    rw [hread]
    change (if c = 0x23 then _ else _) = _
    by_cases hcomment : isComment s = true
    · rw [if_pos (hc.mpr hcomment), if_pos hcomment, hl₀]
      rfl
    · rw [if_neg fun h0 => hcomment (hc.mp h0), if_neg hcomment]
      change (place name ps (column s) >>= _) = _
      rw [hplace]
      cases placeAt ps.builder (column s) with
      | none => rfl
      | some p =>
        change (orFault (newnode ps.heap p.1 ps.l (column s)) >>= _) = _
        rw [hnew, Option.elim_some]
        cases addNode ps.heap p.1 s with
        | none => rfl
        | some heap =>
          change (orFault (gstrReset l') >>= _) = _
          rw [hl₁]
          rfl
  · rw [if_neg hcol, if_neg (show ¬ width (s.takeWhile isBlank) < 2 ^ 31 from hcol)]
    rfl

/-- The parser ends as the machine does: its state is as in `P` and has the same tree, or both stop
at a line without a parent. Nothing is said of a program that is undefined. -/
def Follows (P : Parser → Prop) : Except Stop Parser → Option (Builder × List Nat) → Prop
  | .ok ps, q => P ps ∧ ∃ parents, q = some (ps.builder, parents)
  | .error e, q => e ≠ .fault → q = none

theorem follows_fault {P : Parser → Prop} {q : Option (Builder × List Nat)} :
    Follows P (.error .fault) q := fun h => absurd rfl h

theorem Follows.mono {P Q : Parser → Prop} {r : Except Stop Parser}
    {q : Option (Builder × List Nat)} (h : Follows P r q) (hPQ : ∀ ps, P ps → Q ps) :
    Follows Q r q := by
  cases r with
  | ok ps => exact ⟨hPQ ps h.1, h.2⟩
  | error e => exact h

theorem Follows.append {P Q : Parser → Prop} {r : Except Stop Parser}
    {f : Parser → Except Stop Parser} {b : Builder} {is js : List (List UInt8)}
    (h : Follows P r (Run.run attach b is))
    (hf : ∀ ps, P ps → Follows Q (f ps) (Run.run attach ps.builder js)) :
    Follows Q (r >>= f) (Run.run attach b (is ++ js)) := by
  rw [Run.run_append_eq]
  cases r with
  | error e =>
    intro he
    rw [h he]
    rfl
  | ok ps =>
    obtain ⟨hP, parents, hrun⟩ := h
    have hnext := hf ps hP
    rw [hrun, Option.bind_some]
    change Follows Q (f ps) _
    cases hps : f ps with
    | error e =>
      rw [hps] at hnext
      intro he
      rw [hnext he]
      rfl
    | ok ps' =>
      rw [hps] at hnext
      obtain ⟨hQ, parents', hrun'⟩ := hnext
      rw [hrun']
      exact ⟨hQ, parents ++ parents', rfl⟩

theorem parseNode_follows (name : List UInt8) (h : Text ps.l s) :
    Follows (fun ps' => ps'.g = ps.g ∧ Text ps'.l [] ∧ ps'.lineno = ps.lineno) (parseNode name ps)
      (Run.run attach ps.builder (if isComment s then [] else [s])) := by
  obtain ⟨l₀, l₁, e, h₀, h₁, -, -, heq⟩ := parseNode_eq name h
  rw [heq]
  by_cases hcol : column s < 2 ^ 31
  · rw [if_pos hcol]
    by_cases hcomment : isComment s = true
    · rw [if_pos hcomment, if_pos hcomment]
      exact ⟨⟨rfl, h₀, rfl⟩, [], rfl⟩
    · rw [if_neg hcomment, if_neg hcomment]
      simp only [Run.run, attach]
      cases placeAt ps.builder (column s) with
      | none => exact fun _ => rfl
      | some p =>
        change Follows _ ((addNode ps.heap p.1 s).elim _ _) (((addNode ps.heap p.1 s).map _).bind _)
        cases addNode ps.heap p.1 s with
        | none => exact follows_fault
        | some heap => exact ⟨⟨rfl, h₁, rfl⟩, [p.1], rfl⟩
  · rw [if_neg hcol]
    exact follows_fault

/-- A line that is empty or continued is kept for later; every other one is put into the tree. -/
inductive LineStep (name : List UInt8) (ps : Parser) (pend line : List UInt8) :
    Except Stop Parser → Prop
  | fault : LineStep name ps pend line (.error .fault)
  | skip {ps' : Parser} {s : List UInt8} (hb : ps'.builder = ps.builder)
      (hno : ps'.lineno = ps.lineno + 1) (hg : Text ps'.g s)
      (hl : Text ps'.l (joinLine pend line).1) (hjoin : (joinLine pend line).2 = []) :
      LineStep name ps pend line (.ok ps')
  | node {ps' : Parser} {s : List UInt8} (hb : ps'.builder = ps.builder)
      (hno : ps'.lineno = ps.lineno + 1) (hg : Text ps'.g s) (hl : Text ps'.l (pend ++ line))
      (hjoin : joinLine pend line = ([], if isComment (pend ++ line) then [] else [pend ++ line])) :
      LineStep name ps pend line (parseNode name ps')

theorem parseLine_step (name : List UInt8) (jk : Nat → UInt8) (hg : Text ps.g line)
    (hl : Text ps.l pend) : LineStep name ps pend line (parseLine name jk ps) := by
  rw [parseLine]
  cases hn : toInt (ps.lineno + 1) with
  | none => exact .fault
  | some n =>
    obtain ⟨-, rfl⟩ := toInt_eq_some hn
    change LineStep _ _ _ _ (if ps.g.len = 0 then _ else _)
    by_cases hline : line = []
    · have hjoin : joinLine pend line = (pend, []) := by rw [joinLine, if_pos hline]
      rw [if_pos (hg.len_eq_zero_iff.mpr hline)]
      exact .skip rfl rfl hg (hjoin.symm ▸ hl) (hjoin.symm ▸ rfl)
    · have hlen : ps.g.len ≠ 0 := fun h0 => hline (hg.len_eq_zero_iff.mp h0)
      obtain ⟨g', hchop, hg'⟩ := hg.chopIf (s := [0x5c]) (by decide)
      simp only [mem_singleton, exists_eq_right, Option.mem_def] at hg'
      rw [if_neg hlen, hchop]
      change LineStep _ _ _ _ (orFault (gstrAppend jk ps.l (some g')) >>= _)
      cases happ : gstrAppend jk ps.l (some g') with
      | none => exact .fault
      | some r =>
        have hcap := g'.cap.toNat_lt
        have hblock := hg'.block
        have hroom := hg'.room
        have hr := hl.appended hg'.bytes hg'.nul hg'.len_eq (by omega) happ
        -- the code looks at the last byte, which an empty line does not have
        have hlast : line.getLastD 0 = 0x5c ↔ line.getLast? = some 0x5c := by
          rw [getLastD_eq_getLast?]
          cases line.getLast? with
          | none => simp
          | some c => simp
        change LineStep _ _ _ _ (if line.getLastD 0 = 0x5c then _ else _)
        by_cases hback : line.getLast? = some 0x5c
        -- a line to be continued only grows what is pending
        · have hjoin : joinLine pend line = (pend ++ line.dropLast, []) := by
            rw [joinLine, if_neg hline, if_pos hback]
          rw [if_pos (hlast.mpr hback)]
          rw [if_pos hback] at hr hg'
          exact .skip rfl rfl hg' (hjoin.symm ▸ hr) (hjoin.symm ▸ rfl)
        · rw [if_neg fun h0 => hback (hlast.mp h0)]
          rw [if_neg hback] at hr hg'
          refine .node rfl rfl hg' hr ?_
          rw [joinLine, if_neg hline, if_neg hback]

theorem parseLine_follows (name : List UInt8) (jk : Nat → UInt8) (hg : Text ps.g line)
    (hl : Text ps.l pend) :
    Follows (fun ps' => (∃ s, Text ps'.g s) ∧ Text ps'.l (joinLine pend line).1 ∧
        ps'.lineno = ps.lineno + 1)
      (parseLine name jk ps) (Run.run attach ps.builder (joinLine pend line).2) := by
  have hstep := parseLine_step name jk hg hl
  generalize parseLine name jk ps = r at hstep ⊢
  cases hstep with
  | fault => exact follows_fault
  | skip hb hno hg' hl' hjoin =>
    rw [← hb, hjoin]
    exact ⟨⟨⟨_, hg'⟩, hl', hno⟩, [], rfl⟩
  | node hb hno hg' hl' hjoin =>
    rw [← hb, hjoin, ← hno]
    exact (parseNode_follows name hl').mono fun ps'' h => ⟨⟨_, h.1.symm ▸ hg'⟩, h.2⟩

/-! ## The whole file -/

theorem readlineLoop_cut {junk : Nat → Nat → UInt8} {acc : List UInt8} (h : Text g acc)
    {r : Gstr × List UInt8 × Bool} (hr : readlineLoop junk g fp = some r) :
    ∃ line, Text r.1 line ∧
      cutLines acc fp = (if r.2.2 = false ∧ line = [] then [] else line :: cutLines [] r.2.1) ∧
      line.length + r.2.1.length + r.2.2.toNat ≤ acc.length + fp.length := by
  induction fp generalizing g acc with
  | nil =>
    obtain rfl := Option.some.inj hr
    refine ⟨acc, h, ?_, Nat.le_refl _⟩
    rw [cutLines]
    simp only [true_and]
    rfl
  | cons c fp ih =>
    rw [readlineLoop.eq_def] at hr
    dsimp only at hr
    rw [cutLines.eq_def]
    dsimp only
    split_ifs at hr ⊢ with hcr hlf
    · cases fp with
      | nil =>
        obtain rfl := Option.some.inj hr
        exact ⟨acc, h, by simp [cutLines], by simp⟩
      | cons next rest =>
        dsimp only at hr ⊢
        split_ifs at hr ⊢ with hnext
        · obtain rfl := Option.some.inj hr
          exact ⟨acc, h, by simp, by simp only [length_cons, Bool.toNat_true]; omega⟩
        · obtain rfl := Option.some.inj hr
          exact ⟨acc, h, by simp, by simp only [length_cons, Bool.toNat_true]; omega⟩
    · obtain rfl := Option.some.inj hr
      exact ⟨acc, h, by simp, by simp only [length_cons, Bool.toNat_true]; omega⟩
    · obtain ⟨p, hp, hr⟩ := Option.bind_eq_some_iff.mp hr
      have hp' := h.appendCh hp
      rw [toUInt8_toUInt32] at hp'
      obtain ⟨line, hline, hcut, hle⟩ := ih hp' hr
      refine ⟨line, hline, hcut, ?_⟩
      rw [length_append, length_singleton] at hle
      rw [length_cons]
      omega

theorem readline_cut {junk : Nat → Nat → UInt8} (h : Text g s) {r : Gstr × List UInt8 × Bool}
    (hr : readline junk g fp = some r) : ∃ line, Text r.1 line ∧
      cutLines [] fp = (if r.2.2 = false then [] else line :: cutLines [] r.2.1) ∧
      line.length + r.2.1.length ≤ fp.length ∧ (r.2.2 = true → r.2.1.length < fp.length) := by
  obtain ⟨g₀, hg₀, h₀⟩ := reset_text h
  rw [readline, hg₀, Option.bind_eq_bind, Option.bind_some] at hr
  obtain ⟨⟨g', rest, c⟩, hq, hr⟩ := Option.bind_eq_some_iff.mp hr
  obtain rfl := Option.some.inj hr
  obtain ⟨line, hline, hcut, hle⟩ := readlineLoop_cut h₀ hq
  dsimp only at hline hcut hle ⊢
  rw [length_nil, Nat.zero_add] at hle
  have hmore : (decide (g'.len > 0) || c) = false ↔ c = false ∧ line = [] := by
    rw [Bool.or_eq_false_iff, decide_eq_false_iff_not, hline.len_pos_iff, not_not, and_comm]
  refine ⟨line, hline, ?_, by omega, fun htrue => ?_⟩
  · simp only [hcut, hmore]
  · cases c with
    | true =>
      rw [Bool.toNat_true] at hle
      omega
    | false =>
      have hne : line ≠ [] := by
        rw [← hline.len_pos_iff]
        simpa using htrue
      have hpos := length_pos_of_ne_nil hne
      omega

theorem parseLoop_follows (name : List UInt8) (junk : Nat → Nat → UInt8) (fuel : Nat)
    (fp : List UInt8) (hg : Text ps.g s) (hl : Text ps.l pend) :
    Follows (fun _ => True) (parseLoop name junk fuel ps fp)
      (Run.run attach ps.builder (joinLines pend (cutLines [] fp))) := by
  induction fuel generalizing ps s pend fp with
  | zero => exact follows_fault
  | succ fuel ih =>
    rw [parseLoop]
    cases hr : readline junk ps.g fp with
    | none => exact follows_fault
    | some r =>
      obtain ⟨g', rest, more⟩ := r
      obtain ⟨line, hline, hcut, -⟩ := readline_cut hg hr
      change Follows _ (if !more then _ else _) _
      cases more with
      | false =>
        rw [hcut, if_pos rfl]
        exact ⟨trivial, [], rfl⟩
      | true =>
        have hnext := parseLine_follows name (junk rest.length)
          (show Text ({ ps with g := g' } : Parser).g line from hline) hl
        rw [hcut, if_neg (show ¬ true = false by decide), joinLines]
        exact hnext.append fun ps' hps' => ih rest hps'.1.choose_spec hps'.2.1

/-- The root, as `parse` makes it. -/
def rootNode : Node := ⟨-1, true, [], [], (gstrInitFrom (some rootName)).getD zeroGstr⟩

def Builder.start : Builder := ⟨⟨fun _ => rootNode, 1⟩, 0, 0, 0, []⟩

theorem parse_start (name : List UInt8) (junk : Nat → Nat → UInt8) (fp : List UInt8) :
    ∃ ps : Parser, ps.builder = .start ∧ Text ps.g [] ∧ Text ps.l [] ∧ ps.lineno = 0 ∧
      parse name junk fp =
        (parseLoop name junk (fp.length + 1) ps fp >>= fun ps' => .ok ps'.heap) := by
  obtain ⟨g, l, root, hroot, hg, hl, heq⟩ := parse_eq name junk fp
  refine ⟨_, ?_, hg.text, hl.1.text, rfl, heq⟩
  rw [Builder.start, rootNode, hroot]
  rfl

theorem run_of_parse {junk : Nat → Nat → UInt8} {h : Heap} (hp : parse name junk fp = .ok h) :
    ∃ q, Run.run attach .start (nodeLines fp) = some q ∧ q.1.heap = h := by
  obtain ⟨ps, hstart, hg, hl, -, heq⟩ := parse_start name junk fp
  have hfollows := parseLoop_follows name junk (fp.length + 1) fp hg hl
  obtain ⟨ps', hps', hheap⟩ := bind_eq_ok (heq.symm.trans hp)
  rw [hps', hstart] at hfollows
  obtain ⟨-, parents, hrun⟩ := hfollows
  exact ⟨_, hrun, Except.ok.inj hheap⟩

theorem run_of_parse_error {junk : Nat → Nat → UInt8} {e : Stop}
    (hp : parse name junk fp = .error e) (he : e ≠ .fault) :
    Run.run attach .start (nodeLines fp) = none := by
  obtain ⟨ps, hstart, hg, hl, -, heq⟩ := parse_start name junk fp
  have hfollows := parseLoop_follows name junk (fp.length + 1) fp hg hl
  rw [hstart] at hfollows
  cases hloop : parseLoop name junk (fp.length + 1) ps fp with
  | ok ps' =>
    rw [heq, hloop] at hp
    cases hp
  | error e' =>
    rw [heq, hloop] at hp
    obtain rfl : e' = e := Except.error.inj hp
    rw [hloop] at hfollows
    exact hfollows he

/-! ## The line that is reported -/

theorem bind_eq_error {α β : Type} {x : Except Stop α} {f : α → Except Stop β} {e : Stop}
    (h : (x >>= f) = .error e) : x = .error e ∨ ∃ a, x = .ok a ∧ f a = .error e := by
  cases x with
  | error e' => exact Or.inl (congrArg _ (Except.error.inj h))
  | ok a => exact Or.inr ⟨a, rfl, h⟩

theorem orFault_error {α : Type} {x : Option α} {e : Stop} (h : orFault x = .error e) :
    e = .fault := by
  cases x with
  | none => exact (Except.error.inj h).symm
  | some a => cases h

theorem parseNode_refuses {e : Stop} (h : parseNode name ps = .error e) (he : e ≠ .fault)
    (hl : Text ps.l s) : e.lineno = some ps.lineno ∧ isComment s = false ∧
      Refuses e ps.builder (column s) := by
  obtain ⟨l₀, l₁, e', -, -, hno, href, heq⟩ := parseNode_eq name hl
  rw [heq] at h
  split_ifs at h with hcol hcomment
  · cases hplace : placeAt ps.builder (column s) with
    | none =>
      rw [hplace] at h
      obtain rfl := Except.error.inj h
      exact ⟨hno, Bool.eq_false_iff.mpr hcomment, href hplace⟩
    | some p =>
      rw [hplace, Option.elim_some] at h
      cases hadd : addNode ps.heap p.1 s with
      | none =>
        rw [hadd] at h
        exact absurd (Except.error.inj h).symm he
      | some heap =>
        rw [hadd] at h
        cases h
  · exact absurd (Except.error.inj h).symm he

theorem parseLine_refuses {jk : Nat → UInt8} {e : Stop} (h : parseLine name jk ps = .error e)
    (he : e ≠ .fault) (hg : Text ps.g line) (hl : Text ps.l pend) :
    e.lineno = some (ps.lineno + 1) ∧ (joinLine pend line).2 = [pend ++ line] ∧
      Refuses e ps.builder (column (pend ++ line)) := by
  have hstep := parseLine_step name jk hg hl
  generalize parseLine name jk ps = r at hstep h
  cases hstep with
  | fault => exact absurd (Except.error.inj h).symm he
  | skip hb hno hg' hl' hjoin => cases h
  | node hb hno hg' hl' hjoin =>
    obtain ⟨hline, hcomment, href⟩ := parseNode_refuses h he hl'
    rw [hno] at hline
    rw [hb] at href
    rw [hjoin, hcomment]
    exact ⟨hline, rfl, href⟩

/-- The error is about the last of the lines read: those before it run. -/
theorem parseLoop_reported {junk : Nat → Nat → UInt8} {fuel : Nat} {e : Stop}
    (h : parseLoop name junk fuel ps fp = .error e) (he : e ≠ .fault) (hg : Text ps.g s)
    (hl : Text ps.l pend) : ∃ k before t q, e.lineno = some (ps.lineno + k) ∧
      joinLines pend ((cutLines [] fp).take k) = before ++ [t] ∧
      Run.run attach ps.builder before = some q ∧ Refuses e q.1 (column t) := by
  induction fuel generalizing ps s pend fp with
  | zero => exact absurd (Except.error.inj h).symm he
  | succ fuel ih =>
    rw [parseLoop] at h
    obtain h | ⟨⟨g', rest, more⟩, hr, h⟩ := bind_eq_error h
    · exact absurd (orFault_error h) he
    have hread : readline junk ps.g fp = some (g', rest, more) := by
      cases hread : readline junk ps.g fp with
      | none =>
        rw [hread] at hr
        cases hr
      | some r =>
        rw [hread] at hr
        rw [Except.ok.inj hr]
    obtain ⟨line, hline, hcut, -⟩ := readline_cut hg hread
    change (if !more then _ else _) = _ at h
    cases more with
    | false => cases h
    | true =>
      change (parseLine name (junk rest.length) { ps with g := g' } >>= _) = _ at h
      have hline' : Text ({ ps with g := g' } : Parser).g line := hline
      rw [if_neg (show ¬true = false by decide)] at hcut
      obtain hp | ⟨ps', hp, h⟩ := bind_eq_error h
      · obtain ⟨hno, hjoin, href⟩ := parseLine_refuses hp he hline' hl
        refine ⟨1, [], pend ++ line, _, hno, ?_, rfl, href⟩
        rw [hcut, take_succ_cons, take_zero, joinLines, joinLines, append_nil, hjoin, nil_append]
      · have hnext := parseLine_follows name (junk rest.length) hline' hl
        rw [hp] at hnext
        obtain ⟨⟨⟨t, ht⟩, hl', hno⟩, parents, hrun⟩ := hnext
        change Run.run attach ps.builder (joinLine pend line).2 = _ at hrun
        obtain ⟨k, before, t, q, hk, hjoin, hbefore, href⟩ := ih h ht hl'
        refine ⟨k + 1, (joinLine pend line).2 ++ before, t, _, ?_, ?_,
          Run.run_append hrun hbefore, href⟩
        · rw [hk, hno]
          exact congrArg some (Nat.add_right_comm ps.lineno 1 k)
        · rw [hcut, take_succ_cons, joinLines, hjoin, append_assoc]

theorem parse_reported {junk : Nat → Nat → UInt8} {e : Stop} (h : parse name junk fp = .error e)
    (he : e ≠ .fault) : ∃ k before t q, e.lineno = some k ∧
      joinLines [] ((cutLines [] fp).take k) = before ++ [t] ∧
      Run.run attach .start before = some q ∧ Refuses e q.1 (column t) := by
  obtain ⟨ps, hstart, hg, hl, hno, heq⟩ := parse_start name junk fp
  obtain h | ⟨ps', -, h⟩ := bind_eq_error (heq.symm.trans h)
  · obtain ⟨k, before, t, q, hk, hjoin, hrun, href⟩ := parseLoop_reported h he hg hl
    rw [hno, Nat.zero_add] at hk
    rw [hstart] at hrun
    exact ⟨k, before, t, q, hk, hjoin, hrun, href⟩
  · cases h

theorem Refuses.run_none {e : Stop} {before : List (List UInt8)} {q : Builder × List Nat}
    (h : Refuses e q.1 (column s)) (hrun : Run.run attach .start before = some q) :
    Run.run attach .start (before ++ [s]) = none := by
  have hattach : attach q.1 s = none := by
    rw [attach, h.placeAt]
    rfl
  rw [Run.run_append_eq, hrun, Option.bind_some, Run.run, hattach]
  rfl

/-! ## Files that are short enough -/

theorem foldl_blank_le (s : List UInt8) (c : Nat) : s.foldl blank c ≤ c + 4 * s.length := by
  induction s generalizing c with
  | nil => exact Nat.le_refl c
  | cons x s ih =>
    have hx : blank c x ≤ c + 4 := by
      rw [blank]
      split <;> omega
    have hs := ih (blank c x)
    rw [foldl_cons, length_cons]
    omega

theorem column_le (s : List UInt8) : column s ≤ 4 * s.length := by
  have hle := foldl_blank_le (s.takeWhile isBlank) 0
  have htake := takeWhile_isBlank s
  rw [column, width]
  omega

theorem gstrInitFrom_isSome {w : List UInt8} (hnul : 0 ∉ w) (hshort : w.length < 2 ^ 31) :
    ∃ g, gstrInitFrom (some w) = some g := by
  obtain ⟨g, hg, -⟩ := initGstr_spec (terminated_cstr hnul) (toNat_ofNat hshort) hshort
  exact ⟨g, hg⟩

theorem content_sublist (s : List UInt8) : content s <+ s :=
  (trimmed_sublist _).trans (takeWhile_sublist _)

theorem zero_notMem_content (s : List UInt8) : 0 ∉ content s :=
  fun h0 => takeWhile_ne_zero s ((trimmed_sublist _).subset h0)

theorem keyval_part {s w : List UInt8} (hw : w = (keyval s).1 ∨ w = (keyval s).2) (hnul : 0 ∉ s) :
    0 ∉ w ∧ w.length ≤ max s.length 1 := by
  have hpart : ∀ t, t <+ s → 0 ∉ strtrim t ∧ (strtrim t).length ≤ max s.length 1 := by
    intro t ht
    have hsub := (trimmed_sublist t).trans ht
    rw [strtrim_eq]
    exact ⟨fun h0 => hnul (hsub.subset h0), hsub.length_le.trans (Nat.le_max_left _ _)⟩
  rw [keyval] at hw
  split at hw
  · rcases hw with rfl | rfl
    · exact hpart _ (take_sublist _ _)
    · exact hpart _ (drop_sublist _ _)
  · rcases hw with rfl | rfl
    · exact hpart _ (Sublist.refl s)
    · exact ⟨by simp, Nat.le_max_right _ _⟩

theorem addNode_isSome (h : Heap) (p : Nat) (hs : s.length < 2 ^ 31) :
    ∃ h', addNode h p s = some h' := by
  have hlen := (content_sublist s).length_le
  have hnul := zero_notMem_content s
  rw [addNode, lineNode]
  split
  · obtain ⟨gname, hname⟩ := gstrInitFrom_isSome (w := (content s).dropLast)
      (fun h0 => hnul (dropLast_subset _ h0)) (by rw [length_dropLast]; omega)
    rw [hname]
    exact ⟨_, rfl⟩
  · obtain ⟨hk, hklen⟩ := keyval_part (Or.inl rfl) hnul
    obtain ⟨hv, hvlen⟩ := keyval_part (Or.inr rfl) hnul
    obtain ⟨key, hkey⟩ := gstrInitFrom_isSome hk (by omega)
    obtain ⟨val, hval⟩ := gstrInitFrom_isSome hv (by omega)
    rw [hkey, hval]
    exact ⟨_, rfl⟩

theorem parseNode_defined (h : Text ps.l s) (hs : s.length < 2 ^ 29) :
    parseNode name ps ≠ .error .fault := by
  obtain ⟨l₀, l₁, e, -, -, hno, -, heq⟩ := parseNode_eq name h
  have hcol := column_le s
  rw [heq, if_pos (by omega)]
  split
  · intro h0
    cases h0
  · cases placeAt ps.builder (column s) with
    | none => exact fun h0 => Stop.ne_fault hno (Except.error.inj h0)
    | some p =>
      obtain ⟨h', hh'⟩ := addNode_isSome ps.heap p.1 (s := s) (by omega)
      rw [Option.elim_some, hh']
      intro h0
      cases h0

theorem parseLine_defined (name : List UInt8) (jk : Nat → UInt8) (hg : Text ps.g line)
    (hl : Text ps.l pend) (hno : ps.lineno + 1 < 2 ^ 31)
    (hlen : pend.length + line.length < 2 ^ 29) :
    parseLine name jk ps ≠ .error .fault := by
  rw [parseLine, toInt, if_pos hno]
  change (if ps.g.len = 0 then _ else _) ≠ _
  split
  · intro h0
    cases h0
  · obtain ⟨g', hchop, hg'⟩ := hg.chopIf (s := [0x5c]) (by decide)
    have hle : (if ∃ c ∈ line.getLast?, c ∈ [(0x5c : UInt8)] then line.dropLast
        else line).length ≤ line.length := by
      split
      · exact (dropLast_sublist line).length_le
      · exact Nat.le_refl _
    generalize (if ∃ c ∈ line.getLast?, c ∈ [(0x5c : UInt8)] then line.dropLast else line) = t
      at hg' hle
    obtain ⟨l', happ, hl'⟩ := hl.append_fits jk hg'.room hg'.bytes hg'.nul hg'.len_eq
      (by omega) (by omega)
    rw [hchop]
    change (orFault (gstrAppend jk ps.l (some g')) >>= _) ≠ _
    rw [show gstrAppend jk ps.l (some g') = _ from happ]
    change (if line.getLastD 0 = 0x5c then _ else _) ≠ _
    split
    · intro h0
      cases h0
    · exact parseNode_defined hl' (by rw [length_append]; omega)

theorem readlineLoop_defined (junk : Nat → Nat → UInt8) {acc : List UInt8} (h : Text g acc)
    (hlen : acc.length + fp.length < 2 ^ 31) : ∃ r, readlineLoop junk g fp = some r := by
  induction fp generalizing g acc with
  | nil => exact ⟨_, rfl⟩
  | cons c fp ih =>
    rw [length_cons] at hlen
    rw [readlineLoop.eq_def]
    dsimp only
    split_ifs with hcr hlf
    · cases fp with
      | nil => exact ⟨_, rfl⟩
      | cons next rest =>
        dsimp only
        split
        · exact ⟨_, rfl⟩
        · exact ⟨_, rfl⟩
    · exact ⟨_, rfl⟩
    · obtain ⟨g', hg', h'⟩ := h.appendCh_fits (junk fp.length) c.toUInt32 (by omega)
      rw [hg']
      exact ih h' (by rw [length_append, length_singleton]; omega)

theorem joinLine_length (pend line : List UInt8) :
    (joinLine pend line).1.length ≤ pend.length + line.length := by
  rw [joinLine]
  split
  · exact Nat.le_add_right _ _
  · split
    · rw [length_append, length_dropLast]
      omega
    · exact Nat.zero_le _

theorem parseLoop_defined (name : List UInt8) (junk : Nat → Nat → UInt8) {fuel : Nat}
    (hg : Text ps.g s) (hl : Text ps.l pend) (hfuel : fp.length < fuel)
    (hlen : pend.length + fp.length < 2 ^ 29) (hno : ps.lineno + fp.length < 2 ^ 29) :
    parseLoop name junk fuel ps fp ≠ .error .fault := by
  induction fuel generalizing ps s pend fp with
  | zero => omega
  | succ fuel ih =>
    obtain ⟨g₀, hg₀, h₀⟩ := reset_text hg
    obtain ⟨q, hq⟩ := readlineLoop_defined junk h₀
      (show _ + fp.length < 2 ^ 31 by rw [length_nil]; omega)
    obtain ⟨r, hr⟩ : ∃ r, readline junk ps.g fp = some r := by
      rw [readline, hg₀, Option.bind_eq_bind, Option.bind_some, hq]
      exact ⟨_, rfl⟩
    obtain ⟨g', rest, more⟩ := r
    obtain ⟨line, hline, -, hle, hlt⟩ := readline_cut hg hr
    dsimp only at hline hle hlt
    rw [parseLoop, hr]
    change (if !more then _ else _) ≠ _
    cases more with
    | false =>
      intro h0
      cases h0
    | true =>
      have hpos := hlt rfl
      have hline' : Text ({ ps with g := g' } : Parser).g line := hline
      have hdef := parseLine_defined name (junk rest.length) hline' hl
        (show ps.lineno + 1 < 2 ^ 31 by omega) (by omega)
      have hnext := parseLine_follows name (junk rest.length) hline' hl
      change (parseLine name (junk rest.length) { ps with g := g' } >>= _) ≠ _
      cases hp : parseLine name (junk rest.length) { ps with g := g' } with
      | error e =>
        rw [hp] at hdef
        exact hdef
      | ok ps' =>
        rw [hp] at hnext
        obtain ⟨⟨⟨t, ht⟩, hl', hno'⟩, -⟩ := hnext
        have hpend := joinLine_length pend line
        refine ih ht hl' (by omega) (by omega) ?_
        rw [hno']
        change ps.lineno + 1 + rest.length < _
        omega

theorem parse_defined (name : List UInt8) (junk : Nat → Nat → UInt8) (hlen : fp.length < 2 ^ 29) :
    parse name junk fp ≠ .error .fault := by
  obtain ⟨ps, -, hg, hl, hno, heq⟩ := parse_start name junk fp
  have hdef := parseLoop_defined name junk hg hl (Nat.lt_succ_self fp.length)
    (by rw [length_nil]; omega) (by rw [hno]; omega)
  rw [heq]
  cases hp : parseLoop name junk (fp.length + 1) ps fp with
  | ok ps' =>
    intro h0
    cases h0
  | error e =>
    rw [hp] at hdef
    exact fun h0 => hdef (congrArg _ (Except.error.inj h0))

theorem parse_of_run (name : List UInt8) (junk : Nat → Nat → UInt8) (hlen : fp.length < 2 ^ 29)
    {q : Builder × List Nat} (hrun : Run.run attach .start (nodeLines fp) = some q) :
    parse name junk fp = .ok q.1.heap := by
  cases hp : parse name junk fp with
  | ok h =>
    obtain ⟨q', hrun', hheap⟩ := run_of_parse hp
    rw [hrun] at hrun'
    rw [← hheap, Option.some.inj hrun']
  | error e =>
    have hne : e ≠ .fault := fun h0 => parse_defined name junk hlen (h0 ▸ hp)
    rw [run_of_parse_error hp hne] at hrun
    cases hrun

end PortableLib.ConfigFile
