import PortableLib.ConfigFile.Layout

/-! The parser builds the tree that a file renders. A line belongs to the open section whose lines
stand in its column; which sections are open is not in the parser's stack alone, since the current
parent is beside it and the section of the line before may be the next parent. -/

namespace PortableLib.ConfigFile
open List Gstring

variable {name : List UInt8} {ps ps' : Parser} {p c : Nat} {anc ctx : List (Nat × Nat)}

/-! ## The open sections -/

def Open (name : List UInt8) (ps : Parser) (ctx : List (Nat × Nat)) : Prop :=
  ∀ p c anc, (p, c) :: anc <:+ ctx → place name ps c = .ok (p, anc.map Prod.fst)

structure Nested (nodes : Nat → Node) (ctx : List (Nat × Nat)) : Prop where
  inside : ∀ x ∈ ctx, (nodes x.1).col < x.2
  right : ctx.Pairwise fun x y => (y.2 : Int) ≤ (nodes x.1).col

theorem Open.suffix {ctx' : List (Nat × Nat)} (h : Open name ps ctx) (hs : ctx' <:+ ctx) :
    Open name ps ctx' :=
  fun p c anc hx => h p c anc (hx.trans hs)

theorem Nested.congr {nodes nodes' : Nat → Node} (h : Nested nodes ctx)
    (heq : ∀ x ∈ ctx, (nodes' x.1).col = (nodes x.1).col) : Nested nodes' ctx := by
  refine ⟨fun x hx => heq x hx ▸ h.inside x hx, h.right.imp_of_mem ?_⟩
  intro x y hx _ hxy
  rwa [heq x hx]

theorem unwind_append {h : Heap} {pre : List (Nat × Nat)}
    (hpre : ∀ x ∈ pre, (c : Int) ≤ (h.nodes x.1).col) (hp : (h.nodes p).col < c) :
    unwind h c ((pre ++ (p, c) :: anc).map Prod.fst) = some (p, anc.map Prod.fst) := by
  induction pre with
  | nil => exact if_pos hp
  | cons x pre ih =>
    have hx := hpre x mem_cons_self
    rw [cons_append, map_cons, unwind, if_neg (by omega)]
    exact ih fun y hy => hpre y (mem_cons_of_mem x hy)

theorem open_of_line (name : List UInt8) (htop : ps.top = p) (hst : ps.st = anc.map Prod.fst)
    (hcol : ps.prevcol = c) (hn : Nested ps.heap.nodes ((p, c) :: anc)) :
    Open name ps ((p, c) :: anc) := by
  intro p' c' anc' hs
  rcases suffix_cons_iff.mp hs with heq | hs
  · obtain ⟨hpc, rfl⟩ := cons.inj heq
    obtain ⟨rfl, rfl⟩ := Prod.mk.inj hpc
    rw [place, if_neg (by omega), if_neg (by omega), htop, hst]
  · obtain ⟨pre, rfl⟩ := hs
    have hmem : (p', c') ∈ pre ++ (p', c') :: anc' := mem_append_right pre mem_cons_self
    have hle := (pairwise_cons.mp hn.right).1 _ hmem
    have hlt := hn.inside _ mem_cons_self
    have hpre := (pairwise_append.mp (pairwise_cons.mp hn.right).2).2.2
    dsimp only at hle hlt
    rw [place, if_neg (by omega), if_pos (by omega), hst,
      unwind_append (fun x hx => hpre x hx _ mem_cons_self)
        (hn.inside _ (mem_cons_of_mem _ hmem))]

theorem Open.push {n c' : Nat} (h : Open name ps ((p, c) :: anc)) (htop : ps.top = p)
    (hst : ps.st = anc.map Prod.fst) (hcol : ps.prevcol = c) (hprev : ps.prev = n)
    (hmaster : (ps.heap.nodes n).master = true) (hlt : c < c') :
    Open name ps ((n, c') :: (p, c) :: anc) := by
  intro p₁ c₁ anc₁ hs
  rcases suffix_cons_iff.mp hs with heq | hs
  · obtain ⟨hpc, rfl⟩ := cons.inj heq
    obtain ⟨rfl, rfl⟩ := Prod.mk.inj hpc
    rw [place, if_pos (by omega), hprev, hmaster, htop, hst]
    rfl
  · exact h p₁ c₁ anc₁ hs

theorem Nested.push {nodes : Nat → Node} {n c' : Nat} (h : Nested nodes ((p, c) :: anc))
    (hcol : (nodes n).col = c) (hlt : c < c') : Nested nodes ((n, c') :: (p, c) :: anc) := by
  refine ⟨forall_mem_cons.mpr ⟨?_, h.inside⟩, pairwise_cons.mpr ⟨?_, h.right⟩⟩
  · rw [hcol]
    exact_mod_cast hlt
  · refine forall_mem_cons.mpr ⟨by rw [hcol], fun y hy => ?_⟩
    have hy' := (pairwise_cons.mp h.right).1 y hy
    have hp := h.inside _ mem_cons_self
    rw [hcol]
    dsimp only at hy' hp
    omega

theorem place_ok {n : Nat} {l : Gstr} {r : Nat × List Nat} (h : place name ps c = .ok r) :
    place name { ps with lineno := n, l := l } c = .ok r := by
  rw [place] at h ⊢
  dsimp only
  split at h
  · rw [if_pos ‹_›]
    split at h
    · cases h
    · rw [if_neg ‹_›]
      exact h
  · rw [if_neg ‹_›]
    split at h
    · rw [if_pos ‹_›]
      split at h
      · exact h
      · cases h
    · rw [if_neg ‹_›]
      exact h

/-! ## Lines -/

def Parses (name : List UInt8) (Q : Parser → Prop) : Parser → List (List UInt8) → Prop
  | ps, [] => Q ps
  | ps, line :: ls => ∀ g jk, Carries g line →
    ∃ ps', parseLine name jk { ps with g := g } = .ok ps' ∧ ps'.g = g ∧ Parses name Q ps' ls

theorem parses_append {Q : Parser → Prop} {ls ms : List (List UInt8)} :
    Parses name Q ps (ls ++ ms) ↔ Parses name (fun ps' => Parses name Q ps' ms) ps ls := by
  induction ls generalizing ps with
  | nil => rfl
  | cons line ls ih => simp only [cons_append, Parses, ih]

theorem Parses.mono {Q R : Parser → Prop} {ls : List (List UInt8)} (h : Parses name Q ps ls)
    (hQ : ∀ ps', Q ps' → R ps') : Parses name R ps ls := by
  induction ls generalizing ps with
  | nil => exact hQ ps h
  | cons line ls ih =>
    intro g jk hg
    obtain ⟨ps', hps', hg', h'⟩ := h g jk hg
    exact ⟨ps', hps', hg', ih h'⟩

structure Added (ps ps' : Parser) (p c : Nat) (st : List Nat) (n : Node) (f : Node → Node) :
    Prop where
  heap : ps'.heap = (ps.heap.newz n).modify p f
  ready : Ready ps'.l
  lineno : ps'.lineno = ps.lineno + 1
  top : ps'.top = p
  prev : ps'.prev = ps.heap.next
  prevcol : ps'.prevcol = c
  st : ps'.st = st

theorem parses_line {i w : List UInt8} {st : List Nat} (hl : Ready ps.l) (hline : IsLine i w)
    (hno : ps.lineno + 1 < 2 ^ 31) (hlen : (i ++ w).length < 2 ^ 31 - 1) (hcol : width i < 2 ^ 31)
    (hplace : place name ps (width i) = .ok (p, st)) {g : Gstr}
    (hg : Carries g (i ++ w)) (jk : Nat → UInt8) {P : Node → (Node → Node) → Prop}
    (hnew : ∀ l, Holds l (i ++ w) → ∃ n f l' s, P n f ∧ Holds l' s ∧ l'.cap = l.cap ∧
      newnode ps.heap p l (width i) = some ((ps.heap.newz n).modify p f, l')) :
    ∃ n f ps', P n f ∧ parseLine name jk { ps with g := g } = .ok ps' ∧ ps'.g = g ∧
      Added ps ps' p (width i) st n f := by
  obtain ⟨l, hold, hcap, heq⟩ := parseLine_eq name jk { ps with g := g } hl hg hline hno hlen
    hcol
  obtain ⟨n, f, l', s, hP, hold', hcap', hn⟩ := hnew l hold
  obtain ⟨l'', hl'', hr, -⟩ := gstrReset_spec hold'.block ((Nat.zero_le _).trans_lt hold'.room)
  refine ⟨n, f, ⟨(ps.heap.newz n).modify p f, g, l'', ps.lineno + 1, p, ps.heap.next, width i,
    st⟩, hP, ?_, rfl, rfl, ?_, rfl, rfl, rfl, rfl, rfl⟩
  · have hplace' : place name { ps with g := g, lineno := ps.lineno + 1, l := l } (width i) =
        .ok (p, st) := place_ok (show place name { ps with g := g } (width i) = _ from hplace)
    rw [heq, hplace']
    change (orFault (newnode ps.heap p l (width i)) >>= _) = _
    rw [hn]
    change (orFault (gstrReset l') >>= _) = _
    rw [hl'']
    rfl
  · exact Ready.reset hold' (hcap' ▸ hcap) hl''

/-! ## Trees -/

theorem Forest.Built.mono {nodes nodes' : Nat → Node} {lo hi lo' hi' : Nat} (hlo : lo' ≤ lo)
    (hhi : hi ≤ hi') (heq : ∀ n, lo ≤ n → n < hi → nodes' n = nodes n) {f : Forest}
    {vals : List KeyVal} {subs : List Nat} (h : f.Built nodes lo hi vals subs) :
    f.Built nodes' lo' hi' vals subs := by
  induction f generalizing vals subs with
  | nil => exact h
  | entry indent key val rest ih =>
    obtain ⟨kv, vals', rfl, hkey, hval, h⟩ := h
    exact ⟨kv, vals', rfl, hkey, hval, ih h⟩
  | sect indent name children rest ihc ihr =>
    obtain ⟨n, subs', rfl, hge, hlt, hmaster, hname, hc, hr⟩ := h
    refine ⟨n, subs', rfl, hlo.trans hge, hlt.trans_le hhi, ?_⟩
    rw [heq n hge hlt]
    exact ⟨hmaster, hname, ihc hc, ihr hr⟩

theorem isLine_entry {i key val : List UInt8} (hi : i.all isBlank) (hkey : Word key)
    (hval : Word val) (hhash : key.head? ≠ some 0x23) (hback : val.getLast? ≠ some 0x5c) :
    IsLine i (key ++ 0x3d :: val) := by
  have hhead : (key ++ 0x3d :: val).head? = key.head? := head?_append_of_ne_nil key hkey.ne_nil
  have hlast := getLast?_entry key hval.ne_nil
  refine ⟨hi, ⟨append_ne_nil_of_left_ne_nil hkey.ne_nil _, ?_, hhead ▸ hkey.first,
    hlast ▸ hval.last⟩, hhead ▸ hhash, hlast ▸ hback⟩
  intro c hc
  rcases mem_append.mp hc with hc | hc
  · exact hkey.plain c hc
  · rcases mem_cons.mp hc with rfl | hc
    · decide
    · exact hval.plain c hc

theorem isLine_sect {i nm : List UInt8} (hi : i.all isBlank) (hname : Word nm)
    (hhash : nm.head? ≠ some 0x23) : IsLine i (nm ++ [0x3a]) := by
  have hhead : (nm ++ [0x3a]).head? = nm.head? := head?_append_of_ne_nil nm hname.ne_nil
  have hlast : (nm ++ [0x3a]).getLast? = some 0x3a := getLast?_concat
  refine ⟨hi, ⟨append_ne_nil_of_left_ne_nil hname.ne_nil _, ?_, hhead ▸ hname.first, ?_⟩,
    hhead ▸ hhash, ?_⟩
  · intro c hc
    rcases mem_append.mp hc with hc | hc
    · exact hname.plain c hc
    · obtain rfl := mem_singleton.mp hc
      decide
  · rw [hlast]
    intro c hc
    obtain rfl := Option.some.inj hc
    decide
  · rw [hlast]
    decide

structure After (name : List UInt8) (ps ps' : Parser) (f : Forest) (p c : Nat)
    (anc : List (Nat × Nat)) : Prop where
  ready : Ready ps'.l
  lineno : ps'.lineno = ps.lineno + f.lines.length
  opened : Open name ps' ((p, c) :: anc)
  next_le : ps.heap.next ≤ ps'.heap.next
  frame : ∀ n < ps.heap.next, n ≠ p → ps'.heap.nodes n = ps.heap.nodes n
  built : ∃ vals subs, ps'.heap.nodes p = { ps.heap.nodes p with
      values := (ps.heap.nodes p).values ++ vals, subtree := (ps.heap.nodes p).subtree ++ subs } ∧
    f.Built ps'.heap.nodes ps.heap.next ps'.heap.next vals subs

theorem After.col {f : Forest} (h : After name ps ps' f p c anc) {n : Nat}
    (hn : n < ps.heap.next) : (ps'.heap.nodes n).col = (ps.heap.nodes n).col := by
  by_cases hp : n = p
  · obtain ⟨vals, subs, heq, -⟩ := h.built
    rw [hp, heq]
  · rw [h.frame n hn hp]

section Added
variable {n : Node} {f : Node → Node} {st : List Nat}

theorem Added.next (h : Added ps ps' p c st n f) : ps'.heap.next = ps.heap.next + 1 := by
  rw [h.heap]
  rfl

theorem Added.parent (h : Added ps ps' p c st n f) (hp : p < ps.heap.next) :
    ps'.heap.nodes p = f (ps.heap.nodes p) := by
  rw [h.heap, Heap.modify, Heap.newz]
  dsimp only
  rw [Function.update_self, Function.update_of_ne hp.ne]

theorem Added.new (h : Added ps ps' p c st n f) (hp : p < ps.heap.next) :
    ps'.heap.nodes ps.heap.next = n := by
  rw [h.heap, Heap.modify, Heap.newz]
  dsimp only
  rw [Function.update_of_ne hp.ne', Function.update_self]

theorem Added.old (h : Added ps ps' p c st n f) {m : Nat} (hm : m < ps.heap.next) (hne : m ≠ p) :
    ps'.heap.nodes m = ps.heap.nodes m := by
  rw [h.heap, Heap.modify, Heap.newz]
  dsimp only
  rw [Function.update_of_ne hne, Function.update_of_ne hm.ne]

theorem Added.nested (h : Added ps ps' p c st n f) (hcol : (f (ps.heap.nodes p)).col =
    (ps.heap.nodes p).col) (hn : Nested ps.heap.nodes ((p, c) :: anc))
    (hlt : ∀ x ∈ (p, c) :: anc, x.1 < ps.heap.next) : Nested ps'.heap.nodes ((p, c) :: anc) := by
  apply hn.congr
  intro x hx
  by_cases hxp : x.1 = p
  · rw [hxp, h.parent (hxp ▸ hlt x hx), hcol]
  · rw [h.old (hlt x hx) hxp]

end Added

/-! The lines of a forest are those of its first tree and then those of the rest. -/

section Composed
variable {ps₁ ps₂ ps₃ : Parser} {indent : List UInt8} {rest : Forest} {st : List Nat}

theorem After.entry {key val : List UInt8} {kv : KeyVal} {n : Node}
    (hadd : Added ps ps₁ p c st n fun n => { n with values := n.values ++ [kv] })
    (hp : p < ps.heap.next) (hk : Holds kv.key key) (hv : Holds kv.val val)
    (h : After name ps₁ ps₂ rest p c anc) :
    After name ps ps₂ (.entry indent key val rest) p c anc := by
  have hnext := hadd.next
  have hle := h.next_le
  obtain ⟨vals, subs, heq, hb⟩ := h.built
  refine ⟨h.ready, ?_, h.opened, by omega, ?_, kv :: vals, subs, ?_,
    kv, vals, rfl, hk, hv, hb.mono (by omega) (Nat.le_refl _) fun _ _ _ => rfl⟩
  · rw [h.lineno, hadd.lineno, Forest.lines, length_cons]
    omega
  · intro m hm hne
    rw [h.frame m (by omega) hne, hadd.old hm hne]
  · rw [heq, hadd.parent hp]
    dsimp only
    rw [append_assoc, singleton_append]

theorem After.sect {nm : List UInt8} {col : Int} {gname : Gstr} {children : Forest} {c' : Nat}
    (hadd : Added ps ps₁ p c st ⟨col, true, [], [], gname⟩
      fun n => { n with subtree := n.subtree ++ [ps.heap.next] })
    (hp : p < ps.heap.next) (hname : Holds gname nm)
    (hchildren : After name ps₁ ps₂ children ps.heap.next c' ((p, c) :: anc))
    (h : After name ps₂ ps₃ rest p c anc) :
    After name ps ps₃ (.sect indent nm children rest) p c anc := by
  have hnext := hadd.next
  have hle₂ := hchildren.next_le
  have hle₃ := h.next_le
  obtain ⟨vals₂, subs₂, heq₂, hb₂⟩ := hchildren.built
  obtain ⟨vals, subs, heq₃, hb₃⟩ := h.built
  rw [hadd.new hp, nil_append, nil_append] at heq₂
  -- the lines after the section leave its node alone
  have hsect : ps₃.heap.nodes ps.heap.next = ⟨col, true, subs₂, vals₂, gname⟩ := by
    rw [h.frame _ (by omega) hp.ne', heq₂]
  refine ⟨h.ready, ?_, h.opened, by omega, ?_, vals, ps.heap.next :: subs, ?_,
    ps.heap.next, subs, rfl, Nat.le_refl _, by omega, ?_⟩
  · rw [h.lineno, hchildren.lineno, hadd.lineno, Forest.lines, length_cons, length_append]
    omega
  · intro m hm hne
    rw [h.frame m (by omega) hne, hchildren.frame m (by omega) hm.ne, hadd.old hm hne]
  · rw [heq₃, hchildren.frame p (by omega) hp.ne, hadd.parent hp]
    dsimp only
    rw [append_assoc, singleton_append]
  · rw [hsect]
    refine ⟨rfl, hname, hb₂.mono (by omega) (by omega) fun m hm hm' => ?_,
      hb₃.mono (by omega) (Nat.le_refl _) fun _ _ _ => rfl⟩
    exact h.frame m hm' (by omega)

end Composed

theorem parses_forest (name : List UInt8) (f : Forest) (hv : f.Valid) (hlay : f.LaidOut c)
    (hopen : Open name ps ((p, c) :: anc)) (hn : Nested ps.heap.nodes ((p, c) :: anc))
    (hlt : ∀ x ∈ (p, c) :: anc, x.1 < ps.heap.next) (hl : Ready ps.l)
    (hno : ps.lineno + f.lines.length < 2 ^ 31)
    (hfit : ∀ line ∈ f.lines, line.length < 2 ^ 31 - 1 ∧
      width (line.takeWhile isBlank) < 2 ^ 31) :
    Parses name (fun ps' => After name ps ps' f p c anc) ps f.lines := by
  induction f generalizing c p anc ps with
  | nil =>
    exact ⟨hl, rfl, hopen, Nat.le_refl _, fun _ _ _ => rfl, [], [],
      by rw [append_nil, append_nil], rfl, rfl⟩
  | entry indent key val rest ih =>
    obtain ⟨hkey, hval, heq, hhash, hcolon, hback, hvr⟩ := hv
    obtain ⟨hi, rfl, hlr⟩ := hlay
    have hline := isLine_entry hi hkey hval hhash hback
    have hp := hlt _ mem_cons_self
    rw [Forest.lines] at hno hfit ⊢
    rw [length_cons] at hno
    obtain ⟨hfit₁, hfitr⟩ := forall_mem_cons.mp hfit
    rw [takeWhile_indent hi hline.word] at hfit₁
    intro g jk hg
    obtain ⟨_, _, ps₁, ⟨kv, hk, hv, rfl, rfl⟩, hps₁, hg₁, hadd⟩ := parses_line hl hline
      (by omega) hfit₁.1 hfit₁.2 (hopen p _ anc suffix_rfl) hg jk
      (P := fun n f => ∃ kv : KeyVal, Holds kv.key key ∧ Holds kv.val val ∧
        n = ⟨width indent, false, [], [], zeroGstr⟩ ∧
        f = fun n => { n with values := n.values ++ [kv] })
      (fun l hold => by
        obtain ⟨kv, l', hk, hv, hold', hcap, hnew⟩ :=
          newnode_entry hold hi hkey hval hline.word heq hcolon
        exact ⟨_, _, l', _, ⟨kv, hk, hv, rfl, rfl⟩, hold', hcap, hnew ps.heap p (width indent)⟩)
    refine ⟨ps₁, hps₁, hg₁, ?_⟩
    have hn₁ := hadd.nested rfl hn hlt
    have hopen₁ := open_of_line name hadd.top hadd.st hadd.prevcol hn₁
    have hnext := hadd.next
    exact (ih hvr hlr hopen₁ hn₁ (fun x hx => (hlt x hx).trans (by omega)) hadd.ready
      (by rw [hadd.lineno]; omega) hfitr).mono fun ps₂ h₂ => After.entry hadd hp hk hv h₂
  | sect indent nm children rest ihc ihr =>
    obtain ⟨hname, hhash, hvc, hvr⟩ := hv
    obtain ⟨hi, rfl, ⟨c', hc', hlc⟩, hlr⟩ := hlay
    have hline := isLine_sect hi hname hhash
    have hp := hlt _ mem_cons_self
    rw [Forest.lines] at hno hfit ⊢
    rw [length_cons, length_append] at hno
    obtain ⟨hfit₁, hfitc⟩ := forall_mem_cons.mp hfit
    obtain ⟨hfitc, hfitr⟩ := forall_mem_append.mp hfitc
    rw [takeWhile_indent hi hline.word] at hfit₁
    intro g jk hg
    obtain ⟨_, _, ps₁, ⟨gname, hgn, rfl, rfl⟩, hps₁, hg₁, hadd⟩ := parses_line hl hline
      (by omega) hfit₁.1 hfit₁.2 (hopen p _ anc suffix_rfl) hg jk
      (P := fun n f => ∃ gname, Holds gname nm ∧ n = ⟨width indent, true, [], [], gname⟩ ∧
        f = fun n => { n with subtree := n.subtree ++ [ps.heap.next] })
      (fun l hold => by
        obtain ⟨gname, l', hgn, hold', hcap, hnew⟩ := newnode_sect hold hi hline.word
        exact ⟨_, _, l', _, ⟨gname, hgn, rfl, rfl⟩, hold', hcap, hnew ps.heap p (width indent)⟩)
    refine ⟨ps₁, hps₁, hg₁, parses_append.mpr ?_⟩
    have hn₁ := hadd.nested rfl hn hlt
    have hopen₁ := open_of_line name hadd.top hadd.st hadd.prevcol hn₁
    have hnext := hadd.next
    have hnode := hadd.new hp
    have hlt₁ : ∀ x ∈ (p, width indent) :: anc, x.1 < ps₁.heap.next :=
      fun x hx => (hlt x hx).trans (by omega)
    -- first the lines below the new section, then those after it
    refine (ihc hvc hlc
      (hopen₁.push hadd.top hadd.st hadd.prevcol hadd.prev (by rw [hnode]) hc')
      (hn₁.push (by rw [hnode]) hc')
      (forall_mem_cons.mpr ⟨by change ps.heap.next < _; omega, hlt₁⟩) hadd.ready
      (by rw [hadd.lineno]; omega) hfitc).mono ?_
    intro ps₂ h₂
    have hle₂ := h₂.next_le
    have hn₂ : Nested ps₂.heap.nodes ((p, width indent) :: anc) :=
      hn₁.congr fun x hx => h₂.col (hlt₁ x hx)
    refine (ihr hvr hlr (h₂.opened.suffix (suffix_cons _ _)) hn₂
      (fun x hx => (hlt₁ x hx).trans_le hle₂) h₂.ready
      (by rw [h₂.lineno, hadd.lineno]; omega) hfitr).mono ?_
    exact fun ps₃ h₃ => After.sect hadd hp hgn h₂ h₃

/-! ## Files -/

variable {junk : Nat → Nat → UInt8} {ls : List (List UInt8)} {fp : List UInt8} {fuel : Nat}

def AreLines (ls : List (List UInt8)) : Prop := ∀ line ∈ ls, ∃ i w, IsLine i w ∧ line = i ++ w

theorem areLines_lines {f : Forest} (hv : f.Valid) (hlay : f.LaidOut c) : AreLines f.lines := by
  induction f generalizing c with
  | nil => exact fun _ h => absurd h not_mem_nil
  | entry indent key val rest ih =>
    obtain ⟨hkey, hval, -, hhash, -, hback, hvr⟩ := hv
    exact forall_mem_cons.mpr
      ⟨⟨_, _, isLine_entry hlay.1 hkey hval hhash hback, rfl⟩, ih hvr hlay.2.2⟩
  | sect indent nm children rest ihc ihr =>
    obtain ⟨hname, hhash, hvc, hvr⟩ := hv
    obtain ⟨hi, -, ⟨c', -, hlc⟩, hlr⟩ := hlay
    exact forall_mem_cons.mpr ⟨⟨_, _, isLine_sect hi hname hhash, rfl⟩,
      forall_mem_append.mpr ⟨ihc hvc hlc, ihr hvr hlr⟩⟩

theorem File.head?_ne (h : File ls fp) (hls : AreLines ls) : fp.head? ≠ some 0x0a := by
  have key : ∀ line fp', (∃ i w, IsLine i w ∧ line = i ++ w) →
      (line ++ fp').head? ≠ some (0x0a : UInt8) := by
    rintro _ fp' ⟨i, w, hline, rfl⟩
    rw [head?_append_of_ne_nil _ hline.ne_nil, head?_eq_some_head hline.ne_nil]
    exact fun h0 => (hline.plain _ (head_mem hline.ne_nil)).2.2 (Option.some.inj h0)
  cases h with
  | nil => exact fun h0 => by cases h0
  | last =>
    have hkey := key fp [] (hls fp mem_cons_self)
    rwa [append_nil] at hkey
  | cons line eol ls fp heol h => exact key line _ (hls line mem_cons_self)

def Buffer (g : Gstr) : Prop := g.str.len = g.cap.toNat ∧ 0 < g.cap.toNat

theorem buffer_of_carries {g : Gstr} {s : List UInt8} (h : Carries g s) : Buffer g :=
  ⟨h.block, (Nat.zero_le _).trans_lt (h.block ▸ h.term.room)⟩

theorem readline_nil (junk : Nat → Nat → UInt8) {g : Gstr} (hg : Buffer g) :
    ∃ g', readline junk g [] = some (g', [], false) := by
  obtain ⟨g', hg', hold, -⟩ := gstrReset_spec hg.1 hg.2
  refine ⟨g', ?_⟩
  rw [readline, hg']
  have hzero : g'.len = 0 := UInt64.toNat_inj.mp hold.len_eq
  change some (g', [], decide (g'.len > 0) || false) = _
  rw [hzero]
  rfl

theorem readline_line {g : Gstr} (hg : Buffer g) {i w : List UInt8} (hline : IsLine i w)
    {tail rest : List UInt8} {more : Bool}
    (htail : ∀ g, readlineLoop junk g tail = some (g, rest, more)) :
    ((i ++ w).length < 2 ^ 31 → ∃ g', Carries g' (i ++ w) ∧
      readline junk g ((i ++ w) ++ tail) = some (g', rest, true)) ∧
    ∀ r, readline junk g ((i ++ w) ++ tail) = some r → Carries r.1 (i ++ w) ∧
      r.2 = (rest, true) := by
  obtain ⟨g₀, hg₀, hold, -⟩ := gstrReset_spec hg.1 hg.2
  have hmore : ∀ g', Carries g' (i ++ w) → (decide (g'.len > 0) || more) = true := by
    intro g' h'
    rw [Bool.or_eq_true, decide_eq_true_iff]
    left
    rw [gt_iff_lt, UInt64.lt_iff_toNat_lt, h'.len_eq]
    exact length_pos_of_ne_nil hline.ne_nil
  simp only [readline, hg₀, Option.bind_eq_bind, Option.bind_some]
  constructor
  · intro hshort
    obtain ⟨g', h', heq⟩ := readlineLoop_holds junk hold hline.plain
      (by rw [length_nil]; omega) tail
    rw [nil_append] at h'
    refine ⟨g', h'.carries, ?_⟩
    rw [heq, htail, Option.bind_some]
    dsimp only
    rw [hmore g' h'.carries]
    rfl
  · intro r hr
    obtain ⟨q, hq, hr⟩ := Option.bind_eq_some_iff.mp hr
    obtain ⟨g', h', hq'⟩ := readlineLoop_carries hold.carries hline.plain hq
    rw [nil_append] at h'
    obtain rfl := Option.some.inj ((htail g').symm.trans hq')
    obtain rfl := Option.some.inj hr
    exact ⟨h', by rw [hmore g' h']⟩

theorem parseLoop_of_parses (junk : Nat → Nat → UInt8) {Q : Parser → Prop} (hf : File ls fp)
    (hls : AreLines ls)
    (hshort : ∀ line ∈ ls, line.length < 2 ^ 31 - 1) (hg : Buffer ps.g)
    (hp : Parses name Q ps ls) (hfuel : fp.length < fuel) :
    ∃ ps', parseLoop name junk fuel ps fp = .ok ps' ∧ Q ps' := by
  have hnil : ∀ {ps : Parser} {fuel : Nat}, Buffer ps.g → 0 < fuel →
      parseLoop name junk fuel ps [] = .ok ps := by
    intro ps fuel hg hfuel
    obtain ⟨fuel, rfl⟩ := Nat.exists_eq_succ_of_ne_zero hfuel.ne'
    obtain ⟨g', hg'⟩ := readline_nil junk hg
    rw [parseLoop, hg']
    rfl
  -- one line, with what is left of the file after it
  have hstep : ∀ {ps : Parser} {line : List UInt8} (tail rest : List UInt8) {more : Bool}
      (fuel : Nat) {ls : List (List UInt8)},
      (∃ i w, IsLine i w ∧ line = i ++ w) → line.length < 2 ^ 31 - 1 →
      (∀ g, readlineLoop junk g tail = some (g, rest, more)) → Buffer ps.g →
      Parses name Q ps (line :: ls) → ∃ ps', Buffer ps'.g ∧ Parses name Q ps' ls ∧
        parseLoop name junk (fuel + 1) ps (line ++ tail) = parseLoop name junk fuel ps' rest := by
    rintro ps _ tail rest more fuel ls ⟨i, w, hline, rfl⟩ hlen htail hg hp
    obtain ⟨g', hg', hread⟩ := (readline_line hg hline htail).1 (by omega)
    obtain ⟨ps', hps', hgs, hp'⟩ := hp g' (junk rest.length) hg'
    refine ⟨ps', hgs ▸ buffer_of_carries hg', hp', ?_⟩
    rw [parseLoop, hread]
    change (parseLine name (junk rest.length) { ps with g := g' } >>= _) = _
    rw [hps']
    rfl
  induction hf generalizing ps fuel with
  | nil => exact ⟨ps, hnil hg (by rw [length_nil] at hfuel; exact hfuel), hp⟩
  | last line =>
    obtain ⟨fuel, rfl⟩ := Nat.exists_eq_succ_of_ne_zero ((Nat.zero_le _).trans_lt hfuel).ne'
    have hline := hls line mem_cons_self
    obtain ⟨ps', hg', hp', heq⟩ := hstep [] [] fuel hline
      (hshort line mem_cons_self) (fun g => rfl) hg hp
    rw [append_nil] at heq
    refine ⟨ps', ?_, hp'⟩
    rw [heq, hnil hg']
    obtain ⟨i, w, hl, rfl⟩ := hline
    have hpos := length_pos_of_ne_nil hl.ne_nil
    omega
  | cons line eol ls fp heol hf ih =>
    obtain ⟨fuel, rfl⟩ := Nat.exists_eq_succ_of_ne_zero ((Nat.zero_le _).trans_lt hfuel).ne'
    obtain ⟨hline, hlr⟩ := forall_mem_cons.mp hls
    obtain ⟨hsl, hsr⟩ := forall_mem_cons.mp hshort
    obtain ⟨ps', hg', hp', heq⟩ := hstep _ _ fuel hline hsl
      (fun g => readlineLoop_eol heol (hf.head?_ne hlr)) hg hp
    rw [heq]
    apply ih hlr hsr hg' hp'
    obtain ⟨i, w, hl, rfl⟩ := hline
    have hpos := length_pos_of_ne_nil hl.ne_nil
    simp only [length_append] at hfuel hpos
    omega

/-! ## What does not fit -/

theorem bind_eq_ok {α β : Type} {x : Except Stop α} {f : α → Except Stop β} {b : β}
    (h : x >>= f = .ok b) : ∃ a, x = .ok a ∧ f a = .ok b := by
  cases x with
  | error e => cases h
  | ok a => exact ⟨a, rfl, h⟩

theorem newnode_line {hp hp' : Heap} {l l' : Gstr} {i w : List UInt8} (hold : Holds l (i ++ w))
    (hi : i.all isBlank) (hw : Word w) (h : newnode hp p l c = some (hp', l')) :
    (∃ s, Holds l' s) ∧ l'.cap = l.cap := by
  obtain ⟨g₁, g₂, hg₁, hg₂, h₂, hcap⟩ := trim_chop hold hi hw
  rw [newnode, hg₁] at h
  simp only [Option.bind_eq_bind, Option.bind_some, hg₂] at h
  have hl' : l' = g₂ := by
    split at h
    · obtain ⟨gname, -, h⟩ := Option.bind_eq_some_iff.mp h
      exact (congrArg Prod.snd (Option.some.inj h)).symm
    · obtain ⟨s, -, h⟩ := Option.bind_eq_some_iff.mp h
      obtain ⟨key, -, h⟩ := Option.bind_eq_some_iff.mp h
      obtain ⟨val, -, h⟩ := Option.bind_eq_some_iff.mp h
      exact (congrArg Prod.snd (Option.some.inj h)).symm
  rw [hl']
  exact ⟨⟨_, h₂⟩, hcap⟩

theorem parseLine_keeps {jk : Nat → UInt8} (ps : Parser) {i w : List UInt8} (hl : Ready ps.l)
    (hg : Carries ps.g (i ++ w)) (hline : IsLine i w) (h : parseLine name jk ps = .ok ps') :
    Ready ps'.l ∧ ps'.g = ps.g ∧ ps'.lineno = ps.lineno + 1 := by
  obtain ⟨hno, hlen, hcol⟩ := parseLine_fits ps hl hg hline h
  obtain ⟨l, hold, hcap, heq⟩ := parseLine_eq name jk ps hl hg hline hno hlen hcol
  obtain ⟨r, -, h⟩ := bind_eq_ok (heq.symm.trans h)
  obtain ⟨q, hq, h⟩ := bind_orFault_eq_ok h
  obtain ⟨l', hl', h⟩ := bind_orFault_eq_ok h
  injection h with h
  obtain ⟨⟨s, hs⟩, hcap'⟩ := newnode_line hold hline.indent hline.word hq
  rw [← h]
  exact ⟨Ready.reset hs (hcap' ▸ hcap) hl', rfl, rfl⟩

theorem parseLoop_fits (hf : File ls fp) (hls : AreLines ls) (hg : Buffer ps.g)
    (hl : Ready ps.l) (hno : ps.lineno < 2 ^ 31)
    (h : parseLoop name junk fuel ps fp = .ok ps') :
    ps.lineno + ls.length < 2 ^ 31 ∧ ∀ line ∈ ls, line.length < 2 ^ 31 - 1 ∧
      width (line.takeWhile isBlank) < 2 ^ 31 := by
  -- one line, with what is left of the file after it
  have hstep : ∀ {ps : Parser} {line : List UInt8} (tail rest : List UInt8) {more : Bool}
      {fuel : Nat},
      (∃ i w, IsLine i w ∧ line = i ++ w) →
      (∀ g, readlineLoop junk g tail = some (g, rest, more)) → Buffer ps.g → Ready ps.l →
      parseLoop name junk fuel ps (line ++ tail) = .ok ps' →
      ∃ fuel' ps₁, Buffer ps₁.g ∧ Ready ps₁.l ∧ ps₁.lineno = ps.lineno + 1 ∧
        ps.lineno + 1 < 2 ^ 31 ∧ (line.length < 2 ^ 31 - 1 ∧
          width (line.takeWhile isBlank) < 2 ^ 31) ∧
        parseLoop name junk fuel' ps₁ rest = .ok ps' := by
    rintro ps _ tail rest more fuel ⟨i, w, hline, rfl⟩ htail hg hl h
    cases fuel with
    | zero => cases h
    | succ fuel =>
      rw [parseLoop] at h
      obtain ⟨⟨g', rest', more'⟩, hr, h⟩ := bind_orFault_eq_ok h
      obtain ⟨hg', heq⟩ := (readline_line hg hline htail).2 _ hr
      obtain ⟨rfl, rfl⟩ := Prod.mk.inj heq
      obtain ⟨ps₁, hps₁, h⟩ := bind_eq_ok h
      obtain ⟨hno, hlen, hcol⟩ := parseLine_fits { ps with g := g' } hl hg' hline hps₁
      obtain ⟨hl₁, hg₁, hno₁⟩ := parseLine_keeps { ps with g := g' } hl hg' hline hps₁
      refine ⟨fuel, ps₁, hg₁ ▸ buffer_of_carries hg', hl₁, hno₁, hno, ⟨hlen, ?_⟩, h⟩
      rwa [takeWhile_indent hline.indent hline.word]
  induction hf generalizing ps fuel with
  | nil => exact ⟨hno, fun _ hx => absurd hx not_mem_nil⟩
  | last line =>
    rw [← append_nil line] at h
    obtain ⟨_, _, -, -, -, hno', hfit, -⟩ := hstep [] []
      (hls line mem_cons_self) (fun g => rfl) hg hl h
    exact ⟨hno', forall_mem_cons.mpr ⟨hfit, fun _ hx => absurd hx not_mem_nil⟩⟩
  | cons line eol ls fp heol hf ih =>
    obtain ⟨hline, hlr⟩ := forall_mem_cons.mp hls
    obtain ⟨fuel', ps₁, hg₁, hl₁, hno₁, hno', hfit, h⟩ := hstep _ _ hline
      (fun g => readlineLoop_eol heol (hf.head?_ne hlr)) hg hl h
    obtain ⟨hlen, hfits⟩ := ih hlr hg₁ hl₁ (hno₁ ▸ hno') h
    rw [length_cons]
    exact ⟨by omega, forall_mem_cons.mpr ⟨hfit, hfits⟩⟩

/-! ## The round trip -/

theorem parse_eq (name : List UInt8) (junk : Nat → Nat → UInt8) (fp : List UInt8) :
    ∃ g l root, gstrInitFrom (some rootName) = some root ∧ Holds g [] ∧ Ready l ∧
      parse name junk fp = (parseLoop name junk (fp.length + 1)
        ⟨⟨fun _ => ⟨-1, true, [], [], root⟩, 1⟩, g, l, 0, 0, 0, 0, []⟩ fp >>=
        fun ps => .ok ps.heap) := by
  have hinit : gstrInit 128 = some ⟨⟨256, fun _ => 0⟩, 0, 256⟩ := rfl
  obtain ⟨g, hg, hold⟩ := gstrInit_spec (show (128 : UInt64).toNat < 2 ^ 63 by decide)
  obtain rfl := Option.some.inj (hg.symm.trans hinit)
  obtain ⟨root, hroot, -⟩ := initGstr_spec (terminated_cstr (l := rootName) (by decide))
    (n := UInt64.ofNat rootName.length) rfl (by decide)
  have hroot : gstrInitFrom (some rootName) = some root := hroot
  refine ⟨_, _, root, hroot, hold, ⟨hold, show 256 ≤ 2 ^ 31 by decide⟩, ?_⟩
  rw [parse, hinit, hroot]
  rfl

theorem fits_of_parse {f : Forest} {h : Heap} (hv : f.Valid) (hlay : f.LaidOut 0)
    (hfile : File f.lines fp) (hp : parse name junk fp = .ok h) : f.Fits := by
  obtain ⟨g, l, root, -, hg, hl, heq⟩ := parse_eq name junk fp
  obtain ⟨ps, hps, -⟩ := bind_eq_ok (heq.symm.trans hp)
  have hfit := parseLoop_fits hfile (areLines_lines hv hlay) (buffer_of_carries hg.carries) hl
    (show 0 < 2 ^ 31 by decide) hps
  rwa [Nat.zero_add] at hfit

/-- A tree written as a file comes back as it was exactly if the integers of the parser are wide
enough for the file. -/
theorem config_round_trip_iff (name : List UInt8) (junk : Nat → Nat → UInt8) {f : Forest}
    (hv : f.Valid) (hlay : f.LaidOut 0) {fp : List UInt8} (hfile : File f.lines fp) :
    (∃ h, parse name junk fp = .ok h ∧
      f.Built h.nodes 1 h.next (h.nodes 0).values (h.nodes 0).subtree) ↔ f.Fits := by
  constructor
  · rintro ⟨h, hp, -⟩
    exact fits_of_parse hv hlay hfile hp
  · rintro ⟨hcount, hfit⟩
    obtain ⟨g, l, root, -, hg, hl, heq⟩ := parse_eq name junk fp
    have hn : Nested (fun _ => ⟨-1, true, [], [], root⟩) [(0, 0)] :=
      ⟨forall_mem_singleton.mpr (show (-1 : Int) < 0 by decide), pairwise_singleton _ _⟩
    have hopen : Open name ⟨⟨fun _ => ⟨-1, true, [], [], root⟩, 1⟩, g, l, 0, 0, 0, 0, []⟩
        [(0, 0)] := open_of_line name rfl rfl rfl hn
    have hparses := parses_forest name f hv hlay hopen hn
      (forall_mem_singleton.mpr (Nat.lt_succ_self 0)) hl
      (show 0 + f.lines.length < 2 ^ 31 by rwa [Nat.zero_add]) hfit
    obtain ⟨ps', hps', hafter⟩ := parseLoop_of_parses junk hfile
      (areLines_lines hv hlay) (fun line hline => (hfit line hline).1)
      (buffer_of_carries hg.carries) hparses (Nat.lt_succ_self _)
    obtain ⟨vals, subs, hnode, hbuilt⟩ := hafter.built
    refine ⟨ps'.heap, ?_, ?_⟩
    · rw [heq, hps']
      rfl
    · rw [hnode]
      exact hbuilt

theorem config_round_trip_tab :
    ∃ h, parse [] (fun _ _ => 9)
        [0x61, 0x3a, 0x0a, 0x09, 0x6b, 0x3d, 0x76, 0x0d, 0x0a, 0x62, 0x3d, 0x63] = .ok h ∧
      (Forest.sect [] [0x61] (.entry [0x09] [0x6b] [0x76] .nil)
        (.entry [] [0x62] [0x63] .nil)).Built h.nodes 1 h.next (h.nodes 0).values
        (h.nodes 0).subtree := by
  refine (config_round_trip_iff [] (fun _ _ => 9) (f := .sect [] [0x61]
    (.entry [0x09] [0x6b] [0x76] .nil) (.entry [] [0x62] [0x63] .nil)) ?_ ?_ ?_).mpr ?_
  · have ha : Word [0x61] := word_singleton (by decide) (by decide)
    have hk : Word [0x6b] := word_singleton (by decide) (by decide)
    have hv : Word [0x76] := word_singleton (by decide) (by decide)
    have hb : Word [0x62] := word_singleton (by decide) (by decide)
    have hc : Word [0x63] := word_singleton (by decide) (by decide)
    exact ⟨ha, by decide, ⟨hk, hv, by decide, by decide, by decide, by decide, trivial⟩,
      hb, hc, by decide, by decide, by decide, by decide, trivial⟩
  · exact ⟨rfl, rfl, ⟨4, by decide, rfl, rfl, trivial⟩, rfl, rfl, trivial⟩
  · exact .cons [0x61, 0x3a] [0x0a] _ _ (by decide)
      (.cons [0x09, 0x6b, 0x3d, 0x76] [0x0d, 0x0a] _ _ (by decide) (.last [0x62, 0x3d, 0x63]))
  · exact ⟨by decide, by decide⟩

/-- `k=` and 2³¹ times `v`: `gstr_append` passes the length on as an `int`. -/
theorem config_loses_long_line :
    (Forest.entry [] [0x6b] (replicate (2 ^ 31) 0x76) .nil).Valid ∧
    (Forest.entry [] [0x6b] (replicate (2 ^ 31) 0x76) .nil).LaidOut 0 ∧
    File (Forest.entry [] [0x6b] (replicate (2 ^ 31) 0x76) .nil).lines
      (0x6b :: 0x3d :: replicate (2 ^ 31) 0x76) ∧
    ¬∃ h, parse [] (fun _ _ => 0) (0x6b :: 0x3d :: replicate (2 ^ 31) 0x76) = .ok h ∧
      (Forest.entry [] [0x6b] (replicate (2 ^ 31) 0x76) .nil).Built h.nodes 1 h.next
        (h.nodes 0).values (h.nodes 0).subtree := by
  have hmem : ∀ c ∈ replicate (2 ^ 31) (0x76 : UInt8), c = 0x76 :=
    fun c hc => eq_of_mem_replicate hc
  have hlast : ∀ c ∈ (replicate (2 ^ 31) (0x76 : UInt8)).getLast?, c = 0x76 :=
    fun c hc => hmem c (mem_of_getLast? hc)
  have hv : (Forest.entry [] [0x6b] (replicate (2 ^ 31) 0x76) .nil).Valid := by
    refine ⟨word_singleton (by decide) (by decide), ⟨?_, ?_, ?_, ?_⟩, by decide, by decide, ?_, ?_,
      trivial⟩
    · exact fun h0 => absurd (congrArg List.length h0) (by rw [length_replicate]; decide)
    · intro c hc
      rw [hmem c hc]
      decide
    · intro c hc
      rw [hmem c (mem_of_head? hc)]
      decide
    · intro c hc
      rw [hlast c hc]
      decide
    · exact fun h0 => absurd (hlast _ h0) (by decide)
    · exact fun h0 => absurd (hlast _ h0) (by decide)
  have hlay : (Forest.entry [] [0x6b] (replicate (2 ^ 31) 0x76) .nil).LaidOut 0 :=
    ⟨rfl, rfl, trivial⟩
  have hfile : File (Forest.entry [] [0x6b] (replicate (2 ^ 31) 0x76) .nil).lines
      (0x6b :: 0x3d :: replicate (2 ^ 31) 0x76) := .last _
  refine ⟨hv, hlay, hfile, ?_⟩
  rintro ⟨h, hp, -⟩
  have hlen := ((fits_of_parse hv hlay hfile hp).2 _ mem_cons_self).1
  rw [nil_append, length_append, length_cons, length_cons, length_replicate] at hlen
  omega

end PortableLib.ConfigFile
