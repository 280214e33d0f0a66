import Mathlib.Data.List.Rotate
import PortableLib.Lib.Rings
import PortableLib.Lib.Run

/-! `fast/llist.h`: lists that go round through their head, which is a node like the others. -/

namespace PortableLib.KernelLists
open List Links Function

variable {α : Type} [DecidableEq α]

/-- The two pointers of every `list_head`. -/
structure Memory (α : Type) where
  next : α → α
  prev : α → α

def Memory.setNext (s : Memory α) (x v : α) : Memory α := { s with next := update s.next x v }

def Memory.setPrev (s : Memory α) (x v : α) : Memory α := { s with prev := update s.prev x v }

def listInit (s : Memory α) (l : α) : Memory α := (s.setPrev l l).setNext l l

def listAddBetween (s : Memory α) (newl prev next : α) : Memory α :=
  let s := s.setPrev next newl
  let s := s.setNext newl next
  let s := s.setPrev newl prev
  s.setNext prev newl

def listAdd (s : Memory α) (newl head : α) : Memory α :=
  listAddBetween s newl head (s.next head)

def listAddTail (s : Memory α) (newl head : α) : Memory α :=
  listAddBetween s newl (s.prev head) head

def listDelBetween (s : Memory α) (prev next : α) : Memory α :=
  let s := s.setPrev next prev
  s.setNext prev next

def listDelEntry (s : Memory α) (entry : α) : Memory α :=
  listDelBetween s (s.prev entry) (s.next entry)

def listDel (null : α) (s : Memory α) (entry : α) : Memory α :=
  let s := listDelBetween s (s.prev entry) (s.next entry)
  let s := s.setNext entry null
  s.setPrev entry null

def listReplace (s : Memory α) (old newl : α) : Memory α :=
  let s := s.setNext newl (s.next old)
  let s := s.setPrev (s.next newl) newl
  let s := s.setPrev newl (s.prev old)
  s.setNext (s.prev newl) newl

def listMove (s : Memory α) (list head : α) : Memory α :=
  listAdd (listDelEntry s list) list head

def listMoveTail (s : Memory α) (list head : α) : Memory α :=
  listAddTail (listDelEntry s list) list head

def listIsLast (s : Memory α) (list head : α) : Bool := decide (s.next list = head)

def listEmpty (s : Memory α) (head : α) : Bool := decide (s.next head = head)

def listEmptyCareful (s : Memory α) (head : α) : Bool :=
  let next := s.next head
  decide (next = head) && decide (next = s.prev head)

def listRotateLeft (s : Memory α) (head : α) : Memory α :=
  if !listEmpty s head then listMoveTail s (s.next head) head else s

def listIsSingular (s : Memory α) (head : α) : Bool :=
  !listEmpty s head && decide (s.next head = s.prev head)

def listSpliceBetween (s : Memory α) (list prev next : α) : Memory α :=
  let first := s.next list
  let last := s.prev list
  let s := s.setPrev first prev
  let s := s.setNext prev first
  let s := s.setNext last next
  s.setPrev next last

def listSplice (s : Memory α) (list head : α) : Memory α :=
  if !listEmpty s list then listSpliceBetween s list head (s.next head) else s

def listSpliceTail (s : Memory α) (list head : α) : Memory α :=
  if !listEmpty s list then listSpliceBetween s list (s.prev head) head else s

inductive Op (α : Type)
  | init (l : α)
  | add (newl head : α)
  | addTail (newl head : α)
  | del (entry : α)
  | replace (old newl : α)
  | move (list head : α)
  | moveTail (list head : α)
  | rotateLeft (head : α)
  | splice (list head : α)
  | spliceTail (list head : α)
  | isLast (list head : α)
  | empty (head : α)
  | emptyCareful (head : α)
  | isSingular (head : α)

def exec (null : α) (s : Memory α) : Op α → Memory α × Option Bool
  | .init l => (listInit s l, none)
  | .add newl head => (listAdd s newl head, none)
  | .addTail newl head => (listAddTail s newl head, none)
  | .del entry => (listDel null s entry, none)
  | .replace old newl => (listReplace s old newl, none)
  | .move list head => (listMove s list head, none)
  | .moveTail list head => (listMoveTail s list head, none)
  | .rotateLeft head => (listRotateLeft s head, none)
  | .splice list head => (listSplice s list head, none)
  | .spliceTail list head => (listSpliceTail s list head, none)
  | .isLast list head => (s, some (listIsLast s list head))
  | .empty head => (s, some (listEmpty s head))
  | .emptyCareful head => (s, some (listEmptyCareful s head))
  | .isSingular head => (s, some (listIsSingular s head))

/-! ## Sequences -/

def onHead (L : α → Option (List α)) (head : α) (f : List α → List α) : α → Option (List α) :=
  update L head ((L head).map f)

def onNode (L : α → Option (List α)) (x : α) (f : List α → List α) : α → Option (List α) :=
  fun head => (L head).map fun l => if x ∈ l then f l else l

/-- Joins two lists. The first head is none after it, unless there was nothing to join. -/
def joined (L : α → Option (List α)) (list head : α) (f : List α → List α → List α) :
    α → Option (List α) :=
  if L list = some [] then L else onHead (update L list none) head (f ((L list).getD []))

def spec (L : α → Option (List α)) : Op α → (α → Option (List α)) × Option Bool
  | .init l => (update L l (some []), none)
  | .add newl head => (onHead L head fun l => newl :: l, none)
  | .addTail newl head => (onHead L head fun l => l ++ [newl], none)
  | .del entry => (onNode L entry fun l => l.erase entry, none)
  | .replace old newl => (onNode L old fun l => l.replace old newl, none)
  | .move list head => (onHead (onNode L list fun l => l.erase list) head fun l => list :: l, none)
  | .moveTail list head =>
    (onHead (onNode L list fun l => l.erase list) head fun l => l ++ [list], none)
  | .rotateLeft head => (onHead L head fun l => l.rotate 1, none)
  | .splice list head => (joined L list head fun w l => w ++ l, none)
  | .spliceTail list head => (joined L list head fun w l => l ++ w, none)
  | .isLast list head => (L, some (decide ((L head).bind getLast? = some list)))
  | .empty head => (L, some (decide (L head = some [])))
  | .emptyCareful head => (L, some (decide (L head = some [])))
  | .isSingular head => (L, some (decide ((L head).map length = some 1)))

def NotElsewhere (L : α → Option (List α)) (head x : α) : Prop :=
  ∀ i l, i ≠ head → L i = some l → x ∉ i :: l

def Free (L : α → Option (List α)) (x : α) : Prop := ∀ i l, L i = some l → x ∉ i :: l

def Pre (L : α → Option (List α)) : Op α → Prop
  | .init l => NotElsewhere L l l
  | .add newl head | .addTail newl head => Free L newl ∧ ∃ l, L head = some l
  | .del entry => ∃ i l, L i = some l ∧ entry ∈ l
  | .replace old newl => Free L newl ∧ ∃ i l, L i = some l ∧ old ∈ l
  | .move list head | .moveTail list head =>
    (∃ i l, L i = some l ∧ list ∈ l) ∧ ∃ l, L head = some l
  | .rotateLeft head | .empty head | .emptyCareful head | .isSingular head => ∃ l, L head = some l
  | .splice list head | .spliceTail list head =>
    list ≠ head ∧ (∃ w, L list = some w) ∧ ∃ l, L head = some l
  | .isLast list head => ∃ l, L head = some l ∧ list ∈ l

structure Wf (s : Memory α) (L : α → Option (List α)) : Prop where
  ring : ∀ head l, L head = some l → Ring head s.next s.prev l
  disjoint : ∀ i j l m, i ≠ j → L i = some l → L j = some m → (i :: l).Disjoint (j :: m)

/-! ## Edits -/

variable {s s' : Memory α} {L : α → Option (List α)} {head x y a b null : α} {l u v w : List α}

omit [DecidableEq α] in
theorem Wf.notElsewhere (h : Wf s L) (hL : L head = some l) :
    ∀ y ∈ head :: l, NotElsewhere L head y := by
  intro y hy i m hi hm hy'
  exact h.disjoint i head m l hi hm hL hy' hy

theorem Wf.onNode_eq (h : Wf s L) (hL : L head = some l) (hx : x ∈ l) (f : List α → List α) :
    onNode L x f = update L head (some (f l)) := by
  funext i
  by_cases hi : i = head
  · subst hi
    rw [update_self, onNode, hL, Option.map_some, if_pos hx]
  · rw [update_of_ne hi, onNode]
    cases hm : L i with
    | none => rfl
    | some m =>
      have hout := h.notElsewhere hL x (mem_cons_of_mem head hx) i m hi hm
      rw [Option.map_some, if_neg fun hmem => hout (mem_cons_of_mem i hmem)]

theorem onHead_eq (hL : L head = some l) (f : List α → List α) :
    onHead L head f = update L head (some (f l)) := by
  rw [onHead, hL, Option.map_some]

structure Frame (t : List α) (s s' : Memory α) : Prop where
  next : ∀ y, y ∉ t → s'.next y = s.next y
  prev : ∀ y, y ∉ t → s'.prev y = s.prev y

theorem Wf.edit {t : List α} (h : Wf s L) (hring : Ring head s'.next s'.prev l)
    (hframe : Frame t s s') (ht : ∀ y ∈ t, NotElsewhere L head y) (hl : ∀ y ∈ head :: l, y ∈ t) :
    Wf s' (update L head (some l)) where
  ring i m hm := by
    by_cases hi : i = head
    · subst hi
      rw [update_self] at hm
      obtain rfl := Option.some.inj hm
      exact hring
    · rw [update_of_ne hi] at hm
      exact (h.ring i m hm).congr (fun y hy => hframe.next y fun hyt => ht y hyt i m hi hm hy)
        fun y hy => hframe.prev y fun hyt => ht y hyt i m hi hm hy
  disjoint i j m m' hij hm hm' := by
    by_cases hi : i = head
    · subst hi
      rw [update_self] at hm
      rw [update_of_ne hij.symm] at hm'
      obtain rfl := Option.some.inj hm
      exact fun y hy hy' => ht y (hl y hy) j m' hij.symm hm' hy'
    · rw [update_of_ne hi] at hm
      by_cases hj : j = head
      · subst hj
        rw [update_self] at hm'
        obtain rfl := Option.some.inj hm'
        exact fun y hy hy' => ht y (hl y hy') i m hij hm hy
      · rw [update_of_ne hj] at hm'
        exact h.disjoint i j m m' hij hm hm'

theorem frame_add_between {t : List α} (hx : x ∈ t) (ha : a ∈ t) (hb : b ∈ t) :
    Frame t s (listAddBetween s x a b) where
  next _ hy := (update_of_ne (ne_of_mem_of_not_mem ha hy).symm _ _).trans
    (update_of_ne (ne_of_mem_of_not_mem hx hy).symm _ _)
  prev _ hy := (update_of_ne (ne_of_mem_of_not_mem hx hy).symm _ _).trans
    (update_of_ne (ne_of_mem_of_not_mem hb hy).symm _ _)

theorem frame_del_between {t : List α} (ha : a ∈ t) (hb : b ∈ t) :
    Frame t s (listDelBetween s a b) where
  next _ hy := update_of_ne (ne_of_mem_of_not_mem ha hy).symm _ _
  prev _ hy := update_of_ne (ne_of_mem_of_not_mem hb hy).symm _ _

theorem add_between_spec (h : Wf s L) (hL : L head = some (u ++ v)) (hx : Free L x) :
    Wf (listAddBetween s x (u.getLastD head) (v.headD head))
      (update L head (some (u ++ x :: v))) := by
  refine h.edit (t := x :: head :: (u ++ v)) ((h.ring head _ hL).link (hx head _ hL)) ?_ ?_ ?_
  · exact frame_add_between mem_cons_self (mem_cons_of_mem x (getLastD_mem_append head u v))
      (mem_cons_of_mem x (headD_mem_append head u v))
  · intro y hy
    rcases mem_cons.mp hy with rfl | hy
    · exact fun i m _ hm => hx i m hm
    · exact h.notElsewhere hL y hy
  · intro y hy
    simpa only [mem_cons, mem_append, or_left_comm, or_assoc] using hy

theorem listAdd_spec (h : Wf s L) (hL : L head = some l) (hx : Free L x) :
    Wf (listAdd s x head) (update L head (some (x :: l))) := by
  have hnext : s.next head = l.headD head := Ring.next (u := []) (h.ring head l hL)
  have hadd := add_between_spec (u := []) h hL hx
  rwa [← hnext] at hadd

theorem listAddTail_spec (h : Wf s L) (hL : L head = some l) (hx : Free L x) :
    Wf (listAddTail s x head) (update L head (some (l ++ [x]))) := by
  have hL' : L head = some (l ++ []) := by rw [append_nil, hL]
  have hprev : s.prev head = l.getLastD head := Ring.prev (h.ring head _ hL')
  have hadd := add_between_spec h hL' hx
  rwa [← hprev] at hadd

theorem listInit_spec (h : Wf s L) (hx : NotElsewhere L x x) :
    Wf (listInit s x) (update L x (some [])) := by
  refine h.edit (t := [x]) ⟨nodup_singleton x, update_self .., update_self ..⟩ ⟨?_, ?_⟩ ?_ ?_
  · exact fun y hy => update_of_ne (ne_of_mem_of_not_mem mem_cons_self hy).symm _ _
  · exact fun y hy => update_of_ne (ne_of_mem_of_not_mem mem_cons_self hy).symm _ _
  · intro y hy
    rwa [mem_singleton.mp hy]
  · exact fun y hy => hy

omit [DecidableEq α] in
theorem Wf.split (h : Wf s L) (hL : L head = some l) (hx : x ∈ l) :
    ∃ u v, L head = some (u ++ x :: v) ∧ l = u ++ x :: v ∧ x ∉ u := by
  obtain ⟨u, v, rfl⟩ := append_of_mem hx
  refine ⟨u, v, hL, rfl, fun hu => ?_⟩
  have hnodup := (nodup_cons.mp (h.ring head _ hL).nodup).2
  exact (nodup_append.mp hnodup).2.2 x hu x mem_cons_self rfl

omit [DecidableEq α] in
theorem notMem_rest (h : Wf s L) (hL : L head = some (u ++ x :: v)) : x ∉ head :: (u ++ v) := by
  have hperm : (head :: (u ++ x :: v)).Perm (x :: head :: (u ++ v)) :=
    (perm_middle.cons head).trans (Perm.swap x head (u ++ v))
  exact (nodup_cons.mp (hperm.nodup (h.ring head _ hL).nodup)).1

omit [DecidableEq α] in
theorem mem_of_mem_rest (hy : y ∈ head :: (u ++ v)) : y ∈ head :: (u ++ x :: v) :=
  (((sublist_cons_self x v).append_left u).cons_cons head).subset hy

theorem listDelEntry_spec (h : Wf s L) (hL : L head = some (u ++ x :: v)) :
    Wf (listDelEntry s x) (update L head (some (u ++ v))) := by
  have hring := h.ring head _ hL
  obtain ⟨hnext, hprev⟩ := hring.links
  rw [listDelEntry, hnext, hprev]
  refine h.edit hring.unlink (frame_del_between ?_ ?_) (h.notElsewhere hL) fun y => mem_of_mem_rest
  · exact mem_of_mem_rest (getLastD_mem_append head u v)
  · exact mem_of_mem_rest (headD_mem_append head u v)

theorem Wf.setLinks (h : Wf s L) (hx : Free L x) (v w : α) :
    Wf ((s.setNext x v).setPrev x w) L where
  ring i m hm := (h.ring i m hm).congr
    (fun _ hy => update_of_ne (ne_of_mem_of_not_mem hy (hx i m hm)) _ _)
    fun _ hy => update_of_ne (ne_of_mem_of_not_mem hy (hx i m hm)) _ _
  disjoint := h.disjoint

theorem Free.update (hx : NotElsewhere L head x) (hl : x ∉ head :: l) :
    Free (update L head (some l)) x := by
  intro i m hm
  by_cases hi : i = head
  · subst hi
    rw [update_self] at hm
    obtain rfl := Option.some.inj hm
    exact hl
  · rw [update_of_ne hi] at hm
    exact hx i m hi hm

theorem free_rest (h : Wf s L) (hL : L head = some (u ++ x :: v)) :
    Free (Function.update L head (some (u ++ v))) x :=
  Free.update (h.notElsewhere hL x (mem_cons_of_mem head (mem_append_right u mem_cons_self)))
    (notMem_rest h hL)

theorem onNode_erase (h : Wf s L) (hL : L head = some (u ++ x :: v)) (hu : x ∉ u) :
    onNode L x (fun l => l.erase x) = Function.update L head (some (u ++ v)) := by
  rw [h.onNode_eq hL (mem_append_right u mem_cons_self), erase_append_right _ hu, erase_cons_head]

theorem listDel_spec (h : Wf s L) (hL : L head = some l) (hx : x ∈ l) :
    Wf (listDel null s x) (onNode L x fun l => l.erase x) := by
  obtain ⟨u, v, hL, -, hu⟩ := h.split hL hx
  rw [onNode_erase h hL hu]
  exact (listDelEntry_spec h hL).setLinks (free_rest h hL) null null

theorem listReplace_spec (h : Wf s L) (hL : L head = some l) (hx : x ∈ l) (hy : Free L y) :
    Wf (listReplace s x y) (onNode L x fun l => l.replace x y) := by
  obtain ⟨u, v, hL, -, hu⟩ := h.split hL hx
  obtain ⟨hnext, hprev⟩ := (h.ring head _ hL).links
  have hlast := mem_of_mem_rest (x := x) (getLastD_mem_append head u v)
  have hhead := headD_mem_append head u v
  -- the new node is linked in where the old one has been unlinked
  have hmem : listReplace s x y =
      listAddBetween (listDelEntry s x) y (u.getLastD head) (v.headD head) := by
    have hne : x ≠ v.headD head := fun heq => notMem_rest h hL (heq ▸ hhead)
    have hne' : u.getLastD head ≠ y := fun heq => hy head _ hL (heq ▸ hlast)
    simp only [listReplace, listAddBetween, listDelEntry, listDelBetween, Memory.setNext,
      Memory.setPrev, update_self, hnext, update_of_ne hne, hprev, update_idem]
    rw [update_comm hne', update_idem]
  have hfree : Free (Function.update L head (some (u ++ v))) y :=
    Free.update (fun i m _ hm => hy i m hm) fun hmem => hy head _ hL (mem_of_mem_rest hmem)
  have hadd := add_between_spec (listDelEntry_spec h hL) (update_self ..) hfree
  rw [update_idem] at hadd
  rw [hmem, h.onNode_eq hL (mem_append_right u mem_cons_self), replace_append_right hu,
    replace_cons_self]
  exact hadd

theorem listMove_spec {i : α} {m : List α} (h : Wf s L) (hi : L i = some m) (hx : x ∈ m)
    (hL : L head = some l) :
    Wf (listMove s x head) (onHead (onNode L x fun l => l.erase x) head fun l => x :: l) := by
  obtain ⟨u, v, hi, -, hu⟩ := h.split hi hx
  have hL' : onNode L x (fun l => l.erase x) head = some (if x ∈ l then l.erase x else l) := by
    rw [onNode, hL, Option.map_some]
  rw [onHead_eq hL']
  rw [onNode_erase h hi hu] at hL' ⊢
  exact listAdd_spec (listDelEntry_spec h hi) hL' (free_rest h hi)

theorem listMoveTail_spec {i : α} {m : List α} (h : Wf s L) (hi : L i = some m) (hx : x ∈ m)
    (hL : L head = some l) :
    Wf (listMoveTail s x head)
      (onHead (onNode L x fun l => l.erase x) head fun l => l ++ [x]) := by
  obtain ⟨u, v, hi, -, hu⟩ := h.split hi hx
  have hL' : onNode L x (fun l => l.erase x) head = some (if x ∈ l then l.erase x else l) := by
    rw [onNode, hL, Option.map_some]
  rw [onHead_eq hL']
  rw [onNode_erase h hi hu] at hL' ⊢
  exact listAddTail_spec (listDelEntry_spec h hi) hL' (free_rest h hi)

theorem listEmpty_spec (h : Wf s L) (hL : L head = some l) :
    listEmpty s head = decide (l = []) := by
  have hring := h.ring head l hL
  have hnext : s.next head = l.headD head := Ring.next (u := []) hring
  refine decide_eq_decide.mpr ⟨fun heq => ?_, ?_⟩
  · by_contra hne
    exact hring.ne_head hne (heq.symm.trans hnext)
  · rintro rfl
    exact hnext

theorem listRotateLeft_spec (h : Wf s L) (hL : L head = some l) :
    Wf (listRotateLeft s head) (onHead L head fun l => l.rotate 1) := by
  rw [listRotateLeft, listEmpty_spec h hL, onHead_eq hL]
  cases l with
  | nil =>
    have hsame : Function.update L head (some []) = L := by rw [← hL, update_eq_self]
    rw [rotate_nil, hsame]
    exact h
  | cons x w =>
    have hnext : s.next head = x := Ring.next (u := []) (h.ring head _ hL)
    have hmove := listMoveTail_spec h hL mem_cons_self hL
    rw [h.onNode_eq hL mem_cons_self, erase_cons_head, onHead_eq (update_self ..),
      update_idem] at hmove
    rw [hnext, rotate_cons_succ, rotate_zero]
    exact hmove

theorem listIsLast_spec (h : Wf s L) (hL : L head = some l) (hx : x ∈ l) :
    listIsLast s x head = decide (l.getLast? = some x) := by
  obtain ⟨u, v, hL, rfl, -⟩ := h.split hL hx
  have hring := h.ring head _ hL
  rw [listIsLast, hring.links.1]
  refine decide_eq_decide.mpr ?_
  cases v with
  | nil => exact iff_of_true rfl getLast?_concat
  | cons y w =>
    have hhead : head ∉ u ++ x :: y :: w := (nodup_cons.mp hring.nodup).1
    refine iff_of_false (fun heq => hhead ?_) fun hlast => notMem_rest h hL ?_
    · rw [← heq]
      exact mem_append_right u (mem_cons_of_mem x mem_cons_self)
    · rw [getLast?_append_of_ne_nil _ (cons_ne_nil x (y :: w)), getLast?_cons_cons]
        at hlast
      exact mem_cons_of_mem head (mem_append_right u (mem_of_getLast? hlast))

theorem listIsSingular_spec (h : Wf s L) (hL : L head = some l) :
    listIsSingular s head = decide (l.length = 1) := by
  have hring := h.ring head l hL
  have hnext : s.next head = l.headD head := Ring.next (u := []) hring
  have hprev : s.prev head = l.getLastD head := Ring.prev (v := []) (by rwa [append_nil])
  rw [listIsSingular, listEmpty_spec h hL, hnext, hprev]
  match l, hring with
  | [], _ => rfl
  | [x], _ =>
    rw [decide_eq_false (cons_ne_nil x []), headD_cons, getLastD_cons, getLastD_nil,
      decide_eq_true rfl]
    rfl
  | x :: y :: w, hring =>
    have hfirst : x ≠ (y :: w).getLastD x := by
      have hnodup := (nodup_cons.mp hring.nodup).2
      have hlast : (y :: w).getLastD x ∈ y :: w := by
        rw [getLastD_cons]
        exact getLastD_mem_cons
      exact fun heq => (nodup_cons.mp hnodup).1 (heq ▸ hlast)
    have hlength : (x :: y :: w).length ≠ 1 := by simp
    rw [getLastD_cons, decide_eq_false hlength, headD_cons, decide_eq_false hfirst, Bool.and_false]

theorem listEmptyCareful_spec (h : Wf s L) (hL : L head = some l) :
    listEmptyCareful s head = decide (l = []) := by
  have hring := h.ring head l hL
  have hprev : s.prev head = l.getLastD head := Ring.prev (v := []) (by rwa [append_nil])
  have hnext : s.next head = l.headD head := Ring.next (u := []) hring
  have hempty := listEmpty_spec h hL
  rw [listEmpty] at hempty
  rw [listEmptyCareful, hempty]
  cases l with
  | nil => exact decide_eq_true (hnext.trans hprev.symm)
  | cons x w => rfl

theorem Wf.drop (h : Wf s L) (x : α) : Wf s (Function.update L x none) := by
  have hsub : ∀ {i m}, Function.update L x none i = some m → L i = some m := by
    intro i m hm
    by_cases hi : i = x
    · subst hi
      rw [update_self] at hm
      cases hm
    · rwa [update_of_ne hi] at hm
  exact ⟨fun i m hm => h.ring i m (hsub hm),
    fun i j m m' hij hm hm' => h.disjoint i j m m' hij (hsub hm) (hsub hm')⟩

theorem listSpliceBetween_spec (h : Wf s L) (hL : L head = some (u ++ v)) (hw : L x = some w)
    (hne : x ≠ head) (hwne : w ≠ []) :
    Wf (listSpliceBetween s x (u.getLastD head) (v.headD head))
      (update (update L x none) head (some (u ++ (w ++ v)))) := by
  have hring := h.ring x w hw
  have hnext : s.next x = w.headD x := Ring.next (u := []) hring
  have hprev : s.prev x = w.getLastD x := Ring.prev (v := []) (by rwa [append_nil])
  have hsplice := (h.ring head _ hL).splice hring (h.disjoint head x _ w hne.symm hL hw) hwne
  have hframe : Frame (head :: (u ++ v) ++ x :: w) s
      (listSpliceBetween s x (u.getLastD head) (v.headD head)) := by
    have hlast : u.getLastD head ∈ head :: (u ++ v) ++ x :: w :=
      mem_append_left _ (getLastD_mem_append head u v)
    have hhead : v.headD head ∈ head :: (u ++ v) ++ x :: w :=
      mem_append_left _ (headD_mem_append head u v)
    have hlast' : w.getLastD x ∈ head :: (u ++ v) ++ x :: w :=
      mem_append_right _ getLastD_mem_cons
    have hhead' : w.headD x ∈ head :: (u ++ v) ++ x :: w :=
      mem_append_right _ (headD_mem_append x [] w)
    simp only [listSpliceBetween, Memory.setNext, Memory.setPrev, hnext, hprev]
    constructor
    · intro y hy
      exact (update_of_ne (ne_of_mem_of_not_mem hlast' hy).symm _ _).trans
        (update_of_ne (ne_of_mem_of_not_mem hlast hy).symm _ _)
    · intro y hy
      exact (update_of_ne (ne_of_mem_of_not_mem hhead hy).symm _ _).trans
        (update_of_ne (ne_of_mem_of_not_mem hhead' hy).symm _ _)
  have hring' : Ring head (listSpliceBetween s x (u.getLastD head) (v.headD head)).next
      (listSpliceBetween s x (u.getLastD head) (v.headD head)).prev (u ++ (w ++ v)) := by
    simp only [listSpliceBetween, Memory.setNext, Memory.setPrev, hnext, hprev]
    rwa [hnext, hprev] at hsplice
  refine (h.drop x).edit hring' hframe ?_ ?_
  · intro y hy i m hi hm
    have hix : i ≠ x := by
      rintro rfl
      rw [update_self] at hm
      cases hm
    rw [update_of_ne hix] at hm
    rcases mem_append.mp hy with hy | hy
    · exact h.notElsewhere hL y hy i m hi hm
    · exact h.notElsewhere hw y hy i m hix hm
  · intro y hy
    simp only [mem_cons, mem_append] at hy ⊢
    tauto

section Joined

theorem joined_nil {f : List α → List α → List α} (hw : L x = some []) :
    joined L x head f = L := if_pos hw

theorem joined_cons {f : List α → List α → List α} (hw : L x = some w) (hwne : w ≠ [])
    (hL : L head = some l) (hne : x ≠ head) :
    joined L x head f = update (update L x none) head (some (f w l)) := by
  have hL' : update L x none head = some l := by rw [update_of_ne hne.symm, hL]
  rw [joined, if_neg (fun heq => hwne (Option.some.inj (hw.symm.trans heq))), onHead_eq hL', hw,
    Option.getD_some]

theorem listSplice_spec (h : Wf s L) (hw : L x = some w) (hL : L head = some l) (hne : x ≠ head) :
    Wf (listSplice s x head) (joined L x head fun w l => w ++ l) := by
  rw [listSplice, listEmpty_spec h hw]
  by_cases hwne : w = []
  · subst hwne
    rw [joined_nil hw]
    exact h
  · have hnext : s.next head = l.headD head := Ring.next (u := []) (h.ring head l hL)
    rw [joined_cons hw hwne hL hne, decide_eq_false hwne, hnext]
    exact listSpliceBetween_spec (u := []) h hL hw hne hwne

theorem listSpliceTail_spec (h : Wf s L) (hw : L x = some w) (hL : L head = some l)
    (hne : x ≠ head) : Wf (listSpliceTail s x head) (joined L x head fun w l => l ++ w) := by
  rw [listSpliceTail, listEmpty_spec h hw]
  by_cases hwne : w = []
  · subst hwne
    rw [joined_nil hw]
    exact h
  · have hL' : L head = some (l ++ []) := by rw [append_nil, hL]
    have hprev : s.prev head = l.getLastD head := Ring.prev (h.ring head _ hL')
    have hsplice := listSpliceBetween_spec h hL' hw hne hwne
    rw [append_nil] at hsplice
    rw [joined_cons hw hwne hL hne, decide_eq_false hwne, hprev]
    exact hsplice

end Joined

/-! ## Runs -/

theorem exec_spec (h : Wf s L) (op : Op α) (hpre : Pre L op) :
    Wf (exec null s op).1 (spec L op).1 ∧ (exec null s op).2 = (spec L op).2 := by
  cases op with
  | init l => exact ⟨listInit_spec h hpre, rfl⟩
  | add newl head =>
    obtain ⟨hfree, l, hL⟩ := hpre
    refine ⟨?_, rfl⟩
    rw [spec, onHead_eq hL]
    exact listAdd_spec h hL hfree
  | addTail newl head =>
    obtain ⟨hfree, l, hL⟩ := hpre
    refine ⟨?_, rfl⟩
    rw [spec, onHead_eq hL]
    exact listAddTail_spec h hL hfree
  | del entry =>
    obtain ⟨i, l, hL, hmem⟩ := hpre
    exact ⟨listDel_spec h hL hmem, rfl⟩
  | replace old newl =>
    obtain ⟨hfree, i, l, hL, hmem⟩ := hpre
    exact ⟨listReplace_spec h hL hmem hfree, rfl⟩
  | move list head =>
    obtain ⟨⟨i, m, hi, hmem⟩, l, hL⟩ := hpre
    exact ⟨listMove_spec h hi hmem hL, rfl⟩
  | moveTail list head =>
    obtain ⟨⟨i, m, hi, hmem⟩, l, hL⟩ := hpre
    exact ⟨listMoveTail_spec h hi hmem hL, rfl⟩
  | rotateLeft head =>
    obtain ⟨l, hL⟩ := hpre
    exact ⟨listRotateLeft_spec h hL, rfl⟩
  | splice list head =>
    obtain ⟨hne, ⟨w, hw⟩, l, hL⟩ := hpre
    exact ⟨listSplice_spec h hw hL hne, rfl⟩
  | spliceTail list head =>
    obtain ⟨hne, ⟨w, hw⟩, l, hL⟩ := hpre
    exact ⟨listSpliceTail_spec h hw hL hne, rfl⟩
  | isLast list head =>
    obtain ⟨l, hL, hmem⟩ := hpre
    refine ⟨h, ?_⟩
    rw [exec, spec, hL, listIsLast_spec h hL hmem, Option.bind_some]
  | empty head =>
    obtain ⟨l, hL⟩ := hpre
    refine ⟨h, ?_⟩
    rw [exec, spec, hL, listEmpty_spec h hL]
    simp only [Option.some.injEq]
  | emptyCareful head =>
    obtain ⟨l, hL⟩ := hpre
    refine ⟨h, ?_⟩
    rw [exec, spec, hL, listEmptyCareful_spec h hL]
    simp only [Option.some.injEq]
  | isSingular head =>
    obtain ⟨l, hL⟩ := hpre
    refine ⟨h, ?_⟩
    rw [exec, spec, hL, listIsSingular_spec h hL, Option.map_some]
    simp only [Option.some.injEq]

omit [DecidableEq α] in
theorem wf_none (s : Memory α) : Wf s fun _ => none where
  ring _ _ hm := absurd hm (Option.some_ne_none _).symm
  disjoint _ _ _ _ _ hm := absurd hm (Option.some_ne_none _).symm

/-- Any number of heads, from no list at all: the pointers describe the sequences, forwards and
backwards, and the answers are those of the sequences. -/
theorem list_refines (s : Memory α) (ops : List (Op α))
    (hpre : Run.StepsMeet (fun L op => some (spec L op)) Pre (fun _ => none) ops) :
    Wf (Run.runTotal (exec null) s ops).1 (Run.runTotal spec (fun _ => none) ops).1 ∧
      (Run.runTotal (exec null) s ops).2 = (Run.runTotal spec (fun _ => none) ops).2 :=
  Run.runTotal_simulates (R := Wf) (fun _ _ op hwf hop => exec_spec hwf op hop) (wf_none s) hpre

theorem list_refines_two_heads :
    let ops : List (Op Nat) := [.init 1, .init 2, .addTail 3 1, .add 4 2, .splice 2 1,
      .rotateLeft 1, .isLast 4 1, .isSingular 1]
    Wf (Run.runTotal (exec 0) ⟨fun _ => 0, fun _ => 0⟩ ops).1
        (Run.runTotal spec (fun _ => none) ops).1 ∧
      (Run.runTotal (exec 0) ⟨fun _ => 0, fun _ => 0⟩ ops).2 =
        (Run.runTotal spec (fun _ => none) ops).2 :=
  list_refines _ _ (by
    simp [Run.StepsMeet, Pre, Free, NotElsewhere, spec, onHead, joined, Function.update]
    refine ⟨?_, ?_, ?_⟩ <;> grind)

end PortableLib.KernelLists
