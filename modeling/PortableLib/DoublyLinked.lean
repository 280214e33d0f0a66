import Mathlib.Tactic.Tauto
import PortableLib.Lib.Rings
import PortableLib.Lib.Run

/-! The doubly linked lists of `fast/list.h`. A node carries the two pointers of its `field`; a
head is a pair of pointers. -/

namespace PortableLib.DoublyLinked
open List Links Function

variable {α η : Type} [DecidableEq α] [DecidableEq η]

structure Memory (α η : Type) where
  next : α → α
  prev : α → α
  first : η → α
  last : η → α

def Memory.setNext (s : Memory α η) (x v : α) : Memory α η := { s with next := update s.next x v }

def Memory.setPrev (s : Memory α η) (x v : α) : Memory α η := { s with prev := update s.prev x v }

def Memory.setFirst (s : Memory α η) (head : η) (v : α) : Memory α η :=
  { s with first := update s.first head v }

def Memory.setLast (s : Memory α η) (head : η) (v : α) : Memory α η :=
  { s with last := update s.last head v }

/-- `if (x) x->field.prev = v; else head->last = v;` -/
def linkPrev (null : α) (s : Memory α η) (head : η) (x v : α) : Memory α η :=
  if x ≠ null then s.setPrev x v else s.setLast head v

/-- `if (x) x->field.next = v; else head->first = v;` -/
def linkNext (null : α) (s : Memory α η) (head : η) (x v : α) : Memory α η :=
  if x ≠ null then s.setNext x v else s.setFirst head v

def dlInit (null : α) (s : Memory α η) (head : η) : Memory α η :=
  let s := s.setLast head null
  s.setFirst head (s.last head)

def dlInsertHead (null : α) (s : Memory α η) (head : η) (elm : α) : Memory α η :=
  let s := s.setNext elm (s.first head)
  let s := linkPrev null s head (s.first head) elm
  let s := s.setFirst head elm
  s.setPrev elm null

def dlInsertTail (null : α) (s : Memory α η) (head : η) (elm : α) : Memory α η :=
  let s := s.setPrev elm (s.last head)
  let s := linkNext null s head (s.last head) elm
  let s := s.setLast head elm
  s.setNext elm null

def dlInsertAfter (null : α) (s : Memory α η) (head : η) (inlist elm : α) : Memory α η :=
  let s := s.setNext elm (s.next inlist)
  let s := linkPrev null s head (s.next inlist) elm
  let s := s.setPrev elm inlist
  s.setNext inlist elm

def dlInsertBefore (null : α) (s : Memory α η) (head : η) (inlist elm : α) : Memory α η :=
  let s := s.setPrev elm (s.prev inlist)
  let s := linkNext null s head (s.prev inlist) elm
  let s := s.setNext elm inlist
  s.setPrev inlist elm

def dlRemove (null : α) (s : Memory α η) (head : η) (elm : α) : Memory α η :=
  let s := linkPrev null s head (s.next elm) (s.prev elm)
  linkNext null s head (s.prev elm) (s.next elm)

def dlRemoveHead (null : α) (s : Memory α η) (head : η) : Memory α η × α :=
  let zz := s.first head
  if zz ≠ null then
    let s := s.setFirst head (s.next zz)
    (linkPrev null s head (s.first head) null, zz)
  else (s, zz)

def dlRemoveTail (null : α) (s : Memory α η) (head : η) : Memory α η × α :=
  let zz := s.last head
  if zz ≠ null then
    let s := s.setLast head (s.prev zz)
    (linkNext null s head (s.last head) null, zz)
  else (s, zz)

def dlAppendList (null : α) (s : Memory α η) (oldhead newhead : η) : Memory α η :=
  let s :=
    if s.last oldhead ≠ null then
      let s := s.setNext (s.last oldhead) (s.first newhead)
      if s.first newhead ≠ null then s.setPrev (s.first newhead) (s.last oldhead) else s
    else s.setFirst oldhead (s.first newhead)
  let s := if s.last newhead ≠ null then s.setLast oldhead (s.last newhead) else s
  dlInit null s newhead

def dlPrependList (null : α) (s : Memory α η) (oldhead newhead : η) : Memory α η :=
  let s :=
    if s.first oldhead ≠ null then
      let s := s.setPrev (s.first oldhead) (s.last newhead)
      if s.last newhead ≠ null then s.setNext (s.last newhead) (s.first oldhead) else s
    else s.setLast oldhead (s.last newhead)
  let s := if s.first newhead ≠ null then s.setFirst oldhead (s.first newhead) else s
  dlInit null s newhead

inductive Op (α η : Type)
  | init (head : η)
  | insertHead (head : η) (elm : α)
  | insertTail (head : η) (elm : α)
  | insertAfter (head : η) (inlist elm : α)
  | insertBefore (head : η) (inlist elm : α)
  | remove (head : η) (elm : α)
  | removeHead (head : η)
  | removeTail (head : η)
  | appendList (oldhead newhead : η)
  | prependList (oldhead newhead : η)

/-- A macro and the pointer it evaluates to, `null` for those that are statements. -/
def exec (null : α) (s : Memory α η) : Op α η → Memory α η × α
  | .init head => (dlInit null s head, null)
  | .insertHead head elm => (dlInsertHead null s head elm, null)
  | .insertTail head elm => (dlInsertTail null s head elm, null)
  | .insertAfter head inlist elm => (dlInsertAfter null s head inlist elm, null)
  | .insertBefore head inlist elm => (dlInsertBefore null s head inlist elm, null)
  | .remove head elm => (dlRemove null s head elm, null)
  | .removeHead head => dlRemoveHead null s head
  | .removeTail head => dlRemoveTail null s head
  | .appendList oldhead newhead => (dlAppendList null s oldhead newhead, null)
  | .prependList oldhead newhead => (dlPrependList null s oldhead newhead, null)

/-! ## Sequences -/

def spec (null : α) (L : η → List α) : Op α η → (η → List α) × α
  | .init head => (update L head [], null)
  | .insertHead head elm => (update L head (elm :: L head), null)
  | .insertTail head elm => (update L head (L head ++ [elm]), null)
  | .insertAfter head inlist elm =>
    (update L head ((L head).insertIdx ((L head).idxOf inlist + 1) elm), null)
  | .insertBefore head inlist elm =>
    (update L head ((L head).insertIdx ((L head).idxOf inlist) elm), null)
  | .remove head elm => (update L head ((L head).erase elm), null)
  | .removeHead head => (update L head (L head).tail, (L head).headD null)
  | .removeTail head => (update L head (L head).dropLast, (L head).getLastD null)
  | .appendList oldhead newhead =>
    (update (update L oldhead (L oldhead ++ L newhead)) newhead [], null)
  | .prependList oldhead newhead =>
    (update (update L oldhead (L newhead ++ L oldhead)) newhead [], null)

/-- In no list, and a node at all. -/
def Fresh (null : α) (L : η → List α) (elm : α) : Prop := elm ≠ null ∧ ∀ head, elm ∉ L head

def Pre (null : α) (L : η → List α) : Op α η → Prop
  | .init _ | .removeHead _ | .removeTail _ => True
  | .insertHead _ elm | .insertTail _ elm => Fresh null L elm
  | .insertAfter head inlist elm | .insertBefore head inlist elm =>
    Fresh null L elm ∧ inlist ∈ L head
  | .remove head elm => elm ∈ L head
  | .appendList oldhead newhead | .prependList oldhead newhead =>
    (L oldhead).Disjoint (L newhead)

/-- Every head describes its sequence forwards and backwards, and no node is in two of them. -/
structure Wf (null : α) (s : Memory α η) (L : η → List α) : Prop where
  dlist : ∀ head, Dlist null s.next s.prev (s.first head) (s.last head) (L head)
  disjoint : ∀ head head', head ≠ head' → (L head).Disjoint (L head')

/-! ## Rings -/

def ringNext (null : α) (s : Memory α η) (head : η) : α → α := update s.next null (s.first head)

def ringPrev (null : α) (s : Memory α η) (head : η) : α → α := update s.prev null (s.last head)

variable {null : α} {s s' : Memory α η} {L : η → List α} {head head' : η} {elm x y v : α}

omit [DecidableEq η] in
theorem Wf.ring (h : Wf null s L) (head : η) :
    Ring null (ringNext null s head) (ringPrev null s head) (L head) :=
  dlist_iff_ring.mp (h.dlist head)

omit [DecidableEq η] in
theorem ringNext_of_ne (hy : y ≠ null) : ringNext null s head y = s.next y := update_of_ne hy _ _

omit [DecidableEq η] in
theorem ringPrev_of_ne (hy : y ≠ null) : ringPrev null s head y = s.prev y := update_of_ne hy _ _

omit [DecidableEq η] in
theorem ringNext_setNext (hx : x ≠ null) :
    ringNext null (s.setNext x v) head = update (ringNext null s head) x v :=
  update_comm hx _ _ _

omit [DecidableEq η] in
theorem ringPrev_setPrev (hx : x ≠ null) :
    ringPrev null (s.setPrev x v) head = update (ringPrev null s head) x v :=
  update_comm hx _ _ _

theorem ringNext_setFirst :
    ringNext null (s.setFirst head v) head = update (ringNext null s head) null v := by
  change update s.next null (update s.first head v head) = _
  rw [update_self, ringNext, update_idem]

theorem ringPrev_setLast :
    ringPrev null (s.setLast head v) head = update (ringPrev null s head) null v := by
  change update s.prev null (update s.last head v head) = _
  rw [update_self, ringPrev, update_idem]

theorem ringPrev_linkPrev :
    ringPrev null (linkPrev null s head x v) head = update (ringPrev null s head) x v := by
  unfold linkPrev
  split
  case isTrue hx => exact ringPrev_setPrev hx
  case isFalse hx =>
    obtain rfl := not_not.mp hx
    exact ringPrev_setLast

theorem ringNext_linkNext :
    ringNext null (linkNext null s head x v) head = update (ringNext null s head) x v := by
  unfold linkNext
  split
  case isTrue hx => exact ringNext_setNext hx
  case isFalse hx =>
    obtain rfl := not_not.mp hx
    exact ringNext_setFirst

theorem linkPrev_next : (linkPrev null s head x v).next = s.next := by
  unfold linkPrev
  split <;> rfl

theorem linkPrev_first : (linkPrev null s head x v).first = s.first := by
  unfold linkPrev
  split <;> rfl

theorem ringPrev_linkNext :
    ringPrev null (linkNext null s head x v) head = ringPrev null s head := by
  unfold linkNext
  split <;> rfl

theorem ringNext_linkPrev :
    ringNext null (linkPrev null s head x v) head = ringNext null s head := by
  rw [ringNext, linkPrev_next, linkPrev_first, ringNext]

structure Frame (head : η) (t : List α) (s s' : Memory α η) : Prop where
  next : ∀ y, y ∉ t → s'.next y = s.next y
  prev : ∀ y, y ∉ t → s'.prev y = s.prev y
  first : ∀ head', head' ≠ head → s'.first head' = s.first head'
  last : ∀ head', head' ≠ head → s'.last head' = s.last head'

theorem Wf.edit {t l : List α} (h : Wf null s L)
    (hring : Ring null (ringNext null s' head) (ringPrev null s' head) l)
    (hframe : Frame head t s s') (hl : ∀ y ∈ l, ∀ head', head' ≠ head → y ∉ L head')
    (ht : ∀ y ∈ t, ∀ head', head' ≠ head → y ∉ L head') : Wf null s' (update L head l) where
  dlist head' := by
    by_cases hne : head' = head
    · subst hne
      rw [update_self]
      exact dlist_iff_ring.mpr hring
    · rw [update_of_ne hne, hframe.first head' hne, hframe.last head' hne]
      exact (h.dlist head').congr (fun y hy => hframe.next y fun hyt => ht y hyt head' hne hy)
        fun y hy => hframe.prev y fun hyt => ht y hyt head' hne hy
  disjoint i j hij := by
    by_cases hi : i = head
    · subst hi
      rw [update_self, update_of_ne hij.symm]
      exact fun y hy hyj => hl y hy j hij.symm hyj
    · rw [update_of_ne hi]
      by_cases hj : j = head
      · subst hj
        rw [update_self]
        exact fun y hyi hy => hl y hy i hij hyi
      · rw [update_of_ne hj]
        exact h.disjoint i j hij

omit [DecidableEq η] in
theorem frame_setNext {t : List α} (hx : x ∈ t) : Frame head t s (s.setNext x v) where
  next _ hy := update_of_ne (ne_of_mem_of_not_mem hx hy).symm _ _
  prev _ _ := rfl
  first _ _ := rfl
  last _ _ := rfl

omit [DecidableEq η] in
theorem frame_setPrev {t : List α} (hx : x ∈ t) : Frame head t s (s.setPrev x v) where
  next _ _ := rfl
  prev _ hy := update_of_ne (ne_of_mem_of_not_mem hx hy).symm _ _
  first _ _ := rfl
  last _ _ := rfl

omit [DecidableEq α] in
theorem frame_setFirst {t : List α} : Frame head t s (s.setFirst head v) where
  next _ _ := rfl
  prev _ _ := rfl
  first _ hne := update_of_ne hne _ _
  last _ _ := rfl

omit [DecidableEq α] in
theorem frame_setLast {t : List α} : Frame head t s (s.setLast head v) where
  next _ _ := rfl
  prev _ _ := rfl
  first _ _ := rfl
  last _ hne := update_of_ne hne _ _

theorem frame_linkPrev {t : List α} (hx : x ≠ null → x ∈ t) :
    Frame head t s (linkPrev null s head x v) := by
  unfold linkPrev
  split
  case isTrue hne => exact frame_setPrev (hx hne)
  case isFalse => exact frame_setLast

theorem frame_linkNext {t : List α} (hx : x ≠ null → x ∈ t) :
    Frame head t s (linkNext null s head x v) := by
  unfold linkNext
  split
  case isTrue hne => exact frame_setNext (hx hne)
  case isFalse => exact frame_setFirst

omit [DecidableEq α] [DecidableEq η] in
theorem Frame.trans {t : List α} {s'' : Memory α η} (h : Frame head t s s')
    (h' : Frame head t s' s'') : Frame head t s s'' where
  next y hy := (h'.next y hy).trans (h.next y hy)
  prev y hy := (h'.prev y hy).trans (h.prev y hy)
  first i hi := (h'.first i hi).trans (h.first i hi)
  last i hi := (h'.last i hi).trans (h.last i hi)

omit [DecidableEq η] in
theorem Wf.ring_insert {t w : List α} (h : Wf null s L) (hL : L head = t ++ w)
    (hfresh : Fresh null L elm) : Ring null
      (update (update (ringNext null s head) elm (w.headD null)) (t.getLastD null) elm)
      (update (update (ringPrev null s head) (w.headD null) elm) elm (t.getLastD null))
      (t ++ elm :: w) := by
  have hring := h.ring head
  rw [hL] at hring
  refine hring.link ?_
  rw [mem_cons, ← hL]
  exact not_or.mpr ⟨hfresh.1, hfresh.2 head⟩

/-! ## The macros that have a mirror image -/

omit [DecidableEq α] [DecidableEq η] in
theorem Fresh.notMem_other {t w : List α} (h : Wf null s L) (hL : L head = t ++ w)
    (hfresh : Fresh null L elm) :
    ∀ z ∈ elm :: (t ++ w), ∀ head', head' ≠ head → z ∉ L head' := by
  intro z hz i hi hzi
  rcases mem_cons.mp hz with rfl | hz
  · exact hfresh.2 i hzi
  · exact h.disjoint i head hi hzi (hL ▸ hz)

theorem dlInsertHead_spec (h : Wf null s L) (hfresh : Fresh null L elm) :
    Wf null (dlInsertHead null s head elm) (update L head (elm :: L head)) := by
  have hfirst := (h.dlist head).first_eq
  have hring := h.ring_insert (nil_append (L head)).symm hfresh
  have hout := hfresh.notMem_other h (nil_append (L head)).symm
  refine h.edit ?_ (t := elm :: L head) ?_ hout hout
  · have hnext : ringNext null (dlInsertHead null s head elm) head =
        update (update (ringNext null s head) elm (s.first head)) null elm := by
      change ringNext null (Memory.setFirst (linkPrev null (s.setNext elm (s.first head)) head
        (s.first head) elm) head elm) head = _
      rw [ringNext_setFirst, ringNext_linkPrev, ringNext_setNext hfresh.1]
    have hprev : ringPrev null (dlInsertHead null s head elm) head =
        update (update (ringPrev null s head) (s.first head) elm) elm null := by
      rw [dlInsertHead, ringPrev_setPrev hfresh.1]
      exact congrArg (fun k : α → α => update k elm null) ringPrev_linkPrev
    rw [hnext, hprev, hfirst]
    exact hring
  · have hmem : s.first head ≠ null → s.first head ∈ elm :: L head :=
      fun hne => mem_cons_of_mem elm ((h.dlist head).first_mem hne)
    exact (((frame_setNext mem_cons_self).trans (frame_linkPrev hmem)).trans frame_setFirst).trans
      (frame_setPrev mem_cons_self)

theorem dlInsertAfter_spec {t w : List α} (h : Wf null s L) (hfresh : Fresh null L elm)
    (hL : L head = t ++ x :: w) :
    Wf null (dlInsertAfter null s head x elm) (update L head (t ++ x :: elm :: w)) := by
  have hL' : L head = (t ++ [x]) ++ w := by rw [hL, append_assoc, singleton_append]
  have hring := h.ring_insert hL' hfresh
  rw [getLastD_concat, append_assoc, singleton_append] at hring
  have hxL : x ∈ L head := hL ▸ mem_append_right t mem_cons_self
  have hx : x ≠ null := fun heq => (h.dlist head).nonnull (heq ▸ hxL)
  have hxe : x ≠ elm := fun heq => hfresh.2 head (heq ▸ hxL)
  have hnextx : s.next x = w.headD null := by
    have hold := h.ring head
    rw [hL'] at hold
    have hnx := hold.next
    rwa [getLastD_concat, ringNext_of_ne hx] at hnx
  -- the neighbour behind `x` is read again after `elm` points at it
  have hkeep : (s.setNext elm (s.next x)).next x = s.next x := update_of_ne hxe _ _
  have hout := hfresh.notMem_other h (append_nil (L head)).symm
  rw [append_nil] at hout
  refine h.edit ?_ (t := elm :: L head) ?_ (fun z hz => hout z ?_) hout
  -- as rings, the four writes put `elm` between `x` and what came next
  · have hnext : ringNext null (dlInsertAfter null s head x elm) head =
        update (update (ringNext null s head) elm (s.next x)) x elm := by
      rw [dlInsertAfter, ringNext_setNext hx]
      refine congrArg (fun k : α → α => update k x elm) ?_
      exact ringNext_linkPrev.trans (ringNext_setNext hfresh.1)
    have hprev : ringPrev null (dlInsertAfter null s head x elm) head =
        update (update (ringPrev null s head) (s.next x) elm) elm x := by
      change ringPrev null (Memory.setPrev (linkPrev null (s.setNext elm (s.next x)) head
        ((s.setNext elm (s.next x)).next x) elm) elm x) head = _
      rw [ringPrev_setPrev hfresh.1, ringPrev_linkPrev, hkeep]
      rfl
    rw [hnext, hprev, hnextx]
    exact hring
  -- only cells of the list and `elm` are written
  · have hmem : (s.setNext elm (s.next x)).next x ≠ null →
        (s.setNext elm (s.next x)).next x ∈ elm :: L head := by
      rw [hkeep, hnextx, hL]
      intro hne
      cases w with
      | nil => exact absurd rfl hne
      | cons y w =>
        exact mem_cons_of_mem elm (mem_append_right t (mem_cons_of_mem x mem_cons_self))
    exact (((frame_setNext mem_cons_self).trans (frame_linkPrev hmem)).trans
      (frame_setPrev mem_cons_self)).trans (frame_setNext (mem_cons_of_mem elm hxL))
  · rw [hL]
    simp only [mem_append, mem_cons] at hz ⊢
    tauto

omit [DecidableEq η] in
theorem Wf.ring_remove {t w : List α} (h : Wf null s L) (hL : L head = t ++ x :: w) : Ring null
    (update (ringNext null s head) (t.getLastD null) (w.headD null))
    (update (ringPrev null s head) (w.headD null) (t.getLastD null)) (t ++ w) := by
  have hring := h.ring head
  rw [hL] at hring
  exact hring.remove (fun y _ hne => update_of_ne hne _ _) (fun y _ hne => update_of_ne hne _ _)
    (update_self ..) (update_self ..)

omit [DecidableEq η] in
theorem Wf.neighbours {t w : List α} (h : Wf null s L) (hL : L head = t ++ x :: w) :
    s.next x = w.headD null ∧ s.prev x = t.getLastD null := by
  have hx : x ≠ null := fun heq =>
    (h.dlist head).nonnull (heq ▸ hL ▸ mem_append_right t mem_cons_self)
  have hring := h.ring head
  rw [hL] at hring
  have hprev := hring.prev
  rw [headD_cons, ringPrev_of_ne hx] at hprev
  rw [← singleton_append, ← append_assoc] at hring
  have hnext := hring.next
  rw [getLastD_concat, ringNext_of_ne hx] at hnext
  exact ⟨hnext, hprev⟩

omit [DecidableEq α] in
theorem mem_of_headD_ne {t w : List α} (hne : w.headD null ≠ null) : w.headD null ∈ t ++ w := by
  cases w with
  | nil => exact absurd rfl hne
  | cons y w => exact mem_append_right t mem_cons_self

omit [DecidableEq α] in
theorem mem_of_getLastD_ne {t w : List α} (hne : t.getLastD null ≠ null) :
    t.getLastD null ∈ t ++ w :=
  mem_append_left w ((mem_cons.mp getLastD_mem_cons).resolve_left hne)

omit [DecidableEq α] [DecidableEq η] in
theorem Wf.notMem_other {t : List α} (h : Wf null s L) (ht : t ⊆ L head) :
    ∀ z ∈ t, ∀ head', head' ≠ head → z ∉ L head' :=
  fun _ hz i hi hzi => h.disjoint i head hi hzi (ht hz)

theorem dlRemove_spec {t w : List α} (h : Wf null s L) (hL : L head = t ++ x :: w) :
    Wf null (dlRemove null s head x) (update L head (t ++ w)) := by
  obtain ⟨hnext, hprev⟩ := h.neighbours hL
  have hsub : t ++ w ⊆ L head := by
    rw [hL]
    exact ((sublist_cons_self x w).append_left t).subset
  have hxL : x ∈ L head := hL ▸ mem_append_right t mem_cons_self
  have hout := h.notMem_other hsub
  have hself : s.next x ≠ x := by
    rw [hnext]
    intro heq
    have hx : x ≠ null := fun hn => (h.dlist head).nonnull (hn ▸ hxL)
    cases w with
    | nil => exact hx heq.symm
    | cons y w =>
      have hnodup := (h.dlist head).nodup
      rw [hL] at hnodup
      have htail := (nodup_cons.mp (nodup_append.mp hnodup).2.1).1
      exact htail (heq ▸ mem_cons_self)
  have hkeep : (linkPrev null s head (s.next x) (s.prev x)).prev x = s.prev x := by
    unfold linkPrev
    split
    · exact update_of_ne hself.symm _ _
    · rfl
  have hrem : dlRemove null s head x = linkNext null (linkPrev null s head (s.next x) (s.prev x))
      head (s.prev x) (s.next x) := by
    rw [dlRemove, hkeep, linkPrev_next]
  refine h.edit ?_ (t := t ++ w) ?_ hout hout
  · rw [hrem, ringNext_linkNext, ringNext_linkPrev, ringPrev_linkNext, ringPrev_linkPrev, hnext,
      hprev]
    exact h.ring_remove hL
  · rw [hrem, hnext, hprev]
    exact (frame_linkPrev mem_of_headD_ne).trans (frame_linkNext mem_of_getLastD_ne)

theorem dlRemoveHead_spec (h : Wf null s L) :
    Wf null (dlRemoveHead null s head).1 (update L head (L head).tail) ∧
      (dlRemoveHead null s head).2 = (L head).headD null := by
  have hfirst := (h.dlist head).first_eq
  have hzz : (dlRemoveHead null s head).2 = s.first head := by
    by_cases hne : s.first head ≠ null
    · rw [dlRemoveHead, if_pos hne]
    · rw [dlRemoveHead, if_neg hne]
  refine ⟨?_, hzz.trans hfirst⟩
  cases hL : L head with
  | nil =>
    have hnull : ¬s.first head ≠ null := not_not.mpr (by rw [hfirst, hL, headD_nil])
    have hsame : update L head [] = L := by rw [← hL, update_eq_self]
    rw [dlRemoveHead, if_neg hnull, tail_nil, hsame]
    exact h
  | cons x w =>
    rw [hL, headD_cons] at hfirst
    have hx : x ≠ null := fun heq => (h.dlist head).nonnull (heq ▸ hL ▸ mem_cons_self)
    have hL' : L head = [] ++ x :: w := hL
    have hnext := (h.neighbours hL').1
    have hout := h.notMem_other (t := w) (hL ▸ subset_cons_self x w)
    have hget : (s.setFirst head (s.next x)).first head = s.next x := update_self _ _ _
    have hrem : (dlRemoveHead null s head).1 =
        linkPrev null (s.setFirst head (s.next x)) head (s.next x) null := by
      rw [dlRemoveHead, if_pos (hfirst ▸ hx)]
      change linkPrev null (s.setFirst head (s.next (s.first head))) head
        ((s.setFirst head (s.next (s.first head))).first head) null = _
      rw [hfirst, hget]
    refine h.edit ?_ (t := w) ?_ hout hout
    · rw [hrem, ringNext_linkPrev, ringNext_setFirst, ringPrev_linkPrev, hnext]
      exact h.ring_remove hL'
    · rw [hrem, hnext]
      exact frame_setFirst.trans (frame_linkPrev (mem_of_headD_ne (t := [])))

/-- The first statement of `DL_APPEND_LIST`. -/
def joinLinks (null : α) (s : Memory α η) (oldhead newhead : η) : Memory α η :=
  if s.last oldhead ≠ null then
    let s := s.setNext (s.last oldhead) (s.first newhead)
    if s.first newhead ≠ null then s.setPrev (s.first newhead) (s.last oldhead) else s
  else s.setFirst oldhead (s.first newhead)

def joinLast (null : α) (s : Memory α η) (oldhead newhead : η) : Memory α η :=
  if s.last newhead ≠ null then s.setLast oldhead (s.last newhead) else s

section append
variable {i j : η}

theorem dlAppendList_eq :
    dlAppendList null s i j = dlInit null (joinLast null (joinLinks null s i j) i j) j := rfl

theorem joinLinks_ringNext : ringNext null (joinLinks null s i j) i =
    update (ringNext null s i) (s.last i) (s.first j) := by
  unfold joinLinks
  by_cases hi : s.last i ≠ null
  · rw [if_pos hi, ← ringNext_setNext hi]
    by_cases hj : (s.setNext (s.last i) (s.first j)).first j ≠ null
    · rw [if_pos hj]
      rfl
    · rw [if_neg hj]
  · rw [if_neg hi, not_not.mp hi, ringNext_setFirst]

theorem joinLinks_ringPrev (hempty : s.last i = null → ringPrev null s i (s.first j) = null) :
    ringPrev null (joinLinks null s i j) i =
      update (ringPrev null s i) (s.first j) (s.last i) := by
  unfold joinLinks
  by_cases hi : s.last i ≠ null
  · rw [if_pos hi]
    by_cases hj : s.first j ≠ null
    · exact (congrArg (ringPrev null · i) (if_pos hj)).trans (ringPrev_setPrev hj)
    · refine (congrArg (ringPrev null · i) (if_neg hj)).trans ?_
      have hnull : ringPrev null s i null = s.last i := update_self _ _ _
      rw [not_not.mp hj, ← hnull, update_eq_self]
      rfl
  · have hsame := update_eq_self (s.first j) (ringPrev null s i)
    rw [hempty (not_not.mp hi)] at hsame
    rw [if_neg hi, not_not.mp hi, hsame]
    rfl

theorem joinLinks_last : (joinLinks null s i j).last = s.last := by
  unfold joinLinks
  split
  · dsimp only
    split <;> rfl
  · rfl

theorem joinLinks_first {k : η} (hk : k ≠ i) : (joinLinks null s i j).first k = s.first k := by
  unfold joinLinks
  split
  · dsimp only
    split <;> rfl
  · exact update_of_ne hk _ _

theorem joinLinks_next {t : List α} (ht : s.last i ≠ null → s.last i ∈ t) (hy : y ∉ t) :
    (joinLinks null s i j).next y = s.next y := by
  unfold joinLinks
  split
  case isTrue hi =>
    have hne : y ≠ s.last i := (ne_of_mem_of_not_mem (ht hi) hy).symm
    dsimp only
    split <;> exact update_of_ne hne _ _
  case isFalse => rfl

theorem joinLinks_prev {t : List α} (ht : s.first j ≠ null → s.first j ∈ t) (hy : y ∉ t) :
    (joinLinks null s i j).prev y = s.prev y := by
  unfold joinLinks
  split
  · dsimp only
    split
    case isTrue hj => exact update_of_ne (ne_of_mem_of_not_mem (ht hj) hy).symm _ _
    case isFalse => rfl
  · rfl

theorem Wf.ring_append (h : Wf null s L) (hij : i ≠ j) :
    Ring null (ringNext null (joinLast null (joinLinks null s i j) i j) i)
      (ringPrev null (joinLast null (joinLinks null s i j) i j) i) (L i ++ L j) := by
  have hlast := (h.dlist i).last_eq
  have hfirst := (h.dlist j).first_eq
  have hnonnull : ∀ k, ∀ z ∈ L k, z ≠ null := fun k z hz heq => (h.dlist k).nonnull (heq ▸ hz)
  -- no node of one list is an end of the other
  have hfj : ∀ z ∈ L i, z ≠ s.first j := by
    intro z hz heq
    have hne := hnonnull i z hz
    exact h.disjoint i j hij hz (heq ▸ (h.dlist j).first_mem (heq ▸ hne))
  have hli : ∀ z ∈ L j, z ≠ s.last i := by
    intro z hz heq
    have hne := hnonnull j z hz
    obtain ⟨t, ht⟩ := (h.dlist i).eq_snoc (heq ▸ hne)
    exact h.disjoint i j hij (ht ▸ mem_append_right t (mem_singleton.mpr heq)) hz
  -- the receiver has no last node if it is empty, and nothing points back to the donor then
  have hempty : s.last i = null → ringPrev null s i (s.first j) = null := by
    intro hi
    cases hL : L j with
    | nil => rw [hfirst, hL, headD_nil, ringPrev, update_self, hi]
    | cons x w =>
      have hx := hnonnull j x (hL ▸ mem_cons_self)
      rw [hfirst, hL, headD_cons, ringPrev_of_ne hx]
      exact (h.neighbours (t := []) hL).2
  have hnext : ringNext null (joinLast null (joinLinks null s i j) i j) i =
      update (ringNext null s i) (s.last i) (s.first j) := by
    rw [← joinLinks_ringNext]
    unfold joinLast
    split <;> rfl
  have hprev : ringPrev null (joinLast null (joinLinks null s i j) i j) i =
      if s.last j ≠ null then
        update (update (ringPrev null s i) (s.first j) (s.last i)) null (s.last j)
      else update (ringPrev null s i) (s.first j) (s.last i) := by
    rw [← joinLinks_ringPrev hempty, joinLast, joinLinks_last]
    split
    · exact ringPrev_setLast
    · rfl
  have hnull : ringPrev null s i null = s.last i := update_self _ _ _
  have hnull₂ : ringPrev null s j null = s.last j := update_self _ _ _
  have hne : L j ≠ [] → s.last j ≠ null := fun hL heq => hL ((h.dlist j).eq_nil heq)
  -- with the links written out, they are those of the two lists but for the seam
  rw [hnext, hprev]
  refine (h.ring i).append (h.ring j) (h.disjoint i j hij) ?_ ?_ ?_ ?_ ?_ ?_
  · intro z _ hz
    rw [← hlast] at hz
    exact update_of_ne hz _ _
  · rw [← hlast, update_self]
    exact (update_self null (s.first j) s.next).symm
  · intro z hz
    rw [update_of_ne (hli z hz), ringNext_of_ne (hnonnull j z hz), ringNext_of_ne (hnonnull j z hz)]
  · intro z hz hzf
    rw [← hfirst] at hzf
    rcases mem_cons.mp hz with rfl | hz
    · have hj : s.last j ≠ z := by
        apply hne
        intro hL
        rw [hfirst, hL] at hzf
        exact hzf rfl
      rw [if_pos hj, update_self, hnull₂]
    · rw [if_pos (hne (ne_nil_of_mem hz)), update_of_ne (hnonnull j z hz), update_of_ne hzf,
        ringPrev_of_ne (hnonnull j z hz), ringPrev_of_ne (hnonnull j z hz)]
  · rw [← hfirst, hnull]
    split
    case isTrue hj =>
      have hf : s.first j ≠ null := by
        intro heq
        cases hL : L j with
        | nil => exact hj ((h.dlist j).last_eq.trans (by rw [hL, getLastD_nil]))
        | cons x w =>
          rw [hfirst, hL, headD_cons] at heq
          exact hnonnull j x (hL ▸ mem_cons_self) heq
      rw [update_of_ne hf, update_self]
    case isFalse => rw [update_self]
  · intro z hz
    split
    · rw [update_of_ne (hnonnull i z hz), update_of_ne (hfj z hz)]
    · rw [update_of_ne (hfj z hz)]

end append

omit [DecidableEq α] in
theorem dlInit_spec (hd : ∀ k, k ≠ head → Dlist null s.next s.prev (s.first k) (s.last k) (L k))
    (hdis : ∀ k k', k ≠ head → k' ≠ head → k ≠ k' → (L k).Disjoint (L k')) :
    Wf null (dlInit null s head) (update L head []) where
  dlist k := by
    by_cases hk : k = head
    · subst hk
      have hlast : (dlInit null s k).last k = null := update_self _ _ _
      have hfirst : (dlInit null s k).first k = null := (update_self _ _ _).trans hlast
      rw [update_self, hfirst, hlast]
      exact dlist_nil
    · have hfirst : (dlInit null s head).first k = s.first k := update_of_ne hk _ _
      have hlast : (dlInit null s head).last k = s.last k := update_of_ne hk _ _
      rw [update_of_ne hk, hfirst, hlast]
      exact hd k hk
  disjoint k k' hkk := by
    by_cases hk : k = head
    · rw [hk, update_self]
      exact disjoint_nil_left _
    · by_cases hk' : k' = head
      · rw [hk', update_self]
        exact disjoint_nil_right _
      · rw [update_of_ne hk, update_of_ne hk']
        exact hdis k k' hk hk' hkk

theorem dlAppendList_spec {i j : η} (h : Wf null s L) (hd : (L i).Disjoint (L j)) :
    Wf null (dlAppendList null s i j) (update (update L i (L i ++ L j)) j []) := by
  rw [dlAppendList_eq]
  by_cases hij : i = j
  · -- a list disjoint from itself is empty: nothing is linked
    subst hij
    have hL : L i = [] := eq_nil_iff_forall_not_mem.mpr fun z hz => hd hz hz
    have hlast : s.last i = null := by rw [(h.dlist i).last_eq, hL, getLastD_nil]
    have hjoin : joinLast null (joinLinks null s i i) i i = s.setFirst i (s.first i) := by
      rw [joinLast, joinLinks_last, if_neg (not_not.mpr hlast), joinLinks,
        if_neg (not_not.mpr hlast)]
    rw [hjoin]
    refine dlInit_spec (fun k hk => ?_) fun k k' hk hk' hkk => ?_
    · have hfirst : (s.setFirst i (s.first i)).first k = s.first k := update_of_ne hk _ _
      rw [update_of_ne hk, hfirst]
      exact h.dlist k
    · rw [update_of_ne hk, update_of_ne hk']
      exact h.disjoint k k' hkk
  · have hlastmem : s.last i ≠ null → s.last i ∈ L i := by
      intro hne
      obtain ⟨t, ht⟩ := (h.dlist i).eq_snoc hne
      exact ht ▸ mem_append_right t mem_cons_self
    refine dlInit_spec (fun k hk => ?_) fun k k' hk hk' hkk => ?_
    · by_cases hki : k = i
      · subst hki
        rw [update_self]
        exact dlist_iff_ring.mpr (h.ring_append hij)
      -- a third list has neither end of the seam in it
      · have hnext : ∀ z ∈ L k, (joinLast null (joinLinks null s i j) i j).next z = s.next z := by
          intro z hz
          rw [← joinLinks_next hlastmem fun hzi => h.disjoint k i hki hz hzi]
          unfold joinLast
          split <;> rfl
        have hprev : ∀ z ∈ L k, (joinLast null (joinLinks null s i j) i j).prev z = s.prev z := by
          intro z hz
          rw [← joinLinks_prev (h.dlist j).first_mem fun hzj => h.disjoint k j hk hz hzj]
          unfold joinLast
          split <;> rfl
        have hfirst : (joinLast null (joinLinks null s i j) i j).first k = s.first k := by
          rw [← joinLinks_first (s := s) hki]
          unfold joinLast
          split <;> rfl
        have hlast : (joinLast null (joinLinks null s i j) i j).last k = s.last k := by
          unfold joinLast
          split
          · exact (update_of_ne hki _ _).trans (congrFun joinLinks_last k)
          · exact congrFun joinLinks_last k
        rw [update_of_ne hki, hfirst, hlast]
        exact (h.dlist k).congr hnext hprev
    · have happ : ∀ m, m ≠ i → m ≠ j → (L i ++ L j).Disjoint (L m) := by
        intro m hmi hmj
        exact disjoint_append_left.mpr ⟨h.disjoint i m hmi.symm, h.disjoint j m hmj.symm⟩
      by_cases hki : k = i
      · subst hki
        rw [update_self, update_of_ne hkk.symm]
        exact happ k' hkk.symm hk'
      · rw [update_of_ne hki]
        by_cases hki' : k' = i
        · subst hki'
          rw [update_self]
          exact fun z hz hz' => happ k hki hk hz' hz
        · rw [update_of_ne hki']
          exact h.disjoint k k' hkk

/-! ## Mirror images -/

def Memory.mirror (s : Memory α η) : Memory α η where
  next := s.prev
  prev := s.next
  first := s.last
  last := s.first

omit [DecidableEq α] [DecidableEq η] in
theorem Wf.mirror (h : Wf null s L) : Wf null s.mirror fun k => (L k).reverse where
  dlist k := by
    obtain ⟨hnodup, hnonnull, hfwd, hbwd⟩ := h.dlist k
    refine ⟨nodup_reverse.mpr hnodup, fun hmem => hnonnull (mem_reverse.mp hmem), hbwd, ?_⟩
    rw [reverse_reverse]
    exact hfwd
  disjoint k k' hkk _ hz hz' := h.disjoint k k' hkk (mem_reverse.mp hz) (mem_reverse.mp hz')

omit [DecidableEq α] [DecidableEq η] in
theorem Wf.of_mirror {M : η → List α} (h : Wf null s.mirror M) (hM : ∀ k, M k = (L k).reverse) :
    Wf null s L := by
  have hL : L = fun k => (M k).reverse := by
    funext k
    rw [hM, reverse_reverse]
  rw [hL]
  exact h.mirror

omit [DecidableEq α] [DecidableEq η] in
theorem Fresh.mirror (h : Fresh null L elm) : Fresh null (fun k => (L k).reverse) elm :=
  ⟨h.1, fun k hk => h.2 k (mem_reverse.mp hk)⟩

theorem linkNext_mirror :
    (linkNext null s head x v).mirror = linkPrev null s.mirror head x v := by
  unfold linkNext linkPrev
  split <;> rfl

omit [DecidableEq α] in
theorem reverse_update {l l' : List α} (hl : l = l'.reverse) (k : η) :
    update (fun k => (L k).reverse) head l k = (update L head l' k).reverse := by
  by_cases hk : k = head
  · subst hk
    rw [update_self, update_self, hl]
  · rw [update_of_ne hk, update_of_ne hk]

theorem dlInsertTail_spec (h : Wf null s L) (hfresh : Fresh null L elm) :
    Wf null (dlInsertTail null s head elm) (update L head (L head ++ [elm])) := by
  have hmirror : (dlInsertTail null s head elm).mirror = dlInsertHead null s.mirror head elm := by
    change Memory.setPrev (Memory.setFirst (linkNext null _ head _ elm).mirror head elm) elm null =
      _
    rw [linkNext_mirror]
    rfl
  refine Wf.of_mirror (hmirror ▸ dlInsertHead_spec h.mirror hfresh.mirror) (reverse_update ?_)
  rw [reverse_append, reverse_singleton, singleton_append]

theorem dlInsertBefore_spec {t w : List α} (h : Wf null s L) (hfresh : Fresh null L elm)
    (hL : L head = t ++ x :: w) :
    Wf null (dlInsertBefore null s head x elm) (update L head (t ++ elm :: x :: w)) := by
  have hmirror : (dlInsertBefore null s head x elm).mirror =
      dlInsertAfter null s.mirror head x elm := by
    change Memory.setNext (Memory.setPrev (linkNext null _ head _ elm).mirror elm x) x elm = _
    rw [linkNext_mirror]
    rfl
  have hL' : (L head).reverse = w.reverse ++ x :: t.reverse := by
    rw [hL, reverse_append, reverse_cons, append_assoc, singleton_append]
  refine Wf.of_mirror (hmirror ▸ dlInsertAfter_spec h.mirror hfresh.mirror hL') (reverse_update ?_)
  simp only [reverse_append, reverse_cons, append_assoc, cons_append, nil_append]

theorem dlRemoveTail_spec (h : Wf null s L) :
    Wf null (dlRemoveTail null s head).1 (update L head (L head).dropLast) ∧
      (dlRemoveTail null s head).2 = (L head).getLastD null := by
  have hmirror : (dlRemoveTail null s head).1.mirror = (dlRemoveHead null s.mirror head).1 ∧
      (dlRemoveTail null s head).2 = (dlRemoveHead null s.mirror head).2 := by
    by_cases hne : s.last head ≠ null
    · have hne' : s.mirror.first head ≠ null := hne
      rw [dlRemoveTail, dlRemoveHead, if_pos hne, if_pos hne']
      exact ⟨linkNext_mirror, rfl⟩
    · have hne' : ¬s.mirror.first head ≠ null := hne
      rw [dlRemoveTail, dlRemoveHead, if_neg hne, if_neg hne']
      exact ⟨rfl, rfl⟩
  have hspec : Wf null (dlRemoveHead null s.mirror head).1 _ ∧ _ := dlRemoveHead_spec h.mirror
  constructor
  · refine Wf.of_mirror (hmirror.1 ▸ hspec.1) (reverse_update ?_)
    rw [tail_reverse]
  · rw [hmirror.2, hspec.2, ← getLastD_reverse, reverse_reverse]

omit [DecidableEq α] in
theorem dlInit_mirror : (dlInit null s head).mirror = dlInit null s.mirror head := by
  have hfirst : (dlInit null s head).first = update s.first head null :=
    congrArg (update s.first head) (update_self _ _ _)
  have hlast : (dlInit null s.mirror head).first = update s.last head null :=
    congrArg (update s.last head) (update_self _ _ _)
  calc (dlInit null s head).mirror
      = ⟨s.prev, s.next, update s.last head null, (dlInit null s head).first⟩ := rfl
    _ = ⟨s.prev, s.next, (dlInit null s.mirror head).first, update s.first head null⟩ := by
        rw [hfirst, hlast]
    _ = dlInit null s.mirror head := rfl

theorem dlPrependList_mirror {i j : η} :
    (dlPrependList null s i j).mirror = dlAppendList null s.mirror i j := by
  have hlinks : Memory.mirror (if s.first i ≠ null then
        let s := s.setPrev (s.first i) (s.last j)
        if s.last j ≠ null then s.setNext (s.last j) (s.first i) else s
      else s.setLast i (s.last j)) = joinLinks null s.mirror i j := by
    unfold joinLinks
    by_cases hi : s.first i ≠ null
    · have hi' : s.mirror.last i ≠ null := hi
      rw [if_pos hi, if_pos hi']
      have hinner : ∀ t : Memory α η,
          (if t.last j ≠ null then t.setNext (t.last j) (t.first i) else t).mirror =
            if t.mirror.first j ≠ null then t.mirror.setPrev (t.mirror.first j) (t.mirror.last i)
            else t.mirror := by
        intro t
        by_cases hj : t.last j ≠ null
        · have hj' : t.mirror.first j ≠ null := hj
          rw [if_pos hj, if_pos hj']
          rfl
        · have hj' : ¬t.mirror.first j ≠ null := hj
          rw [if_neg hj, if_neg hj']
      exact hinner _
    · have hi' : ¬s.mirror.last i ≠ null := hi
      rw [if_neg hi, if_neg hi']
      rfl
  have hends : ∀ t : Memory α η,
      (if t.first j ≠ null then t.setFirst i (t.first j) else t).mirror =
        joinLast null t.mirror i j := by
    intro t
    unfold joinLast
    by_cases hj : t.first j ≠ null
    · have hj' : t.mirror.last j ≠ null := hj
      rw [if_pos hj, if_pos hj']
      rfl
    · have hj' : ¬t.mirror.last j ≠ null := hj
      rw [if_neg hj, if_neg hj']
  rw [dlPrependList, dlInit_mirror, dlAppendList_eq, ← hlinks]
  exact congrArg (fun t => dlInit null t j) (hends _)

theorem dlPrependList_spec {i j : η} (h : Wf null s L) (hd : (L i).Disjoint (L j)) :
    Wf null (dlPrependList null s i j) (update (update L i (L j ++ L i)) j []) := by
  have hd' : ((L i).reverse).Disjoint (L j).reverse :=
    fun z hz hz' => hd (mem_reverse.mp hz) (mem_reverse.mp hz')
  have happend := dlAppendList_spec h.mirror hd'
  rw [← dlPrependList_mirror] at happend
  refine happend.of_mirror fun k => ?_
  have happ : update (fun k => (L k).reverse) i ((L i).reverse ++ (L j).reverse) =
      fun k => (update L i (L j ++ L i) k).reverse := by
    funext k
    exact reverse_update (reverse_append ..).symm k
  rw [happ]
  exact reverse_update reverse_nil.symm k

/-! ## Runs -/

omit [DecidableEq η] in
theorem Wf.split (h : Wf null s L) (hx : x ∈ L head) : ∃ t w, L head = t ++ x :: w ∧ x ∉ t ∧
    (L head).idxOf x = t.length := by
  obtain ⟨t, w, hL⟩ := append_of_mem hx
  have hnodup := (h.dlist head).nodup
  rw [hL] at hnodup ⊢
  have hxt : x ∉ t := fun hmem => (nodup_append.mp hnodup).2.2 x hmem x mem_cons_self rfl
  refine ⟨t, w, rfl, hxt, ?_⟩
  rw [idxOf_append_of_notMem hxt, idxOf_cons_self, Nat.add_zero]

omit [DecidableEq α] in
theorem insertIdx_length {t w : List α} : (t ++ w).insertIdx t.length x = t ++ x :: w := by
  induction t with
  | nil => rfl
  | cons y t ih => exact congrArg (cons y) ih

theorem exec_spec (h : Wf null s L) (op : Op α η) (hpre : Pre null L op) :
    Wf null (exec null s op).1 (spec null L op).1 ∧ (exec null s op).2 = (spec null L op).2 := by
  cases op with
  | init head =>
    exact ⟨dlInit_spec (fun k _ => h.dlist k) fun k k' _ _ => h.disjoint k k', rfl⟩
  | insertHead head elm => exact ⟨dlInsertHead_spec h hpre, rfl⟩
  | insertTail head elm => exact ⟨dlInsertTail_spec h hpre, rfl⟩
  | insertAfter head inlist elm =>
    obtain ⟨t, w, hL, -, hidx⟩ := h.split hpre.2
    have hspec : (L head).insertIdx ((L head).idxOf inlist + 1) elm = t ++ inlist :: elm :: w := by
      have hlen : t.length + 1 = (t ++ [inlist]).length := by
        rw [length_append, length_singleton]
      have hsplit : t ++ inlist :: w = (t ++ [inlist]) ++ w := by
        rw [append_assoc, singleton_append]
      rw [hidx, hL, hsplit, hlen, insertIdx_length, append_assoc, singleton_append]
    refine ⟨?_, rfl⟩
    rw [spec, hspec]
    exact dlInsertAfter_spec h hpre.1 hL
  | insertBefore head inlist elm =>
    obtain ⟨t, w, hL, -, hidx⟩ := h.split hpre.2
    have hspec : (L head).insertIdx ((L head).idxOf inlist) elm = t ++ elm :: inlist :: w := by
      rw [hidx, hL, insertIdx_length]
    refine ⟨?_, rfl⟩
    rw [spec, hspec]
    exact dlInsertBefore_spec h hpre.1 hL
  | remove head elm =>
    obtain ⟨t, w, hL, hnot, -⟩ := h.split hpre
    have hspec : (L head).erase elm = t ++ w := by
      rw [hL, erase_append_right _ hnot, erase_cons_head]
    refine ⟨?_, rfl⟩
    rw [spec, hspec]
    exact dlRemove_spec h hL
  | removeHead head => exact dlRemoveHead_spec h
  | removeTail head => exact dlRemoveTail_spec h
  | appendList oldhead newhead => exact ⟨dlAppendList_spec h hpre, rfl⟩
  | prependList oldhead newhead => exact ⟨dlPrependList_spec h hpre, rfl⟩

/-- From well-formed lists, any calls that respect their preconditions leave well-formed lists with
the sequences that the list operations give, and the removals answer with the same nodes. -/
theorem dl_refines (h : Wf null s L) (ops : List (Op α η))
    (hpre : Run.StepsMeet (fun L op => some (spec null L op)) (Pre null) L ops) :
    Wf null (Run.runTotal (exec null) s ops).1 (Run.runTotal (spec null) L ops).1 ∧
      (Run.runTotal (exec null) s ops).2 = (Run.runTotal (spec null) L ops).2 :=
  Run.runTotal_simulates (R := Wf null) (fun _ _ op hwf hop => exec_spec hwf op hop) h hpre

omit [DecidableEq α] [DecidableEq η] in
theorem wf_empty : Wf null (⟨fun _ => null, fun _ => null, fun _ => null, fun _ => null⟩ :
    Memory α η) fun _ => [] where
  dlist _ := dlist_nil
  disjoint _ _ _ := disjoint_nil_left _

theorem dl_refines_two_heads :
    Wf 0 (Run.runTotal (exec 0) ⟨fun _ => 0, fun _ => 0, fun _ => 0, fun _ => 0⟩
        [.insertTail true 1, .insertHead false 2, .appendList true false, .removeTail true]).1
      (Run.runTotal (spec (0 : Nat)) (fun _ : Bool => [])
        [.insertTail true 1, .insertHead false 2, .appendList true false, .removeTail true]).1 ∧
    (Run.runTotal (exec 0) (⟨fun _ => 0, fun _ => 0, fun _ => 0, fun _ => 0⟩ : Memory Nat Bool)
        [.insertTail true 1, .insertHead false 2, .appendList true false, .removeTail true]).2 =
      (Run.runTotal (spec (0 : Nat)) (fun _ : Bool => [])
        [.insertTail true 1, .insertHead false 2, .appendList true false, .removeTail true]).2 :=
  dl_refines wf_empty _ (by simp [Run.StepsMeet, Pre, Fresh, spec, Function.update])

end PortableLib.DoublyLinked
