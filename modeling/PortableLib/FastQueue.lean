import Mathlib.Algebra.Ring.Nat
import PortableLib.Lib.Block
import PortableLib.Lib.Circular
import PortableLib.Lib.Run

/-! The circular queue of `fast/queue.h`. Indices and capacity are `uint32_t`; elements are read
and written through a checked block of as many cells as the queue is declared with. -/

namespace PortableLib.FastQueue
open List Circular

variable {α : Type}

/-- A `__fast_queue` and the elements after it. -/
structure Queue (α : Type) where
  rd : UInt32
  wr : UInt32
  sz : UInt32
  elem : Block α

def fqInit (sz : UInt32) (cells : Nat → α) : Queue α := ⟨0, 0, sz, ⟨sz.toNat, cells⟩⟩

def qFullP (q : Queue α) : Bool :=
  let wr := q.wr + 1
  let wr := if wr = q.sz then 0 else wr
  q.rd == wr

def qEmptyP (q : Queue α) : Bool := q.rd == q.wr

def qSize (q : Queue α) : UInt32 :=
  if q.rd < q.wr then q.wr - q.rd
  else if q.rd > q.wr then q.sz - q.rd + q.wr
  else 0

def nextWr (q : Queue α) : Option (UInt32 × Queue α) :=
  let wr := q.wr
  let nwr := wr + 1
  let nwr := if nwr = q.sz then 0 else nwr
  if nwr ≠ q.rd then some (wr, { q with wr := nwr }) else none

def nextRd (q : Queue α) : Option (UInt32 × Queue α) :=
  let rd := q.rd
  if rd = q.wr then none
  else
    let nrd := rd + 1
    let nrd := if nrd = q.sz then 0 else nrd
    some (rd, { q with rd := nrd })

def fqEnq (q : Queue α) (x : α) : Option (Queue α × Bool) :=
  match nextWr q with
  | some (w, q) => (q.elem.write w.toNat x).map fun elem => ({ q with elem := elem }, true)
  | none => some (q, false)

def fqDeq (q : Queue α) : Option (Queue α × Option α) :=
  match nextRd q with
  | some (r, q) => (q.elem.read r.toNat).map fun x => (q, some x)
  | none => some (q, none)

def fqReset (q : Queue α) : Queue α := { q with rd := 0, wr := 0 }

inductive Op (α : Type)
  | enq (x : α)
  | deq
  | reset

inductive Result (α : Type)
  | enq (done : Bool)
  | deq (x : Option α)
  | reset
  deriving DecidableEq, Repr

def step (q : Queue α) : Op α → Option (Queue α × Result α)
  | .enq x => (fqEnq q x).map fun r => (r.1, .enq r.2)
  | .deq => (fqDeq q).map fun r => (r.1, .deq r.2)
  | .reset => some (fqReset q, .reset)

def spec (cap : Nat) (l : List α) : Op α → List α × Result α
  | .enq x => if l.length < cap then (l ++ [x], .enq true) else (l, .enq false)
  | .deq => (l.tail, .deq l.head?)
  | .reset => ([], .reset)

/-- What the predicates say of a queue with `sz` slots that holds the list. -/
structure Shows (sz : UInt32) (q : Queue α) (l : List α) : Prop where
  sz_eq : q.sz = sz
  rd_lt : q.rd < sz
  wr_lt : q.wr < sz
  size_eq : (qSize q).toNat = l.length
  full_iff : qFullP q = true ↔ l.length = sz.toNat - 1
  empty_iff : qEmptyP q = true ↔ l = []

structure Window (sz : UInt32) (q : Queue α) (xs : List α) (lo : Nat) : Prop where
  sz_eq : q.sz = sz
  len : q.elem.len = sz.toNat
  rd : q.rd.toNat = lo % sz.toNat
  wr : q.wr.toNat = xs.length % sz.toNat
  le : lo ≤ xs.length
  room : xs.length < lo + sz.toNat
  holds : Holds sz.toNat q.elem.cells xs lo

def Represents (sz : UInt32) (q : Queue α) (l : List α) : Prop :=
  ∃ xs lo, Window sz q xs lo ∧ l = xs.drop lo

theorem toNat_bump {sz i : UInt32} (hi : i < sz) :
    (if i + 1 = sz then 0 else i + 1 : UInt32).toNat = bump sz.toNat i.toNat := by
  have hlt := UInt32.lt_iff_toNat_lt.mp hi
  have hsz := sz.toNat_lt
  have hsucc : (i + 1).toNat = i.toNat + 1 := by
    rw [UInt32.toNat_add, show (1 : UInt32).toNat = 1 from rfl]
    omega
  have hiff : i + 1 = sz ↔ i.toNat + 1 = sz.toNat := by rw [← UInt32.toNat_inj, hsucc]
  unfold bump
  by_cases h : i + 1 = sz
  · rw [if_pos h, if_pos (hiff.mp h)]
    rfl
  · rw [if_neg h, if_neg fun heq => h (hiff.mpr heq), hsucc]

section Window
variable {sz : UInt32} {q : Queue α} {xs : List α} {lo : Nat} {x : α}

theorem Window.pos (h : Window sz q xs lo) : 0 < sz.toNat := by
  have hle := h.le
  have hroom := h.room
  omega

theorem Window.rd_lt (h : Window sz q xs lo) : q.rd < sz := by
  rw [UInt32.lt_iff_toNat_lt, h.rd]
  exact Nat.mod_lt _ h.pos

theorem Window.wr_lt (h : Window sz q xs lo) : q.wr < sz := by
  rw [UInt32.lt_iff_toNat_lt, h.wr]
  exact Nat.mod_lt _ h.pos

theorem Window.toNat_nwr (h : Window sz q xs lo) :
    (if q.wr + 1 = q.sz then 0 else q.wr + 1 : UInt32).toNat =
      bump sz.toNat (xs.length % sz.toNat) := by
  rw [h.sz_eq, toNat_bump h.wr_lt, h.wr]

theorem Window.nwr_eq_rd_iff (h : Window sz q xs lo) :
    (if q.wr + 1 = q.sz then 0 else q.wr + 1 : UInt32) = q.rd ↔ xs.length + 1 = lo + sz.toNat := by
  rw [← UInt32.toNat_inj, h.toNat_nwr, h.rd]
  exact bump_eq_mod_iff h.le h.room

theorem Window.rd_eq_wr_iff (h : Window sz q xs lo) : q.rd = q.wr ↔ lo = xs.length := by
  rw [← UInt32.toNat_inj, h.rd, h.wr]
  exact mod_eq_mod_iff h.le h.room

theorem Window.toNat_qSize (h : Window sz q xs lo) : (qSize q).toNat = xs.length - lo := by
  have hrd := UInt32.lt_iff_toNat_lt.mp h.rd_lt
  have hwr := UInt32.lt_iff_toNat_lt.mp h.wr_lt
  have hsz := sz.toNat_lt
  rw [← count_eq h.le h.room, ← h.rd, ← h.wr, qSize, h.sz_eq]
  simp only [gt_iff_lt, UInt32.lt_iff_toNat_lt]
  split_ifs with hlt hgt
  · rw [UInt32.toNat_sub]
    omega
  · rw [UInt32.toNat_add, UInt32.toNat_sub]
    omega
  · rfl

theorem Represents.shows {l : List α} (h : Represents sz q l) : Shows sz q l := by
  obtain ⟨xs, lo, h, rfl⟩ := h
  have hle := h.le
  have hpos := h.pos
  refine ⟨h.sz_eq, h.rd_lt, h.wr_lt, ?_, ?_, ?_⟩
  · rw [h.toNat_qSize, length_drop]
  · rw [qFullP, beq_iff_eq, eq_comm, h.nwr_eq_rd_iff, length_drop]
    omega
  · rw [qEmptyP, beq_iff_eq, h.rd_eq_wr_iff, drop_eq_nil_iff]
    omega

theorem window_nil {cells : Nat → α} (hsz : 1 ≤ sz.toNat) :
    Window sz ⟨0, 0, sz, ⟨sz.toNat, cells⟩⟩ [] 0 where
  sz_eq := rfl
  len := rfl
  rd := (Nat.zero_mod _).symm
  wr := (Nat.zero_mod _).symm
  le := Nat.le_refl 0
  room := by
    rw [length_nil, Nat.zero_add]
    exact hsz
  holds := fun i _ hi => absurd hi (Nat.not_lt_zero i)

theorem Window.fqEnq_spec (h : Window sz q xs lo) (x : α) :
    ∃ q' done, fqEnq q x = some (q', done) ∧ (done = true ↔ xs.length - lo < sz.toNat - 1) ∧
      Window sz q' (if done then xs ++ [x] else xs) lo := by
  have hle := h.le
  have hroom := h.room
  by_cases hfull : xs.length + 1 = lo + sz.toNat
  · refine ⟨q, false, ?_, iff_of_false Bool.false_ne_true (by omega), h⟩
    have heq := h.nwr_eq_rd_iff.mpr hfull
    simp only [fqEnq, nextWr, heq, ne_eq, not_true_eq_false, if_false]
  · have hne : ¬ (if q.wr + 1 = q.sz then 0 else q.wr + 1 : UInt32) = q.rd :=
      fun heq => hfull (h.nwr_eq_rd_iff.mp heq)
    have hwr : q.wr.toNat < q.elem.len := by
      rw [h.len]
      exact UInt32.lt_iff_toNat_lt.mp h.wr_lt
    have hlen : (xs ++ [x]).length = xs.length + 1 := length_append
    refine ⟨⟨q.rd, if q.wr + 1 = q.sz then 0 else q.wr + 1, q.sz,
      ⟨q.elem.len, Function.update q.elem.cells q.wr.toNat x⟩⟩, true, ?_,
      iff_of_true rfl (by omega), ?_⟩
    · simp only [fqEnq, nextWr, ne_eq, hne, not_false_eq_true, if_true, Block.write_of_lt hwr,
        Option.map_some]
    · rw [if_pos rfl]
      refine ⟨h.sz_eq, h.len, h.rd, ?_, ?_, ?_, ?_⟩
      · rw [h.toNat_nwr, bump_mod h.pos, hlen]
      · rw [hlen]
        exact Nat.le_succ_of_le hle
      · rw [hlen]
        omega
      · have hwrite := h.holds.write (x := x) hroom
        rw [← h.wr] at hwrite
        apply hwrite.snoc
        rw [← h.wr]
        exact Function.update_self _ _ _

theorem Window.fqDeq_spec (h : Window sz q xs lo) :
    (xs.length = lo ∧ fqDeq q = some (q, none)) ∨
      ∃ q' x, fqDeq q = some (q', some x) ∧ xs.drop lo = x :: xs.drop (lo + 1) ∧
        Window sz q' xs (lo + 1) := by
  have hle := h.le
  have hroom := h.room
  by_cases hempty : lo = xs.length
  · refine Or.inl ⟨hempty.symm, ?_⟩
    simp only [fqDeq, nextRd, h.rd_eq_wr_iff.mpr hempty, if_true]
  · have hlt : lo < xs.length := Nat.lt_of_le_of_ne hle hempty
    have hne : ¬ q.rd = q.wr := fun heq => hempty (h.rd_eq_wr_iff.mp heq)
    have hrd : q.rd.toNat < q.elem.len := by
      rw [h.len]
      exact UInt32.lt_iff_toNat_lt.mp h.rd_lt
    have hget := h.holds lo (Nat.le_refl lo) hlt
    rw [← h.rd] at hget
    refine Or.inr ⟨{ q with rd := if q.rd + 1 = q.sz then 0 else q.rd + 1 },
      q.elem.cells q.rd.toNat, ?_, ?_, h.sz_eq, h.len, ?_, h.wr, hlt, ?_, ?_⟩
    · simp only [fqDeq, nextRd, hne, if_false, Block.read_of_lt hrd, Option.map_some]
    · rw [drop_eq_getElem_cons hlt]
      rw [getElem?_eq_getElem hlt] at hget
      rw [Option.some.inj hget]
    · have hbump := toNat_bump h.rd_lt
      rw [h.rd, bump_mod h.pos] at hbump
      rw [h.sz_eq, hbump]
    · omega
    · exact h.holds.mono (Nat.le_succ lo)

end Window

theorem step_spec {sz : UInt32} {q : Queue α} {l : List α} (h : Represents sz q l) (op : Op α) :
    ∃ p, step q op = some p ∧ Represents sz p.1 (spec (sz.toNat - 1) l op).1 ∧
      p.2 = (spec (sz.toNat - 1) l op).2 := by
  obtain ⟨xs, lo, h, rfl⟩ := h
  have hlength : (xs.drop lo).length = xs.length - lo := length_drop
  cases op with
  | enq x =>
    obtain ⟨q', done, hq', hdone, hw⟩ := h.fqEnq_spec x
    refine ⟨(q', .enq done), ?_, ?_⟩
    · rw [step, hq', Option.map_some]
    · rw [spec, hlength]
      cases done with
      | true =>
        rw [if_pos (hdone.mp rfl)]
        rw [if_pos rfl] at hw
        exact ⟨⟨_, _, hw, (drop_append_of_le_length h.le).symm⟩, rfl⟩
      | false =>
        rw [if_neg fun hlt => Bool.false_ne_true (hdone.mpr hlt)]
        exact ⟨⟨_, _, hw, rfl⟩, rfl⟩
  | deq =>
    rcases h.fqDeq_spec with ⟨hempty, hq⟩ | ⟨q', x, hq', hdrop, hw⟩
    · have hnil : xs.drop lo = [] := drop_eq_nil_iff.mpr (Nat.le_of_eq hempty)
      refine ⟨(q, .deq none), ?_, ?_⟩
      · rw [step, hq, Option.map_some]
      · rw [spec, hnil]
        exact ⟨⟨xs, lo, h, hnil.symm⟩, rfl⟩
    · refine ⟨(q', .deq (some x)), ?_, ?_⟩
      · rw [step, hq', Option.map_some]
      · rw [spec, hdrop]
        exact ⟨⟨xs, lo + 1, hw, rfl⟩, rfl⟩
  | reset =>
    refine ⟨(fqReset q, .reset), rfl, ⟨[], 0, ?_, rfl⟩, rfl⟩
    have hnil := @window_nil _ _ q.elem.cells h.pos
    exact { hnil with sz_eq := h.sz_eq, len := h.len }

/-- A queue declared with `sz` slots is a queue of at most `sz - 1` items under every sequence of
operations, and the predicates tell how many it holds. -/
theorem fq_refines {sz : UInt32} (hsz : 1 ≤ sz.toNat) (cells : Nat → α) (ops : List (Op α)) :
    ∃ q, Run.run step (fqInit sz cells) ops =
        some (q, (Run.runTotal (spec (sz.toNat - 1)) [] ops).2) ∧
      Shows sz q (Run.runTotal (spec (sz.toNat - 1)) [] ops).1 := by
  have hinit : Represents sz (fqInit sz cells) [] := ⟨[], 0, window_nil hsz, rfl⟩
  obtain ⟨⟨q, rs⟩, hrun, hq, rfl⟩ := Run.run_simulates (R := Represents sz) (C := fun _ _ => True)
    (fun _ _ op h _ => step_spec h op) hinit (Run.stepsMeet_of_forall fun _ _ _ => trivial)
  exact ⟨q, hrun, hq.shows⟩

theorem fq_refines_three :
    ∃ q, Run.run step (fqInit 3 fun _ => 0) [.enq 7, .enq 8, .enq 9, .deq, .enq 9] =
        some (q, [.enq true, .enq true, .enq false, .deq (some 7), .enq true]) ∧
      Shows 3 q [8, 9] :=
  @fq_refines _ 3 (by decide) (fun _ => 0) [.enq 7, .enq 8, .enq 9, .deq, .enq 9]

end PortableLib.FastQueue
