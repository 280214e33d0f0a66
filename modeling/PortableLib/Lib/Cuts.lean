import PortableLib.Lib.Block

/-! Pieces that are cut out of a buffer in place: each is followed by a terminator, and an array
holds where they begin. -/

namespace PortableLib.Cuts
open List

variable {α : Type*} {z a : α} {b b' : Block α} {mark mark' s : Nat} {f g : List α}
  {v v' : Block (Option Nat)} {fs gs : List (List α)}

def Held (b : Block α) (s : Nat) (f : List α) : Prop :=
  (range f.length).map (fun i => b.cells (s + i)) = f

theorem held_nil : Held b s [] := rfl

theorem held_concat : Held b s (f ++ [a]) ↔ Held b s f ∧ b.cells (s + f.length) = a := by
  rw [Held, length_append, length_singleton, range_succ, map_append, map_singleton, Held]
  constructor
  · intro h
    obtain ⟨hinit, hlast⟩ := append_inj' h rfl
    exact ⟨hinit, singleton_injective hlast⟩
  · rintro ⟨hinit, hlast⟩
    rw [hinit, hlast]

theorem held_cons : Held b s (a :: f) ↔ b.cells s = a ∧ Held b (s + 1) f := by
  have hshift : ((fun i => b.cells (s + i)) ∘ Nat.succ) = fun i => b.cells (s + 1 + i) := by
    funext i
    exact congrArg b.cells (by omega)
  rw [Held, length_cons, range_succ_eq_map, map_cons, map_map, cons.injEq, hshift, Held]
  rfl

theorem Held.cell (h : Held b s f) {i : Nat} (hi : i < f.length) : b.cells (s + i) = f[i] := by
  have hget := getElem_of_eq h.symm hi
  rw [hget, getElem_map, getElem_range]

theorem Held.frame (h : Held b s f) (hcells : ∀ i < s + f.length, b'.cells i = b.cells i) :
    Held b' s f :=
  (map_range_congr fun i hi => hcells (s + i) (Nat.add_lt_add_left hi s)).trans h

theorem Held.write (h : Held b s f) (hw : b.write (s + f.length) a = some b') :
    Held b' s (f ++ [a]) := by
  obtain ⟨-, rfl⟩ := Block.eq_of_write hw
  exact held_concat.mpr ⟨h.frame fun i hi => Function.update_of_ne hi.ne _ _,
    Function.update_self _ _ _⟩

/-- The elements `f` stand at `s`, with the terminator `z` behind them, all of it below `mark`. -/
structure Piece (z : α) (b : Block α) (mark s : Nat) (f : List α) : Prop where
  below : s + f.length < mark
  elems : Held b s f
  stop : b.cells (s + f.length) = z

theorem Piece.frame (h : Piece z b mark s f) (hcells : ∀ i < mark, b'.cells i = b.cells i)
    (hle : mark ≤ mark') : Piece z b' mark' s f :=
  ⟨h.below.trans_le hle, h.elems.frame fun i hi => hcells i (hi.trans h.below),
    (hcells _ h.below).trans h.stop⟩

theorem Piece.le (h : Piece z b mark s f) (h' : Piece z b mark' s g) (hg : z ∉ g) :
    g.length ≤ f.length := by
  by_contra hlt
  have hcell := h'.elems.cell (Nat.not_le.mp hlt)
  rw [h.stop] at hcell
  exact hg (hcell ▸ getElem_mem _)

theorem Piece.unique (h : Piece z b mark s f) (h' : Piece z b mark' s g) (hf : z ∉ f)
    (hg : z ∉ g) : f = g := by
  have hlen : f.length = g.length := (h'.le h hf).antisymm (h.le h' hg)
  have helems := h.elems
  rw [Held, hlen] at helems
  exact helems.symm.trans h'.elems

structure Pieces (z : α) (b : Block α) (mark : Nat) (v : Block (Option Nat)) (fs : List (List α)) :
    Prop where
  room : fs.length ≤ v.len
  entry : ∀ j (hj : j < fs.length), ∃ s, v.cells j = some s ∧ Piece z b mark s fs[j]

theorem pieces_nil : Pieces z b mark v [] :=
  ⟨Nat.zero_le _, fun j hj => absurd hj (Nat.not_lt_zero j)⟩

theorem Pieces.frame (h : Pieces z b mark v fs) (hcells : ∀ i < mark, b'.cells i = b.cells i)
    (hle : mark ≤ mark') : Pieces z b' mark' v fs := by
  refine ⟨h.room, fun j hj => ?_⟩
  obtain ⟨s, hs, hpiece⟩ := h.entry j hj
  exact ⟨s, hs, hpiece.frame hcells hle⟩

theorem Pieces.write (h : Pieces z b mark v fs) {i : Nat} {a : α} (hw : b.write i a = some b')
    (hi : mark ≤ i) : Pieces z b' mark v fs := by
  obtain ⟨-, rfl⟩ := Block.eq_of_write hw
  exact h.frame (fun j hj => Function.update_of_ne (by omega) _ _) le_rfl

theorem Pieces.push (h : Pieces z b mark v fs) (hs : Piece z b mark s f)
    (hroom : fs.length < v.len) :
    ∃ v', v.write fs.length (some s) = some v' ∧ v'.len = v.len ∧
      Pieces z b mark v' (fs ++ [f]) := by
  obtain ⟨v', hw, hlen, hnew, hold⟩ := Block.write_spec hroom (some s)
  refine ⟨v', hw, hlen, ?_, fun j hj => ?_⟩
  · rw [length_append, hlen]
    exact hroom
  · rw [length_append, length_singleton] at hj
    rcases Nat.lt_succ_iff_lt_or_eq.mp hj with hlt | rfl
    · obtain ⟨s', hs', hpiece⟩ := h.entry j hlt
      exact ⟨s', (hold j hlt.ne).trans hs', by rwa [getElem_append_left hlt]⟩
    · refine ⟨s, hnew, ?_⟩
      rw [getElem_append_right le_rfl]
      simpa only [Nat.sub_self, getElem_cons_zero] using hs

theorem Pieces.unique (h : Pieces z b mark v fs) (h' : Pieces z b mark' v gs)
    (hlen : fs.length = gs.length) (hf : ∀ f ∈ fs, z ∉ f) (hg : ∀ g ∈ gs, z ∉ g) : fs = gs := by
  refine List.ext_getElem hlen fun j hj hj' => ?_
  obtain ⟨s, hs, hpiece⟩ := h.entry j hj
  obtain ⟨s', hs', hpiece'⟩ := h'.entry j hj'
  obtain rfl : s = s' := Option.some.inj (hs.symm.trans hs')
  exact hpiece.unique hpiece' (hf _ (getElem_mem hj)) (hg _ (getElem_mem hj'))

end PortableLib.Cuts
