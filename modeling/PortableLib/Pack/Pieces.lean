import PortableLib.Pack.Scan

/-! The formats without `*`: white space and type letters, each with an optional count. -/

namespace PortableLib.Pack
open List

inductive Piece
  | space (c : UInt8) (h : isspace c = true)
  | item (count : Option (Fin 9)) (t : Letter)

def Piece.chars : Piece → List UInt8
  | .space c _ => [c]
  | .item none t => [t.char]
  | .item (some d) t => [UInt8.ofNat (49 + d), t.char]

def formatOf (order : Option Endian) (ps : List Piece) : List UInt8 :=
  (match order with
    | none => []
    | some .le => [60]
    | some .be => [62]) ++ ps.flatMap Piece.chars

abbrev Item := Letter × Nat

def Item.token (i : Item) : Token := .item i.1 i.2

/-- The items of a format with their counts; `0` is no count. -/
def items : List Piece → List Item
  | [] => []
  | .space _ _ :: ps => items ps
  | .item none t :: ps => (t, 0) :: items ps
  | .item (some d) t :: ps => (t, d + 1) :: items ps

theorem items_num_le {ps : List Piece} : ∀ i ∈ items ps, i.2 ≤ 9 := by
  induction ps with
  | nil => exact fun i hi => (by cases hi)
  | cons p ps ih =>
    cases p with
    | space c h => exact ih
    | item count t =>
      cases count with
      | none => exact forall_mem_cons.mpr ⟨Nat.zero_le 9, ih⟩
      | some d => exact forall_mem_cons.mpr ⟨d.isLt, ih⟩

theorem select_char (t : Letter) (num : Nat) : select false t.char num = .ok t := by
  have hpend : ¬ (0 < num ∧ false = true) := fun h => by cases h.2
  rw [select, if_neg hpend]
  cases t <;> rfl

theorem char_class (t : Letter) :
    isspace t.char = false ∧ t.char ≠ 42 ∧ isdigit t.char = false ∧ t.char ≠ 60 ∧ t.char ≠ 62 ∧
      t.char ≠ 0 := by
  cases t <;> decide

theorem digit_class (d : Fin 9) :
    isspace (UInt8.ofNat (49 + d)) = false ∧ UInt8.ofNat (49 + d) ≠ 42 ∧
      isdigit (UInt8.ofNat (49 + d)) = true ∧ digit (UInt8.ofNat (49 + d)) = d + 1 ∧
      UInt8.ofNat (49 + d) ≠ 60 ∧ UInt8.ofNat (49 + d) ≠ 62 ∧ UInt8.ofNat (49 + d) ≠ 0 := by
  revert d
  decide

theorem scan_pieces (ps : List Piece) :
    scan false (ps.flatMap Piece.chars) = ((items ps).map Item.token, .done false) := by
  induction ps with
  | nil => rfl
  | cons p ps ih =>
    rw [flatMap_cons]
    cases p with
    | space c h =>
      simp only [Piece.chars, singleton_append, scan, h, if_true, ih]
      rfl
    | item count t =>
      obtain ⟨hspace, hstar, hdigit, -⟩ := char_class t
      cases count with
      | none =>
        simp only [Piece.chars, singleton_append, scan, hspace, hstar, hdigit, Bool.false_eq_true,
          if_false, select_char, ih]
        rfl
      | some d =>
        obtain ⟨hspace', hstar', hdigit', hval, -⟩ := digit_class d
        simp only [Piece.chars, cons_append, nil_append, scan, hspace', hstar', hdigit',
          Bool.false_eq_true, if_false, if_true, lenPrefix, hdigit, hval, select_char, ih]
        rfl

theorem space_class {c : UInt8} (h : isspace c = true) : c ≠ 60 ∧ c ≠ 62 ∧ c ≠ 0 := by
  refine ⟨?_, ?_, ?_⟩
  all_goals
    rintro rfl
    exact absurd h (by decide)

theorem chars_class (p : Piece) : ∀ c ∈ p.chars, c ≠ 60 ∧ c ≠ 62 ∧ c ≠ 0 := by
  cases p with
  | space c h => exact forall_mem_singleton.mpr (space_class h)
  | item count t =>
    obtain ⟨-, -, -, h⟩ := char_class t
    cases count with
    | none => exact forall_mem_singleton.mpr h
    | some d =>
      obtain ⟨-, -, -, -, h'⟩ := digit_class d
      exact forall_mem_cons.mpr ⟨h', forall_mem_singleton.mpr h⟩

def orderText : Option Endian → List UInt8
  | none => []
  | some .le => [60]
  | some .be => [62]

theorem byteOrder_text (order : Option Endian) {text : List UInt8}
    (htext : ∀ c ∈ text, c ≠ 60 ∧ c ≠ 62 ∧ c ≠ 0) :
    byteOrder (cstr (orderText order ++ text)) = (order.getD .le, text) := by
  have hcstr : cstr (orderText order ++ text) = orderText order ++ text := by
    refine cstr_eq_self fun c hc => ?_
    rcases mem_append.mp hc with hc | hc
    · match order with
      | none => cases hc
      | some .le => rw [mem_singleton.mp hc]; decide
      | some .be => rw [mem_singleton.mp hc]; decide
    · exact (htext c hc).2.2
  rw [hcstr]
  match order with
  | some .le => rfl
  | some .be => rfl
  | none =>
    change byteOrder text = (.le, text)
    cases text with
    | nil => rfl
    | cons c rest =>
      obtain ⟨h60, h62, -⟩ := htext c mem_cons_self
      rw [byteOrder, if_neg h60, if_neg h62]

theorem byteOrder_formatOf (order : Option Endian) (ps : List Piece) :
    byteOrder (cstr (formatOf order ps)) = (order.getD .le, ps.flatMap Piece.chars) := by
  have hchars : ∀ c ∈ ps.flatMap Piece.chars, c ≠ 60 ∧ c ≠ 62 ∧ c ≠ 0 := by
    intro c hc
    obtain ⟨p, -, hp⟩ := mem_flatMap.mp hc
    exact chars_class p c hp
  have hformat : formatOf order ps = orderText order ++ ps.flatMap Piece.chars := by
    match order with
    | none => rfl
    | some .le => rfl
    | some .be => rfl
  rw [hformat, byteOrder_text order hchars]

end PortableLib.Pack
