import PortableLib.Pack.Tokens

/-! The formats that `Pack` and `Unpack` reject. -/

namespace PortableLib.Pack
open List

def formatErrnos : List Errno := [.einval, .eilseq, .enoent, .e2big]

/-- The format error that a returned `int` stands for. -/
def formatCode (c : Int) : Option Int :=
  if c ∈ formatErrnos.map fun e => -(e.code : Int) then some c else none

def Stop.formatError (s : Stop) : Option Int := s.ret.bind formatCode

def formatError {α : Type*} : Except Stop α → Option Int
  | .ok _ => none
  | .error s => s.formatError

/-- The format error at the end of a format in `Pack`, which does not look for a pending `*`. -/
def Ending.packError : Ending → Option Int
  | .done _ => none
  | .stop s => s.formatError

def Ending.unpackError : Ending → Option Int
  | .done true => some (-Errno.einval.code)
  | .done false => none
  | .stop s => s.formatError

theorem packError_eq_unpackError_iff (en : Ending) :
    en.packError = en.unpackError ↔ en ≠ .done true := by
  match en with
  | .done true => exact iff_of_false (fun h => (by cases h)) fun h => h rfl
  | .done false => exact iff_of_true rfl fun h => (by cases h)
  | .stop s => exact iff_of_true rfl fun h => (by cases h)

section Calls
variable {fmt : List UInt8}

theorem formatError_pack {args : Nat → Arg} {cap : Nat}
    (hnull : NoNullString none args (scanFormat fmt).1)
    (hcap : (formatChunks fmt args).flatten.length ≤ cap) :
    formatError (pack fmt args cap) =
      match oversize ((formatChunks fmt args).map length) with
      | none => (scanFormat fmt).2.packError
      | some c => formatCode c := by
  rw [pack_of_chunks hnull hcap]
  cases oversize ((formatChunks fmt args).map length) with
  | some c => rfl
  | none => cases (scanFormat fmt).2 <;> rfl

theorem formatError_unpack {dests : Nat → Dest} {buf : List UInt8} (hd : ∀ i, (dests i).Usable)
    {ms : List Nat} (hms : formatExtents fmt buf = some ms) :
    formatError (unpack fmt dests buf) =
      match oversize ms with
      | none => (scanFormat fmt).2.unpackError
      | some c => formatCode c := by
  rw [unpack_of_extents hd hms]
  cases oversize ms with
  | some c => rfl
  | none =>
    match (scanFormat fmt).2 with
    | .done true => rfl
    | .done false => rfl
    | .stop s => rfl

end Calls

/-- Without a size that is negative as an `int`, the format does not end with a pending `*`. A call
that meets such a size returns it, and it has to be what the other call returns. -/
def EndsAlike (en : Ending) : Option Int → Option Int → Prop
  | none, none => en ≠ .done true
  | some c, none => formatCode c = en.unpackError
  | none, some d => en.packError = formatCode d
  | some c, some d => formatCode c = formatCode d

/-- The two interpreters reject the same formats for the same reason, except for the formats that
end with a pending `*`. -/
theorem same_format_error_iff (fmt : List UInt8) {args : Nat → Arg} {cap : Nat}
    (hnull : NoNullString none args (scanFormat fmt).1)
    (hcap : (formatChunks fmt args).flatten.length ≤ cap) {dests : Nat → Dest} {buf : List UInt8}
    (hd : ∀ i, (dests i).Usable) {ms : List Nat} (hms : formatExtents fmt buf = some ms) :
    formatError (pack fmt args cap) = formatError (unpack fmt dests buf) ↔
      EndsAlike (scanFormat fmt).2 (oversize ((formatChunks fmt args).map length))
        (oversize ms) := by
  rw [formatError_pack hnull hcap, formatError_unpack hd hms]
  cases oversize ((formatChunks fmt args).map length) with
  | none =>
    cases oversize ms with
    | none => exact packError_eq_unpackError_iff _
    | some d => rfl
  | some c => cases oversize ms <;> rfl

def fives : Nat → Arg := fun _ => ⟨5, fun _ => 0, []⟩

theorem same_format_error_unknown :
    formatError (pack [98, 113] fives 1) = formatError (unpack [98, 113] validDests [5]) := by
  have hnull : NoNullString none fives (scanFormat [98, 113]).1 :=
    ⟨fun h => (by cases h.1), trivial⟩
  have hcap : (formatChunks [98, 113] fives).flatten.length ≤ 1 := by decide
  have hms : formatExtents [98, 113] [5] = some [1] := rfl
  have hmeet : EndsAlike (scanFormat [98, 113]).2
      (oversize ((formatChunks [98, 113] fives).map length)) (oversize [1]) :=
    fun h => (by cases h)
  exact (same_format_error_iff [98, 113] hnull hcap validDests_usable hms).mpr hmeet

/-- `Pack` accepts the format `*` that `Unpack` rejects. -/
theorem star_alone_differs :
    NoNullString none fives (scanFormat [42]).1 ∧ (formatChunks [42] fives).flatten.length ≤ 4 ∧
      (∀ i, (validDests i).Usable) ∧ formatExtents [42] [5, 0, 0, 0] = some [4] ∧
      formatError (pack [42] fives 4) = none ∧
      formatError (unpack [42] validDests [5, 0, 0, 0]) = some (-Errno.einval.code) :=
  ⟨⟨id, trivial⟩, by decide, validDests_usable, rfl, by decide, by decide⟩

end PortableLib.Pack
