import Packrat.Text.Offset

set_option autoImplicit false

namespace Packrat

/-- A text to be parsed, together with its length in bytes and what follows each offset. -/
structure Source where
  chars : List Char
  size : Nat := Text.size chars
  suffixes : Array (List Char) := (Text.suffixes chars).toArray
  size_eq : size = Text.size chars := by rfl
  suffixes_eq : suffixes = (Text.suffixes chars).toArray := by rfl

namespace Source

def ofString (text : String) : Source :=
  { chars := text.toList }

def text (source : Source) : String :=
  String.ofList source.chars

def empty : Source :=
  { chars := [] }

def rest (source : Source) (offset : Nat) : List Char :=
  source.suffixes[offset]?.getD []

def slice (source : Source) (start stop : Nat) : String :=
  if stop < start then ""
  else String.ofList ((Text.take? (source.rest start) (stop - start)).getD [])

theorem rest_eq (source : Source) (offset : Nat) :
    source.rest offset = (Text.suffix? source.chars offset).getD [] := by
  rw [rest, source.suffixes_eq, ← Text.suffixes_getD]
  simp

theorem slice_eq (source : Source) (start stop : Nat) :
    source.slice start stop = String.ofList ((Text.slice? source.chars start stop).getD []) := by
  by_cases backwards : stop < start
  next => simp [slice, Text.slice?, backwards]
  next =>
    cases after : Text.suffix? source.chars start with
    | none =>
      rw [slice, Text.slice?, rest_eq, after]
      cases stop - start <;> simp [backwards, Text.take?]
    | some rest => simp [slice, Text.slice?, backwards, rest_eq, after]

@[simp] theorem chars_ofString (text : String) : (ofString text).chars = text.toList := rfl

@[simp] theorem rest_zero (source : Source) : source.rest 0 = source.chars := by
  rw [rest_eq]
  cases source.chars <;> rfl

end Source

end Packrat
