import Packrat.Text.LineTable

set_option autoImplicit false

namespace Packrat

/-- The two characters of the line that is drawn under a source line. -/
structure Underline where
  spacer : Char := ' '
  marker : Char := '^'
deriving DecidableEq, Repr

/-- An offset as a reader sees it. The column counts characters from zero, the line number
counts from one, and no character is found at the end of the text. -/
structure Position where
  offset : Nat
  lineNumber : Nat
  line : String
  column : Nat
  found : Option Char
deriving DecidableEq, Repr

namespace Position

def lastLine (text : List Char) : List Char :=
  (text.reverse.takeWhile (· ≠ '\n')).reverse

def firstLine (text : List Char) : List Char :=
  text.takeWhile (· ≠ '\n')

def scan (source : Source) (offset : Nat) : Position :=
  let halves := Text.split source.chars offset
  let left := lastLine halves.1
  { offset := Text.size halves.1
    lineNumber := 1 + halves.1.count '\n'
    line := String.ofList (left ++ firstLine halves.2)
    column := left.length
    found := halves.2.head? }

def lookup (table : LineTable) (source : Source) (offset : Nat) : Position :=
  let offset := Text.floor source.chars offset
  let lineNumber := table.lineOf offset
  let range := (table.range? source lineNumber).getD (offset, offset)
  { offset
    lineNumber
    line := source.slice range.1 range.2
    column := ((Text.slice? source.chars range.1 offset).getD []).length
    found := (source.rest offset).head? }

def foundText (position : Position) : String :=
  match position.found with
  | some c => String.singleton c
  | none => "EOI"

def underline (position : Position) (style : Underline) : String :=
  let width := max position.line.toList.length (position.column + 1)
  String.ofList <| (List.range width).map fun column =>
    if column = position.column then style.marker else style.spacer

def text (position : Position) : String :=
  "Line " ++ toString position.lineNumber ++ "\n" ++ position.line ++ "\n" ++
    position.underline {}

end Position

end Packrat
