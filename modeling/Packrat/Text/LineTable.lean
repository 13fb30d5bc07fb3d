import Packrat.Text.Source

set_option autoImplicit false

namespace Packrat

structure LineTable where
  starts : List Nat := []
deriving DecidableEq, Repr

namespace LineTable

def startsAfter : Nat → List Char → List Nat
  | _, [] => []
  | offset, c :: rest =>
    let next := offset + c.utf8Size
    if c = '\n' then next :: startsAfter next rest else startsAfter next rest

def ofSource (source : Source) : LineTable :=
  { starts := 0 :: startsAfter 0 source.chars }

def count (table : LineTable) : Nat :=
  table.starts.length

def lineOf (table : LineTable) (offset : Nat) : Nat :=
  table.starts.countP (· ≤ offset)

def start? (table : LineTable) (line : Nat) : Option Nat :=
  if line = 0 then none else table.starts[line - 1]?

def range? (table : LineTable) (source : Source) (line : Nat) : Option (Nat × Nat) :=
  (table.start? line).map fun start =>
    (start, match table.starts[line]? with
      | some next => next - 1
      | none => source.size)

end LineTable

end Packrat
