import Packrat.Farthest.Stack
import Packrat.Text.Position

set_option autoImplicit false

namespace Packrat.Farthest

/-- A failed parse as told to the reader: the farthest position and what was expected there. -/
structure Report where
  position : Nat
  labels : List String
  place : Position
  style : Underline := {}
deriving DecidableEq, Repr

namespace Report

def ofFrame (source : Source) (style : Underline) (frame : Frame) : Report :=
  { position := frame.position
    labels := frame.labels
    place := Position.scan source frame.position
    style }

def summary (report : Report) : String :=
  "Error on line " ++ toString report.place.lineNumber ++ ". Expected: " ++
    ", ".intercalate report.labels ++ " instead of '" ++ report.place.foundText ++ "'"

def text (report : Report) : String :=
  report.summary ++ "\n" ++ report.place.line ++ "\n" ++ report.place.underline report.style

end Report

end Packrat.Farthest
