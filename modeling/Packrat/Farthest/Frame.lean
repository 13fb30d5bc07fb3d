set_option autoImplicit false

namespace Packrat.Farthest

/-- What was expected at the farthest position seen, each label once and in order of arrival. -/
structure Frame where
  position : Nat := 0
  labels : List String := []
deriving DecidableEq, Repr

namespace Frame

def isEmpty (frame : Frame) : Bool :=
  frame.labels.isEmpty

def addLabel (labels : List String) (label : String) : List String :=
  if label ∈ labels then labels else labels ++ [label]

def register (frame : Frame) (position : Nat) (label : String) : Frame :=
  if frame.position < position then { position, labels := [label] }
  else if frame.position = position then { frame with labels := addLabel frame.labels label }
  else frame

def merge (frame other : Frame) : Frame :=
  if other.isEmpty then frame
  else if frame.position < other.position then other
  else if frame.position = other.position then
    { frame with labels := other.labels.foldl addLabel frame.labels }
  else frame

end Frame

end Packrat.Farthest
