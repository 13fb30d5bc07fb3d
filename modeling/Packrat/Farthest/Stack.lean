import Packrat.Farthest.Frame

set_option autoImplicit false

namespace Packrat.Farthest

/-- Nested frames. There is always an innermost one; the outer ones come nearest first. -/
structure Stack where
  innermost : Frame := {}
  outer : List Frame := []
deriving DecidableEq, Repr

namespace Stack

def depth (stack : Stack) : Nat :=
  stack.outer.length + 1

def register (stack : Stack) (position : Nat) (label : String) : Stack :=
  { stack with innermost := stack.innermost.register position label }

def merge (stack : Stack) (frame : Frame) : Stack :=
  { stack with innermost := stack.innermost.merge frame }

def push (stack : Stack) (position : Nat) : Stack :=
  { innermost := { position }, outer := stack.innermost :: stack.outer }

def pop (stack : Stack) : Frame × Stack :=
  match stack.outer with
  | [] => (stack.innermost, {})
  | next :: outer => (stack.innermost, { innermost := next, outer })

def popMerge (stack : Stack) : Frame × Stack :=
  (stack.pop.1, stack.pop.2.merge stack.pop.1)

end Stack

end Packrat.Farthest
