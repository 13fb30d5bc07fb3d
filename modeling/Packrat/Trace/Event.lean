import Packrat.Journal

set_option autoImplicit false

namespace Packrat

class Describe (α : Type) where
  describe : α → String

namespace Trace

inductive Kind where
  | entering
  | leaving
  | failed
  | retrying
  | recursive
  | cacheHit
  | cacheMiss
  | cachePut
deriving DecidableEq, Repr

namespace Kind

def text : Kind → String
  | .entering => "entering"
  | .leaving => "leaving"
  | .failed => "failed"
  | .retrying => "retrying"
  | .recursive => "recursive"
  | .cacheHit => "cache hit"
  | .cacheMiss => "cache miss"
  | .cachePut => "cache put"

def all : List Kind :=
  [.entering, .leaving, .failed, .retrying, .recursive, .cacheHit, .cacheMiss, .cachePut]

def ofText? (text : String) : Option Kind :=
  all.find? fun kind => kind.text = text

end Kind

/-- A step of an activation as observers see it, with the text of the value that it left with. -/
structure Event where
  kind : Kind
  rule : RuleName
  args : List Arg := []
  result : Option String := none
  index : Nat
deriving DecidableEq, Repr

def kindOf? {ν : Type} : Step ν → Option Kind
  | .entering => some .entering
  | .checked true => some .cacheHit
  | .checked false => some .cacheMiss
  | .reentered _ => some .recursive
  | .grew => some .retrying
  | .stored => some .cachePut
  | .withheld => none
  | .leaving _ => some .leaving
  | .failed _ => some .failed

def resultOf? {ν : Type} [Describe ν] : Step ν → Option String
  | .leaving value => some (Describe.describe value)
  | _ => none

def eventOf? {ν : Type} [Describe ν] (call : Call) (index : Nat) (step : Step ν) : Option Event :=
  (kindOf? step).map fun kind =>
    { kind, rule := call.rule, args := call.args, result := resultOf? step, index }

end Trace

end Packrat
