import Packrat.Call

set_option autoImplicit false

namespace Packrat

inductive Failure where
  | noMatch
  | unseeded
  | staleSnapshot
  | mismatched (rule : RuleName)
  | exhausted
deriving DecidableEq, Repr

namespace Failure

def recoverable : Failure → Bool
  | .noMatch | .unseeded => true
  | .staleSnapshot | .mismatched _ | .exhausted => false

def message : Failure → String
  | .noMatch => "no match"
  | .unseeded => "left-recursive rule re-entered before a seed was established"
  | .staleSnapshot => "snapshot restored after it was already consumed"
  | .mismatched rule => "rule `" ++ rule.text ++ "` was invoked with a different result type"
  | .exhausted => "evaluation budget exhausted"

end Failure

end Packrat
