import Packrat.Trace.Event

set_option autoImplicit false

namespace Packrat.Trace

inductive Complaint where
  | refusedOutput
  | rejected (what : String)
deriving DecidableEq, Repr

def Complaint.message : Complaint → String
  | .refusedOutput => "trace output failed: io off"
  | .rejected what => "trace sink rejected event: " ++ what

inductive Record where
  | entering (call : Call)
  | cacheHit (call : Call)
  | recursion (call : Call) (seeded : Bool)
  | seedGrew (call : Call) (index : Nat)
  | leaving (call : Call) (index : Nat)
  | failed (call : Call) (failure : Failure)
  | withheld (call : Call)
  | binding (size : Nat)
  | rejected (position labels : Nat)
  | broken (failure : Failure)
  | deafOnRegistration (complaint : Complaint)
  | deafOnInput (complaint : Complaint)
  | deafOnExpectation (complaint : Complaint)
  | deafOnEvent (rule : RuleName) (kind : Kind) (complaint : Complaint)
  | sawInput (size : Nat)
  | sawExpectation (index : Nat) (label : String)
  | sawEvent (event : Event)
  | parsed (command : String) (cached : Nat)
deriving DecidableEq, Repr

namespace Record

def flag (value : Bool) : String :=
  if value then "true" else "false"

def line (level target message : String) (fields : List (String × String)) : String :=
  level ++ " " ++ target ++ ": " ++ message ++
    String.join (fields.map fun field => " " ++ field.1 ++ "=" ++ field.2)

def engine (level message : String) (call : Call) (fields : List (String × String)) : String :=
  line level "pegrat::engine" message (("key", call.text) :: fields)

def context (level message : String) (fields : List (String × String)) : String :=
  line level "pegrat::context" message fields

def observed (message : String) (fields : List (String × String)) : String :=
  line "TRACE" "pegrat::trace" message fields

def text : Record → String
  | .entering call => engine "TRACE" "entering rule" call []
  | .cacheHit call => engine "TRACE" "cache hit" call []
  | .recursion call seeded =>
    engine "TRACE" "left recursion detected" call [("has_seed", flag seeded)]
  | .seedGrew call index => engine "DEBUG" "seed grew" call [("grown_to", toString index)]
  | .leaving call index => engine "TRACE" "leaving rule" call [("index", toString index)]
  | .failed call failure => engine "TRACE" "rule failed" call [("failure", failure.message)]
  | .withheld call => engine "TRACE" "not memoizing tainted activation" call []
  | .binding size => context "DEBUG" "binding parser input" [("len", toString size)]
  | .rejected position labels =>
    context "DEBUG" "parse failed"
      [("position", toString position), ("expected", toString labels)]
  | .broken failure => context "WARN" "parser engine error" [("error", failure.message)]
  | .deafOnRegistration complaint =>
    context "WARN" "trace sink failed on registration" [("error", complaint.message)]
  | .deafOnInput complaint =>
    context "WARN" "trace sink failed on input change" [("error", complaint.message)]
  | .deafOnExpectation complaint =>
    context "WARN" "trace sink failed on expectation" [("error", complaint.message)]
  | .deafOnEvent rule kind complaint =>
    context "WARN" "trace sink failed"
      [("rule", rule.text), ("kind", kind.text), ("error", complaint.message)]
  | .sawInput size => observed "input bound" [("len", toString size)]
  | .sawExpectation index label =>
    observed "unmet expectation" [("index", toString index), ("label", label)]
  | .sawEvent event =>
    observed "rule event"
      ([("kind", event.kind.text), ("rule", event.rule.text), ("index", toString event.index)] ++
        event.result.toList.map fun result => ("result", result))
  | .parsed command cached =>
    line "DEBUG" "pegrat_cli" "parsed expression"
      [("command", command), ("cached", toString cached)]

end Record

end Packrat.Trace
