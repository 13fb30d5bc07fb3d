import Packrat.Machine

set_option autoImplicit false

namespace Packrat

/-- A parser runs on a machine and ends with a value or a failure, either way with the machine as
it is then. What it does is told to `σ`. -/
abbrev ParserTo (ν σ α : Type) := EStateM Failure (Machine ν σ) α

abbrev Parser (ν α : Type) := ParserTo ν (List (Signal ν)) α

inductive Rejection where
  | mismatch (report : Farthest.Report)
  | engine (failure : Failure)
deriving DecidableEq, Repr

namespace Rejection

def message : Rejection → String
  | .mismatch report => report.text
  | .engine failure => "parser engine error: " ++ failure.message

end Rejection

namespace Parser

variable {ν σ α : Type}

def fail (failure : Failure) : ParserTo ν σ α := fun machine =>
  .error failure machine

def failAt [Journal σ ν] (index : Nat) (label : String) : ParserTo ν σ α := fun machine =>
  .error .noMatch (machine.register index label)

def view (read : Machine ν σ → α) : ParserTo ν σ α := fun machine =>
  .ok (read machine) machine

def attempt (parser : ParserTo ν σ α) : ParserTo ν σ α := fun machine =>
  let start := machine.cursor
  match parser machine with
  | .ok value machine => .ok value machine
  | .error failure machine =>
    if failure.recoverable then .error failure (machine.moveTo start)
    else .error failure machine

end Parser

def ParserTo.parse {ν σ α : Type} [Journal σ ν]
    (parser : ParserTo ν σ α) (machine : Machine ν σ) : Except Rejection α × Machine ν σ :=
  match parser machine with
  | .ok value machine => (.ok value, machine)
  | .error failure machine =>
    if failure.recoverable then
      let report := machine.farthestReport
      (.error (.mismatch report), machine.write (.rejected report.position report.labels.length))
    else (.error (.engine failure), machine.write (.broken failure))

end Packrat
