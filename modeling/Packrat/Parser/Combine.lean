import Packrat.Parser.Basic

set_option autoImplicit false

namespace Packrat.Parser

variable {ν σ α β : Type}

def sequence : List (ParserTo ν σ α) → ParserTo ν σ (List α)
  | [] => pure []
  | first :: others => do
    let value ← first
    let values ← sequence others
    return value :: values

def times (parser : ParserTo ν σ α) : Nat → ParserTo ν σ (List α)
  | 0 => pure []
  | n + 1 => do
    let value ← parser
    let values ← times parser n
    return value :: values

def choice : List (ParserTo ν σ α) → ParserTo ν σ α
  | [] => fail .noMatch
  | first :: others => fun machine =>
    match attempt first machine with
    | .ok value machine => .ok value machine
    | .error failure machine =>
      if failure.recoverable then choice others machine else .error failure machine

def optional (parser : ParserTo ν σ α) : ParserTo ν σ (Option α) := fun machine =>
  match attempt parser machine with
  | .ok value machine => .ok (some value) machine
  | .error failure machine =>
    if failure.recoverable then .ok none machine else .error failure machine

/-- Matches a parser as often as possible. A match that consumes nothing is kept and ends the
repetition. The budget bounds the number of rounds. -/
def many (parser : ParserTo ν σ α) : Nat → ParserTo ν σ (List α)
  | 0 => fail .exhausted
  | budget + 1 => fun machine =>
    let start := machine.cursor.index
    match attempt parser machine with
    | .ok value machine =>
      -- Another round from the same place would match the same nothing again.
      if machine.cursor.index = start then .ok [value] machine
      else
        match many parser budget machine with
        | .ok values machine => .ok (value :: values) machine
        | .error failure machine => .error failure machine
    | .error failure machine =>
      if failure.recoverable then .ok [] machine else .error failure machine

def many1 (parser : ParserTo ν σ α) (budget : Nat) : ParserTo ν σ (List α) := do
  let value ← attempt parser
  let values ← many parser budget
  return value :: values

def sepBy1 (parser : ParserTo ν σ α) (separator : ParserTo ν σ β) (budget : Nat) :
    ParserTo ν σ (List α) := do
  let value ← attempt parser
  let values ← many (do let _ ← separator; parser) budget
  return value :: values

def sepBy (parser : ParserTo ν σ α) (separator : ParserTo ν σ β) (budget : Nat) :
    ParserTo ν σ (List α) := do
  let values ← optional (sepBy1 parser separator budget)
  return values.getD []

/-- Succeeds without consuming anything if the parser does not match here. What the parser
expected is dropped; if it matches, the label is expected in its place. -/
def notHere [Journal σ ν] (label : String) (parser : ParserTo ν σ α) : ParserTo ν σ Unit := fun machine =>
  let start := machine.cursor
  match parser (machine.pushFrame start.index) with
  | .ok _ machine => failAt start.index label (machine.dropFrame.moveTo start)
  | .error failure machine =>
    let machine := machine.dropFrame.moveTo start
    if failure.recoverable then .ok () machine else .error failure machine

def ahead (parser : ParserTo ν σ α) : ParserTo ν σ α := fun machine =>
  let start := machine.cursor
  match parser machine with
  | .ok value machine => .ok value (machine.moveTo start)
  | .error failure machine =>
    if failure.recoverable then .error failure (machine.moveTo start)
    else .error failure machine

def atomic [Journal σ ν] (label : String) (parser : ParserTo ν σ α) : ParserTo ν σ α := fun machine =>
  let start := machine.cursor.index
  match attempt parser (machine.pushFrame start) with
  | .ok value machine => .ok value machine.dropFrame
  | .error failure machine =>
    let machine := machine.dropFrame
    if failure.recoverable then .error failure (machine.register start label)
    else .error failure machine

def expect [Journal σ ν] (label : String) (parser : ParserTo ν σ α) : ParserTo ν σ α := fun machine =>
  match attempt parser (machine.pushFrame machine.cursor.index) with
  | .ok value machine => .ok value machine.dropFrame
  | .error failure machine =>
    let reached := machine.farthest.innermost.position
    let machine := machine.dropFrame
    if failure.recoverable then .error failure (machine.register reached label)
    else .error failure machine

def atLevel (level : Int32) (parser : ParserTo ν σ α) : ParserTo ν σ α := fun machine =>
  let former := machine.cursor.level
  match parser (machine.setLevel level) with
  | .ok value machine => .ok value (machine.setLevel former)
  | .error failure machine => .error failure (machine.setLevel former)

def precedence [Journal σ ν] (level : Int32) (parser : ParserTo ν σ α) : ParserTo ν σ α := fun machine =>
  let lowest := machine.cursor.level
  if level < lowest then
    failAt machine.cursor.index
      ("term of precedence above or equal " ++ toString lowest.toInt) machine
  else atLevel level parser machine

end Packrat.Parser
