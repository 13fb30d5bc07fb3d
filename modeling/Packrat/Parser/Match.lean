import Packrat.Parser.Basic

set_option autoImplicit false

namespace Packrat.Parser

variable {ν σ : Type}

def peek : ParserTo ν σ Char := fun machine =>
  match machine.rest with
  | c :: _ => .ok c machine
  | [] => .error .noMatch machine

def consume : ParserTo ν σ Char := fun machine =>
  match machine.rest with
  | c :: _ =>
    .ok c (machine.moveTo { machine.cursor with index := machine.cursor.index + c.utf8Size })
  | [] => .error .noMatch machine

variable [Journal σ ν]

def literal (text : String) : ParserTo ν σ String := fun machine =>
  if text.toList.isPrefixOf machine.rest then
    .ok text (machine.advance (Text.size text.toList))
  else failAt machine.cursor.index text machine

def charWhere (test : Char → Bool) (label : String) : ParserTo ν σ Char := fun machine =>
  match machine.rest with
  | c :: _ =>
    if test c then .ok c (machine.advance c.utf8Size)
    else failAt machine.cursor.index label machine
  | [] => failAt machine.cursor.index label machine

def charBetween (first last : Char) : ParserTo ν σ Char :=
  charWhere (fun c => first ≤ c && c ≤ last)
    ("character between " ++ String.singleton first ++ " and " ++ String.singleton last)

def noneOf (excluded : String) : ParserTo ν σ Char :=
  charWhere (fun c => !excluded.toList.contains c) ("any char except " ++ excluded)

def anyChar : ParserTo ν σ Char :=
  charWhere (fun _ => true) "any character"

def endOfInput : ParserTo ν σ Unit := fun machine =>
  if machine.hasNext then failAt machine.cursor.index "End Of Input" machine
  else .ok () machine

/-- Matches the longest run of characters that pass the test. The label is registered where the
run stopped, since the run could have gone on there. -/
def run (test : Char → Bool) (label : String) : ParserTo ν σ String := fun machine =>
  let taken := machine.rest.takeWhile test
  let machine := machine.advance (Text.size taken)
  .ok (String.ofList taken) (machine.register machine.cursor.index label)

def run1 (test : Char → Bool) (label : String) : ParserTo ν σ String := fun machine =>
  match run test label machine with
  | .ok text machine => if text = "" then .error .noMatch machine else .ok text machine
  | .error failure machine => .error failure machine

end Packrat.Parser
