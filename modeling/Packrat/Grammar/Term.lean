import Packrat.Grammar.Value

set_option autoImplicit false

namespace Packrat.Grammar

/-- An argument as a call writes it: given outright, or taken from the arguments of the rule that
makes the call, with something added. -/
inductive ArgTerm where
  | given (arg : Arg)
  | passed (index : Nat) (add : Int)
deriving DecidableEq, Repr

inductive Query where
  | index
  | level
  | hasNext
  | rest
  | input
  | cached
  | cursor
  | frame
  | position
  | report
deriving DecidableEq, Repr

inductive Term where
  | literal (text : String)
  | charWhere (test : Char → Bool) (label : String)
  | charBetween (first last : Char)
  | noneOf (excluded : String)
  | anyChar
  | endOfInput
  | run (test : Char → Bool) (label : String)
  | run1 (test : Char → Bool) (label : String)
  | peek
  | consume
  | sequence (terms : List Term)
  | attempt (term : Term)
  | choice (terms : List Term)
  | many (term : Term)
  | many1 (term : Term)
  | sepBy (term separator : Term)
  | sepBy1 (term separator : Term)
  | optional (term : Term)
  | notHere (label : String) (term : Term)
  | ahead (term : Term)
  | atomic (label : String) (term : Term)
  | expect (label : String) (term : Term)
  | precedence (level : Int32) (term : Term)
  | atLevel (level : Int32) (term : Term)
  | register (label : String)
  | registerAt (index : Nat) (label : String)
  | failAt (index : Nat) (label : String)
  | fail (failure : Failure)
  | call (shape : Shape) (key : String) (args : List ArgTerm)
  -- What an argument of the running rule says: which of two terms, which literal, how often,
  -- and at which level.
  | ifArg (index : Nat) (arg : Arg) (yes no : Term)
  | literalArg (index : Nat)
  | timesArg (index : Nat) (term : Term)
  | precedenceArg (index : Nat) (term : Term)
  -- Cursors saved by name. Going back to one uses it up unless it is kept.
  | save (slot : String)
  | restore (slot : String) (keep : Bool)
  | inspect (slot : String)
  -- Counters. Counting comes before the term.
  | count (counter : String) (term : Term)
  | ifCount (counter : String) (limit : Nat) (yes no : Term)
  -- The text that a term moves over, in place of its value.
  | textOf (term : Term)
  | tag (name : String) (term : Term)
  | const (value : Value)
  | bind (text : String)
  | allow (lines : Option Nat)
  | ask (query : Query)

structure Definition where
  rule : Rule
  body : Term

end Packrat.Grammar

namespace Packrat

/-- Definitions by key. Two keys may define one rule. -/
structure Grammar where
  definitions : List (String × Grammar.Definition) := []

def Grammar.find? (grammar : Grammar) (key : String) : Option Grammar.Definition :=
  grammar.definitions.lookup key

end Packrat
