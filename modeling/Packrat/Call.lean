import Packrat.Text.Quoted

set_option autoImplicit false

namespace Packrat

/-- Where a parser stands: a byte offset, and the lowest precedence level that a term may have
here. -/
structure Cursor where
  index : Nat := 0
  level : Int32 := 0
deriving DecidableEq, Repr

def Cursor.text (cursor : Cursor) : String :=
  toString cursor.index ++ "(" ++ toString cursor.level.toInt ++ ")"

/-- A rule's name. The grammar's name keeps the rules of several grammars apart. -/
structure RuleName where
  grammar : String
  rule : String
deriving DecidableEq, Repr

namespace RuleName

def text (name : RuleName) : String :=
  name.grammar ++ "::" ++ name.rule

def le (first second : RuleName) : Bool :=
  first.grammar < second.grammar || (first.grammar == second.grammar && first.rule ≤ second.rule)

end RuleName

structure Rule where
  name : RuleName
  memoized : Bool := true
deriving DecidableEq, Repr

inductive Arg where
  | int (value : Int64)
  | word (value : UInt64)
  | flag (value : Bool)
  | char (value : Char)
  | text (value : String)
deriving DecidableEq, Repr

namespace Arg

def typeName : Arg → String
  | .int _ => "i64"
  | .word _ => "u64"
  | .flag _ => "bool"
  | .char _ => "char"
  | .text _ => "str"

def display : Arg → String
  | .int value => toString value.toInt
  | .word value => toString value.toNat
  | .flag value => if value then "true" else "false"
  | .char value => Quoted.char value
  | .text value => Quoted.text value

end Arg

/-- One activation of a rule. The cursor comes first because it decides most comparisons. -/
structure Call where
  cursor : Cursor
  rule : RuleName
  args : List Arg := []
deriving DecidableEq, Repr

def Call.text (call : Call) : String :=
  call.rule.text ++ "(" ++ ", ".intercalate (call.args.map Arg.display) ++ ")@" ++ call.cursor.text

end Packrat
