import Packrat.Calculator.Expr
import Packrat.Parser.Combine
import Packrat.Parser.Invoke
import Packrat.Parser.Match
import Packrat.Text.CharSet

set_option autoImplicit false

namespace Packrat.Calculator

inductive Rank where
  | sum
  | product
  | factor
deriving DecidableEq, Repr

def Rank.operators : Rank → List Operator
  | .sum => [.add, .sub]
  | .product => [.mul, .div, .rem]
  | .factor => []

def levelRule : Rule where
  name := { grammar := "calc", rule := "level" }

def factorRule : Rule where
  name := { grammar := "calc", rule := "factor" }

variable {σ : Type} [Journal σ Expr]

def blanks : ParserTo Expr σ Unit :=
  (fun _ => ()) <$> Parser.run CharSet.blank.contains "white space"

def decimal (digits : List Char) : Nat :=
  digits.foldl (fun value digit => 10 * value + (digit.toNat - '0'.toNat)) 0

def digits : ParserTo Expr σ Expr := do
  let text ← Parser.run1 Char.isDigit "digit"
  let value := decimal text.toList
  if InRange value then return .number (Int64.ofNat value) else Parser.fail .noMatch

def number : ParserTo Expr σ Expr :=
  Parser.atomic "number" digits

def operator (rank : Rank) : ParserTo Expr σ Operator :=
  Parser.choice <| rank.operators.map fun op =>
    (fun _ => op) <$> Parser.literal (String.singleton op.symbol)

def negation (factor : ParserTo Expr σ Expr) : ParserTo Expr σ Expr := do
  let _ ← Parser.literal "-"
  blanks
  return .neg (← factor)

def group (sum : ParserTo Expr σ Expr) : ParserTo Expr σ Expr := do
  let _ ← Parser.literal "("
  blanks
  let inner ← sum
  blanks
  let _ ← Parser.literal ")"
  return inner

def joined (rank : Rank) (same next : ParserTo Expr σ Expr) : ParserTo Expr σ Expr := do
  let left ← same
  blanks
  let op ← operator rank
  blanks
  return .binary op left (← next)

def operand : Nat → Rank → ParserTo Expr σ Expr
  | 0, _ => Parser.fail .exhausted
  | budget + 1, .sum =>
    let next := operand budget .product
    Parser.invoke (.identity Expr) levelRule [.word 0]
      (Parser.choice [joined .sum (operand budget .sum) next, next]) budget
  | budget + 1, .product =>
    let next := operand budget .factor
    Parser.invoke (.identity Expr) levelRule [.word 1]
      (Parser.choice [joined .product (operand budget .product) next, next]) budget
  | budget + 1, .factor =>
    Parser.invoke (.identity Expr) factorRule []
      (Parser.choice [negation (operand budget .factor), number, group (operand budget .sum)])
      budget

def budgetFor (source : Source) : Nat :=
  4 * (source.chars.length + 2)

def expression : ParserTo Expr σ Expr := do
  let source ← Parser.view Machine.source
  blanks
  let value ← operand (budgetFor source) .sum
  blanks
  Parser.endOfInput
  return value

end Packrat.Calculator
