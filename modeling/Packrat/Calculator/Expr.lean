import Packrat.Trace.Event

set_option autoImplicit false

namespace Packrat.Calculator

inductive Operator where
  | add
  | sub
  | mul
  | div
  | rem
deriving DecidableEq, Repr

namespace Operator

def symbol : Operator → Char
  | .add => '+'
  | .sub => '-'
  | .mul => '*'
  | .div => '/'
  | .rem => '%'

def name : Operator → String
  | .add => "Add"
  | .sub => "Sub"
  | .mul => "Mul"
  | .div => "Div"
  | .rem => "Rem"

end Operator

inductive Expr where
  | number (value : Int64)
  | neg (operand : Expr)
  | binary (op : Operator) (left right : Expr)
deriving DecidableEq, Repr

inductive EvalError where
  | divisionByZero
  | overflow
deriving DecidableEq, Repr

def EvalError.message : EvalError → String
  | .divisionByZero => "division by zero"
  | .overflow => "arithmetic overflow"

def InRange (n : Int) : Prop :=
  Int64.minValue.toInt ≤ n ∧ n ≤ Int64.maxValue.toInt

instance (n : Int) : Decidable (InRange n) :=
  inferInstanceAs (Decidable (_ ∧ _))

def checked (n : Int) : Except EvalError Int64 :=
  if InRange n then .ok (Int64.ofInt n) else .error .overflow

def Operator.apply (op : Operator) (left right : Int64) : Except EvalError Int64 :=
  match op with
  | .add => checked (left.toInt + right.toInt)
  | .sub => checked (left.toInt - right.toInt)
  | .mul => checked (left.toInt * right.toInt)
  | .div =>
    if right = 0 then .error .divisionByZero else checked (left.toInt.tdiv right.toInt)
  | .rem =>
    if right = 0 then .error .divisionByZero
    else if InRange (left.toInt.tdiv right.toInt) then checked (left.toInt.tmod right.toInt)
    else .error .overflow

namespace Expr

def eval : Expr → Except EvalError Int64
  | .number value => .ok value
  | .neg operand => do
    let value ← operand.eval
    checked (-value.toInt)
  | .binary op left right => do
    let leftValue ← left.eval
    let rightValue ← right.eval
    op.apply leftValue rightValue

def text : Expr → String
  | .number value => toString value.toInt
  | .neg operand => "-" ++ operand.text
  | .binary op left right =>
    "(" ++ left.text ++ " " ++ String.singleton op.symbol ++ " " ++ right.text ++ ")"

def outline : Expr → String
  | .number value => "Number(" ++ toString value.toInt ++ ")"
  | .neg operand => "Neg(" ++ operand.outline ++ ")"
  | .binary op left right =>
    "Binary \x7b op: " ++ op.name ++ ", left: " ++ left.outline ++ ", right: " ++
      right.outline ++ " \x7d"

end Expr

instance : Describe Expr where
  describe := Expr.outline

end Packrat.Calculator
