import Mathlib.Algebra.Group.Int.Defs
import Packrat.Calculator.Expr

set_option autoImplicit false

namespace Packrat.Calculator

/-- Division goes toward zero, a remainder has the dividend's sign, and nothing is divided by zero. -/
def Operator.exact (op : Operator) (left right : Int) : Option Int :=
  match op with
  | .add => some (left + right)
  | .sub => some (left - right)
  | .mul => some (left * right)
  | .div => if right = 0 then none else some (left.tdiv right)
  | .rem => if right = 0 then none else some (left.tmod right)

namespace Expr

def exact : Expr → Option Int
  | .number value => some value.toInt
  | .neg operand => operand.exact.map fun value => -value
  | .binary op left right =>
    left.exact.bind fun leftValue => right.exact.bind fun rightValue => op.exact leftValue rightValue

def nodes : Expr → List Expr
  | .number value => [.number value]
  | .neg operand => operand.nodes ++ [.neg operand]
  | .binary op left right => left.nodes ++ right.nodes ++ [.binary op left right]

def dividesByZero : Expr → Bool
  | .binary .div _ right | .binary .rem _ right => right.exact = some 0
  | _ => false

def decisive : Expr → Option Int
  | .number _ => none
  | .binary .rem left right => (binary .div left right).exact
  | node => node.exact

def fault (node : Expr) : Option EvalError :=
  if node.dividesByZero then some .divisionByZero
  else
    match node.decisive with
    | none => none
    | some n => if -2 ^ 63 ≤ n ∧ n ≤ 2 ^ 63 - 1 then none else some .overflow

def firstFault (expr : Expr) : Option EvalError :=
  expr.nodes.findSome? fault

end Expr

theorem inRange_iff {n : Int} : InRange n ↔ -2 ^ 63 ≤ n ∧ n ≤ 2 ^ 63 - 1 :=
  Iff.rfl

theorem inRange_toInt (value : Int64) : InRange value.toInt := by
  have low := value.le_toInt
  have high := value.toInt_lt
  rw [inRange_iff]
  omega

theorem toInt_ofInt {n : Int} (inRange : InRange n) : (Int64.ofInt n).toInt = n := by
  obtain ⟨low, high⟩ := inRange_iff.mp inRange
  exact Int64.toInt_ofInt_of_le low (by omega)

theorem ofInt_eq_zero {n : Int} (inRange : InRange n) : Int64.ofInt n = 0 ↔ n = 0 := by
  rw [← Int64.toInt_inj, toInt_ofInt inRange]
  rfl

theorem inRange_tmod {left right : Int} (inRange : InRange right) (some : right ≠ 0) :
    InRange (left.tmod right) := by
  have size := Int.natAbs_tmod left right
  have nearer : left.natAbs % right.natAbs < right.natAbs := Nat.mod_lt _ (Int.natAbs_pos.mpr some)
  rw [inRange_iff] at inRange ⊢
  omega

theorem checked_of_inRange {n : Int} (inRange : InRange n) : checked n = .ok (Int64.ofInt n) :=
  if_pos inRange

def Answered (exact : Option Int) (fault : Option EvalError) (outcome : Except EvalError Int64) :
    Prop :=
  match fault with
  | some error => outcome = .error error
  | none => ∃ n, exact = some n ∧ InRange n ∧ outcome = .ok (Int64.ofInt n)

namespace Expr

variable {node operand left right : Expr} {n value leftValue rightValue : Int}
  {outcome : Except EvalError Int64}

theorem fault_of_zero (zero : node.dividesByZero = true) : node.fault = some .divisionByZero :=
  if_pos zero

theorem fault_of_decisive (whole : node.dividesByZero = false) (decisive : node.decisive = some n) :
    node.fault = if InRange n then none else some .overflow := by
  rw [fault, whole, decisive]
  rfl

theorem answered_checked (whole : node.dividesByZero = false) (decisive : node.decisive = node.exact)
    (exact : node.exact = some n) : Answered node.exact node.fault (checked n) := by
  rw [fault_of_decisive whole (decisive.trans exact), exact]
  by_cases inRange : InRange n
  next =>
    rw [if_pos inRange, checked_of_inRange inRange]
    exact ⟨n, rfl, inRange, rfl⟩
  next =>
    rw [if_neg inRange, checked, if_neg inRange]
    exact rfl

theorem answered_neg (exact : operand.exact = some value) (inRange : InRange value) :
    Answered (neg operand).exact (neg operand).fault (checked (-(Int64.ofInt value).toInt)) := by
  rw [toInt_ofInt inRange]
  exact answered_checked rfl rfl (by simp [Expr.exact, exact])

section Binary

variable (leftExact : left.exact = some leftValue) (rightExact : right.exact = some rightValue)

include leftExact rightExact

theorem exact_binary (op : Operator) :
    (binary op left right).exact = op.exact leftValue rightValue := by
  simp [Expr.exact, leftExact, rightExact]

theorem answered_rem (rightRange : InRange rightValue) (some : rightValue ≠ 0) :
    Answered (binary .rem left right).exact (binary .rem left right).fault
      (if InRange (leftValue.tdiv rightValue) then checked (leftValue.tmod rightValue)
        else .error .overflow) := by
  have whole : (binary .rem left right).dividesByZero = false := by
    simp [dividesByZero, rightExact, some]
  have quotient : (binary .rem left right).decisive = .some (leftValue.tdiv rightValue) := by
    rw [decisive, exact_binary leftExact rightExact, Operator.exact, if_neg some]
  rw [fault_of_decisive whole quotient, exact_binary leftExact rightExact, Operator.exact,
    if_neg some]
  by_cases inRange : InRange (leftValue.tdiv rightValue)
  next =>
    -- The remainder is in range without being looked at.
    have remainder : InRange (leftValue.tmod rightValue) := inRange_tmod rightRange some
    rw [if_pos inRange, if_pos inRange, checked_of_inRange remainder]
    exact ⟨_, rfl, remainder, rfl⟩
  next =>
    rw [if_neg inRange, if_neg inRange]
    exact rfl

theorem answered_binary (op : Operator) (leftRange : InRange leftValue)
    (rightRange : InRange rightValue) :
    Answered (binary op left right).exact (binary op left right).fault
      (op.apply (Int64.ofInt leftValue) (Int64.ofInt rightValue)) := by
  have exact := exact_binary leftExact rightExact op
  cases op <;>
    simp only [Operator.apply, toInt_ofInt leftRange, toInt_ofInt rightRange, ofInt_eq_zero rightRange]
  case add | sub | mul => exact answered_checked rfl rfl exact
  all_goals by_cases zero : rightValue = 0
  case pos | pos =>
    rw [if_pos zero, fault_of_zero (by simp [dividesByZero, rightExact, zero])]
    exact rfl
  case neg =>
    rw [if_neg zero]
    rw [Operator.exact, if_neg zero] at exact
    exact answered_checked (by simp [dividesByZero, rightExact, zero]) rfl exact
  case neg =>
    rw [if_neg zero]
    exact answered_rem leftExact rightExact rightRange zero

end Binary

theorem answered_then {before after : List Expr} {exact result : Option Int}
    {outcome : Except EvalError Int64} {next : Int64 → Except EvalError Int64}
    (first : Answered exact (before.findSome? fault) outcome)
    (second : ∀ n, exact = some n → InRange n →
      Answered result (after.findSome? fault) (next (Int64.ofInt n))) :
    Answered result ((before ++ after).findSome? fault) (outcome >>= next) := by
  rw [List.findSome?_append]
  cases found : before.findSome? fault with
  | some error =>
    rw [found] at first
    obtain rfl : outcome = .error error := first
    exact rfl
  | none =>
    rw [found] at first
    obtain ⟨n, value, inRange, rfl⟩ := first
    exact second n value inRange

theorem answered_last (answered : Answered node.exact node.fault outcome) :
    Answered node.exact ([node].findSome? fault) outcome := by
  simpa using answered

/-- Evaluation is exact or tells the first fault: if some node, with its operands at their exact values,
divides by zero or has a result out of range, the outcome is the error of the first such node; and
otherwise it is the exact value, which is then in range. -/
theorem eval_exact_or_firstFault (expr : Expr) :
    match expr.firstFault with
    | some error => expr.eval = .error error
    | none => ∃ n, expr.exact = some n ∧ InRange n ∧ expr.eval = .ok (Int64.ofInt n) := by
  have answered : Answered expr.exact (expr.nodes.findSome? fault) expr.eval := by
    induction expr with
    | number value => exact ⟨value.toInt, rfl, inRange_toInt value, by rw [Int64.ofInt_toInt, eval]⟩
    | neg operand ih =>
      refine answered_then ih fun value exact inRange => ?_
      exact answered_last (answered_neg exact inRange)
    | binary op left right first second =>
      rw [nodes, List.append_assoc]
      refine answered_then first fun leftValue leftExact leftRange => ?_
      refine answered_then second fun rightValue rightExact rightRange => ?_
      exact answered_last (answered_binary leftExact rightExact op leftRange rightRange)
  exact answered

example : (binary .div (binary .rem (number Int64.minValue) (number (-1))) (number 0)).eval =
    .error .overflow := by rfl

end Expr

end Packrat.Calculator
