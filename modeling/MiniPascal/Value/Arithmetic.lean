import MiniPascal.Operator
import MiniPascal.Value

/-!
Arithmetic on values. Integers are computed exactly and must fit into 64 bits; if one operand
is a real, or the operator is `/`, reals are computed and must be finite. `DIV` cuts the
quotient off toward zero and always gives an integer. Two strings can be added.
-/

namespace MiniPascal

inductive ArithmeticFault where
  | divisionByZero
  | integerOverflow
  | realOverflow (op : BinaryOp)
  | invalidOperands (op : BinaryOp) (left right : DataType)
  | invalidOperand (op : UnaryOp) (operand : DataType)
  deriving DecidableEq

def ArithmeticFault.message : ArithmeticFault → String
  | .divisionByZero => "division by zero"
  | .integerOverflow => "integer overflow"
  | .realOverflow op => s!"real result of '{op.symbol}' is out of range"
  | .invalidOperands op left right =>
      s!"operator '{op.symbol}' cannot be applied to {left.name} and {right.name}"
  | .invalidOperand op operand =>
      s!"operator '{op.symbol}' cannot be applied to {operand.name}"

namespace Value

/-- The integer value `n`, if it fits. -/
def ofInt (n : Int) : Except ArithmeticFault Value :=
  if minInteger ≤ n ∧ n ≤ maxInteger then .ok (.integer (Int64.ofInt n))
  else .error .integerOverflow

/-- The real value `x`, the result of `op`, if it is a number at all. -/
def ofFloat (op : BinaryOp) (x : Float) : Except ArithmeticFault Value :=
  if x.isFinite then .ok (.real x) else .error (.realOverflow op)

end Value

namespace BinaryOp

def applyReals (op : BinaryOp) (a b : Float) : Except ArithmeticFault Value :=
  match op with
  | .add => Value.ofFloat op (a + b)
  | .sub => Value.ofFloat op (a - b)
  | .mul => Value.ofFloat op (a * b)
  | .realDiv => if b == 0.0 then .error .divisionByZero else Value.ofFloat op (a / b)
  | .integerDiv =>
      if b == 0.0 then .error .divisionByZero
      else if (a / b).isFinite then Value.ofInt (Decimal.truncate (a / b))
      else .error .integerOverflow

def apply (op : BinaryOp) (left right : Value) : Except ArithmeticFault Value :=
  match op, left, right with
  | .add, .string a, .string b => .ok (.string (a ++ b))
  | .add, .integer a, .integer b => Value.ofInt (a.toInt + b.toInt)
  | .sub, .integer a, .integer b => Value.ofInt (a.toInt - b.toInt)
  | .mul, .integer a, .integer b => Value.ofInt (a.toInt * b.toInt)
  | .integerDiv, .integer a, .integer b =>
      if b.toInt = 0 then .error .divisionByZero else Value.ofInt (a.toInt.tdiv b.toInt)
  | op, left, right =>
      match left.toReal?, right.toReal? with
      | some a, some b => op.applyReals a b
      | _, _ => .error (.invalidOperands op left.type right.type)

end BinaryOp

def UnaryOp.apply (op : UnaryOp) (operand : Value) : Except ArithmeticFault Value :=
  match op, operand with
  | op, .string _ => .error (.invalidOperand op .string)
  | .plus, v => .ok v
  | .minus, .integer n => Value.ofInt (-n.toInt)
  | .minus, .real x => .ok (.real (-x))

end MiniPascal
