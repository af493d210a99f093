import MiniPascal.Analysis.Walk
import MiniPascal.Machine.CallStack
import MiniPascal.Machine.RuntimeError

/-!
Values of expressions. A variable is found by the level that the analysis has filed for it: the
frame of that level on the way along the links from the top frame.
-/

namespace MiniPascal

namespace CallStack

/-- Where the frame of a level is. The name and the position are for the error. -/
def frameIndex (s : CallStack) (name : String) (level : Nat) (position : Position) :
    Except RuntimeError Nat :=
  match s.findLevel level with
  | .found index => .ok index
  | _ => .error (.missingFrame name level position)

end CallStack

namespace Analysis

def binding (a : Analysis) (v : Variable) : Except RuntimeError VarBinding :=
  match a.binding? v.id with
  | some binding => .ok binding
  | none => .error (.unresolved v.name v.position)

/-- The value of a variable. -/
def load (a : Analysis) (s : CallStack) (v : Variable) : Except RuntimeError Value := do
  let binding ← a.binding v
  let index ← s.frameIndex v.name binding.level v.position
  match (s.get? index).bind (·.get? v.name) with
  | some value => .ok value
  | none => .error (.uninitialized v.name v.position)

/-- The position of a fault is that of the operator. -/
def raise (position : Position) (r : Except ArithmeticFault Value) :
    Except RuntimeError Value :=
  match r with
  | .ok v => .ok v
  | .error fault => .error (.arithmetic fault position)

/-- Operands are evaluated from left to right. -/
def eval (a : Analysis) (s : CallStack) : Expr → Except RuntimeError Value
  | .var v => a.load s v
  | .binary op left right position => do
      let l ← a.eval s left
      let r ← a.eval s right
      raise position (op.apply l r)
  | .unary op operand position => do
      let v ← a.eval s operand
      raise position (op.apply v)
  | .literal v => .ok v

/-- The values of all expressions, from left to right. -/
def evalAll (a : Analysis) (s : CallStack) : List Expr → Except RuntimeError (List Value)
  | [] => .ok []
  | e :: es => do
      let v ← a.eval s e
      return v :: (← a.evalAll s es)

/-- The value as it is stored under a name that is declared with the given type. -/
def store (name : String) (type : DataType) (position : Position) (v : Value) :
    Except RuntimeError Value :=
  match v.coerce? type with
  | some v => .ok v
  | none => .error (.incompatibleAssignment name type v.type position)

/-- Evaluates arguments one by one, each put into its parameter before the next is
evaluated. -/
def bindParams (a : Analysis) (s : CallStack) (position : Position) :
    List VarSymbol → List Expr → Frame → Except RuntimeError Frame
  | param :: params, arg :: args, frame => do
      let v ← a.eval s arg
      let v ← store param.name param.type position v
      a.bindParams s position params args (frame.set param.name v)
  | _, _, frame => .ok frame

end Analysis

end MiniPascal
