import MiniPascal.Operator
import MiniPascal.Position
import MiniPascal.Value

/-!
Program trees. A block declares variables, then procedures, each with a block of its own, and
has a list of statements as its body. Every use of a variable and every call has a number of
its own in the program, under which later stages file what they find out about it.
-/

namespace MiniPascal

/-- The number of a use of a variable or of a call. -/
abbrev NodeId := Nat

/-- A use of a variable. -/
structure Variable where
  name : String
  id : NodeId
  position : Position
  deriving DecidableEq, Inhabited

/-- A literal has no position of its own; an operation has that of its operator. -/
inductive Expr where
  | var (v : Variable)
  | binary (op : BinaryOp) (left right : Expr) (position : Position)
  | unary (op : UnaryOp) (operand : Expr) (position : Position)
  | literal (v : Value)
  deriving DecidableEq, Inhabited

structure Call where
  name : String
  args : List Expr
  id : NodeId
  position : Position
  deriving DecidableEq, Inhabited

inductive Statement where
  | compound (body : List Statement)
  | assign (target : Variable) (value : Expr)
  | call (c : Call)
  | write (newline : Bool) (args : List Expr) (position : Position)
  | empty
  deriving Inhabited

/-- The declaration of one variable or one parameter. -/
structure VarDecl where
  name : String
  position : Position
  type : DataType
  typePosition : Position
  deriving DecidableEq, Inhabited

mutual

inductive Block where
  | mk (vars : List VarDecl) (procedures : List Procedure) (body : List Statement)
  deriving Inhabited

inductive Procedure where
  | mk (name : String) (position : Position) (params : List VarDecl) (block : Block)
  deriving Inhabited

end

namespace Block

def vars : Block → List VarDecl
  | .mk vars _ _ => vars

def procedures : Block → List Procedure
  | .mk _ procedures _ => procedures

def body : Block → List Statement
  | .mk _ _ body => body

end Block

namespace Procedure

def name : Procedure → String
  | .mk name _ _ _ => name

def position : Procedure → Position
  | .mk _ position _ _ => position

def params : Procedure → List VarDecl
  | .mk _ _ params _ => params

def block : Procedure → Block
  | .mk _ _ _ block => block

end Procedure

structure Program where
  name : String
  block : Block
  position : Position
  deriving Inhabited

end MiniPascal
