/-!
Operators of expressions.
-/

namespace MiniPascal

inductive BinaryOp where
  | add
  | sub
  | mul
  | realDiv
  | integerDiv
  deriving DecidableEq

namespace BinaryOp

def all : List BinaryOp := [.add, .sub, .mul, .realDiv, .integerDiv]

def symbol : BinaryOp → String
  | .add => "+"
  | .sub => "-"
  | .mul => "*"
  | .realDiv => "/"
  | .integerDiv => "DIV"

def ofSymbol? (s : String) : Option BinaryOp := all.find? (·.symbol = s)

end BinaryOp

/-- Signs in front of a factor. -/
inductive UnaryOp where
  | plus
  | minus
  deriving DecidableEq

namespace UnaryOp

def all : List UnaryOp := [.plus, .minus]

def symbol : UnaryOp → String
  | .plus => "+"
  | .minus => "-"

def ofSymbol? (s : String) : Option UnaryOp := all.find? (·.symbol = s)

end UnaryOp

end MiniPascal
