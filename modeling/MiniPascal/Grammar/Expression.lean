import MiniPascal.Grammar.Rule

/-!
Rules for expressions. The operators `+` and `-` bind less tightly than `*`, `/` and `DIV`, and
all of them group to the left; a sign binds a factor.

A sign and an opening parenthesis each open one more level of nesting. A rule is told how many
levels may still be opened, and its recursion follows that number.
-/

namespace MiniPascal.Rule

def sumOp? : Token.Kind → Option BinaryOp
  | .plus => some .add
  | .minus => some .sub
  | _ => none

def productOp? : Token.Kind → Option BinaryOp
  | .times => some .mul
  | .div => some .integerDiv
  | .slash => some .realDiv
  | _ => none

/-- Joins at most `n` more operands to `left`. -/
def joinUpTo (op? : Token.Kind → Option BinaryOp) (operand : Rule Expr) :
    Nat → Expr → Rule Expr
  | 0, left => return left
  | n + 1, left => do
      match op? (← current).kind with
      | none => return left
      | some op =>
          let token ← advance
          let right ← operand
          joinUpTo op? operand n (.binary op left right token.position)

/-- Operands with operators between them. Every operator takes a token, so the number of tokens
bounds the number of operands. -/
def chain (op? : Token.Kind → Option BinaryOp) (operand : Rule Expr) : Rule Expr := do
  let first ← operand
  fun p => joinUpTo op? operand p.total first p

def termOf (factor : Rule Expr) : Rule Expr := chain productOp? factor

def exprOf (factor : Rule Expr) : Rule Expr := do
  note fun _ => "expr()"
  chain sumOp? (termOf factor)

/-- A use of a variable. -/
def variableUse : Rule Variable := do
  let (name, position) ← identifier
  return ⟨name, ← newId, position⟩

def literal : Rule Expr := do
  let token ← advance
  match token.value with
  | some v => return .literal v
  | none => throw (.unexpected token (some "literal"))

/-- A factor, given how signed and parenthesized ones are read. -/
def factorOf (signed : UnaryOp → Rule Expr) (parenthesized : Rule Expr) : Rule Expr := do
  match (← current).kind with
  | .plus => signed .plus
  | .minus => signed .minus
  | .integerLiteral => literal
  | .realLiteral => literal
  | .stringLiteral => literal
  | .leftParen => parenthesized
  | .identifier => return .var (← variableUse)
  | _ => unexpected "expression"

def signed (factor : Rule Expr) (op : UnaryOp) : Rule Expr := do
  let token ← advance
  return .unary op (← factor) token.position

def parenthesized (expr : Rule Expr) : Rule Expr := do
  let _ ← advance
  let inner ← expr
  let _ ← eat .rightParen
  return inner

def factor : (levels : Nat) → Rule Expr
  | 0 => factorOf (fun _ => tooDeep) tooDeep
  | levels + 1 => factorOf (signed (factor levels)) (parenthesized (exprOf (factor levels)))

def term (levels : Nat) : Rule Expr := termOf (factor levels)

def expr (levels : Nat) : Rule Expr := exprOf (factor levels)

end MiniPascal.Rule
