import MiniPascal.Grammar.Expression

/-!
Rules for statements. A compound statement opens a level of nesting. An identifier starts an
assignment if `:=` follows it and a call if not; where no statement starts, the empty statement
is read.
-/

namespace MiniPascal.Rule

/-- Arguments in parentheses. Without an opening parenthesis there are none. -/
def arguments (expr : Rule Expr) : Rule (List Expr) := do
  if ← accept .leftParen then
    let args ← if ← check .rightParen then pure [] else separated .comma expr
    let _ ← eat .rightParen
    return args
  else
    return []

def assignment (expr : Rule Expr) : Rule Statement := do
  note fun _ => "assignment_statement()"
  let target ← variableUse
  let _ ← eat .assign
  return .assign target (← expr)

def call (expr : Rule Expr) : Rule Call := do
  note fun _ => "proccall_statement()"
  let (name, position) ← identifier
  let args ← arguments expr
  return ⟨name, args, ← newId, position⟩

def write (expr : Rule Expr) : Rule Statement := do
  let word ← advance
  return .write (word.kind = .writeln) (← arguments expr) word.position

/-- A statement, given how compound statements and expressions are read. -/
def statementOf (compound : Rule (List Statement)) (expr : Rule Expr) : Rule Statement := do
  match (← current).kind with
  | .beginBlock => return .compound (← compound)
  | .identifier =>
      if (← peekKind) = .assign then assignment expr else return .call (← call expr)
  | .write => write expr
  | .writeln => write expr
  | _ => return .empty

def statementListOf (compound : Rule (List Statement)) (expr : Rule Expr) :
    Rule (List Statement) :=
  separated .semicolon (statementOf compound expr)

/-- The statements between `BEGIN` and `END`. -/
def compound : (levels : Nat) → Rule (List Statement)
  | 0 => do
      note fun _ => "compound_statement()"
      tooDeep
  | levels + 1 => do
      note fun _ => "compound_statement()"
      let _ ← eat .beginBlock
      let body ← statementListOf (compound levels) (expr levels)
      let _ ← eat .endBlock
      return body

def statement (levels : Nat) : Rule Statement := statementOf (compound levels) (expr levels)

def statementList (levels : Nat) : Rule (List Statement) :=
  statementListOf (compound levels) (expr levels)

end MiniPascal.Rule
