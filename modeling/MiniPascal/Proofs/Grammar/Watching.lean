import MiniPascal.Grammar.Program
import MiniPascal.Proofs.Syntax.Uses

/-!
The grammar under watch. The rules of the grammar are told how many levels may still be opened,
and their loops how many rounds they may take at most. Here the same rules are written with a
memory instead: the levels that are open are counted up and down, every node that has a number
is kept, also where the rule that built it fails later, and where a loop or a recursion is not
over when its rounds are, it is cut off, and that is kept too.
-/

namespace MiniPascal

/-- A parser that is watched. -/
structure Watch where
  parser : Parser
  /-- How many levels are open. -/
  depth : Nat
  /-- All nodes that were built, the latest last. -/
  built : List Use
  /-- A loop or a recursion was stopped before it was over. -/
  cut : Bool

abbrev Watched := EStateM SyntaxError Watch

namespace Watched

variable {α β : Type}

/-- A rule that opens nothing, builds nothing and has no loop. -/
def plain (r : Rule α) : Watched α := fun w =>
  match r w.parser with
  | .ok a p => .ok a { w with parser := p }
  | .error e p => .error e { w with parser := p }

def cutOff : Watched α := fun w =>
  .error (.unexpected w.parser.current none) { w with cut := true }

/-- Opens a level and closes it in the end. -/
def nested (body : Watched α) : Watched α := fun w =>
  if w.parser.maxNesting ≤ w.depth
    then .error (.tooDeep w.parser.current w.parser.maxNesting) w
  else
    match body { w with depth := w.depth + 1 } with
    | .ok a w => .ok a { w with depth := w.depth - 1 }
    | .error e w => .error e { w with depth := w.depth - 1 }

/-- Builds a node with the next number. -/
def node (make : NodeId → α) (use : α → Use) : Watched α := fun w =>
  let a := make w.parser.nextId
  .ok a { w with
    parser := { w.parser with nextId := w.parser.nextId + 1 }, built := w.built ++ [use a] }

/-- The results of `step` up to the first time that it has none, in fewer than `n` rounds. -/
def collectIn (step : Watched (Option α)) : Nat → Watched (List α)
  | 0 => cutOff
  | n + 1 => do
      match ← step with
      | none => return []
      | some a => return a :: (← collectIn step n)

def collect (step : Watched (Option α)) : Watched (List α) := fun w =>
  collectIn step w.parser.total w

def separated (separator : Token.Kind) (item : Watched α) : Watched (List α) := do
  let first ← item
  let others ← collect do
    if ← plain (Rule.accept separator) then return some (← item) else return none
  return first :: others

/-! ### Expressions -/

def joinIn (op? : Token.Kind → Option BinaryOp) (operand : Watched Expr) :
    Nat → Expr → Watched Expr
  | 0, _ => cutOff
  | n + 1, left => do
      match op? (← plain Rule.current).kind with
      | none => return left
      | some op =>
          let token ← plain Rule.advance
          let right ← operand
          joinIn op? operand n (.binary op left right token.position)

def chain (op? : Token.Kind → Option BinaryOp) (operand : Watched Expr) : Watched Expr := do
  let first ← operand
  fun w => joinIn op? operand w.parser.total first w

def termOf (factor : Watched Expr) : Watched Expr := chain Rule.productOp? factor

def exprOf (factor : Watched Expr) : Watched Expr := do
  plain (Rule.note fun _ => "expr()")
  chain Rule.sumOp? (termOf factor)

def variableUse : Watched Variable := do
  let (name, position) ← plain Rule.identifier
  node (fun id => ⟨name, id, position⟩) .var

def signed (factor : Watched Expr) (op : UnaryOp) : Watched Expr := do
  let token ← plain Rule.advance
  return .unary op (← factor) token.position

def parenthesized (expr : Watched Expr) : Watched Expr := do
  let _ ← plain Rule.advance
  let inner ← expr
  let _ ← plain (Rule.eat .rightParen)
  return inner

def factorOf (signed : UnaryOp → Watched Expr) (parenthesized : Watched Expr) :
    Watched Expr := do
  match (← plain Rule.current).kind with
  | .plus => signed .plus
  | .minus => signed .minus
  | .integerLiteral => plain Rule.literal
  | .realLiteral => plain Rule.literal
  | .stringLiteral => plain Rule.literal
  | .leftParen => parenthesized
  | .identifier => return .var (← variableUse)
  | _ => plain (Rule.unexpected "expression")

/-- A factor in which factors stand inside one another fewer than `n` times. -/
def factor : (n : Nat) → Watched Expr
  | 0 => cutOff
  | n + 1 =>
      factorOf (fun op => nested (signed (factor n) op))
        (nested (parenthesized (exprOf (factor n))))

def term (n : Nat) : Watched Expr := termOf (factor n)

def expr (n : Nat) : Watched Expr := exprOf (factor n)

/-! ### Statements -/

def arguments (expr : Watched Expr) : Watched (List Expr) := do
  if ← plain (Rule.accept .leftParen) then
    let args ← if ← plain (Rule.check .rightParen) then pure [] else separated .comma expr
    let _ ← plain (Rule.eat .rightParen)
    return args
  else
    return []

def assignment (expr : Watched Expr) : Watched Statement := do
  plain (Rule.note fun _ => "assignment_statement()")
  let target ← variableUse
  let _ ← plain (Rule.eat .assign)
  return .assign target (← expr)

def call (expr : Watched Expr) : Watched Call := do
  plain (Rule.note fun _ => "proccall_statement()")
  let (name, position) ← plain Rule.identifier
  let args ← arguments expr
  node (fun id => ⟨name, args, id, position⟩) .call

def write (expr : Watched Expr) : Watched Statement := do
  let word ← plain Rule.advance
  return .write (word.kind = .writeln) (← arguments expr) word.position

def statementOf (compound : Watched (List Statement)) (expr : Watched Expr) :
    Watched Statement := do
  match (← plain Rule.current).kind with
  | .beginBlock => return .compound (← compound)
  | .identifier =>
      if (← plain Rule.peekKind) = .assign then assignment expr else return .call (← call expr)
  | .write => write expr
  | .writeln => write expr
  | _ => return .empty

def statementListOf (compound : Watched (List Statement)) (expr : Watched Expr) :
    Watched (List Statement) :=
  separated .semicolon (statementOf compound expr)

def compound : (n : Nat) → Watched (List Statement)
  | 0 => cutOff
  | n + 1 => do
      plain (Rule.note fun _ => "compound_statement()")
      nested do
        let _ ← plain (Rule.eat .beginBlock)
        let body ← statementListOf (compound n) (expr n)
        let _ ← plain (Rule.eat .endBlock)
        return body

def statement (n : Nat) : Watched Statement := statementOf (compound n) (expr n)

def statementList (n : Nat) : Watched (List Statement) := statementListOf (compound n) (expr n)

/-! ### Declarations -/

def variableGroup : Watched (List VarDecl) := do
  let names ← separated .comma (plain Rule.identifier)
  let _ ← plain (Rule.eat .colon)
  let (type, typePosition) ← plain Rule.typeName
  return names.map fun (name, position) => { name, position, type, typePosition }

def variableSection : Watched (List VarDecl) := do
  let group : Watched (List VarDecl) := do
    let decls ← variableGroup
    let _ ← plain (Rule.eat .semicolon)
    return decls
  let first ← group
  let others ← collect do
    if ← plain (Rule.check .identifier) then return some (← group) else return none
  return first ++ others.flatten

def parameters : Watched (List VarDecl) := do
  return (← separated .semicolon variableGroup).flatten

def procedureOf (block : Watched Block) : Watched Procedure := do
  plain (Rule.note fun _ => "procedure_declaration()")
  let _ ← plain (Rule.eat .procedure)
  let (name, position) ← plain Rule.identifier
  let params ← do
    if ← plain (Rule.accept .leftParen) then
      let params ← if ← plain (Rule.check .identifier) then parameters else pure []
      let _ ← plain (Rule.eat .rightParen)
      pure params
    else
      pure []
  let _ ← plain (Rule.eat .semicolon)
  let block ← block
  let _ ← plain (Rule.eat .semicolon)
  return .mk name position params block

def declarationsOf (block : Watched Block) : Watched (List VarDecl × List Procedure) := do
  plain (Rule.note fun _ => "declarations()")
  let sections ← collect do
    if ← plain (Rule.accept .var) then return some (← variableSection) else return none
  let procedures ← collect do
    if ← plain (Rule.check .procedure) then return some (← procedureOf block) else return none
  return (sections.flatten, procedures)

def block : (n : Nat) → Watched Block
  | 0 => cutOff
  | n + 1 => nested do
      let (vars, procedures) ← declarationsOf (block n)
      return .mk vars procedures (← compound n)

def procedure (n : Nat) : Watched Procedure := procedureOf (block n)

def declarations (n : Nat) : Watched (List VarDecl × List Procedure) :=
  declarationsOf (block n)

def program (n : Nat) : Watched Program := do
  plain (Rule.note fun _ => "program()")
  let word ← plain (Rule.eat .program)
  let (name, _) ← plain Rule.identifier
  let _ ← plain (Rule.eat .semicolon)
  let block ← block n
  let _ ← plain (Rule.eat .dot)
  return ⟨name, block, word.position⟩

def wholeProgram (n : Nat) : Watched Program := do
  plain (Rule.note fun _ => "parse()")
  let program ← program n
  let _ ← plain (Rule.eat .endOfText)
  return program

end Watched

end MiniPascal
