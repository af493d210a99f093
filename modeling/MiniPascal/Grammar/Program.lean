import MiniPascal.Grammar.Statement

/-!
Rules for declarations and programs. A block, which opens a level of nesting, declares
variables, then procedures, and ends with a compound statement.
-/

namespace MiniPascal.Rule

def typeName : Rule (DataType × Position) := do
  match (← current).kind with
  | .integer => return (.integer, (← advance).position)
  | .real => return (.real, (← advance).position)
  | .string => return (.string, (← advance).position)
  | _ => unexpected "INTEGER, REAL or STRING"

/-- Names that share a type, as in `a, b : INTEGER`. -/
def variableGroup : Rule (List VarDecl) := do
  let names ← separated .comma identifier
  let _ ← eat .colon
  let (type, typePosition) ← typeName
  return names.map fun (name, position) => { name, position, type, typePosition }

/-- The groups after one `VAR`, each with its semicolon. -/
def variableSection : Rule (List VarDecl) := do
  let group : Rule (List VarDecl) := do
    let decls ← variableGroup
    let _ ← eat .semicolon
    return decls
  let first ← group
  let others ← collect do
    if ← check .identifier then return some (← group) else return none
  return first ++ others.flatten

def parameters : Rule (List VarDecl) := do
  return (← separated .semicolon variableGroup).flatten

def procedureOf (block : Rule Block) : Rule Procedure := do
  note fun _ => "procedure_declaration()"
  let _ ← eat .procedure
  let (name, position) ← identifier
  let params ← do
    if ← accept .leftParen then
      let params ← if ← check .identifier then parameters else pure []
      let _ ← eat .rightParen
      pure params
    else
      pure []
  let _ ← eat .semicolon
  let block ← block
  let _ ← eat .semicolon
  return .mk name position params block

def declarationsOf (block : Rule Block) : Rule (List VarDecl × List Procedure) := do
  note fun _ => "declarations()"
  let sections ← collect do
    if ← accept .var then return some (← variableSection) else return none
  let procedures ← collect do
    if ← check .procedure then return some (← procedureOf block) else return none
  return (sections.flatten, procedures)

def block : (levels : Nat) → Rule Block
  | 0 => tooDeep
  | levels + 1 => do
      let (vars, procedures) ← declarationsOf (block levels)
      return .mk vars procedures (← compound levels)

def procedure (levels : Nat) : Rule Procedure := procedureOf (block levels)

def declarations (levels : Nat) : Rule (List VarDecl × List Procedure) :=
  declarationsOf (block levels)

def program (levels : Nat) : Rule Program := do
  note fun _ => "program()"
  let word ← eat .program
  let (name, _) ← identifier
  let _ ← eat .semicolon
  let block ← block levels
  let _ ← eat .dot
  return ⟨name, block, word.position⟩

/-- A program with nothing after it. -/
def wholeProgram (levels : Nat) : Rule Program := do
  note fun _ => "parse()"
  let program ← program levels
  let _ ← eat .endOfText
  return program

end MiniPascal.Rule

namespace MiniPascal

/-- Reads the tokens of a program. -/
def parseProgram (tokens : List Token) (settings : Settings) (journal : Journal) :
    Except SyntaxError Program × Journal :=
  match Rule.wholeProgram settings.maxNesting (.ofTokens tokens settings journal) with
  | .ok program parser => (.ok program, parser.journal)
  | .error e parser => (.error e, parser.journal)

end MiniPascal
