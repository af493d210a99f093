import MiniPascal.Analysis.SemanticError
import MiniPascal.Journal
import MiniPascal.Scope.Tree
import Std.Data.TreeMap

/-!
Resolving the names of a program. One walk over the tree opens a scope for the program and for
every procedure and files, for every use of a variable and every call, what its name means
there. A name means the nearest declaration that comes before its use. What is wrong is
collected, and the walk goes on.
-/

namespace MiniPascal

/-- What a use of a variable refers to: the level of the scope that declares it, and its
type. -/
structure VarBinding where
  level : Nat
  type : DataType
  deriving DecidableEq, Inhabited

/-- What the names of a program mean. -/
structure Analysis where
  scopes : ScopeTree
  calls : Std.TreeMap NodeId ProcedureSymbol
  vars : Std.TreeMap NodeId VarBinding

namespace Analysis

def procedure? (a : Analysis) (id : NodeId) : Option ProcedureSymbol := a.calls[id]?

def binding? (a : Analysis) (id : NodeId) : Option VarBinding := a.vars[id]?

end Analysis

/-- The state of the walk. -/
structure Walk where
  scopes : ScopeTree
  /-- The scope of the block that is being walked. -/
  current : ScopeId
  calls : Std.TreeMap NodeId ProcedureSymbol := {}
  vars : Std.TreeMap NodeId VarBinding := {}
  errors : Array SemanticError := #[]
  journal : Journal

namespace Walk

/-- The scope of the program, which knows the three types. -/
def globalScope : Scope :=
  [.type .integer, .type .real, .type .string].foldl Scope.push
    { name := "global", level := 1, enclosing := none }

def start (journal : Journal) : Walk :=
  { scopes := { scopes := #[globalScope] }, current := 0, journal }

def trace (w : Walk) (t : Trace) (message : Unit → String) : Walk :=
  { w with journal := w.journal.trace t message }

def fail (w : Walk) (e : SemanticError) : Walk := { w with errors := w.errors.push e }

section

variable (w : Walk) (t : Trace) (message : Unit → String) (e : SemanticError)

@[simp]
theorem scopes_trace : (w.trace t message).scopes = w.scopes := rfl

@[simp]
theorem current_trace : (w.trace t message).current = w.current := rfl

@[simp]
theorem errors_trace : (w.trace t message).errors = w.errors := rfl

@[simp]
theorem scopes_fail : (w.fail e).scopes = w.scopes := rfl

@[simp]
theorem current_fail : (w.fail e).current = w.current := rfl

@[simp]
theorem errors_fail : (w.fail e).errors = w.errors.push e := rfl

end

def scope? (w : Walk) : Option Scope := w.scopes.get? w.current

def scopeName (w : Walk) : String := (w.scope?.map (·.name)).getD ""

def scopeLevel (w : Walk) : Nat := (w.scope?.map (·.level)).getD 0

/-- What a name means here. -/
def lookup (w : Walk) (name : String) : Option (Symbol × Scope) × Walk :=
  (w.scopes.lookup w.current name,
    w.trace .symbolTable fun _ => s!"Lookup: {name}. (Scope name: {w.scopeName})")

/-- Adds a symbol to the scope at hand. -/
def declare (w : Walk) (symbol : Symbol) (position : Position) : Walk :=
  let w := w.trace .symbolTable fun _ => s!"Insert({symbol.text})"
  match w.scopes.insert? w.current symbol with
  | some (true, scopes) => { w with scopes }
  | _ => w.fail (.duplicateId symbol.name position)

/-- Opens a scope inside the one at hand and goes there. -/
def enter (w : Walk) (name : String) : Walk :=
  match w.scopes.open? name (some w.current) with
  | some scopes => { w with scopes, current := w.scopes.size }
  | none => w

/-- Goes back to the enclosing scope. -/
def leave (w : Walk) : Walk :=
  let rendered (_ : Unit) := (w.scope?.map w.scopes.render).getD ""
  let w := { w with journal := w.journal.dump .symbols rendered }
  let w := w.trace .analyzer fun _ => s!"LEAVE scope: {w.scopeName}"
  { w with current := (w.scope?.bind (·.enclosing)).getD w.current }

def visitVariable (w : Walk) (v : Variable) : Walk :=
  match w.lookup v.name with
  | (some (.var symbol, owner), w) =>
      { w with vars := w.vars.insert v.id ⟨owner.level, symbol.type⟩ }
  | (some (other, _), w) => w.fail (.wrongSymbolKind v.name .var other.kind v.position)
  | (none, w) => w.fail (.idNotFound v.name v.position)

def visitExpr (w : Walk) : Expr → Walk
  | .var v => w.visitVariable v
  | .binary _ left right _ => (w.visitExpr left).visitExpr right
  | .unary _ operand _ => w.visitExpr operand
  | .literal _ => w

/-- The arguments first, then the name. -/
def visitCall (w : Walk) (c : Call) : Walk :=
  let w := c.args.foldl visitExpr w
  match w.lookup c.name with
  | (some (.procedure p, _), w) =>
      let w :=
        if p.params.length = c.args.length then w
        else w.fail (.wrongParamsNum c.name p.params.length c.args.length c.position)
      { w with calls := w.calls.insert c.id p }
  | (some (other, _), w) => w.fail (.wrongSymbolKind c.name .procedure other.kind c.position)
  | (none, w) => w.fail (.idNotFound c.name c.position)

mutual

/-- In an assignment the value comes before the target. -/
def visitStatement (w : Walk) : Statement → Walk
  | .compound body => w.visitStatements body
  | .assign target value => (w.visitExpr value).visitVariable target
  | .call c => w.visitCall c
  | .write _ args _ => args.foldl visitExpr w
  | .empty => w

def visitStatements (w : Walk) : List Statement → Walk
  | [] => w
  | s :: statements => (w.visitStatement s).visitStatements statements

end

/-- The type that the type name of a declaration stands for. -/
def resolveType (w : Walk) (d : VarDecl) : Option DataType × Walk :=
  match w.lookup d.type.name with
  | (some (.type t, _), w) => (some t, w)
  | (some (other, _), w) =>
      (none, w.fail (.wrongSymbolKind d.type.name .type other.kind d.typePosition))
  | (none, w) => (none, w.fail (.idNotFound d.type.name d.typePosition))

def visitVarDecl (w : Walk) (d : VarDecl) : Walk :=
  let w := w.trace .analyzer fun _ => s!"visit VarDecl {d.name}"
  match w.resolveType d with
  | (some type, w) => w.declare (.var ⟨d.name, type⟩) d.position
  | (none, w) => w

/-- The parameters of a procedure, with their positions. -/
def resolveParams (w : Walk) : List VarDecl → List (VarSymbol × Position) × Walk
  | [] => ([], w)
  | d :: decls =>
      match w.resolveType d with
      | (some type, w) =>
          let (params, w) := w.resolveParams decls
          ((⟨d.name, type⟩, d.position) :: params, w)
      | (none, w) => w.resolveParams decls

/-- Declares a procedure and opens its scope with its parameters in it. The name is declared
outside before the inside is walked, so a procedure can call itself. -/
def openProcedure (w : Walk) (name : String) (position : Position) (params : List VarDecl)
    (block : Block) : Walk :=
  let w := w.trace .analyzer fun _ => s!"visit ProcedureDecl {name}"
  let (params, w) := w.resolveParams params
  let symbol : ProcedureSymbol :=
    { name, params := params.map (·.1), block, level := w.scopeLevel }
  let w := (w.declare (.procedure symbol) position).enter name
  let w := w.trace .analyzer fun _ => s!"ENTER scope: {name} (level {w.scopeLevel})"
  params.foldl (fun w (param, position) => w.declare (.var param) position) w

mutual

def visitBlock (w : Walk) : Block → Walk
  | .mk vars procedures body =>
      ((vars.foldl visitVarDecl w).visitProcedures procedures).visitStatements body

def visitProcedure (w : Walk) : Procedure → Walk
  | .mk name position params block =>
      ((w.openProcedure name position params block).visitBlock block).leave

def visitProcedures (w : Walk) : List Procedure → Walk
  | [] => w
  | p :: procedures => (w.visitProcedure p).visitProcedures procedures

end

def visitProgram (w : Walk) (p : Program) : Walk :=
  let w := w.trace .analyzer fun _ => s!"ENTER scope: global (program {p.name})"
  (w.visitBlock p.block).leave

end Walk

/-- The meaning of all names of a program, or all that is wrong with them. -/
def analyzeProgram (program : Program) (journal : Journal) :
    Except (List SemanticError) Analysis × Journal :=
  let w := (Walk.start journal).visitProgram program
  if w.errors.isEmpty then
    (.ok { scopes := w.scopes, calls := w.calls, vars := w.vars }, w.journal)
  else (.error w.errors.toList, w.journal)

end MiniPascal
