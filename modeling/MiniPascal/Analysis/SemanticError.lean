import MiniPascal.ErrorCode
import MiniPascal.Scope.Symbol

/-!
What can be wrong with the names of a program.
-/

namespace MiniPascal

inductive SemanticError where
  | idNotFound (name : String) (position : Position)
  | duplicateId (name : String) (position : Position)
  | wrongParamsNum (name : String) (expected found : Nat) (position : Position)
  | wrongSymbolKind (name : String) (expected actual : SymbolKind) (position : Position)
  deriving DecidableEq

namespace SemanticError

def code : SemanticError → ErrorCode
  | .idNotFound _ _ => .idNotFound
  | .duplicateId _ _ => .duplicateId
  | .wrongParamsNum _ _ _ _ => .wrongParamsNum
  | .wrongSymbolKind _ _ _ _ => .wrongSymbolKind

/-- The name in question. -/
def name : SemanticError → String
  | .idNotFound name _ => name
  | .duplicateId name _ => name
  | .wrongParamsNum name _ _ _ => name
  | .wrongSymbolKind name _ _ _ => name

def position : SemanticError → Position
  | .idNotFound _ p => p
  | .duplicateId _ p => p
  | .wrongParamsNum _ _ _ p => p
  | .wrongSymbolKind _ _ _ p => p

def message : SemanticError → String
  | .idNotFound name p => s!"Identifier not found: '{name}' at {p.text}"
  | .duplicateId name p => s!"Duplicate id found: '{name}' at {p.text}"
  | .wrongParamsNum name expected found p =>
      s!"procedure '{name}' expects {expected} argument(s) but {found} given at {p.text}"
  | .wrongSymbolKind name expected actual p =>
      s!"'{name}' is a {actual.name}, expected a {expected.name} at {p.text}"

end SemanticError

end MiniPascal
