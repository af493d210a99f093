import MiniPascal.Syntax.Tree

/-!
Symbols: what a name can stand for.
-/

namespace MiniPascal

/-- A variable or a parameter. -/
structure VarSymbol where
  name : String
  type : DataType
  deriving DecidableEq, Inhabited

def VarSymbol.text (v : VarSymbol) : String := s!"{v.name}:{v.type.name}"

structure ProcedureSymbol where
  name : String
  params : List VarSymbol
  block : Block
  /-- The level of the scope that declares the procedure. Its own scope is one level deeper. -/
  level : Nat
  deriving Inhabited

inductive SymbolKind where
  | type
  | var
  | procedure
  deriving DecidableEq

namespace SymbolKind

def all : List SymbolKind := [.type, .var, .procedure]

def name : SymbolKind → String
  | .type => "type"
  | .var => "variable"
  | .procedure => "procedure"

def ofName? (s : String) : Option SymbolKind := all.find? (·.name = s)

end SymbolKind

inductive Symbol where
  | type (t : DataType)
  | var (v : VarSymbol)
  | procedure (p : ProcedureSymbol)
  deriving Inhabited

namespace Symbol

def name : Symbol → String
  | .type t => t.name
  | .var v => v.name
  | .procedure p => p.name

def kind : Symbol → SymbolKind
  | .type _ => .type
  | .var _ => .var
  | .procedure _ => .procedure

def text : Symbol → String
  | .type t => s!"<BuiltinTypeSymbol(name='{t.name}')>"
  | .var v => s!"<VarSymbol(name='{v.name}', type='{v.type.name}')>"
  | .procedure p =>
      let params := ", ".intercalate (p.params.map VarSymbol.text)
      s!"<ProcedureSymbol(name={p.name}, parameters=[{params}])>"

end Symbol

end MiniPascal
