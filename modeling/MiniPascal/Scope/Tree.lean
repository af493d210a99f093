import MiniPascal.Scope.Symbol
import MiniPascal.Text.Line
import Std.Data.TreeMap

/-!
Scopes and the tree that they form. A scope keeps its symbols in the order of their
declaration, each name once, and an index from names to their places. A scope opened inside
another one comes after it, so the way outwards leads to ever smaller numbers and ends.
-/

namespace MiniPascal

/-- The place of a scope in its tree, counted from zero. -/
abbrev ScopeId := Nat

structure Scope where
  name : String
  level : Nat
  enclosing : Option ScopeId
  symbols : Array Symbol := #[]
  /-- The places of the symbols under their names. -/
  index : Std.TreeMap String Nat := {}
  deriving Inhabited

namespace Scope

/-- The symbol of that name in this scope alone. -/
def find? (s : Scope) (name : String) : Option Symbol := s.index[name]?.bind (s.symbols[·]?)

/-- The scope with one more symbol at its end, filed under its name. -/
def push (s : Scope) (symbol : Symbol) : Scope :=
  { s with
    symbols := s.symbols.push symbol
    index := s.index.insert symbol.name s.symbols.size }

@[simp]
theorem name_push (s : Scope) (symbol : Symbol) : (s.push symbol).name = s.name := rfl

@[simp]
theorem level_push (s : Scope) (symbol : Symbol) : (s.push symbol).level = s.level := rfl

@[simp]
theorem enclosing_push (s : Scope) (symbol : Symbol) :
    (s.push symbol).enclosing = s.enclosing :=
  rfl

@[simp]
theorem symbols_push (s : Scope) (symbol : Symbol) :
    (s.push symbol).symbols = s.symbols.push symbol := rfl

@[simp]
theorem getElem?_index_push (s : Scope) (symbol : Symbol) (name : String) :
    (s.push symbol).index[name]? = if symbol.name = name then some s.symbols.size
      else s.index[name]? := by
  simp [push, Std.TreeMap.getElem?_insert]

/-- Adds a symbol, unless its name is taken. -/
def insert? (s : Scope) (symbol : Symbol) : Option Scope :=
  if symbol.name ∈ s.index then none else some (s.push symbol)

end Scope

structure ScopeTree where
  scopes : Array Scope := #[]
  deriving Inhabited

namespace ScopeTree

def size (t : ScopeTree) : Nat := t.scopes.size

def get? (t : ScopeTree) (id : ScopeId) : Option Scope := t.scopes[id]?

/-- Opens a scope, inside another one if that is given. There is no tree if the other one does
not exist. -/
def open? (t : ScopeTree) (name : String) (enclosing : Option ScopeId) : Option ScopeTree :=
  match enclosing with
  | none => some { t with scopes := t.scopes.push { name, level := 1, enclosing := none } }
  | some id => do
      let outer ← t.get? id
      some { t with scopes := t.scopes.push { name, level := outer.level + 1, enclosing } }

/-- Adds a symbol to the scope `id`, and says whether its name was free. There is no answer if
the scope does not exist. -/
def insert? (t : ScopeTree) (id : ScopeId) (symbol : Symbol) : Option (Bool × ScopeTree) := do
  let s ← t.get? id
  match s.insert? symbol with
  | some s => some (true, { t with scopes := t.scopes.setIfInBounds id s })
  | none => some (false, t)

/-- At most `n` scopes on the way outwards from `id`. -/
def chainUpTo (t : ScopeTree) : Nat → ScopeId → List Scope
  | 0, _ => []
  | n + 1, id =>
      match t.get? id with
      | none => []
      | some s =>
          match s.enclosing with
          | none => [s]
          | some outer => s :: t.chainUpTo n outer

/-- The scopes on the way outwards from `id`, which itself comes first. -/
def chain (t : ScopeTree) (id : ScopeId) : List Scope := t.chainUpTo t.size id

/-- What a name means at `id`: the symbol in the nearest scope that has one, and that scope. -/
def lookup (t : ScopeTree) (id : ScopeId) (name : String) : Option (Symbol × Scope) :=
  (t.chain id).findSome? fun s => (s.find? name).map (·, s)

/-- One scope as a table. -/
def render (t : ScopeTree) (s : Scope) : String :=
  let head := ["-----SCOPED SYMBOL TABLE-----", s!"Scope name     : {s.name}",
    s!"Scope level    : {s.level}"]
  let outer := (s.enclosing.bind t.get?).toList.map fun o => s!"Enclosing Scope: {o.name}"
  let rows := s.symbols.toList.map fun symbol =>
    s!"{Text.alignRight 15 symbol.name}:{symbol.text}"
  "\n".intercalate (head ++ outer ++ rows ++ ["-----(SCOPED SYMBOL TABLE)-----"])

end ScopeTree

end MiniPascal
