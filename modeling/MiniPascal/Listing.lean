import MiniPascal.Analysis.Walk

/-!
The listing of a program: its text, laid out anew, with the level of its scope at every name
and the type at every use of a variable.
-/

namespace MiniPascal

def listingLine (depth : Nat) (text : String) : String :=
  Text.spaces (3 * depth) ++ text ++ "\n"

/-- A real with digits after its point, as it can be read again. -/
def realListing (x : Float) : String :=
  let text := Decimal.plain x
  if text.toList.contains '.' then text else text ++ ".0"

def literalListing : Value → String
  | .integer n => toString n.toInt
  | .real x => realListing x
  | .string s => s!"'{s}'"

namespace Analysis

def variableListing (a : Analysis) (v : Variable) : String :=
  match a.binding? v.id with
  | some binding => s!"<{v.name}{binding.level}:{binding.type.name}>"
  | none => s!"<{v.name}?>"

/-- An operand that is itself an operation with two operands stands in parentheses. -/
def operandListing : Expr → String → String
  | .binary _ _ _ _, text => s!"({text})"
  | _, text => text

def exprListing (a : Analysis) : Expr → String
  | .var v => a.variableListing v
  | .binary op left right _ =>
      let l := operandListing left (a.exprListing left)
      let r := operandListing right (a.exprListing right)
      s!"{l} {op.symbol} {r}"
  | .unary op operand _ => op.symbol ++ operandListing operand (a.exprListing operand)
  | .literal v => literalListing v

def argsListing (a : Analysis) (args : List Expr) : String :=
  ", ".intercalate (args.map a.exprListing)

def callListing (a : Analysis) (c : Call) : String :=
  let level := ((a.procedure? c.id).map fun p => toString p.level).getD ""
  s!"{c.name}{level}({a.argsListing c.args});"

mutual

def statementListing (a : Analysis) (depth : Nat) : Statement → List String
  | .compound body =>
      listingLine depth "begin" :: a.statementsListing (depth + 1) body
        ++ [listingLine depth "end;"]
  | .assign target value =>
      [listingLine depth s!"{a.variableListing target} := {a.exprListing value};"]
  | .call c => [listingLine depth (a.callListing c)]
  | .write newline args _ =>
      let word := if newline then "writeln" else "write"
      [listingLine depth s!"{word}({a.argsListing args});"]
  | .empty => []

def statementsListing (a : Analysis) (depth : Nat) : List Statement → List String
  | [] => []
  | s :: statements => a.statementListing depth s ++ a.statementsListing depth statements

end

end Analysis

/-- A declared name with its level, and its type. -/
def VarDecl.listing (level : Nat) (d : VarDecl) : String := s!"{d.name}{level} : {d.type.name}"

def headerListing (level : Nat) (name : String) (params : List VarDecl) : String :=
  let list := "; ".intercalate (params.map (VarDecl.listing (level + 1)))
  if params.isEmpty then s!"procedure {name}{level};" else s!"procedure {name}{level}({list});"

/-- The word that ends a block, with a remark on what ends. -/
def endListing (stop name : String) : String := s!"end{stop} \x7bEND OF {name}\x7d"

namespace Analysis

mutual

/-- A block whose names are declared at `level`, up to its last `end`. -/
def blockListing (a : Analysis) (level : Nat) : Block → List String
  | .mk vars procedures body =>
      vars.map (fun d => listingLine level s!"var {d.listing level};")
        ++ a.proceduresListing level procedures
        ++ "\n" :: listingLine (level - 1) "begin"
        :: a.statementsListing level body

def procedureListing (a : Analysis) (level : Nat) : Procedure → List String
  | .mk name _ params block =>
      listingLine level (headerListing level name params)
        :: a.blockListing (level + 1) block
        ++ [listingLine level (endListing ";" name)]

def proceduresListing (a : Analysis) (level : Nat) : List Procedure → List String
  | [] => []
  | p :: procedures => a.procedureListing level p ++ a.proceduresListing level procedures

end

def listing (a : Analysis) (p : Program) : String :=
  String.join (listingLine 0 s!"program {p.name}0;" :: a.blockListing 1 p.block
    ++ [listingLine 0 (endListing "." p.name)])

end Analysis

end MiniPascal
