import MiniPascal.Syntax.Tree
import MiniPascal.Text.Line

/-!
The outline of a program: one node to a line, two spaces deeper than the node it belongs to.
-/

namespace MiniPascal

def outlineLine (depth : Nat) (node : String) : String :=
  Text.spaces (2 * depth) ++ node ++ "\n"

def literalOutline : Value → String
  | .integer n => s!"Integer({n.toInt})"
  | .real x => s!"Real({Decimal.plain x})"
  | .string s => s!"Str('{s}')"

namespace Expr

def outline (depth : Nat) : Expr → List String
  | .var v => [outlineLine depth s!"Var({v.name})"]
  | .binary op left right _ =>
      outlineLine depth s!"BinOp({op.symbol})"
        :: left.outline (depth + 1) ++ right.outline (depth + 1)
  | .unary op operand _ =>
      outlineLine depth s!"UnaryOp({op.symbol})" :: operand.outline (depth + 1)
  | .literal v => [outlineLine depth (literalOutline v)]

end Expr

namespace Statement

mutual

def outline (depth : Nat) : Statement → List String
  | .compound body => outlineLine depth "Compound" :: outlineAll (depth + 1) body
  | .assign target value =>
      outlineLine depth s!"Assign({target.name})" :: value.outline (depth + 1)
  | .call c =>
      outlineLine depth s!"ProcedureCall({c.name})" :: c.args.flatMap
        (Expr.outline (depth + 1))
  | .write newline args _ =>
      outlineLine depth (if newline then "Writeln" else "Write")
        :: args.flatMap (Expr.outline (depth + 1))
  | .empty => [outlineLine depth "NoOp"]

def outlineAll (depth : Nat) : List Statement → List String
  | [] => []
  | s :: statements => s.outline depth ++ outlineAll depth statements

end

end Statement

def VarDecl.outline (depth : Nat) (node : String) (d : VarDecl) : String :=
  outlineLine depth s!"{node}({d.name} : {d.type.name})"

mutual

def Block.outline (depth : Nat) : Block → List String
  | .mk vars procedures body =>
      outlineLine depth "Block"
        :: vars.map (VarDecl.outline (depth + 1) "VarDecl")
        ++ Procedure.outlineAll (depth + 1) procedures
        ++ (Statement.compound body).outline (depth + 1)

def Procedure.outline (depth : Nat) : Procedure → List String
  | .mk name _ params block =>
      outlineLine depth s!"ProcedureDecl({name})"
        :: params.map (VarDecl.outline (depth + 1) "Param")
        ++ block.outline (depth + 1)

def Procedure.outlineAll (depth : Nat) : List Procedure → List String
  | [] => []
  | p :: procedures => p.outline depth ++ Procedure.outlineAll depth procedures

end

def Program.outline (p : Program) : String :=
  String.join (outlineLine 0 s!"Program({p.name})" :: p.block.outline 1)

end MiniPascal
