import MiniPascal.Syntax.Tree

/-!
The uses of names in a tree, and the names that it declares. Uses are listed in the order in
which the parser numbers them: procedures before the body of their block, the target of an
assignment before its value, the arguments of a call before the call.
-/

namespace MiniPascal

/-- A place where a name is used. -/
inductive Use where
  | var (v : Variable)
  | call (c : Call)

def Use.id : Use → NodeId
  | .var v => v.id
  | .call c => c.id

def Use.name : Use → String
  | .var v => v.name
  | .call c => c.name

def Expr.uses : Expr → List Use
  | .var v => [.var v]
  | .binary _ left right _ => left.uses ++ right.uses
  | .unary _ operand _ => operand.uses
  | .literal _ => []

namespace Statement

mutual

def uses : Statement → List Use
  | .compound body => usesAll body
  | .assign target value => .var target :: value.uses
  | .call c => c.args.flatMap Expr.uses ++ [.call c]
  | .write _ args _ => args.flatMap Expr.uses
  | .empty => []

def usesAll : List Statement → List Use
  | [] => []
  | s :: statements => s.uses ++ usesAll statements

end

theorem usesAll_eq_flatMap (body : List Statement) : usesAll body = body.flatMap uses := by
  induction body with
  | nil => rfl
  | cons s body ih => rw [usesAll, List.flatMap_cons, ih]

end Statement

mutual

def Block.uses : Block → List Use
  | .mk _ procedures body => Procedure.usesAll procedures ++ Statement.usesAll body

def Procedure.uses : Procedure → List Use
  | .mk _ _ _ block => block.uses

def Procedure.usesAll : List Procedure → List Use
  | [] => []
  | p :: procedures => p.uses ++ Procedure.usesAll procedures

end

theorem Block.uses_eq (b : Block) :
    b.uses = Procedure.usesAll b.procedures ++ Statement.usesAll b.body := by
  cases b
  rfl

theorem Procedure.usesAll_eq_flatMap (procedures : List Procedure) :
    usesAll procedures = procedures.flatMap uses := by
  induction procedures with
  | nil => rfl
  | cons p procedures ih => rw [usesAll, List.flatMap_cons, ih]

mutual

/-- All names that are declared in a block, inside its procedures too. -/
def Block.names : Block → List String
  | .mk vars procedures _ => vars.map VarDecl.name ++ Procedure.namesAll procedures

def Procedure.names : Procedure → List String
  | .mk name _ params block => name :: (params.map VarDecl.name ++ block.names)

def Procedure.namesAll : List Procedure → List String
  | [] => []
  | p :: procedures => p.names ++ Procedure.namesAll procedures

end

theorem Procedure.namesAll_eq_flatMap (procedures : List Procedure) :
    namesAll procedures = procedures.flatMap names := by
  induction procedures with
  | nil => rfl
  | cons p procedures ih => rw [namesAll, List.flatMap_cons, ih]

end MiniPascal
