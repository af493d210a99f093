import MiniPascal.Proofs.Scope.View

/-!
Two ways to change a program. The bare tree leaves out what a text can say in more than one
way: where things stand, how uses are numbered, and empty statements. The leveled tree has at
every name the level of the scope that declares it.
-/

namespace MiniPascal

/-! ### Bare trees -/

def Variable.bare (v : Variable) : Variable := ⟨v.name, 0, .start⟩

def Expr.bare : Expr → Expr
  | .var v => .var v.bare
  | .binary op left right _ => .binary op left.bare right.bare .start
  | .unary op operand _ => .unary op operand.bare .start
  | .literal v => .literal v

def Call.bare (c : Call) : Call := ⟨c.name, c.args.map Expr.bare, 0, .start⟩

namespace Statement

def isEmpty : Statement → Bool
  | .empty => true
  | _ => false

mutual

def bare : Statement → Statement
  | .compound body => .compound (bareAll body)
  | .assign target value => .assign target.bare value.bare
  | .call c => .call c.bare
  | .write newline args _ => .write newline (args.map Expr.bare) .start
  | .empty => .empty

/-- Empty statements are left out. -/
def bareAll : List Statement → List Statement
  | [] => []
  | s :: body => if s.isEmpty then bareAll body else s.bare :: bareAll body

end

@[simp]
theorem isEmpty_bare (s : Statement) : s.bare.isEmpty = s.isEmpty := by
  cases s <;> rfl

@[simp]
theorem bareAll_append (body others : List Statement) :
    bareAll (body ++ others) = bareAll body ++ bareAll others := by
  induction body with
  | nil => rfl
  | cons s body ih =>
      rw [List.cons_append, bareAll, bareAll, ih]
      split <;> rfl

end Statement

def VarDecl.bare (d : VarDecl) : VarDecl := ⟨d.name, .start, d.type, .start⟩

mutual

def Block.bare : Block → Block
  | .mk vars procedures body =>
      .mk (vars.map VarDecl.bare) (Procedure.bareAll procedures) (Statement.bareAll body)

def Procedure.bare : Procedure → Procedure
  | .mk name _ params block => .mk name .start (params.map VarDecl.bare) block.bare

def Procedure.bareAll : List Procedure → List Procedure
  | [] => []
  | p :: procedures => p.bare :: Procedure.bareAll procedures

end

theorem Procedure.bareAll_eq_map (procedures : List Procedure) :
    bareAll procedures = procedures.map bare := by
  induction procedures with
  | nil => rfl
  | cons p procedures ih => rw [bareAll, List.map_cons, ih]

def Program.bare (p : Program) : Program := ⟨p.name, p.block.bare, .start⟩

/-! ### Names with levels -/

/-- The name with the decimal digits of the level behind it. -/
def leveled (name : String) (level : Nat) : String := name ++ toString level

/-- The level of the scope that declares the name. -/
def View.level (view : View) (name : String) : Nat :=
  ((View.resolve? name view).map Prod.snd).getD 0

def Variable.leveled (view : View) (v : Variable) : Variable :=
  { v with name := MiniPascal.leveled v.name (view.level v.name) }

def Expr.leveled (view : View) : Expr → Expr
  | .var v => .var (v.leveled view)
  | .binary op left right position =>
      .binary op (left.leveled view) (right.leveled view) position
  | .unary op operand position => .unary op (operand.leveled view) position
  | .literal v => .literal v

def Call.leveled (view : View) (c : Call) : Call :=
  { c with
    name := MiniPascal.leveled c.name (view.level c.name)
    args := c.args.map (Expr.leveled view) }

namespace Statement

mutual

def leveled (view : View) : Statement → Statement
  | .compound body => .compound (leveledAll view body)
  | .assign target value => .assign (target.leveled view) (value.leveled view)
  | .call c => .call (c.leveled view)
  | .write newline args position => .write newline (args.map (Expr.leveled view)) position
  | .empty => .empty

def leveledAll (view : View) : List Statement → List Statement
  | [] => []
  | s :: body => s.leveled view :: leveledAll view body

end

@[simp]
theorem isEmpty_leveled (view : View) (s : Statement) :
    (s.leveled view).isEmpty = s.isEmpty := by
  cases s <;> rfl

end Statement

/-- The declaration at a level. -/
def VarDecl.leveled (level : Nat) (d : VarDecl) : VarDecl :=
  { d with name := MiniPascal.leveled d.name level }

mutual

/-- A block in a scope that has the declarations `opening` already. -/
def Block.leveled (opening : List Declaration) (outer : View) : Block → Block
  | .mk vars procedures body =>
      .mk (vars.map (VarDecl.leveled (outer.length + 1)))
        (Procedure.leveledAll (opening ++ vars.map .var) outer procedures)
        (Statement.leveledAll
          ((opening ++ vars.map .var ++ procedures.map .procedure) :: outer) body)

/-- A procedure sees the declarations before it and its own name. -/
def Procedure.leveled (earlier : List Declaration) (outer : View) : Procedure → Procedure
  | .mk name position params block =>
      .mk (MiniPascal.leveled name (outer.length + 1)) position
        (params.map (VarDecl.leveled (outer.length + 2)))
        (block.leveled (params.map .var)
          ((earlier ++ [.procedure (.mk name position params block)]) :: outer))

def Procedure.leveledAll (earlier : List Declaration) (outer : View) :
    List Procedure → List Procedure
  | [] => []
  | p :: procedures =>
      p.leveled earlier outer :: Procedure.leveledAll
        (earlier ++ [.procedure p]) outer procedures

end

/-- The program itself is declared outside of all scopes. -/
def Program.leveled (p : Program) : Program :=
  { p with
    name := MiniPascal.leveled p.name 0
    block := p.block.leveled Declaration.predeclared [] }

end MiniPascal
