import MiniPascal.Proofs.Scope.View

/-!
Trees with other names. `mapNames f` puts `f name` for every name that a tree declares or uses,
wherever it stands; the name of the program is none of these. Everything else about the tree
stays as it is: the positions, the numbers of the uses, the types and the literals.
-/

namespace MiniPascal

def Variable.mapNames (f : String → String) (v : Variable) : Variable :=
  { v with name := f v.name }

def Expr.mapNames (f : String → String) : Expr → Expr
  | .var v => .var (v.mapNames f)
  | .binary op left right position => .binary op (left.mapNames f) (right.mapNames f) position
  | .unary op operand position => .unary op (operand.mapNames f) position
  | .literal v => .literal v

def Call.mapNames (f : String → String) (c : Call) : Call :=
  { c with name := f c.name, args := c.args.map (Expr.mapNames f) }

namespace Statement

mutual

def mapNames (f : String → String) : Statement → Statement
  | .compound body => .compound (mapNamesAll f body)
  | .assign target value => .assign (target.mapNames f) (value.mapNames f)
  | .call c => .call (c.mapNames f)
  | .write newline args position => .write newline (args.map (Expr.mapNames f)) position
  | .empty => .empty

def mapNamesAll (f : String → String) : List Statement → List Statement
  | [] => []
  | s :: body => s.mapNames f :: mapNamesAll f body

end

end Statement

def VarDecl.mapNames (f : String → String) (d : VarDecl) : VarDecl :=
  { d with name := f d.name }

mutual

def Block.mapNames (f : String → String) : Block → Block
  | .mk vars procedures body =>
      .mk (vars.map (VarDecl.mapNames f)) (Procedure.mapNamesAll f procedures)
        (Statement.mapNamesAll f body)

def Procedure.mapNames (f : String → String) : Procedure → Procedure
  | .mk name position params block =>
      .mk (f name) position (params.map (VarDecl.mapNames f)) (block.mapNames f)

def Procedure.mapNamesAll (f : String → String) : List Procedure → List Procedure
  | [] => []
  | p :: procedures => p.mapNames f :: Procedure.mapNamesAll f procedures

end

def Program.mapNames (f : String → String) (program : Program) : Program :=
  { program with block := program.block.mapNames f }

section

variable {f g : String → String}

theorem Procedure.mapNamesAll_eq_map (f : String → String) (procedures : List Procedure) :
    mapNamesAll f procedures = procedures.map (mapNames f) := by
  induction procedures with
  | nil => rfl
  | cons p procedures ih => rw [mapNamesAll, List.map_cons, ih]

@[simp]
theorem Procedure.name_mapNames (f : String → String) (p : Procedure) :
    (p.mapNames f).name = f p.name := by
  cases p
  rfl

@[simp]
theorem Procedure.params_mapNames (f : String → String) (p : Procedure) :
    (p.mapNames f).params = p.params.map (VarDecl.mapNames f) := by
  cases p
  rfl

@[simp]
theorem Procedure.block_mapNames (f : String → String) (p : Procedure) :
    (p.mapNames f).block = p.block.mapNames f := by
  cases p
  rfl

@[simp]
theorem Block.vars_mapNames (f : String → String) (b : Block) :
    (b.mapNames f).vars = b.vars.map (VarDecl.mapNames f) := by
  cases b
  rfl

@[simp]
theorem Block.procedures_mapNames (f : String → String) (b : Block) :
    (b.mapNames f).procedures = b.procedures.map (Procedure.mapNames f) := by
  cases b
  exact Procedure.mapNamesAll_eq_map f _

@[simp]
theorem Block.body_mapNames (f : String → String) (b : Block) :
    (b.mapNames f).body = Statement.mapNamesAll f b.body := by
  cases b
  rfl

@[simp]
theorem VarDecl.map_name_mapNames (f : String → String) (decls : List VarDecl) :
    (decls.map (mapNames f)).map VarDecl.name = (decls.map VarDecl.name).map f := by
  rw [List.map_map, List.map_map]
  rfl

/-! ### Uses and declared names -/

def Use.mapNames (f : String → String) : Use → Use
  | .var v => .var (v.mapNames f)
  | .call c => .call (c.mapNames f)

@[simp]
theorem Use.id_mapNames (f : String → String) (u : Use) : (u.mapNames f).id = u.id := by
  cases u <;> rfl

@[simp]
theorem Use.name_mapNames (f : String → String) (u : Use) :
    (u.mapNames f).name = f u.name := by
  cases u <;> rfl

@[simp]
theorem Expr.uses_mapNames (f : String → String) (e : Expr) :
    (e.mapNames f).uses = e.uses.map (Use.mapNames f) := by
  induction e with
  | var v => rfl
  | binary op left right position ihl ihr =>
      rw [mapNames, uses, ihl, ihr, uses, List.map_append]
  | unary op operand position ih => exact ih
  | literal v => rfl

theorem Expr.flatMap_uses_mapNames (f : String → String) (args : List Expr) :
    (args.map (mapNames f)).flatMap uses = (args.flatMap uses).map (Use.mapNames f) := by
  induction args with
  | nil => rfl
  | cons e args ih =>
      rw [List.map_cons, List.flatMap_cons, ih, uses_mapNames, List.flatMap_cons,
        List.map_append]

namespace Statement

mutual

theorem uses_mapNames (f : String → String) :
    ∀ s : Statement, (s.mapNames f).uses = s.uses.map (Use.mapNames f)
  | .compound body => usesAll_mapNames f body
  | .assign target value => by
      rw [mapNames, uses, Expr.uses_mapNames, uses, List.map_cons]
      rfl
  | .call c => by
      rw [mapNames, uses, uses, List.map_append, ← Expr.flatMap_uses_mapNames]
      rfl
  | .write _ args _ => Expr.flatMap_uses_mapNames f args
  | .empty => rfl

theorem usesAll_mapNames (f : String → String) :
    ∀ body : List Statement, usesAll (mapNamesAll f body) = (usesAll body).map (Use.mapNames f)
  | [] => rfl
  | s :: body => by
      rw [mapNamesAll, usesAll, uses_mapNames f s, usesAll_mapNames f body, usesAll,
        List.map_append]

end

end Statement

mutual

theorem Block.uses_mapNames (f : String → String) :
    ∀ b : Block, (b.mapNames f).uses = b.uses.map (Use.mapNames f)
  | .mk vars procedures body => by
      rw [Block.mapNames, Block.uses, Procedure.usesAll_mapNames f procedures,
        Statement.usesAll_mapNames, Block.uses, List.map_append]

theorem Procedure.usesAll_mapNames (f : String → String) : ∀ procedures : List Procedure,
    Procedure.usesAll (Procedure.mapNamesAll f procedures) =
      (Procedure.usesAll procedures).map (Use.mapNames f)
  | [] => rfl
  | .mk name position params block :: procedures => by
      rw [Procedure.mapNamesAll, Procedure.mapNames, Procedure.usesAll, Procedure.uses,
        Block.uses_mapNames f block, Procedure.usesAll_mapNames f procedures,
        Procedure.usesAll, Procedure.uses, List.map_append]

end

mutual

theorem Block.names_mapNames (f : String → String) :
    ∀ b : Block, (b.mapNames f).names = b.names.map f
  | .mk vars procedures body => by
      rw [Block.mapNames, Block.names, Procedure.namesAll_mapNames f procedures,
        VarDecl.map_name_mapNames, Block.names, List.map_append]

theorem Procedure.namesAll_mapNames (f : String → String) : ∀ procedures : List Procedure,
    Procedure.namesAll (Procedure.mapNamesAll f procedures) =
      (Procedure.namesAll procedures).map f
  | [] => rfl
  | .mk name position params block :: procedures => by
      rw [Procedure.mapNamesAll, Procedure.mapNames, Procedure.namesAll, Procedure.names,
        Block.names_mapNames f block, Procedure.namesAll_mapNames f procedures,
        VarDecl.map_name_mapNames, Procedure.namesAll, Procedure.names, List.map_append,
        List.map_cons, List.map_append]

end

theorem Procedure.map_name_subset_namesAll (procedures : List Procedure) :
    procedures.map Procedure.name ⊆ Procedure.namesAll procedures := by
  induction procedures with
  | nil => exact List.Subset.refl []
  | cons p procedures ih =>
      obtain ⟨name, position, params, block⟩ := p
      rw [namesAll, names, List.map_cons]
      refine List.cons_subset.mpr ⟨List.mem_append_left _ List.mem_cons_self, ?_⟩
      exact List.subset_append_of_subset_right _ ih

/-! ### Names that are put back -/

theorem VarDecl.mapNames_mapNames_eq_self {d : VarDecl} (h : g (f d.name) = d.name) :
    (d.mapNames f).mapNames g = d := by
  obtain ⟨name, position, type, typePosition⟩ := d
  exact congrArg (VarDecl.mk · position type typePosition) h

theorem VarDecl.map_mapNames_eq_self {decls : List VarDecl}
    (h : ∀ d ∈ decls, g (f d.name) = d.name) :
    (decls.map (mapNames f)).map (mapNames g) = decls := by
  rw [List.map_map]
  exact (List.map_congr_left fun d hd => mapNames_mapNames_eq_self (h d hd)).trans
    (List.map_id _)

theorem Variable.mapNames_mapNames_eq_self {v : Variable} (h : g (f v.name) = v.name) :
    (v.mapNames f).mapNames g = v := by
  obtain ⟨name, id, position⟩ := v
  exact congrArg (Variable.mk · id position) h

theorem Expr.mapNames_mapNames_eq_self {e : Expr} (h : ∀ u ∈ e.uses, g (f u.name) = u.name) :
    (e.mapNames f).mapNames g = e := by
  induction e with
  | var v =>
      have hv := h (.var v) (List.mem_singleton.mpr rfl)
      exact congrArg Expr.var (Variable.mapNames_mapNames_eq_self hv)
  | binary op left right position ihl ihr =>
      obtain ⟨hl, hr⟩ := List.forall_mem_append.mp h
      rw [mapNames, mapNames, ihl hl, ihr hr]
  | unary op operand position ih => rw [mapNames, mapNames, ih h]
  | literal v => rfl

theorem Expr.map_mapNames_eq_self {args : List Expr}
    (h : ∀ u ∈ args.flatMap uses, g (f u.name) = u.name) :
    (args.map (mapNames f)).map (mapNames g) = args := by
  rw [List.map_map]
  refine (List.map_congr_left fun e he => ?_).trans (List.map_id _)
  exact mapNames_mapNames_eq_self fun u hu => h u (List.mem_flatMap.mpr ⟨e, he, hu⟩)

namespace Statement

mutual

theorem mapNames_mapNames_eq_self : ∀ s : Statement, (∀ u ∈ s.uses, g (f u.name) = u.name) →
    (s.mapNames f).mapNames g = s
  | .compound body, h => congrArg compound (mapNamesAll_mapNamesAll_eq_self body h)
  | .assign target value, h => by
      obtain ⟨htarget, hvalue⟩ := List.forall_mem_cons.mp h
      rw [mapNames, mapNames, Variable.mapNames_mapNames_eq_self htarget,
        Expr.mapNames_mapNames_eq_self hvalue]
  | .call c, h => by
      obtain ⟨hargs, hcall⟩ := List.forall_mem_append.mp h
      obtain ⟨name, args, id, position⟩ := c
      have hname : g (f name) = name := hcall _ (List.mem_singleton.mpr rfl)
      rw [mapNames, mapNames, Call.mapNames, Call.mapNames]
      dsimp only
      rw [hname, Expr.map_mapNames_eq_self hargs]
  | .write newline args position, h => by
      rw [mapNames, mapNames, Expr.map_mapNames_eq_self h]
  | .empty, _ => rfl

theorem mapNamesAll_mapNamesAll_eq_self : ∀ body : List Statement,
    (∀ u ∈ usesAll body, g (f u.name) = u.name) → mapNamesAll g (mapNamesAll f body) = body
  | [], _ => rfl
  | s :: body, h => by
      obtain ⟨hs, hbody⟩ := List.forall_mem_append.mp h
      rw [mapNamesAll, mapNamesAll, mapNames_mapNames_eq_self s hs,
        mapNamesAll_mapNamesAll_eq_self body hbody]

end

end Statement

end

end MiniPascal
