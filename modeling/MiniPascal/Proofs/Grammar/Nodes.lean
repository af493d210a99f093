import MiniPascal.Proofs.Grammar.Acceptance
import MiniPascal.Proofs.Grammar.DerivedTree
import MiniPascal.Token.Stream

/-!
What marks the nodes of a tree: the numbers of its uses and the positions of its nodes. In a
program that is read, whatever the tokens are, the uses are counted off as they are listed, and
every position is that of a token.
-/

namespace MiniPascal

/-! ### Numbers -/

/-- Numbers from zero on tell the places in the list. -/
theorem Grammar.Numbered.map_id_eq_range {uses : List Use} {n : Nat} (h : Numbered 0 uses n) :
    uses.map Use.id = List.range uses.length := by
  obtain ⟨-, hids⟩ := h
  have hlength := congrArg List.length hids
  rw [List.length_map, List.length_range'] at hlength
  rw [hids, hlength, List.range_eq_range']

theorem id_of_getElem? {uses : List Use}
    (h : uses.map Use.id = List.range uses.length) {i : Nat}
    {u : Use} (hu : uses[i]? = some u) : u.id = i := by
  have hid : (uses.map Use.id)[i]? = some u.id := by
    rw [List.getElem?_map, hu, Option.map_some]
  obtain ⟨hlt, -⟩ := List.getElem?_eq_some_iff.mp hu
  rw [h, List.getElem?_range hlt] at hid
  exact (Option.some.inj hid).symm

/-- **Uses are counted off.** Take any tokens that a program is read from, and list its uses of
variables and its calls in the order of the text: procedures before the body of their block,
the target of an assignment before its value, operands from left to right, and a call after its
arguments. Their numbers are then 0, 1, 2 and so on; so no two of them have the same number,
and no number is left out. -/
theorem uses_are_counted_off (tokens : List Token) (settings : Settings) (journal : Journal)
    (program : Program) (h : (parseProgram tokens settings journal).1 = .ok program) :
    program.block.uses.map Use.id = List.range program.block.uses.length ∧
      (∀ (i k : Nat) (u v : Use), program.block.uses[i]? = some u →
        program.block.uses[k]? = some v → u.id = v.id → i = k) ∧
      ∀ n < program.block.uses.length, ∃ u ∈ program.block.uses, u.id = n := by
  obtain ⟨d, -, hderived⟩ := (parseProgram_eq_ok_iff tokens settings journal program).mp h
  obtain ⟨m, hnumbered⟩ := hderived.numbered
  have hids := hnumbered.map_id_eq_range
  refine ⟨hids, fun i k u v hu hv hsame => ?_, fun n hn => ?_⟩
  · rwa [id_of_getElem? hids hu, id_of_getElem? hids hv] at hsame
  · have hu := List.getElem?_eq_getElem hn
    exact ⟨_, List.mem_of_getElem? hu, id_of_getElem? hids hu⟩

/-- A procedure with an assignment, and a call with an argument after it. -/
def countedTokens : List Token :=
  (tokens ("PROGRAM P; PROCEDURE Q; BEGIN X := Y END; " ++
    "BEGIN Q(Z + -A); B := 1 END.")).toOption.getD []

theorem countedTokens_counted_off :
    ∃ program, (parseProgram countedTokens {} { traces := [], dumps := [] }).1 = .ok program ∧
      program.block.uses.map Use.name = ["X", "Y", "Z", "A", "Q", "B"] ∧
      program.block.uses.map Use.id = [0, 1, 2, 3, 4, 5] := by
  have hnames : ((parseProgram countedTokens {} { traces := [], dumps := [] }).1.toOption.any
      fun program => program.block.uses.map Use.name =
        ["X", "Y", "Z", "A", "Q", "B"]) = true := by
    decide +kernel
  cases hread : (parseProgram countedTokens {} { traces := [], dumps := [] }).1 with
  | error e =>
      rw [hread] at hnames
      cases hnames
  | ok program =>
      rw [hread] at hnames
      have hnames := of_decide_eq_true hnames
      obtain ⟨hids, -, -⟩ := uses_are_counted_off countedTokens {} _ program hread
      have hlength := congrArg List.length hnames
      rw [List.length_map] at hlength
      rw [hlength] at hids
      exact ⟨program, rfl, hnames, hids⟩

/-! ### Positions -/

def Expr.positions : Expr → List Position
  | .var v => [v.position]
  | .binary _ left right position => left.positions ++ position :: right.positions
  | .unary _ operand position => position :: operand.positions
  | .literal _ => []

namespace Statement

mutual

def positions : Statement → List Position
  | .compound body => positionsAll body
  | .assign target value => target.position :: value.positions
  | .call c => c.position :: c.args.flatMap Expr.positions
  | .write _ args position => position :: args.flatMap Expr.positions
  | .empty => []

def positionsAll : List Statement → List Position
  | [] => []
  | s :: statements => s.positions ++ positionsAll statements

end

theorem positionsAll_eq_flatMap (body : List Statement) :
    positionsAll body = body.flatMap positions := by
  induction body with
  | nil => rfl
  | cons s body ih => rw [positionsAll, List.flatMap_cons, ih]

theorem positions_subset_of_mem {s : Statement} {body : List Statement} (h : s ∈ body) :
    s.positions ⊆ positionsAll body := by
  intro p hp
  rw [positionsAll_eq_flatMap]
  exact List.mem_flatMap.mpr ⟨s, h, hp⟩

end Statement

def VarDecl.positions (d : VarDecl) : List Position := [d.position, d.typePosition]

mutual

def Block.positions : Block → List Position
  | .mk vars procedures body =>
      vars.flatMap VarDecl.positions ++
        (Procedure.positionsAll procedures ++ Statement.positionsAll body)

def Procedure.positions : Procedure → List Position
  | .mk _ position params block =>
      position :: (params.flatMap VarDecl.positions ++ block.positions)

def Procedure.positionsAll : List Procedure → List Position
  | [] => []
  | p :: procedures => p.positions ++ Procedure.positionsAll procedures

end

theorem Procedure.positionsAll_eq_flatMap (procedures : List Procedure) :
    positionsAll procedures = procedures.flatMap positions := by
  induction procedures with
  | nil => rfl
  | cons p procedures ih => rw [positionsAll, List.flatMap_cons, ih]

namespace Grammar

/-- Every position is that of a token. -/
def Located (ts : List Token) (_ : NodeId) (ps : List Position) (_ : NodeId) : Prop :=
  ps ⊆ ts.map Token.position

theorem additive_located : Additive Located where
  nil _ := List.Subset.refl _
  token _ _ := List.nil_subset _
  append := by
    intro ts us i j k ps qs hps hqs
    rw [Located, List.map_append]
    exact List.append_subset.mpr ⟨List.subset_append_of_subset_left _ hps,
      List.subset_append_of_subset_right _ hqs⟩

theorem located_token (t : Token) (i : NodeId) : Located [t] i [t.position] i :=
  List.Subset.refl _

/-- A node that is marked with the position of its first token. -/
theorem Located.cons {t : Token} {ts : List Token} {i j : NodeId} {ps : List Position}
    (h : Located ts i ps j) : Located (t :: ts) i (t.position :: ps) j :=
  additive_located.append (located_token t i) h

theorem Chain.gathers_positions {Op : Token.Kind → BinaryOp → Prop}
    {Operand : Judgment Expr} {n : Nat} (hoperand : Gathers Located Operand Expr.positions n) :
    Gathers Located (Chain Op Operand) Expr.positions n := by
  intro d ts i e j h hd
  induction h with
  | one he => exact hoperand he hd
  | more _ _ hright ih =>
      obtain ⟨hd, hd'⟩ := Nat.max_le.mp hd
      exact additive_located.append (ih hd) (Located.cons (hoperand hright hd'))

theorem IsFactor.gathers_positions (n : Nat) : Gathers Located IsFactor Expr.positions n := by
  induction n with
  | zero =>
      intro d ts i e j h hd
      cases h with
      | signed _ _ => cases hd
      | parenthesized _ _ _ => cases hd
      | literal _ _ => exact additive_located.token _ i
      | var _ => exact located_token _ i
  | succ n ih =>
      intro d ts i e j h hd
      cases h with
      | literal _ _ => exact additive_located.token _ i
      | var _ => exact located_token _ i
      | signed _ he => exact Located.cons (ih he (Nat.le_of_succ_le_succ hd))
      | parenthesized _ he _ =>
          have hinner := Chain.gathers_positions (Chain.gathers_positions ih) he
            (Nat.le_of_succ_le_succ hd)
          exact additive_located.cons _ (additive_located.append_tokens hinner _)

theorem IsExpr.gathers_positions (n : Nat) : Gathers Located IsExpr Expr.positions n :=
  Chain.gathers_positions (Chain.gathers_positions (IsFactor.gathers_positions n))

theorem IsArguments.gathers_positions (n : Nat) :
    Gathers Located IsArguments (List.flatMap Expr.positions) n :=
  Bracketed.gathers additive_located
    (Separated.gathers additive_located (IsExpr.gathers_positions n))

theorem IsStatement.gathers_positions {n : Nat}
    (hcompound : Gathers Located IsCompound Statement.positionsAll n) :
    Gathers Located IsStatement Statement.positions n := by
  intro d ts i s j h hd
  cases h with
  | compound hbody => exact hcompound hbody hd
  | assign _ _ he =>
      have hvalue := IsExpr.gathers_positions n he hd
      exact Located.cons (additive_located.cons _ hvalue)
  | call _ hargs =>
      have hvalues := IsArguments.gathers_positions n hargs hd
      exact Located.cons hvalues
  | write _ hargs => exact Located.cons (IsArguments.gathers_positions n hargs hd)
  | empty => exact additive_located.nil i

theorem IsCompound.gathers_positions (n : Nat) :
    Gathers Located IsCompound Statement.positionsAll n := by
  induction n with
  | zero =>
      rintro d _ i body j ⟨_, _, _⟩ hd
      cases hd
  | succ n ih =>
      rintro d _ i body j ⟨_, hbody, _⟩ hd
      rw [Statement.positionsAll_eq_flatMap]
      have hinner :=
        Separated.gathers additive_located (IsStatement.gathers_positions ih) hbody
          (Nat.le_of_succ_le_succ hd)
      exact additive_located.cons _ (additive_located.append_tokens hinner _)

/-- The declarations of a group share the position of their type. -/
theorem IsGroup.gathers_positions (n : Nat) :
    Gathers Located IsGroup (List.flatMap VarDecl.positions) n := by
  have hname : Gathers Located IsName (fun name => [name.2]) n := by
    rintro d _ i name j ⟨_⟩ _
    exact located_token _ i
  rintro d _ i decls j ⟨hnames, _, _⟩ hd p hp
  have hplaces := Separated.gathers additive_located hname hnames hd
  obtain ⟨decl, hdecl, hp⟩ := List.mem_flatMap.mp hp
  obtain ⟨name, hmem, rfl⟩ := List.mem_map.mp hdecl
  rw [List.map_append]
  rcases List.mem_cons.mp hp with rfl | hp
  · exact List.mem_append_left _
      (hplaces (List.mem_flatMap.mpr ⟨name, hmem, List.mem_singleton_self _⟩))
  · obtain rfl := List.mem_singleton.mp hp
    exact List.mem_append_right _ (List.mem_cons_of_mem _ (List.mem_singleton_self _))

theorem IsSection.gathers_positions (n : Nat) :
    Gathers Located IsSection (List.flatMap VarDecl.positions) n := by
  have hline : Gathers Located IsLine (List.flatMap VarDecl.positions) n := by
    rintro d _ i decls j ⟨hdecls, _⟩ hd
    exact additive_located.append_tokens (IsGroup.gathers_positions n hdecls hd) _
  rintro d _ i decls j ⟨_, hfirst, hothers⟩ hd
  obtain ⟨hd, hd'⟩ := Nat.max_le.mp hd
  have hrest := Many.gathers additive_located hline hothers hd'
  rw [List.flatMap_append, flatMap_flatten]
  exact additive_located.cons _ (additive_located.append (hline hfirst hd) hrest)

theorem IsProcedure.gathers_positions {n : Nat}
    (hblock : Gathers Located IsBlock Block.positions n) :
    Gathers Located IsProcedure Procedure.positions n := by
  rintro d _ i proc j ⟨_, _, hparams, _, hb, _⟩ hd
  obtain ⟨hd, hd'⟩ := Nat.max_le.mp hd
  have hgroups := Bracketed.gathers additive_located
    (Separated.gathers additive_located (IsGroup.gathers_positions n)) hparams hd
  rw [← flatMap_flatten] at hgroups
  have hinner := additive_located.append_tokens (hblock hb hd')
  exact additive_located.cons _
    (Located.cons (additive_located.append hgroups (additive_located.cons _ (hinner _))))

theorem IsBlock.gathers_positions (n : Nat) : Gathers Located IsBlock Block.positions n := by
  induction n with
  | zero =>
      rintro d _ i b j ⟨_, _, _⟩ hd
      cases hd
  | succ n ih =>
      rintro d _ i b j ⟨hsections, hprocedures, hbody⟩ hd
      obtain ⟨hd, hd'⟩ := Nat.max_le.mp (Nat.le_of_succ_le_succ hd)
      obtain ⟨hd', hd''⟩ := Nat.max_le.mp hd'
      have hvars := Many.gathers additive_located (IsSection.gathers_positions n) hsections hd
      have hprocs :=
        Many.gathers additive_located (IsProcedure.gathers_positions ih) hprocedures hd'
      rw [← flatMap_flatten] at hvars
      rw [← Procedure.positionsAll_eq_flatMap] at hprocs
      exact additive_located.append hvars
        (additive_located.append hprocs (IsCompound.gathers_positions n hbody hd''))

/-- Every position in the block of a program is that of one of its tokens. -/
theorem IsProgram.positions_subset {d : Nat} {ts : List Token} {program : Program}
    (h : IsProgram d ts program) : program.block.positions ⊆ ts.map Token.position := by
  obtain ⟨_, _, _, hblock, _⟩ := h
  have hinner :=
    additive_located.append_tokens (IsBlock.gathers_positions d hblock (Nat.le_refl d))
  exact additive_located.cons _ (additive_located.cons _ (additive_located.cons _ (hinner _)))

end Grammar

end MiniPascal
