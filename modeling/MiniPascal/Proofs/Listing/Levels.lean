import MiniPascal.Listing
import MiniPascal.Proofs.Analysis.Resolution

/-!
Levels in a listing. Declarations are listed with the level that the emitter counts on its way
into the blocks, and uses with the level that the analysis has filed. The listing is taken
apart into marks; from the marks before some place a reader can tell which blocks are open
there, and what they have declared so far. The main statement is that every use stands in an
open block that has declared its name with the level and the type of the use, and that no block
further inside has declared the name.
-/

namespace MiniPascal

/-! ### Marks -/

/-- A part of a listing. -/
inductive Mark where
  | program (name : String)
  | var (level : Nat) (d : VarDecl)
  | header (level : Nat) (name : String) (params : List VarDecl)
  | footer (level : Nat) (stop name : String)
  | reference (v : Variable)
  /-- The name of a call and its level, without the arguments. -/
  | call (c : Call)
  | other (text : String)

namespace Mark

def text (a : Analysis) : Mark → String
  | .program name => listingLine 0 s!"program {name}0;"
  | .var level d => listingLine level s!"var {d.listing level};"
  | .header level name params => listingLine level (headerListing level name params)
  | .footer level stop name => listingLine level (endListing stop name)
  | .reference v => a.variableListing v
  | .call c => c.name ++ ((a.procedure? c.id).map fun p => toString p.level).getD ""
  | .other text => text

def use? : Mark → Option Use
  | .reference v => some (.var v)
  | .call c => some (.call c)
  | _ => none

def textAll (a : Analysis) (marks : List Mark) : String := String.join (marks.map (text a))

@[simp]
theorem textAll_nil (a : Analysis) : textAll a [] = "" := String.join_nil

@[simp]
theorem textAll_cons (a : Analysis) (m : Mark) (marks : List Mark) :
    textAll a (m :: marks) = m.text a ++ textAll a marks := String.join_cons

@[simp]
theorem textAll_append (a : Analysis) (marks others : List Mark) :
    textAll a (marks ++ others) = textAll a marks ++ textAll a others := by
  rw [textAll, List.map_append, String.join_append, textAll, textAll]

/-- Marks in a line of their own. -/
def line (depth : Nat) (marks : List Mark) : List Mark :=
  .other (Text.spaces (3 * depth)) :: marks ++ [.other "\n"]

@[simp]
theorem textAll_line (a : Analysis) (depth : Nat) (marks : List Mark) :
    textAll a (line depth marks) = listingLine depth (textAll a marks) := by
  simp [line, text, listingLine, String.append_assoc]

end Mark

/-! ### The marks of a program -/

/-- Parentheses around an operation with two operands. -/
def Expr.operandMarks : Expr → List Mark → List Mark
  | .binary _ _ _ _, marks => .other "(" :: marks ++ [.other ")"]
  | _, marks => marks

def Expr.marks : Expr → List Mark
  | .var v => [.reference v]
  | .binary op left right _ =>
      left.operandMarks left.marks ++ .other s!" {op.symbol} " ::
        right.operandMarks right.marks
  | .unary op operand _ => .other op.symbol :: operand.operandMarks operand.marks
  | .literal v => [.other (literalListing v)]

/-- Arguments with commas between them. -/
def Expr.marksAll : List Expr → List Mark
  | [] => []
  | [e] => e.marks
  | e :: es => e.marks ++ .other ", " :: Expr.marksAll es

namespace Statement

mutual

def marks (depth : Nat) : Statement → List Mark
  | .compound body =>
      .other (listingLine depth "begin") :: marksAll (depth + 1) body
        ++ [.other (listingLine depth "end;")]
  | .assign target value =>
      Mark.line depth (.reference target :: .other " := " :: value.marks ++ [.other ";"])
  | .call c => Mark.line depth (.call c :: .other "(" :: Expr.marksAll c.args ++ [.other ");"])
  | .write newline args _ =>
      let word := if newline then "writeln" else "write"
      Mark.line depth (.other (word ++ "(") :: Expr.marksAll args ++ [.other ");"])
  | .empty => []

def marksAll (depth : Nat) : List Statement → List Mark
  | [] => []
  | s :: body => s.marks depth ++ marksAll depth body

end

end Statement

mutual

def Block.marks (level : Nat) : Block → List Mark
  | .mk vars procedures body =>
      vars.map (.var level) ++ (Procedure.marksAll level procedures ++
        .other ("\n" ++ listingLine (level - 1) "begin") :: Statement.marksAll level body)

def Procedure.marks (level : Nat) : Procedure → List Mark
  | .mk name _ params block =>
      .header level name params :: (block.marks (level + 1) ++ [.footer level ";" name])

def Procedure.marksAll (level : Nat) : List Procedure → List Mark
  | [] => []
  | p :: procedures => p.marks level ++ Procedure.marksAll level procedures

end

def Program.marks (program : Program) : List Mark :=
  .program program.name :: (program.block.marks 1 ++ [.footer 0 "." program.name])

/-! ### The marks make up the listing -/

section

variable (a : Analysis)

theorem toString_string (text : String) : toString text = text := rfl

@[simp]
theorem Expr.textAll_operandMarks (e : Expr) (marks : List Mark) :
    Mark.textAll a (e.operandMarks marks) = Analysis.operandListing e
      (Mark.textAll a marks) := by
  cases e with
  | binary _ _ _ _ =>
      simp [operandMarks, Mark.text, Analysis.operandListing, toString_string,
        String.append_assoc]
  | _ => rfl

@[simp]
theorem Expr.textAll_marks (e : Expr) : Mark.textAll a e.marks = a.exprListing e := by
  induction e with
  | var v => simp [marks, Mark.text, Analysis.exprListing]
  | literal v => simp [marks, Mark.text, Analysis.exprListing]
  | unary op operand _ ih =>
      simp [marks, Mark.text, Analysis.exprListing, textAll_operandMarks, ih]
  | binary op left right _ ihl ihr =>
      simp [marks, Mark.text, Analysis.exprListing, textAll_operandMarks, ihl, ihr,
        toString_string, String.append_assoc]

@[simp]
theorem Expr.textAll_marksAll (es : List Expr) :
    Mark.textAll a (Expr.marksAll es) = a.argsListing es := by
  fun_induction Expr.marksAll es with
  | case1 => simp [Analysis.argsListing]
  | case2 e => simp [Analysis.argsListing, textAll_marks]
  | case3 e es hne ih =>
      cases es with
      | nil => exact absurd rfl hne
      | cons e' es =>
          simp only [Analysis.argsListing, List.map_cons] at ih ⊢
          simp [Mark.text, textAll_marks, ih, String.append_assoc]

mutual

theorem Statement.textAll_marks : ∀ (s : Statement) (depth : Nat),
    Mark.textAll a (s.marks depth) = String.join (a.statementListing depth s)
  | .compound body, depth => by
      simp [marks, Analysis.statementListing, Mark.text,
        Statement.textAll_marksAll body (depth + 1)]
  | .assign target value, depth => by
      simp [marks, Analysis.statementListing, Mark.textAll_line, Mark.text, Expr.textAll_marks,
        toString_string, String.append_assoc]
  | .call c, depth => by
      simp [marks, Analysis.statementListing, Mark.textAll_line, Mark.text,
        Expr.textAll_marksAll, Analysis.callListing, toString_string, String.append_assoc]
  | .write newline args _, depth => by
      simp [marks, Analysis.statementListing, Mark.textAll_line, Mark.text,
        Expr.textAll_marksAll, toString_string, String.append_assoc]
  | .empty, _ => by simp [marks, Analysis.statementListing]

theorem Statement.textAll_marksAll : ∀ (body : List Statement) (depth : Nat),
    Mark.textAll a (marksAll depth body) = String.join (a.statementsListing depth body)
  | [], _ => by simp [marksAll, Analysis.statementsListing]
  | s :: body, depth => by
      simp [marksAll, Analysis.statementsListing, Statement.textAll_marks s depth,
        Statement.textAll_marksAll body depth]

end

theorem Mark.textAll_map_var (level : Nat) (vars : List VarDecl) :
    textAll a (vars.map (.var level)) =
      String.join (vars.map fun d => listingLine level s!"var {d.listing level};") := by
  rw [textAll, List.map_map]
  rfl

mutual

theorem Block.textAll_marks : ∀ (b : Block) (level : Nat),
    Mark.textAll a (b.marks level) = String.join (a.blockListing level b)
  | .mk vars procedures body, level => by
      simp [Block.marks, Analysis.blockListing, Mark.textAll_map_var, Mark.text,
        Procedure.textAll_marksAll procedures level, Statement.textAll_marksAll,
        String.append_assoc]

theorem Procedure.textAll_marksAll : ∀ (procedures : List Procedure) (level : Nat),
    Mark.textAll a (Procedure.marksAll level procedures) =
      String.join (a.proceduresListing level procedures)
  | [], _ => by simp [Procedure.marksAll, Analysis.proceduresListing]
  | .mk name _ params block :: procedures, level => by
      simp [Procedure.marksAll, Procedure.marks, Analysis.proceduresListing,
        Analysis.procedureListing, Mark.text, Block.textAll_marks block (level + 1),
        Procedure.textAll_marksAll procedures level]

end

theorem Program.textAll_marks (program : Program) :
    Mark.textAll a program.marks = a.listing program := by
  simp [Program.marks, Analysis.listing, Mark.text, Block.textAll_marks]

end

/-! ### Every use has a mark -/

namespace Mark

/-- The mark is part of a statement. -/
def inStatement : Mark → Bool
  | .reference _ => true
  | .call _ => true
  | .other _ => true
  | _ => false

@[simp]
theorem filterMap_use?_other (text : String) (marks : List Mark) :
    (Mark.other text :: marks).filterMap use? = marks.filterMap use? := rfl

@[simp]
theorem filterMap_use?_reference (v : Variable) (marks : List Mark) :
    (Mark.reference v :: marks).filterMap use? = .var v :: marks.filterMap use? := rfl

@[simp]
theorem filterMap_use?_call (c : Call) (marks : List Mark) :
    (Mark.call c :: marks).filterMap use? = .call c :: marks.filterMap use? := rfl

@[simp]
theorem filterMap_use?_line (depth : Nat) (marks : List Mark) :
    (line depth marks).filterMap use? = marks.filterMap use? := by
  simp [line]

@[simp]
theorem inStatement_line (depth : Nat) (marks : List Mark) :
    (line depth marks).all inStatement = marks.all inStatement := by
  simp [line, inStatement]

end Mark

namespace Expr

@[simp]
theorem filterMap_use?_operandMarks (e : Expr) (marks : List Mark) :
    (e.operandMarks marks).filterMap Mark.use? = marks.filterMap Mark.use? := by
  cases e with
  | binary _ _ _ _ => simp [operandMarks]
  | _ => rfl

@[simp]
theorem inStatement_operandMarks (e : Expr) (marks : List Mark) :
    (e.operandMarks marks).all Mark.inStatement = marks.all Mark.inStatement := by
  cases e with
  | binary _ _ _ _ => simp [operandMarks, Mark.inStatement]
  | _ => rfl

@[simp]
theorem filterMap_use?_marks (e : Expr) : e.marks.filterMap Mark.use? = e.uses := by
  induction e with
  | var v => rfl
  | literal v => rfl
  | unary op operand _ ih => simp [marks, filterMap_use?_operandMarks, ih, uses]
  | binary op left right _ ihl ihr => simp [marks, filterMap_use?_operandMarks, ihl, ihr, uses]

theorem inStatement_marks (e : Expr) : e.marks.all Mark.inStatement = true := by
  induction e with
  | var v => rfl
  | literal v => rfl
  | unary op operand _ ih =>
      rw [marks, List.all_cons, inStatement_operandMarks, ih]
      rfl
  | binary op left right _ ihl ihr =>
      rw [marks, List.all_append, List.all_cons, inStatement_operandMarks,
        inStatement_operandMarks, ihl, ihr]
      rfl

@[simp]
theorem filterMap_use?_marksAll (es : List Expr) :
    (Expr.marksAll es).filterMap Mark.use? = es.flatMap Expr.uses := by
  fun_induction Expr.marksAll es with
  | case1 => rfl
  | case2 e => simp [filterMap_use?_marks]
  | case3 e es _ ih => simp [filterMap_use?_marks, ih]

theorem inStatement_marksAll (es : List Expr) :
    (Expr.marksAll es).all Mark.inStatement = true := by
  fun_induction Expr.marksAll es with
  | case1 => rfl
  | case2 e => exact inStatement_marks e
  | case3 e es _ ih =>
      rw [List.all_append, List.all_cons, inStatement_marks, ih]
      rfl

end Expr

namespace Statement

mutual

theorem filterMap_use?_marks : ∀ (s : Statement) (depth : Nat),
    ((s.marks depth).filterMap Mark.use?).Perm s.uses
  | .compound body, depth => by
      simpa [marks, uses] using filterMap_use?_marksAll body (depth + 1)
  | .assign target value, depth => by
      simp [marks, Mark.filterMap_use?_line, Expr.filterMap_use?_marks, uses]
  | .call c, depth => by
      -- The listing shows the name before the arguments.
      simpa [marks, Mark.filterMap_use?_line, Expr.filterMap_use?_marksAll, uses] using
        (List.perm_append_singleton _ _).symm
  | .write _ args _, depth => by
      simp [marks, Mark.filterMap_use?_line, Expr.filterMap_use?_marksAll, uses]
  | .empty, _ => .refl _

theorem filterMap_use?_marksAll : ∀ (body : List Statement) (depth : Nat),
    ((marksAll depth body).filterMap Mark.use?).Perm (usesAll body)
  | [], _ => .refl _
  | s :: body, depth => by
      rw [marksAll, List.filterMap_append, usesAll]
      exact (filterMap_use?_marks s depth).append (filterMap_use?_marksAll body depth)

end

mutual

theorem inStatement_marks : ∀ (s : Statement) (depth : Nat),
    (s.marks depth).all Mark.inStatement = true
  | .compound body, depth => by
      simpa [marks, Mark.inStatement] using inStatement_marksAll body (depth + 1)
  | .assign target value, depth => by
      simpa [marks, Mark.inStatement_line, Mark.inStatement] using Expr.inStatement_marks value
  | .call c, depth => by
      simpa [marks, Mark.inStatement_line, Mark.inStatement]
        using Expr.inStatement_marksAll c.args
  | .write _ args _, depth => by
      simpa [marks, Mark.inStatement_line, Mark.inStatement]
        using Expr.inStatement_marksAll args
  | .empty, _ => rfl

theorem inStatement_marksAll : ∀ (body : List Statement) (depth : Nat),
    (marksAll depth body).all Mark.inStatement = true
  | [], _ => rfl
  | s :: body, depth => by
      rw [marksAll, List.all_append, inStatement_marks s depth,
        inStatement_marksAll body depth]
      rfl

end

end Statement

mutual

theorem Block.filterMap_use?_marks : ∀ (b : Block) (level : Nat),
    ((b.marks level).filterMap Mark.use?).Perm b.uses
  | .mk vars procedures body, level => by
      have hvars : (vars.map (Mark.var level)).filterMap Mark.use? = [] := by
        simp [List.filterMap_eq_nil_iff, Mark.use?]
      rw [Block.marks, List.filterMap_append, hvars, List.nil_append, List.filterMap_append,
        List.filterMap_cons_none rfl, Block.uses]
      exact (Procedure.filterMap_use?_marksAll procedures level).append
        (Statement.filterMap_use?_marksAll body level)

theorem Procedure.filterMap_use?_marksAll : ∀ (procedures : List Procedure) (level : Nat),
    ((Procedure.marksAll level procedures).filterMap Mark.use?).Perm
      (Procedure.usesAll procedures)
  | [], _ => .refl _
  | .mk name _ params block :: procedures, level => by
      rw [Procedure.marksAll, Procedure.marks, List.filterMap_append, Procedure.usesAll,
        Procedure.uses]
      refine List.Perm.append ?_ (Procedure.filterMap_use?_marksAll procedures level)
      rw [List.filterMap_cons_none rfl, List.filterMap_append, List.filterMap_cons_none rfl,
        List.filterMap_nil, List.append_nil]
      exact Block.filterMap_use?_marks block (level + 1)

end

theorem Program.filterMap_use?_marks (program : Program) :
    (program.marks.filterMap Mark.use?).Perm program.block.uses := by
  rw [Program.marks, List.filterMap_cons_none rfl, List.filterMap_append,
    List.filterMap_cons_none rfl, List.filterMap_nil, List.append_nil]
  exact Block.filterMap_use?_marks program.block 1

/-! ### Reading the marks -/

/-- A declaration as the listing shows it. -/
inductive Shown where
  | var (level : Nat) (d : VarDecl)
  | procedure (level : Nat) (name : String) (params : List VarDecl)

namespace Shown

def name : Shown → String
  | .var _ d => d.name
  | .procedure _ name _ => name

/-- A variable with its level and its type, or the header of a procedure, whose parameters have
the level of its body. -/
def text : Shown → String
  | .var level d => s!"{d.name}{level} : {d.type.name}"
  | .procedure level name [] => s!"procedure {name}{level};"
  | .procedure level name (d :: params) =>
      let list := (d :: params).map fun d => s!"{d.name}{level + 1} : {d.type.name}"
      s!"procedure {name}{level}(" ++ "; ".intercalate list ++ ");"

/-- The emitter writes the same. -/
theorem text_var (level : Nat) (d : VarDecl) : (Shown.var level d).text = d.listing level :=
  rfl

theorem text_procedure (level : Nat) (name : String) (params : List VarDecl) :
    (Shown.procedure level name params).text = headerListing level name params := by
  cases params with
  | nil => rfl
  | cons d params =>
      show s!"procedure {name}{level}(" ++
        "; ".intercalate ((d :: params).map (VarDecl.listing (level + 1))) ++ ");" = _
      simp [headerListing, toString_string, String.append_assoc]

end Shown

namespace Mark

/-- The blocks that are open after a mark, the innermost first, each with what it has declared
so far. The parameters in a header are declared in the block of the procedure. -/
def read : List (List Shown) → Mark → List (List Shown)
  | blocks, .program _ => [] :: blocks
  | block :: outer, .var level d => (block ++ [.var level d]) :: outer
  | block :: outer, .header level name params =>
      params.map (.var (level + 1)) :: (block ++ [.procedure level name params]) :: outer
  | _ :: outer, .footer _ _ _ => outer
  | blocks, _ => blocks

def readAll (blocks : List (List Shown)) (marks : List Mark) : List (List Shown) :=
  marks.foldl read blocks

/-- A use fits the blocks around it: its name is declared in one of them with the level and the
type that the use shows, or the number of parameters, and the level is how many blocks are open
there. No block further inside has declared the name. -/
def Fits (a : Analysis) (blocks : List (List Shown)) : Mark → Prop
  | .reference v => ∃ inner block outer d, blocks = inner ++ block :: outer ∧
      (Mark.reference v).text a = s!"<{v.name}{outer.length + 1}:{d.type.name}>" ∧
      .var (outer.length + 1) d ∈ block ∧ d.name = v.name ∧
      ∀ b ∈ inner, ∀ s ∈ b, s.name ≠ v.name
  | .call c => ∃ inner block outer params, blocks = inner ++ block :: outer ∧
      (Mark.call c).text a = s!"{c.name}{outer.length + 1}" ∧
      .procedure (outer.length + 1) c.name params ∈ block ∧ params.length = c.args.length ∧
      ∀ b ∈ inner, ∀ s ∈ b, s.name ≠ c.name
  | _ => True

/-- Every mark fits the blocks that are open before it. -/
def FitAll (a : Analysis) : List (List Shown) → List Mark → Prop
  | _, [] => True
  | blocks, m :: marks => m.Fits a blocks ∧ FitAll a (m.read blocks) marks

theorem fitAll_append {a : Analysis} {blocks : List (List Shown)} {marks others : List Mark} :
    FitAll a blocks (marks ++ others) ↔
      FitAll a blocks marks ∧ FitAll a (readAll blocks marks) others := by
  induction marks generalizing blocks with
  | nil => simp [FitAll, readAll]
  | cons m marks ih =>
      rw [List.cons_append, FitAll, FitAll, ih, and_assoc]
      rfl

/-- All marks fit, and they lead from the one to the other. -/
structure Leads (a : Analysis) (blocks blocks' : List (List Shown)) (marks : List Mark) :
    Prop where
  fit : FitAll a blocks marks
  read : readAll blocks marks = blocks'

theorem Leads.append {a : Analysis} {blocks blocks' blocks'' : List (List Shown)}
    {marks others : List Mark} (h : Leads a blocks blocks' marks)
    (h' : Leads a blocks' blocks'' others) : Leads a blocks blocks'' (marks ++ others) := by
  refine ⟨fitAll_append.mpr ⟨h.fit, ?_⟩, ?_⟩
  · rw [h.read]
    exact h'.fit
  · rw [readAll, List.foldl_append]
    exact (congrArg (readAll · others) h.read).trans h'.read

theorem FitAll.fits {a : Analysis} {blocks : List (List Shown)}
    {before after : List Mark} {m : Mark} (h : FitAll a blocks (before ++ m :: after)) :
    m.Fits a (readAll blocks before) :=
  (fitAll_append.mp h).2.1

/-- The marks of statements change nothing about what is open. -/
theorem leads_of_inStatement {a : Analysis} {blocks : List (List Shown)} {marks : List Mark}
    (hmarks : marks.all inStatement = true)
    (h : ∀ m ∈ marks, ∀ u, m.use? = some u → m.Fits a blocks) :
    Leads a blocks blocks marks := by
  induction marks with
  | nil => exact ⟨trivial, rfl⟩
  | cons m marks ih =>
      rw [List.all_cons, Bool.and_eq_true_iff] at hmarks
      obtain ⟨hm, hothers⟩ := List.forall_mem_cons.mp h
      have hsame : m.read blocks = blocks := by
        cases m with
        | reference v => cases blocks <;> rfl
        | call c => cases blocks <;> rfl
        | other text => cases blocks <;> rfl
        | _ => cases hmarks.1
      have hfits : m.Fits a blocks := by
        cases m with
        | reference v => exact hm _ rfl
        | call c => exact hm _ rfl
        | other text => trivial
        | _ => cases hmarks.1
      have hfirst : Leads a blocks blocks [m] := ⟨⟨hfits, trivial⟩, hsame⟩
      exact hfirst.append (ih hmarks.2 hothers)

theorem leads_vars (a : Analysis) (block : List Shown) (outer : List (List Shown))
    (level : Nat) (vars : List VarDecl) :
    Leads a (block :: outer) ((block ++ vars.map (.var level)) :: outer)
      (vars.map (.var level)) := by
  induction vars generalizing block with
  | nil =>
      rw [List.map_nil, List.append_nil]
      exact ⟨trivial, rfl⟩
  | cons d vars ih =>
      have hfirst : Leads a (block :: outer) ((block ++ [.var level d]) :: outer)
          [.var level d] :=
        ⟨⟨trivial, trivial⟩, rfl⟩
      have hothers := ih (block ++ [.var level d])
      rw [List.append_assoc] at hothers
      exact hfirst.append hothers

end Mark

/-! ### Views as blocks that are open -/

def Declaration.shown? (level : Nat) : Declaration → Option Shown
  | .type _ => none
  | .var d => some (.var level d)
  | .procedure p => some (.procedure level p.name p.params)

theorem Declaration.name_of_shown? {d : Declaration} {level : Nat} {s : Shown}
    (h : d.shown? level = some s) : s.name = d.name := by
  cases d <;> cases h <;> rfl

namespace View

/-- What a listing shows of a view. -/
def shown : View → List (List Shown)
  | [] => []
  | ds :: outer => ds.filterMap (Declaration.shown? (outer.length + 1)) :: shown outer

@[simp]
theorem length_shown (view : View) : view.shown.length = view.length := by
  induction view with
  | nil => rfl
  | cons ds outer ih => rw [shown, List.length_cons, ih, List.length_cons]

/-- What a name means is shown in the block of its level, and its name in no block further
inside. -/
theorem exists_shown {name : String} {view : View} {d : Declaration} {level : Nat} {s : Shown}
    (h : resolve? name view = some (d, level)) (hs : d.shown? level = some s) :
    ∃ inner block outer, view.shown = inner ++ block :: outer ∧ level = outer.length + 1 ∧
      s ∈ block ∧ ∀ b ∈ inner, ∀ s' ∈ b, s'.name ≠ name := by
  induction view with
  | nil => cases h
  | cons ds outer ih =>
      cases hds : ds.find? (·.name = name) with
      | some d' =>
          rw [resolve?_cons_of_some hds] at h
          cases h
          refine ⟨[], _, shown outer, rfl, by rw [length_shown], ?_, by simp⟩
          exact List.mem_filterMap.mpr ⟨d, List.mem_of_find?_eq_some hds, hs⟩
      | none =>
          rw [resolve?_cons_of_none hds] at h
          obtain ⟨inner, block, outer', hshown, hlevel, hmem, hinner⟩ := ih h
          refine ⟨_ :: inner, block, outer', congrArg _ hshown, hlevel, hmem, ?_⟩
          refine List.forall_mem_cons.mpr ⟨?_, hinner⟩
          intro s' hs'
          obtain ⟨d', hd', hs'⟩ := List.mem_filterMap.mp hs'
          rw [Declaration.name_of_shown? hs']
          have hfree : ∀ d ∈ ds, d.name ≠ name := by simpa using hds
          exact hfree d' hd'

end View

namespace Analysis.Resolves

variable {a : Analysis} {program : Program} {path : List Nat} {s : Site}

/-- A use in the body of a scope fits what the listing shows of the view of the body. -/
theorem fits (h : a.Resolves program) (hs : program.site? path = some s) {m : Mark} {u : Use}
    (hu : u ∈ Statement.usesAll s.block.body) (hm : m.use? = some u) :
    m.Fits a s.view.shown := by
  cases m with
  | reference v =>
      cases hm
      obtain ⟨declaring, d, -, -, hname, hbinding⟩ := h.var hs hu
      obtain ⟨inner, block, outer, hshown, hlevel, hmem, hinner⟩ := View.exists_shown hname rfl
      refine ⟨inner, block, outer, d, hshown, ?_, hlevel ▸ hmem,
        View.name_of_resolve? hname, hinner⟩
      rw [Mark.text, variableListing, hbinding, ← hlevel]
  | call c =>
      cases hm
      obtain ⟨declaring, p, -, -, hname, hentry, hlength⟩ := h.call hs hu
      obtain ⟨inner, block, outer, hshown, hlevel, hmem, hinner⟩ := View.exists_shown hname rfl
      have hpname : p.name = c.name := View.name_of_resolve? hname
      refine ⟨inner, block, outer, p.params, hshown, ?_, ?_, hlength, hinner⟩
      · rw [Mark.text, hentry, ← hlevel]
        rfl
      · rw [← hlevel, ← hpname]
        exact hmem
  | _ => cases hm

/-- So do all marks of the body. -/
theorem leads_body (h : a.Resolves program) (hs : program.site? path = some s) (depth : Nat) :
    Mark.Leads a s.view.shown s.view.shown (Statement.marksAll depth s.block.body) := by
  refine Mark.leads_of_inStatement (Statement.inStatement_marksAll _ depth) ?_
  intro m hm u hu
  have hmem : u ∈ (Statement.marksAll depth s.block.body).filterMap Mark.use? :=
    List.mem_filterMap.mpr ⟨m, hm, hu⟩
  exact h.fits hs ((Statement.filterMap_use?_marksAll _ depth).mem_iff.mp hmem) hu

end Analysis.Resolves

/-! ### The blocks of a program -/

@[simp]
theorem Declaration.filterMap_shown?_var (level : Nat) (vars : List VarDecl) :
    (vars.map Declaration.var).filterMap (Declaration.shown? level) =
      vars.map (.var level) := by
  rw [List.filterMap_map, ← List.filterMap_eq_map]
  rfl

theorem Site.read_header {s : Site} {k : Nat} {name : String} {position : Position}
    {params : List VarDecl} {block : Block}
    (hp : s.block.procedures[k]? = some (.mk name position params block)) :
    Mark.read (View.shown (s.declared k :: s.outer))
      (.header (s.outer.length + 1) name params) =
      View.shown (params.map .var :: s.declared (k + 1) :: s.outer) := by
  rw [View.shown, Mark.read, View.shown, List.length_cons, Declaration.filterMap_shown?_var,
    View.shown, Site.declared_succ hp, List.filterMap_append]
  rfl

mutual

theorem Block.leads {a : Analysis} {program : Program} (ha : a.Resolves program) :
    ∀ (b : Block) {path : List Nat} {opening : List Declaration} {outer : View},
      program.site? path = some ⟨b, opening, outer⟩ →
      Mark.Leads a (View.shown (opening :: outer)) (Site.view ⟨b, opening, outer⟩).shown
        (b.marks (outer.length + 1))
  | .mk vars procedures body, path, opening, outer, hs => by
      have hvars : Mark.Leads a (View.shown (opening :: outer))
          (View.shown (Site.declared ⟨.mk vars procedures body, opening, outer⟩ 0 :: outer))
          (vars.map (.var (outer.length + 1))) := by
        have hdeclared : Site.declared ⟨.mk vars procedures body, opening, outer⟩ 0 =
            opening ++ vars.map .var := by
          rw [Site.declared, List.take_zero, List.map_nil, List.append_nil]
          rfl
        rw [hdeclared, View.shown, View.shown, List.filterMap_append,
          Declaration.filterMap_shown?_var]
        exact Mark.leads_vars a _ _ _ vars
      have hprocedures := Procedure.leads ha procedures 0 hs rfl
      have hbegin : Mark.Leads a (Site.view ⟨.mk vars procedures body, opening, outer⟩).shown
          (Site.view ⟨.mk vars procedures body, opening, outer⟩).shown
          [.other ("\n" ++ listingLine (outer.length + 1 - 1) "begin")] :=
        ⟨⟨trivial, trivial⟩, rfl⟩
      have hbody := ha.leads_body hs (outer.length + 1)
      exact hvars.append (hprocedures.append (hbegin.append hbody))

theorem Procedure.leads {a : Analysis} {program : Program} (ha : a.Resolves program) :
    ∀ (procedures : List Procedure) (k : Nat) {path : List Nat} {s : Site},
      program.site? path = some s → s.block.procedures.drop k = procedures →
      Mark.Leads a (View.shown (s.declared k :: s.outer)) s.view.shown
        (Procedure.marksAll (s.outer.length + 1) procedures)
  | [], k, path, s, hs, hdrop => by
      have hall : s.declared k = s.declared s.block.procedures.length := by
        rw [Site.declared, List.take_of_length_le (List.drop_eq_nil_iff.mp hdrop),
          Site.declared, List.take_length]
      rw [hall]
      exact ⟨trivial, rfl⟩
  | .mk name position params block :: procedures, k, path, s, hs, hdrop => by
      have hp : s.block.procedures[k]? = some (.mk name position params block) := by
        rw [← List.head?_drop, hdrop, List.head?_cons]
      have hdrop' : s.block.procedures.drop (k + 1) = procedures := by
        rw [← List.tail_drop, hdrop, List.tail_cons]
      have hheader : Mark.Leads a (View.shown (s.declared k :: s.outer))
          (View.shown (params.map .var :: s.declared (k + 1) :: s.outer))
          [.header (s.outer.length + 1) name params] :=
        ⟨⟨trivial, trivial⟩, Site.read_header hp⟩
      have hblock := Block.leads ha block (Program.site?_cons hs hp)
      have hfooter : Mark.Leads a
          (Site.view (s.inside k (.mk name position params block))).shown
          (View.shown (s.declared (k + 1) :: s.outer))
            [.footer (s.outer.length + 1) ";" name] :=
        ⟨⟨trivial, trivial⟩, rfl⟩
      have hothers := Procedure.leads ha procedures (k + 1) hs hdrop'
      exact ((hheader.append (hblock.append hfooter)).append hothers)

end

theorem Program.leads {a : Analysis} {program : Program} (ha : a.Resolves program) :
    Mark.Leads a [] [] program.marks := by
  have hroot : program.site? [] = some ⟨program.block, Declaration.predeclared, []⟩ := rfl
  -- The types that are declared before any program are not shown.
  have hstart : Mark.Leads a [] (View.shown [Declaration.predeclared])
      [.program program.name] :=
    ⟨⟨trivial, trivial⟩, rfl⟩
  have hstop : Mark.Leads a program.root.view.shown [] [.footer 0 "." program.name] :=
    ⟨⟨trivial, trivial⟩, rfl⟩
  exact hstart.append ((Block.leads ha program.block hroot).append hstop)

/-! ### What is read is in the text -/

theorem exists_intercalate_eq (separator : String) {items : List String} {item : String}
    (h : item ∈ items) :
    ∃ left right, separator.intercalate items = left ++ item ++ right := by
  induction items with
  | nil => cases h
  | cons first items ih =>
      cases items with
      | nil =>
          cases List.mem_singleton.mp h
          exact ⟨"", "", by simp⟩
      | cons second items =>
          rw [String.intercalate_cons_cons]
          rcases List.mem_cons.mp h with rfl | h
          · exact ⟨"", separator ++ separator.intercalate (second :: items),
              by simp [String.append_assoc]⟩
          · obtain ⟨left, right, heq⟩ := ih h
            exact ⟨first ++ separator ++ left, right, by simp [heq, String.append_assoc]⟩

theorem exists_headerListing_eq (level : Nat) (name : String) {params : List VarDecl}
    {d : VarDecl} (h : d ∈ params) :
    ∃ left right, headerListing level name params =
      left ++ d.listing (level + 1) ++ right := by
  have hempty : params.isEmpty = false := by
    rw [List.isEmpty_eq_false_iff]
    exact List.ne_nil_of_mem h
  have hmem : d.listing (level + 1) ∈ params.map (VarDecl.listing (level + 1)) :=
    List.mem_map_of_mem h
  obtain ⟨left, right, heq⟩ := exists_intercalate_eq "; " hmem
  refine ⟨s!"procedure {name}{level}(" ++ left, right ++ ");", ?_⟩
  simp [headerListing, hempty, heq, toString_string, String.append_assoc]

namespace Mark

/-- The declaration stands in the text of the mark. -/
def Shows (a : Analysis) (m : Mark) (s : Shown) : Prop :=
  ∃ left right, m.text a = left ++ s.text ++ right

theorem shows_line {a : Analysis} {m : Mark} {s : Shown} {depth : Nat} {text : String}
    (h : ∃ left right, text = left ++ s.text ++ right)
    (hm : m.text a = listingLine depth text) :
    m.Shows a s := by
  obtain ⟨left, right, rfl⟩ := h
  exact ⟨Text.spaces (3 * depth) ++ left, right ++ "\n",
    by simp [hm, listingLine, String.append_assoc]⟩

theorem mem_or_eq_of_mem_declared {block : List Shown} {outer : List (List Shown)}
    {b : List Shown} {s s' : Shown} (hb : b ∈ (block ++ [s']) :: outer) (hs : s ∈ b) :
    (∃ b ∈ block :: outer, s ∈ b) ∨ s = s' := by
  rcases List.mem_cons.mp hb with rfl | hb
  · rcases List.mem_append.mp hs with hs | hs
    · exact .inl ⟨block, List.mem_cons_self, hs⟩
    · exact .inr (List.mem_singleton.mp hs)
  · exact .inl ⟨b, List.mem_cons_of_mem block hb, hs⟩

theorem shows_of_mem_read (a : Analysis) {blocks : List (List Shown)} {m : Mark}
    {b : List Shown} {s : Shown} (hb : b ∈ m.read blocks) (hs : s ∈ b) :
    (∃ b ∈ blocks, s ∈ b) ∨ m.Shows a s := by
  cases m with
  | program name =>
      rcases List.mem_cons.mp hb with rfl | hb
      · cases hs
      · exact .inl ⟨b, hb, hs⟩
  | var level d =>
      cases blocks with
      | nil => cases hb
      | cons block outer =>
          refine (mem_or_eq_of_mem_declared hb hs).imp_right ?_
          rintro rfl
          exact shows_line ⟨"var ", ";", by rw [Shown.text_var]; rfl⟩ rfl
  | header level name params =>
      cases blocks with
      | nil => cases hb
      | cons block outer =>
          rcases List.mem_cons.mp hb with rfl | hb
          · obtain ⟨d, hd, rfl⟩ := List.mem_map.mp hs
            exact .inr (shows_line (exists_headerListing_eq level name hd) rfl)
          · refine (mem_or_eq_of_mem_declared hb hs).imp_right ?_
            rintro rfl
            exact shows_line ⟨"", "", by simp [Shown.text_procedure]⟩ rfl
  | footer level stop name =>
      cases blocks with
      | nil => cases hb
      | cons block outer => exact .inl ⟨b, List.mem_cons_of_mem block hb, hs⟩
  | reference v => cases blocks <;> exact .inl ⟨b, hb, hs⟩
  | call c => cases blocks <;> exact .inl ⟨b, hb, hs⟩
  | other text => cases blocks <;> exact .inl ⟨b, hb, hs⟩

theorem exists_shows_of_mem_readAll {a : Analysis} {blocks : List (List Shown)}
    {marks : List Mark} {b : List Shown} {s : Shown} (hb : b ∈ readAll blocks marks)
    (hs : s ∈ b) :
    (∃ b ∈ blocks, s ∈ b) ∨ ∃ m ∈ marks, m.Shows a s := by
  induction marks generalizing blocks with
  | nil => exact .inl ⟨b, hb, hs⟩
  | cons m marks ih =>
      rcases ih hb with ⟨b', hb', hs'⟩ | ⟨m', hm', hshows⟩
      · exact (shows_of_mem_read a hb' hs').imp_right
          fun hshows => ⟨m, List.mem_cons_self, hshows⟩
      · exact .inr ⟨m', List.mem_cons_of_mem m hm', hshows⟩

end Mark

/-- **The levels in a listing agree with its declarations.** The listing of a program that is
read from a text and analyzed without errors is made up of marks, and the uses of the program
are those in the marks. From the marks before a use a reader can tell the blocks that are open
there, each with what it has declared so far, which stands in the text of one of these marks. A
reference shows the level and the type of the declaration of its name in the block of that
level, and a call the level of a procedure of its name with as many parameters as the call has
arguments; no block further inside has declared the name. So no use is listed without a
level. -/
theorem listed_levels_agree (settings : Settings) (text : String) (j j' : Journal)
    (program : Program) (a : Analysis) (hparse : (parse settings text j).1 = .ok program)
    (hanalyze : (analyze program j').1 = .ok a) :
    Mark.textAll a program.marks = a.listing program ∧
    (program.marks.filterMap Mark.use?).Perm program.block.uses ∧
    ∀ before m after, program.marks = before ++ m :: after →
      m.Fits a (Mark.readAll [] before) ∧
      ∀ block ∈ Mark.readAll [] before, ∀ s ∈ block, ∃ m' ∈ before, m'.Shows a s := by
  refine ⟨program.textAll_marks a, program.filterMap_use?_marks, ?_⟩
  intro before m after hmarks
  have hfit := (Program.leads (Analysis.resolves hparse hanalyze)).fit
  rw [hmarks] at hfit
  refine ⟨hfit.fits, ?_⟩
  intro block hblock s hs
  exact (Mark.exists_shows_of_mem_readAll hblock hs).resolve_left (by simp)

theorem hidingText_listed_levels :
    ∃ program a, (parse {} hidingText { traces := [], dumps := [] }).1 = .ok program ∧
      (analyze program { traces := [], dumps := [] }).1 = .ok a ∧
      Mark.textAll a program.marks = a.listing program ∧
      ∀ before m after, program.marks = before ++ m :: after →
        m.Fits a (Mark.readAll [] before) := by
  obtain ⟨program, a, hparse, hanalyze⟩ :=
    exists_analysis {} hidingText { traces := [], dumps := [] } { traces := [], dumps := [] }
      (by decide +kernel)
  obtain ⟨htext, -, hmarks⟩ := listed_levels_agree {} hidingText _ _ program a hparse hanalyze
  exact ⟨program, a, hparse, hanalyze, htext,
    fun before m after h => (hmarks before m after h).1⟩

end MiniPascal
