import MiniPascal.Proofs.Listing.RoundTrip
import MiniPascal.Proofs.Outline.Reading

/-!
The outline of a program says everything about it but where things stand and how uses are
numbered: two programs that were read from texts have the same outline only if they are the
same otherwise.
-/

namespace MiniPascal

/-! ### Trees without places -/

namespace Statement

mutual

/-- The statement without positions and numbers. Empty statements stay. -/
def unplaced : Statement → Statement
  | .compound body => .compound (unplacedAll body)
  | .assign target value => .assign target.bare value.bare
  | .call c => .call c.bare
  | .write newline args _ => .write newline (args.map Expr.bare) .start
  | .empty => .empty

def unplacedAll : List Statement → List Statement
  | [] => []
  | s :: body => s.unplaced :: unplacedAll body

end

end Statement

mutual

def Block.unplaced : Block → Block
  | .mk vars procedures body =>
      .mk (vars.map VarDecl.bare) (Procedure.unplacedAll procedures)
        (Statement.unplacedAll body)

def Procedure.unplaced : Procedure → Procedure
  | .mk name _ params block => .mk name .start (params.map VarDecl.bare) block.unplaced

def Procedure.unplacedAll : List Procedure → List Procedure
  | [] => []
  | p :: procedures => p.unplaced :: Procedure.unplacedAll procedures

end

/-- The program without positions and numbers. -/
def Program.unplaced (p : Program) : Program := ⟨p.name, p.block.unplaced, .start⟩

/-! ### The outline of a tree -/

def Expr.toOutline : Expr → Outline
  | .var v => .node (.var v.name) []
  | .binary op left right _ => .node (.binary op) [left.toOutline, right.toOutline]
  | .unary op operand _ => .node (.unary op) [operand.toOutline]
  | .literal v => .node (.literal v) []

namespace Statement

mutual

def toOutline : Statement → Outline
  | .compound body => .node .compound (toOutlineAll body)
  | .assign target value => .node (.assign target.name) [value.toOutline]
  | .call c => .node (.procedureCall c.name) (c.args.map Expr.toOutline)
  | .write newline args _ =>
      .node (if newline then .writeln else .write) (args.map Expr.toOutline)
  | .empty => .node .noOp []

def toOutlineAll : List Statement → List Outline
  | [] => []
  | s :: body => s.toOutline :: toOutlineAll body

end

end Statement

/-- A variable or a parameter, as the label says. -/
def VarDecl.toOutline (label : String → DataType → Label) (d : VarDecl) : Outline :=
  .node (label d.name d.type) []

mutual

def Block.toOutline : Block → Outline
  | .mk vars procedures body =>
      .node .block (vars.map (VarDecl.toOutline .varDecl) ++
        (Procedure.toOutlineAll procedures ++ [(Statement.compound body).toOutline]))

def Procedure.toOutline : Procedure → Outline
  | .mk name _ params block =>
      .node (.procedureDecl name) (params.map (VarDecl.toOutline .param) ++ [block.toOutline])

def Procedure.toOutlineAll : List Procedure → List Outline
  | [] => []
  | p :: procedures => p.toOutline :: Procedure.toOutlineAll procedures

end

def Program.toOutline (p : Program) : Outline := .node (.program p.name) [p.block.toOutline]

/-! ### Its text -/

namespace Outline

@[simp]
theorem rowsAll_append (depth : Nat) (os others : List Outline) :
    rowsAll depth (os ++ others) = rowsAll depth os ++ rowsAll depth others := by
  induction os with
  | nil => rfl
  | cons o os ih => rw [List.cons_append, rowsAll, rowsAll, ih, List.append_assoc]

@[simp]
theorem rowsAll_singleton (depth : Nat) (o : Outline) : rowsAll depth [o] = o.rows depth := by
  rw [rowsAll, rowsAll, List.append_nil]

/-- What is outlined one after the other. -/
theorem map_rowText_rowsAll {α : Type} {lines : α → List String} {toOutline : α → Outline}
    {depth : Nat} (h : ∀ a, lines a = ((toOutline a).rows depth).map rowText) (as : List α) :
    as.flatMap lines = (rowsAll depth (as.map toOutline)).map rowText := by
  induction as with
  | nil => rfl
  | cons a as ih => rw [List.flatMap_cons, List.map_cons, rowsAll, List.map_append, ih, h]

end Outline

open Outline

/-- The text of a label with something in brackets. -/
theorem Label.text_of_content {l : Label} {s : String} (h : l.content = some s) :
    l.text = l.word ++ "(" ++ s ++ ")" := by
  simp only [Label.text, h]

theorem literalOutline_eq (v : Value) : literalOutline v = (Label.literal v).text := by
  refine String.toList_inj.mp ?_
  cases v <;> simp [literalOutline, Label.literal, Label.text, Label.word,
    Label.content, toString]

theorem Expr.outline_eq (e : Expr) (depth : Nat) :
    e.outline depth = (e.toOutline.rows depth).map rowText := by
  induction e generalizing depth with
  | var v =>
      rw [outline, toOutline, rows, rowsAll, List.map_singleton, rowText,
        Label.text_of_content rfl]
      rfl
  | binary op left right _ ihl ihr =>
      rw [outline, toOutline, rows, rowsAll, rowsAll_singleton, List.map_cons,
        List.map_append, ← ihl, ← ihr, rowText, Label.text_of_content rfl]
      rfl
  | unary op operand _ ih =>
      rw [outline, toOutline, rows, rowsAll_singleton, List.map_cons, ← ih, rowText,
        Label.text_of_content rfl]
      rfl
  | literal v =>
      rw [outline, toOutline, rows, rowsAll, List.map_singleton, rowText, literalOutline_eq]

namespace Statement

mutual

theorem outline_eq : ∀ (s : Statement) (depth : Nat),
    s.outline depth = (s.toOutline.rows depth).map rowText
  | .compound body, depth => by
      rw [outline, toOutline, rows, List.map_cons, outlineAll_eq body]
      rfl
  | .assign target value, depth => by
      rw [outline, toOutline, rows, List.map_cons, rowsAll_singleton,
        ← value.outline_eq, rowText, Label.text_of_content rfl]
      rfl
  | .call c, depth => by
      rw [outline, toOutline, rows, List.map_cons,
        map_rowText_rowsAll fun e => e.outline_eq (depth + 1),
        rowText, Label.text_of_content rfl]
      rfl
  | .write newline args _, depth => by
      rw [outline, toOutline, rows, List.map_cons,
        map_rowText_rowsAll fun e => e.outline_eq (depth + 1)]
      cases newline <;> rfl
  | .empty, depth => rfl

theorem outlineAll_eq : ∀ (body : List Statement) (depth : Nat),
    outlineAll depth body = (rowsAll depth (toOutlineAll body)).map rowText
  | [], _ => rfl
  | s :: body, depth => by
      rw [outlineAll, toOutlineAll, rowsAll, List.map_append, outline_eq s, outlineAll_eq body]

end

end Statement

/-- The rows of variables or parameters. -/
theorem VarDecl.map_outline (node : String) (label : String → DataType → Label)
    (hword : ∀ name type, (label name type).word = node)
    (hcontent : ∀ name type, (label name type).content = some s!"{name} : {type.name}")
    (ds : List VarDecl) (depth : Nat) :
    ds.map (VarDecl.outline depth node) =
      (rowsAll depth (ds.map (VarDecl.toOutline label))).map rowText := by
  rw [List.map_eq_flatMap]
  refine map_rowText_rowsAll (fun d => ?_) ds
  rw [VarDecl.outline, VarDecl.toOutline, rows, rowsAll, List.map_singleton, rowText,
    Label.text_of_content (hcontent _ _), hword]
  simp only [toString, String.append_assoc]

mutual

theorem Block.outline_eq : ∀ (b : Block) (depth : Nat),
    b.outline depth = (b.toOutline.rows depth).map rowText
  | .mk vars procedures body, depth => by
      rw [Block.outline, Block.toOutline, rows, rowsAll_append, rowsAll_append,
        rowsAll_singleton,
        VarDecl.map_outline "VarDecl" .varDecl (fun _ _ => rfl) fun _ _ => rfl,
        Procedure.outlineAll_eq procedures, Statement.outline_eq]
      simp only [List.map_cons, List.map_append, List.cons_append, List.append_assoc]
      rfl

theorem Procedure.outline_eq : ∀ (p : Procedure) (depth : Nat),
    p.outline depth = (p.toOutline.rows depth).map rowText
  | .mk name _ params block, depth => by
      rw [Procedure.outline, Procedure.toOutline, rows, rowsAll_append, rowsAll_singleton,
        VarDecl.map_outline "Param" .param (fun _ _ => rfl) fun _ _ => rfl,
        Block.outline_eq block, List.map_cons, List.map_append, rowText,
        Label.text_of_content rfl]
      rfl

theorem Procedure.outlineAll_eq : ∀ (procedures : List Procedure) (depth : Nat),
    Procedure.outlineAll depth procedures =
      (rowsAll depth (Procedure.toOutlineAll procedures)).map rowText
  | [], _ => rfl
  | p :: procedures, depth => by
      rw [Procedure.outlineAll, Procedure.toOutlineAll, rowsAll, List.map_append,
        Procedure.outline_eq p, Procedure.outlineAll_eq procedures]

end

theorem Program.outline_eq (p : Program) : p.outline = p.toOutline.text := by
  rw [outline, toOutline, text, rows, List.map_cons, rowsAll_singleton,
    ← Block.outline_eq, rowText, Label.text_of_content rfl]
  rfl

/-! ### What an outline says -/

theorem map_eq_map_iff_of_iff {α β γ : Type} {f : α → β} {g : α → γ}
    (h : ∀ a a', f a = f a' ↔ g a = g a') (as as' : List α) :
    as.map f = as'.map f ↔ as.map g = as'.map g := by
  induction as generalizing as' with
  | nil => simp
  | cons a as ih =>
      cases as' with
      | nil => simp
      | cons a' as' => simp only [List.map_cons, List.cons.injEq, h, ih]

theorem Label.literal_inj {v w : Value} : Label.literal v = Label.literal w ↔ v = w := by
  cases v <;> cases w <;> simp [Label.literal]

/-- Expressions have the same outline if they are the same but for positions and numbers. -/
theorem Expr.toOutline_eq_iff (e e' : Expr) :
    e.toOutline = e'.toOutline ↔ e.bare = e'.bare := by
  induction e generalizing e' with
  | var v => cases e' with
    | literal w => cases w <;> simp [toOutline, bare, Label.literal]
    | _ => simp [toOutline, bare, Variable.bare]
  | binary op left right _ ihl ihr => cases e' with
    | literal w => cases w <;> simp [toOutline, bare, Label.literal]
    | _ => simp [toOutline, bare, ihl, ihr]
  | unary op operand _ ih => cases e' with
    | literal w => cases w <;> simp [toOutline, bare, Label.literal]
    | _ => simp [toOutline, bare, ih]
  | literal v => cases e' with
    | literal w => simp [toOutline, bare, Label.literal_inj]
    | _ => cases v <;> simp [toOutline, bare, Label.literal]

namespace Statement

mutual

theorem toOutline_eq_iff : ∀ s s' : Statement, s.toOutline = s'.toOutline ↔
    s.unplaced = s'.unplaced
  | .compound body, s' => by
      cases s' with
      | compound body' => simp [toOutline, unplaced, toOutlineAll_eq_iff body body']
      | write newline _ _ => cases newline <;> simp [toOutline, unplaced]
      | _ => simp [toOutline, unplaced]
  | .assign target value, s' => by
      cases s' with
      | assign target' value' =>
          simp [toOutline, unplaced, Variable.bare, value.toOutline_eq_iff]
      | write newline _ _ => cases newline <;> simp [toOutline, unplaced]
      | _ => simp [toOutline, unplaced]
  | .call c, s' => by
      cases s' with
      | call c' =>
          simp [toOutline, unplaced, Call.bare, map_eq_map_iff_of_iff Expr.toOutline_eq_iff]
      | write newline _ _ => cases newline <;> simp [toOutline, unplaced]
      | _ => simp [toOutline, unplaced]
  | .write newline args _, s' => by
      cases s' with
      | write newline' args' _ =>
          cases newline <;> cases newline' <;>
            simp [toOutline, unplaced, map_eq_map_iff_of_iff Expr.toOutline_eq_iff]
      | _ => cases newline <;> simp [toOutline, unplaced]
  | .empty, s' => by
      cases s' with
      | write newline _ _ => cases newline <;> simp [toOutline, unplaced]
      | _ => simp [toOutline, unplaced]

theorem toOutlineAll_eq_iff : ∀ body body' : List Statement,
    toOutlineAll body = toOutlineAll body' ↔ unplacedAll body = unplacedAll body'
  | [], [] => by simp [toOutlineAll, unplacedAll]
  | [], _ :: _ | _ :: _, [] => by simp [toOutlineAll, unplacedAll]
  | s :: body, s' :: body' => by
      simp [toOutlineAll, unplacedAll, toOutline_eq_iff s s', toOutlineAll_eq_iff body body']

end

end Statement

def Outline.isDeclaration : Outline → Bool
  | .node (.varDecl _ _) _ | .node (.param _ _) _ => true
  | _ => false

def Outline.isProcedure : Outline → Bool
  | .node (.procedureDecl _) _ => true
  | _ => false

theorem isProcedure_of_mem {procedures : List Procedure} :
    ∀ o ∈ Procedure.toOutlineAll procedures, o.isProcedure = true := by
  induction procedures with
  | nil => simp [Procedure.toOutlineAll]
  | cons p procedures ih =>
      cases p
      exact List.forall_mem_cons.mpr ⟨rfl, ih⟩

/-- Behind the variables of a block comes no variable. -/
theorem isDeclaration_head? (procedures : List Procedure) (body : List Statement) :
    ∀ o ∈ (Procedure.toOutlineAll procedures ++ [(Statement.compound body).toOutline]).head?,
      o.isDeclaration = false := by
  intro o ho
  cases procedures with
  | nil =>
      cases ho
      rfl
  | cons p procedures =>
      cases p
      cases ho
      rfl

theorem VarDecl.map_toOutline_eq_iff {label : String → DataType → Label}
    (hlabel : ∀ name type name' type', label name type = label name' type' ↔
      name = name' ∧ type = type')
    (ds ds' : List VarDecl) :
    ds.map (VarDecl.toOutline label) = ds'.map (VarDecl.toOutline label) ↔
      ds.map VarDecl.bare = ds'.map VarDecl.bare := by
  refine map_eq_map_iff_of_iff (fun d d' => ?_) ds ds'
  simp [VarDecl.toOutline, VarDecl.bare, hlabel]

mutual

theorem Block.toOutline_eq_iff :
    ∀ b b' : Block, b.toOutline = b'.toOutline ↔ b.unplaced = b'.unplaced
  | .mk vars procedures body, .mk vars' procedures' body' => by
      have hvars : ∀ ds : List VarDecl, ∀ o ∈ ds.map (VarDecl.toOutline .varDecl),
          o.isDeclaration = true := by simp [VarDecl.toOutline, Outline.isDeclaration]
      have hlast : ∀ body, ∀ o ∈ [(Statement.compound body).toOutline].head?,
          o.isProcedure = false := by
        simp [Statement.toOutline, Outline.isProcedure]
      rw [Block.toOutline, Block.toOutline, Block.unplaced, Block.unplaced, Outline.node.injEq,
        append_eq_append_iff_of_run (hvars vars) (hvars vars')
          (isDeclaration_head? procedures body)
          (isDeclaration_head? procedures' body'),
        append_eq_append_iff_of_run isProcedure_of_mem isProcedure_of_mem (hlast body)
          (hlast body'),
        VarDecl.map_toOutline_eq_iff (by simp),
        Procedure.toOutlineAll_eq_iff procedures procedures']
      simp [Statement.toOutline_eq_iff, Statement.unplaced]

theorem Procedure.toOutline_eq_iff : ∀ p p' : Procedure,
    p.toOutline = p'.toOutline ↔ p.unplaced = p'.unplaced
  | .mk name _ params block, .mk name' _ params' block' => by
      have hparams : ∀ ds : List VarDecl, ∀ o ∈ ds.map (VarDecl.toOutline .param),
          o.isDeclaration = true := by simp [VarDecl.toOutline, Outline.isDeclaration]
      have hlast : ∀ b : Block, ∀ o ∈ [b.toOutline].head?, o.isDeclaration = false := by
        rintro ⟨vars, procedures, body⟩ o ho
        cases ho
        rfl
      rw [Procedure.toOutline, Procedure.toOutline, Procedure.unplaced, Procedure.unplaced,
        Outline.node.injEq,
        append_eq_append_iff_of_run (hparams params) (hparams params') (hlast block)
          (hlast block'),
        VarDecl.map_toOutline_eq_iff (by simp)]
      simp [Block.toOutline_eq_iff block block']

theorem Procedure.toOutlineAll_eq_iff : ∀ procedures procedures' : List Procedure,
    Procedure.toOutlineAll procedures = Procedure.toOutlineAll procedures' ↔
      Procedure.unplacedAll procedures = Procedure.unplacedAll procedures'
  | [], [] => by simp
  | [], _ :: _ | _ :: _, [] => by simp [Procedure.toOutlineAll, Procedure.unplacedAll]
  | p :: procedures, p' :: procedures' => by
      simp [Procedure.toOutlineAll, Procedure.unplacedAll, Procedure.toOutline_eq_iff p p',
        Procedure.toOutlineAll_eq_iff procedures procedures']

end

theorem Program.toOutline_eq_iff (p p' : Program) :
    p.toOutline = p'.toOutline ↔ p.unplaced = p'.unplaced := by
  simp [toOutline, unplaced, Block.toOutline_eq_iff]

/-! ### Programs that were read from a text -/

/-- All names are spelled as words are, and all literals can be read again. -/
structure WellSpelled (names : List String) (us : List Use) (vs : List Value) : Prop where
  name {name : String} : name ∈ names → IsSpelled name
  use {u : Use} : u ∈ us → IsSpelled u.name
  literal {v : Value} : v ∈ vs → v.Readable

theorem WellSpelled.subset {names names' : List String} {us us' : List Use}
    {vs vs' : List Value} (h : WellSpelled names us vs) (hnames : names' ⊆ names)
    (hus : us' ⊆ us) (hvs : vs' ⊆ vs) :
    WellSpelled names' us' vs' where
  name hn := h.name (hnames hn)
  use hu := h.use (hus hu)
  literal hv := h.literal (hvs hv)

theorem Label.readable_literal {v : Value} (h : v.Readable) : (Label.literal v).Readable := by
  cases v <;> exact h

theorem Outline.readableAll_iff {os : List Outline} :
    ReadableAll os ↔ ∀ o ∈ os, o.Readable := by
  induction os with
  | nil => simp [ReadableAll]
  | cons o os ih => rw [ReadableAll, ih, List.forall_mem_cons]

variable {names : List String}

theorem Expr.readable_toOutline {e : Expr} (h : WellSpelled names e.uses e.literals) :
    e.toOutline.Readable := by
  induction e with
  | var v => exact ⟨h.use (List.mem_singleton_self _), trivial⟩
  | binary op left right _ ihl ihr =>
      have hl := ihl (h.subset (List.Subset.refl _) (List.subset_append_left _ _)
        (List.subset_append_left _ _))
      have hr := ihr (h.subset (List.Subset.refl _) (List.subset_append_right _ _)
        (List.subset_append_right _ _))
      exact ⟨trivial, hl, hr, trivial⟩
  | unary op operand _ ih => exact ⟨trivial, ih h, trivial⟩
  | literal v =>
      exact ⟨Label.readable_literal (h.literal (List.mem_singleton_self v)), trivial⟩

theorem readableAll_arguments {args : List Expr}
    (h : WellSpelled names (args.flatMap Expr.uses) (args.flatMap Expr.literals)) :
    ReadableAll (args.map Expr.toOutline) := by
  rw [readableAll_iff, List.forall_mem_map]
  intro e he
  exact Expr.readable_toOutline (h.subset (List.Subset.refl _)
    (fun _ hu => List.mem_flatMap_of_mem he hu) fun _ hv => List.mem_flatMap_of_mem he hv)

namespace Statement

mutual

theorem readable_toOutline :
    ∀ s : Statement, WellSpelled names s.uses s.literals → s.toOutline.Readable
  | .compound body, h => ⟨trivial, readable_toOutlineAll body h⟩
  | .assign target value, h => by
      have hvalue :=
        h.subset (List.Subset.refl _) (List.subset_cons_self _ _) (List.Subset.refl _)
      exact ⟨h.use List.mem_cons_self, Expr.readable_toOutline hvalue, trivial⟩
  | .call c, h => by
      have hmem : Use.call c ∈ (Statement.call c).uses :=
        List.mem_append_right _ List.mem_cons_self
      have hargs :=
        h.subset (List.Subset.refl _) (List.subset_append_left _ _) (List.Subset.refl _)
      exact ⟨h.use hmem, readableAll_arguments hargs⟩
  | .write newline args _, h => by
      cases newline <;> exact ⟨trivial, readableAll_arguments h⟩
  | .empty, _ => ⟨trivial, trivial⟩

theorem readable_toOutlineAll : ∀ body : List Statement,
    WellSpelled names (usesAll body) (literalsAll body) → ReadableAll (toOutlineAll body)
  | [], _ => trivial
  | s :: body, h => by
      have hs :=
        readable_toOutline s (h.subset (List.Subset.refl _) (List.subset_append_left _ _)
          (List.subset_append_left _ _))
      have hbody := readable_toOutlineAll body (h.subset (List.Subset.refl _)
        (List.subset_append_right _ _) (List.subset_append_right _ _))
      exact ⟨hs, hbody⟩

end

end Statement

theorem Outline.readableAll_append {os others : List Outline} :
    ReadableAll (os ++ others) ↔ ReadableAll os ∧ ReadableAll others := by
  rw [readableAll_iff, readableAll_iff, readableAll_iff, List.forall_mem_append]

theorem VarDecl.readableAll (label : String → DataType → Label)
    (hlabel : ∀ name type, IsSpelled name → (label name type).Readable) {ds : List VarDecl}
    (h : ∀ d ∈ ds, IsSpelled d.name) : ReadableAll (ds.map (VarDecl.toOutline label)) := by
  rw [readableAll_iff, List.forall_mem_map]
  intro d hd
  exact ⟨hlabel _ _ (h d hd), trivial⟩

mutual

theorem Block.readable_toOutline : ∀ b : Block, WellSpelled b.names b.uses b.literals →
    b.toOutline.Readable
  | .mk vars procedures body, h => by
      have hvars : ∀ d ∈ vars, IsSpelled d.name :=
        fun d hd => h.name (List.mem_append_left _ (List.mem_map_of_mem hd))
      have hprocedures := Procedure.readable_toOutlineAll procedures
        (h.subset (List.subset_append_right _ _) (List.subset_append_left _ _)
          (List.subset_append_left _ _))
      have hbody := Statement.readable_toOutlineAll body
        (h.subset (List.Subset.refl _) (List.subset_append_right _ _)
          (List.subset_append_right _ _))
      refine ⟨trivial, readableAll_append.mpr
        ⟨VarDecl.readableAll .varDecl (fun _ _ h => h) hvars, ?_⟩⟩
      exact readableAll_append.mpr ⟨hprocedures, ⟨trivial, hbody⟩, trivial⟩

theorem Procedure.readable_toOutline : ∀ p : Procedure, WellSpelled p.names p.uses p.literals →
    p.toOutline.Readable
  | .mk name _ params block, h => by
      have hname : IsSpelled name := h.name List.mem_cons_self
      have hparams : ∀ d ∈ params, IsSpelled d.name := fun d hd =>
        h.name (List.mem_cons_of_mem _ (List.mem_append_left _ (List.mem_map_of_mem hd)))
      have hblock := Block.readable_toOutline block
        (h.subset (List.subset_cons_of_subset _ (List.subset_append_right _ _))
          (List.Subset.refl _) (List.Subset.refl _))
      exact ⟨hname, readableAll_append.mpr
        ⟨VarDecl.readableAll .param (fun _ _ h => h) hparams, hblock, trivial⟩⟩

theorem Procedure.readable_toOutlineAll : ∀ procedures : List Procedure,
    WellSpelled (Procedure.namesAll procedures) (Procedure.usesAll procedures)
      (Procedure.literalsAll procedures) → ReadableAll (Procedure.toOutlineAll procedures)
  | [], _ => trivial
  | p :: procedures, h => by
      have hp := Procedure.readable_toOutline p (h.subset (List.subset_append_left _ _)
        (List.subset_append_left _ _) (List.subset_append_left _ _))
      have hprocedures := Procedure.readable_toOutlineAll procedures
        (h.subset (List.subset_append_right _ _) (List.subset_append_right _ _)
          (List.subset_append_right _ _))
      exact ⟨hp, hprocedures⟩

end

/-- In an identifier, what is ASCII is a capital or a digit. -/
theorem Piece.isSpelled_of_identifier {q : Piece} {p : Position} {t : Token}
    (hq : q.token? p = some t) (hkind : t.kind = .identifier) : IsSpelled t.word := by
  cases q with
  | blank c hc => cases hq
  | comment inside hinside => cases hq
  | word first others hfirst hothers =>
      cases hq
      intro c hc hascii
      change c ∈ (String.ofList (Text.upper (first :: others))).toList at hc
      rw [String.toList_ofList] at hc
      obtain ⟨d, hd, hcd⟩ := List.mem_flatMap.mp hc
      have hword : Cursor.isWordChar d = true := by
        rcases List.mem_cons.mp hd with rfl | hd
        · simp [Cursor.isWordChar, hfirst]
        · exact hothers d hd
      exact (Text.upperChar_ascii hword hcd hascii).1
  | mark c kind hmark =>
      cases hq
      exact absurd (hkind ▸ hmark) (Token.Kind.ofChar?_ne_identifier c)
  | _ =>
      cases hq
      cases hkind

/-- The outline of a program that was read from a text can be read. -/
theorem readable_of_parse {settings : Settings} {text : String} {j : Journal}
    {program : Program} (h : (parse settings text j).1 = .ok program) :
    program.toOutline.Readable := by
  obtain ⟨pieces, hpieces, d, -, hprogram⟩ := parse_eq_ok_iff.mp h
  have htoken : ∀ t ∈ lexemes [] pieces, t.kind = .identifier → IsSpelled t.word := by
    intro t ht hkind
    obtain ⟨q, -, p, hq⟩ := exists_piece_of_mem ht
    exact q.isSpelled_of_identifier hq hkind
  have hnamed : ∀ {names : List String}, Grammar.Named (lexemes [] pieces) names →
      ∀ name ∈ names, IsSpelled name := by
    intro names hnames name hname
    obtain ⟨t, ht, hkind, rfl⟩ := hnames name hname
    exact htoken t ht hkind
  have hblock : WellSpelled program.block.names program.block.uses program.block.literals :=
    ⟨hnamed hprogram.named _, fun hu => hnamed hprogram.uses_named _ (List.mem_map_of_mem hu),
      readable_of_isProgram hpieces hprogram⟩
  refine ⟨?_, Block.readable_toOutline program.block hblock, trivial⟩
  -- The name of the program is that of the second token.
  generalize lexemes [] pieces = ts at hprogram htoken
  cases hprogram with
  | mk _ hname => exact htoken _ (List.mem_cons_of_mem _ List.mem_cons_self) hname

/-- **The outline loses nothing but places.** Two programs that were read from texts have the
same outline if and only if they are the same program, apart from positions and the numbers of
uses. -/
theorem outline_eq_iff_unplaced_eq (settings settings' : Settings) (text text' : String)
    (j j' : Journal) (program program' : Program)
    (hparse : (parse settings text j).1 = .ok program)
    (hparse' : (parse settings' text' j').1 = .ok program') :
    program.outline = program'.outline ↔ program.unplaced = program'.unplaced := by
  rw [← program.toOutline_eq_iff, program.outline_eq, program'.outline_eq]
  constructor
  · exact eq_of_text_eq (readable_of_parse hparse) (readable_of_parse hparse')
  · intro h
    rw [h]

/-- A string over two lines, of which the second looks like a row for an empty statement. -/
def multilineText : String :=
  "program P; procedure Q(n : real); begin end; begin Q(-2.50); ; write('a)\n      NoOp') end."

/-- The same in another spelling and another layout. -/
def respelledText : String :=
  "PROGRAM p;\nPROCEDURE q(N:Real);\nBEGIN END;\nBEGIN\n " ++
    "q(-(02.5));;\n WRITE('a)\n      NoOp')\nEND."

theorem respelledText_unplaced_eq :
    ∃ program program',
      (parse {} multilineText { traces := [], dumps := [] }).1 = .ok program ∧
      (parse {} respelledText { traces := [], dumps := [] }).1 = .ok program' ∧
      program.outline = program'.outline ∧ program.unplaced = program'.unplaced := by
  have htest : ((parse {} multilineText { traces := [], dumps := [] }).1.toOption.any fun p =>
      (parse {} respelledText { traces := [], dumps := [] }).1.toOption.any fun q =>
        p.outline = q.outline) = true := by decide +kernel
  rcases hparse : (parse {} multilineText { traces := [], dumps := [] }).1 with _ | program
  · rw [hparse] at htest
    cases htest
  rcases hparse' : (parse {} respelledText { traces := [], dumps := [] }).1 with _ | program'
  · rw [hparse, hparse'] at htest
    cases htest
  rw [hparse, hparse'] at htest
  have houtline : program.outline = program'.outline := of_decide_eq_true htest
  exact ⟨program, program', rfl, rfl, houtline,
    (outline_eq_iff_unplaced_eq {} {} _ _ _ _ program program' hparse hparse').mp houtline⟩

end MiniPascal
