import MiniPascal.Proofs.Analysis.Violations
import MiniPascal.Proofs.Diagnostic.Excerpt
import MiniPascal.Proofs.Grammar.NestingLimit
import MiniPascal.Proofs.Machine.FaultPositions
import MiniPascal.Proofs.Preparation
import MiniPascal.Proofs.Token.Landmarks

/-!
Where diagnostics point. The position of an error comes from a token, whichever stage has found
the error, or from what could not be read as a token. So it points at a character of the text
that ends no line, or at the end of the text; and the line that is quoted for it has that
character in its column.
-/

namespace MiniPascal

/-! ### Positions of semantic errors -/

theorem append_subset_append {α : Type} {as bs cs ds : List α} (h : as ⊆ cs) (h' : bs ⊆ ds) :
    as ++ bs ⊆ cs ++ ds :=
  List.append_subset.mpr ⟨List.subset_append_of_subset_left _ h,
    List.subset_append_of_subset_right _ h'⟩

def Use.position : Use → Position
  | .var v => v.position
  | .call c => c.position

theorem Expr.uses_positions_subset (e : Expr) : e.uses.map Use.position ⊆ e.positions := by
  induction e with
  | var v => exact List.Subset.refl _
  | binary op left right position ihleft ihright =>
      rw [uses, List.map_append]
      exact List.append_subset.mpr ⟨List.subset_append_of_subset_left _ ihleft,
        List.subset_append_of_subset_right _ (List.subset_cons_of_subset _ ihright)⟩
  | unary op operand position ih => exact List.subset_cons_of_subset _ ih
  | literal v => exact List.Subset.refl _

theorem Expr.uses_positions_subset_all (es : List Expr) :
    (es.flatMap Expr.uses).map Use.position ⊆ es.flatMap Expr.positions := by
  intro p hp
  obtain ⟨u, hu, rfl⟩ := List.mem_map.mp hp
  obtain ⟨e, he, hu⟩ := List.mem_flatMap.mp hu
  exact List.mem_flatMap.mpr ⟨e, he, e.uses_positions_subset (List.mem_map_of_mem hu)⟩

mutual

theorem Statement.visited_positions_subset :
    ∀ s : Statement, s.visited.map Use.position ⊆ s.positions
  | .compound body => Statement.visitedAll_positions_subset body
  | .assign target value => by
      rw [Statement.visited, List.map_append]
      exact List.append_subset.mpr ⟨List.subset_cons_of_subset _ value.uses_positions_subset,
        List.cons_subset.mpr ⟨List.mem_cons_self, List.nil_subset _⟩⟩
  | .call c => by
      rw [Statement.visited, List.map_append]
      exact List.append_subset.mpr
        ⟨List.subset_cons_of_subset _ (Expr.uses_positions_subset_all c.args),
        List.cons_subset.mpr ⟨List.mem_cons_self, List.nil_subset _⟩⟩
  | .write _ args _ => List.subset_cons_of_subset _ (Expr.uses_positions_subset_all args)
  | .empty => List.Subset.refl _

theorem Statement.visitedAll_positions_subset :
    ∀ body : List Statement, (visitedAll body).map Use.position ⊆ positionsAll body
  | [] => List.Subset.refl _
  | s :: body => by
      rw [visitedAll, List.map_append]
      exact append_subset_append s.visited_positions_subset
        (Statement.visitedAll_positions_subset body)

end

namespace Event

def position : Event → Position
  | .declaration _ _ position => position
  | .use _ u => u.position

/-- An error is where the declaration or the use is. -/
theorem position_of_error? {e : Event} {err : SemanticError} (h : e.error? = some err) :
    err.position = e.position := by
  cases e with
  | declaration earlier d position =>
      rw [error?] at h
      split at h
      · cases h
        rfl
      · cases h
  | use view u =>
      cases u with
      | var v =>
          rw [error?] at h
          split at h
          · cases h
          · cases h
            rfl
          · cases h
            rfl
      | call c =>
          rw [error?] at h
          split at h
          · split at h
            · cases h
            · cases h
              rfl
          · cases h
            rfl
          · cases h
            rfl

end Event

theorem VarDecl.events_positions_subset (earlier : List Declaration) (decls : List VarDecl) :
    (VarDecl.events earlier decls).map Event.position ⊆ decls.flatMap VarDecl.positions := by
  induction decls generalizing earlier with
  | nil => exact List.Subset.refl _
  | cons d decls ih =>
      exact List.cons_subset.mpr ⟨List.mem_cons_self,
        List.subset_append_of_subset_right _ (ih _)⟩

mutual

theorem Block.events_positions_subset (opening : List Declaration) (outer : View) :
    ∀ b : Block, (b.events opening outer).map Event.position ⊆ b.positions
  | .mk vars procedures body => by
      rw [Block.events, List.map_append, List.map_append, List.map_map]
      exact append_subset_append (VarDecl.events_positions_subset opening vars)
        (append_subset_append (Procedure.eventsAll_positions_subset _ outer procedures)
          (Statement.visitedAll_positions_subset body))

theorem Procedure.events_positions_subset (earlier : List Declaration) (outer : View) :
    ∀ p : Procedure, (p.events earlier outer).map Event.position ⊆ p.positions
  | .mk name position params block => by
      rw [Procedure.events, List.map_cons, List.map_append]
      exact List.cons_subset_cons _
        (append_subset_append (VarDecl.events_positions_subset [] params)
        (Block.events_positions_subset _ _ block))

theorem Procedure.eventsAll_positions_subset (earlier : List Declaration) (outer : View) :
    ∀ procedures : List Procedure,
      (Procedure.eventsAll earlier outer procedures).map Event.position ⊆
        Procedure.positionsAll procedures
  | [] => List.Subset.refl _
  | p :: procedures => by
      rw [Procedure.eventsAll, List.map_append]
      exact append_subset_append (Procedure.events_positions_subset earlier outer p)
        (Procedure.eventsAll_positions_subset _ outer procedures)

end

/-! ### Positions of errors -/

section

variable {settings : Settings} {text : String} {j : Journal} {program : Program} {p : Position}

/-- The positions of a program are those of tokens. -/
theorem exists_pointsAt_of_parse (h : (parse settings text j).1 = .ok program)
    (hp : p ∈ program.block.positions) : ∃ rest, p.PointsAt text rest := by
  obtain ⟨pieces, hpieces, d, -, hprogram⟩ := parse_eq_ok_iff.mp h
  obtain ⟨t, ht, rfl⟩ := List.mem_map.mp (hprogram.positions_subset hp)
  exact exists_pointsAt_of_mem (tokens_of_segmented hpieces) (List.mem_append_left _ ht)

/-- A syntax error names a token of the text. -/
theorem exists_pointsAt_of_syntaxError {e : SyntaxError}
    (h : (parse settings text j).1 = .error (.syntactic e)) :
    ∃ rest, e.token.position.PointsAt text rest := by
  obtain ⟨ts, j', q, -, htokens, hread⟩ := exists_of_parse_eq_error h
  obtain ⟨us, rest, hrow, -⟩ := exists_failureIndex? hread
  obtain ⟨us', last, rfl, hlast, -⟩ := (lexed_of_tokens htokens).ended
  rw [Parser.row_ofTokens hlast] at hrow
  exact exists_pointsAt_of_mem htokens (hrow ▸ List.mem_append_right _ List.mem_cons_self)

/-- Reading fails at what is no piece, or at a token. -/
theorem exists_pointsAt_of_parse_eq_error {err : Error}
    (h : (parse settings text j).1 = .error err) {d : Diagnostic} (hd : d ∈ err.diagnostics)
    (hp : d.position = some p) :
    ∃ rest, p.PointsAt text rest := by
  rcases htokenize : tokenize text j with ⟨e | ts, j₁⟩
  · have hread := tokenize_eq text j
    simp only [parse, htokenize] at h hread
    cases h
    cases htokens : tokens text with
    | ok ts =>
        rw [htokens] at hread
        cases hread
    | error e =>
        rw [htokens] at hread
        cases hread
        obtain rfl := List.mem_singleton.mp hd
        cases hp
        exact exists_pointsAt_of_error htokens
  · have hread := h
    rw [fst_parse htokenize] at hread
    cases hprogram : (parseProgram ts settings j₁).1 with
    | ok program =>
        rw [hprogram] at hread
        cases hread
    | error e =>
        rw [hprogram] at hread
        cases hread
        obtain rfl := List.mem_singleton.mp hd
        cases hp
        exact exists_pointsAt_of_syntaxError h

/-- A semantic error is at a declaration or a use. -/
theorem exists_pointsAt_of_semanticError (h : (parse settings text j).1 = .ok program)
    {j' : Journal} {errors : List SemanticError}
    (herrors : (analyze program j').1 = .error (.semantic errors))
    {e : SemanticError} (he : e ∈ errors) : ∃ rest, e.position.PointsAt text rest := by
  obtain ⟨-, rfl⟩ := (analyze_eq_error_iff h j' errors).mp herrors
  obtain ⟨event, hevent, herror⟩ := List.mem_filterMap.mp he
  rw [Event.position_of_error? herror]
  exact exists_pointsAt_of_parse h
    (Block.events_positions_subset _ _ program.block (List.mem_map_of_mem hevent))

theorem exists_pointsAt_of_runtimeError (h : (parse settings text j).1 = .ok program)
    {j' : Journal} {a : Analysis} (hanalyze : (analyze program j').1 = .ok a) {limit : Nat}
    {m m' : Machine}
    {e : RuntimeError} (he : a.interpret limit program m = .error e m')
    (hp : e.position? = some p) : ∃ rest, p.PointsAt text rest :=
  exists_pointsAt_of_parse h (Program.interpret_failsWithin h hanalyze he p hp)

end

/-- The position of a diagnostic of a failed run points at what was read there. -/
theorem exists_pointsAt_of_run {settings : Settings} {text : String} {output : Output}
    {j : Journal} {err : Error} (h : (run settings text output j).result = .error err)
    {d : Diagnostic}
    (hd : d ∈ err.diagnostics) {p : Position} (hp : d.position = some p) :
    ∃ rest, p.PointsAt text rest := by
  rcases run_eq_error h with
    hparse | ⟨program, j₁, hparse, hanalyze | ⟨a, m, e, m', hanalyze, hrun, rfl⟩⟩
  · exact exists_pointsAt_of_parse_eq_error hparse hd hp
  · rcases analyze_cases (freeName_of_parse hparse) j₁ with ⟨-, a, ha⟩ | ⟨-, herrors⟩
    · rw [ha] at hanalyze
      cases hanalyze
    · have herr := hanalyze.symm.trans herrors
      cases herr
      obtain ⟨e, he, rfl⟩ := List.mem_map.mp hd
      cases hp
      exact exists_pointsAt_of_semanticError hparse hanalyze he
  · obtain rfl := List.mem_singleton.mp hd
    exact exists_pointsAt_of_runtimeError hparse hanalyze hrun hp

/-! ### What is quoted -/

namespace Diagnostic

/-- Only output that fails is nowhere. -/
theorem position_eq_none_iff {err : Error} {d : Diagnostic} (hd : d ∈ err.diagnostics) :
    d.position = none ↔ ∃ reason, err = .runtime (.output reason) := by
  cases err with
  | lexical e =>
      obtain rfl := List.mem_singleton.mp hd
      simp [ofLexical]
  | syntactic e =>
      obtain rfl := List.mem_singleton.mp hd
      simp [ofSyntactic]
  | semantic errors =>
      obtain ⟨e, -, rfl⟩ := List.mem_map.mp hd
      simp [ofSemantic]
  | runtime e =>
      obtain rfl := List.mem_singleton.mp hd
      simpa [ofRuntime] using RuntimeError.position?_eq_none_iff

/-- The quoted line has the character that a position points at, and nothing more at the end of
the text. -/
theorem quotedLine_of_pointsAt {p : Position} {text : String} {rest : List Char}
    (h : p.PointsAt text rest) :
    (∀ c, rest.head? = some c → (quotedLine text p.line).toList[p.column - 1]? = some c) ∧
      (rest = [] → (quotedLine text p.line).toList.length = p.column - 1) := by
  obtain ⟨pieces, hpieces, rfl, hmark⟩ := h
  have htext := hpieces.eq_append
  constructor
  · intro c hc
    obtain ⟨rest', rfl⟩ := List.head?_eq_some_iff.mp hc
    have hblank : Text.isBlank c = false := hmark.stops_isBlank c hc
    refine quotedLine_character htext ?_ ?_
    · rintro rfl
      revert hblank
      decide
    · rintro rfl
      revert hblank
      decide
  · rintro rfl
    rw [List.append_nil] at htext
    exact length_quotedLine_end htext

/-- **Diagnostics quote what they are about.** Take any text, settings and output with which a
run fails, and any diagnostic of the error. It has a position, unless the output has failed.
The position points at the first character of a token, at something that cannot be read, or at
the end of the text; and the line that is shown with it, under any name of the text, has that
character in that column, or ends right before that column if the position is the end of the
text. -/
theorem diagnostics_quote_what_they_are_about (settings : Settings) (text : String)
    (output : Output) (j : Journal) (err : Error)
    (h : (run settings text output j).result = .error err) (d : Diagnostic)
    (hd : d ∈ err.diagnostics) :
    (d.position = none ↔ ∃ reason, err = .runtime (.output reason)) ∧
      ∀ p, d.position = some p → ∃ rest, p.PointsAt text rest ∧
        (∀ file, Text.LastRows (render file text d).toList
          (gutter p.line ++ (quotedLine text p.line).toList) (markRow p.column)) ∧
        (∀ c, rest.head? = some c → (quotedLine text p.line).toList[p.column - 1]? = some c) ∧
        (rest = [] → (quotedLine text p.line).toList.length = p.column - 1) := by
  refine ⟨position_eq_none_iff hd, fun p hp => ?_⟩
  obtain ⟨rest, hrest⟩ := exists_pointsAt_of_run h hd hp
  exact ⟨rest, hrest, fun file => render_lastRows hp file text, quotedLine_of_pointsAt hrest⟩

/-- A name that is not declared, behind a comment on the second line. -/
def undeclaredText : String := "PROGRAM P;\r\nBEGIN \x7bé\x7d X := 1\r\nEND."

/-- The return at the end of the line is not shown, and the comment counts three columns. -/
theorem undeclaredText_quoted :
    ∃ err, (run {} undeclaredText {} { traces := [], dumps := [] }).result = .error err ∧
      ofSemantic (.idNotFound "X" ⟨2, 11⟩) ∈ err.diagnostics ∧
      (∃ rest, (⟨2, 11⟩ : Position).PointsAt undeclaredText rest) ∧
      quotedLine undeclaredText 2 = "BEGIN \x7bé\x7d X := 1" ∧
      Text.LastRows (render "demo.pas" undeclaredText
        (ofSemantic (.idNotFound "X" ⟨2, 11⟩))).toList
        (gutter 2 ++ (quotedLine undeclaredText 2).toList) (markRow 11) := by
  have hfails : (run {} undeclaredText {} { traces := [], dumps := [] }).result.map
      (fun _ => ()) =
      .error (.semantic [.idNotFound "X" ⟨2, 11⟩]) := by decide +kernel
  cases hrun : (run {} undeclaredText {} { traces := [], dumps := [] }).result with
  | ok outcome =>
      rw [hrun] at hfails
      cases hfails
  | error err =>
      rw [hrun] at hfails
      cases hfails
      have hd : ofSemantic (.idNotFound "X" ⟨2, 11⟩) ∈
          (Error.semantic [.idNotFound "X" ⟨2, 11⟩]).diagnostics := List.mem_singleton_self _
      obtain ⟨-, hquoted⟩ := diagnostics_quote_what_they_are_about _ _ _ _ _ hrun _ hd
      obtain ⟨rest, hrest, hrows, -⟩ := hquoted ⟨2, 11⟩ rfl
      exact ⟨_, rfl, hd, ⟨rest, hrest⟩, by decide +kernel, hrows "demo.pas"⟩

end Diagnostic

end MiniPascal
