import MiniPascal.Proofs.Analysis.Resolution
import MiniPascal.Proofs.Listing.Layout

/-!
What the listing of a block is read as, up to its last `end`. The tables of the analysis hold
what lexical scoping says, so every name has the level of the scope that declares it.
-/

namespace MiniPascal

open Grammar

/-- All names are plain, and all literals can be read again. -/
structure Plain (names : List String) (us : List Use) (vs : List Value) : Prop where
  name {name : String} : name ∈ names → IsPlainName name.toList
  use {u : Use} : u ∈ us → IsPlainName u.name.toList
  literal {v : Value} : v ∈ vs → v.Readable

theorem Plain.subset {names names' : List String} {us us' : List Use} {vs vs' : List Value}
    (h : Plain names us vs) (hnames : names' ⊆ names) (hus : us' ⊆ us) (hvs : vs' ⊆ vs) :
    Plain names' us' vs' where
  name hn := h.name (hnames hn)
  use hu := h.use (hus hu)
  literal hv := h.literal (hvs hv)

/-- The tables show the levels of the view in the body of a scope. -/
theorem Analysis.Resolves.legible {a : Analysis} {program : Program}
    {path : List Nat} {s : Site} {names : List String} (hres : a.Resolves program)
    (hs : program.site? path = some s)
    (h : Plain names (Statement.usesAll s.block.body) (Statement.literalsAll s.block.body)) :
    a.Legible s.view (Statement.usesAll s.block.body)
      (Statement.literalsAll s.block.body) where
  var {v} hv := by
    obtain ⟨declaring, d, -, -, hname, hbinding⟩ := hres.var hs hv
    refine ⟨h.use hv, d.type, ?_⟩
    rw [hbinding, View.level, hname, Option.map_some, Option.getD_some]
  call {c} hc := by
    obtain ⟨declaring, p, -, -, hname, hprocedure, -⟩ := hres.call hs hc
    refine ⟨h.use hc, _, hprocedure, ?_⟩
    rw [View.level, hname, Option.map_some, Option.getD_some]
    rfl
  literal := h.literal

theorem isUnmarked_of_isPlain {c : Char} (h : isPlain c = true) :
    isUnmarked c = true ∧ c ≠ '\x7d' := by
  refine ⟨isUnmarked_of_isWordChar (isPlain_spelled h).1, ?_⟩
  rintro rfl
  cases h

/-- The remark behind an `end` is a comment. -/
theorem writes_remark {name : String} (h : IsPlainName name.toList) :
    Writes Anything
      (' ' :: '\x7b' :: ("END OF ".toList ++ name.toList ++ ['\x7d'] ++ ['\n'])) [] := by
  have hchars : ∀ c ∈ "END OF ".toList ++ name.toList, isUnmarked c = true ∧ c ≠ '\x7d' := by
    intro c hc
    rcases List.mem_append.mp hc with hc | hc
    · have hend : "END OF ".toList.all
          (fun c => decide (isUnmarked c = true ∧ c ≠ '\x7d')) = true := by
        decide
      exact of_decide_eq_true (List.all_eq_true.mp hend c hc)
    · exact isUnmarked_of_isPlain (h.all c hc)
  have hcomment := writes_comment (fun hc => (hchars _ hc).2 rfl) fun c hc => (hchars c hc).1
  have hblank : Writes Anything [' '] [] := writes_blank (by decide)
  have hnewline : Writes Anything ['\n'] [] := writes_blank (by decide)
  exact hblank.andThen (hcomment.andThen hnewline)

/-- The lines, and the word `end` in a line of the given depth, are read as the block. -/
def PrintsBlock (lines : List String) (depth : Nat) (b : Block) : Prop :=
  ∃ row, Writes (Stops Cursor.isWordChar)
      (lines.flatMap String.toList ++ ((Text.spaces (3 * depth)).toList ++ "end".toList)) row ∧
    Spells IsBlock Block.bare row b

/-- The last line of a block, with the mark that comes after it. -/
theorem PrintsBlock.writes_end {lines : List String} {depth : Nat} {b : Block}
    {name : String} {c : Char} {kind : Token.Kind} (h : PrintsBlock lines depth b)
    (hname : IsPlainName name.toList)
    (hkind : Token.Kind.ofChar? c = some kind)
    (hc : (isUnmarked c && c != ':' && !Cursor.isWordChar c) = true) :
    ∃ row, Writes Anything
        (lines.flatMap String.toList ++
          (listingLine depth (endListing c.toString name)).toList)
        (row ++ [⟨kind, some (.string c.toString), .start⟩]) ∧
      Spells IsBlock Block.bare row b := by
  obtain ⟨row, hrow, hspells⟩ := h
  obtain ⟨hmark, hword⟩ := Bool.and_eq_true_iff.mp hc
  have hend := (writes_mark hkind hmark).andThen (writes_remark hname)
  have hwrites := hrow.append hend fun rest _ => by
    rw [List.singleton_append, unmark_cons (Bool.and_eq_true_iff.mp hmark).1]
    exact stops_cons (by simpa using hword)
  refine ⟨row, ?_, hspells⟩
  simpa [listingLine, endListing, toString] using hwrites

theorem Site.leveled_eq (s : Site) :
    s.block.leveled s.opening s.outer =
      .mk (s.block.vars.map (VarDecl.leveled (s.outer.length + 1)))
        (Procedure.leveledAll (s.declared 0) s.outer s.block.procedures)
        (Statement.leveledAll s.view s.block.body) := by
  rw [Site.view_eq]
  have hdeclared : s.declared 0 = s.opening ++ s.block.vars.map .var := List.append_nil _
  rw [hdeclared]
  obtain ⟨⟨vars, procedures, body⟩, opening, outer⟩ := s
  rfl

section Blocks

variable {a : Analysis} {program : Program}

/-- A procedure, when its block is known. -/
theorem PrintsBlock.exists_procedure {level : Nat} {name : String} {params : List VarDecl}
    {block b : Block} (position : Position)
    (h : PrintsBlock (a.blockListing (level + 1) block) level b)
    (hname : IsPlainName name.toList) (hparams : ∀ d ∈ params, IsPlainName d.name.toList) :
    ∃ row, Writes Anything
        ((a.procedureListing level (.mk name position params block)).flatMap
          String.toList) row ∧
      Spells IsProcedure Procedure.bare row
        (.mk (leveled name level) .start
          (params.map fun d => (d.leveled (level + 1)).bare) b) := by
  obtain ⟨row, hrow, hspells⟩ := prints_header hname hparams level
  obtain ⟨row', hrow', hspells'⟩ := h.writes_end (c := ';') hname rfl (by decide +kernel)
  have hwrites := (writes_line level hrow fun _ => trivial).andThen hrow'
  have hprocedure := hspells.procedure (p := wordToken "procedure".toList)
    (n := identifierToken (leveled name level)) (s := semicolonToken) (e := semicolonToken)
    rfl rfl rfl rfl hspells'
  rw [← List.flatMap_def, ← List.map_eq_flatMap] at hprocedure
  refine ⟨_, ?_, hprocedure⟩
  simpa [Analysis.procedureListing, semicolonToken] using hwrites

mutual

theorem prints_block (hres : a.Resolves program) :
    ∀ (b : Block) {path : List Nat} {opening : List Declaration} {outer : View},
      program.site? path = some ⟨b, opening, outer⟩ → Plain b.names b.uses b.literals →
      PrintsBlock (a.blockListing (outer.length + 1) b) outer.length
        (b.leveled opening outer).bare
  | .mk vars procedures body, path, opening, outer, hs, h => by
      have hbody := hres.legible hs
        (h.subset (List.Subset.refl _) (List.subset_append_right _ _)
          (List.subset_append_right _ _))
      obtain ⟨row, hrow, hspells⟩ := exists_sections
        (fun d hd => h.name (List.mem_append_left _ (List.mem_map_of_mem hd)))
        (outer.length + 1) (outer.length + 1)
      obtain ⟨row', hrow', hspells'⟩ := prints_procedures hres procedures 0 hs rfl
        (h.subset (List.subset_append_right _ _) (List.subset_append_left _ _)
          (List.subset_append_left _ _))
      obtain ⟨row'', hrow'', hspells''⟩ :=
        (prints_statements (outer.length + 1) body hbody).writes_compound outer.length
      have hnewline : Writes Anything ['\n'] [] := writes_blank (by decide)
      have hwrites := hrow.andThen (hrow'.andThen (hnewline.andThen hrow''))
      have hblock := hspells.blockOf hspells' hspells''
      rw [← List.flatMap_def, ← List.map_eq_flatMap] at hblock
      rw [Site.leveled_eq ⟨.mk vars procedures body, opening, outer⟩, Block.bare, List.map_map]
      refine ⟨_, ?_, hblock⟩
      simpa [Analysis.blockListing] using hwrites

theorem prints_procedures (hres : a.Resolves program) :
    ∀ (procedures : List Procedure) (k : Nat) {path : List Nat} {s : Site},
      program.site? path = some s → s.block.procedures.drop k = procedures →
      Plain (Procedure.namesAll procedures) (Procedure.usesAll procedures)
        (Procedure.literalsAll procedures) →
      ∃ row, Writes Anything
          ((a.proceduresListing (s.outer.length + 1) procedures).flatMap String.toList) row ∧
        Spells (Many IsProcedure) (List.map Procedure.bare) row
          (Procedure.bareAll (Procedure.leveledAll (s.declared k) s.outer procedures))
  | [], _, _, _, _, _, _ => ⟨[], .nil, .nil⟩
  | .mk name position params block :: procedures, k, path, s, hs, hdrop, h => by
      have hp : s.block.procedures[k]? = some (.mk name position params block) := by
        rw [← List.head?_drop, hdrop, List.head?_cons]
      have hdrop' : s.block.procedures.drop (k + 1) = procedures := by
        rw [← List.tail_drop, hdrop, List.tail_cons]
      have hblock := prints_block hres block (Program.site?_cons hs hp) (h.subset
        (fun n hn => by simp [Procedure.namesAll, Procedure.names, hn])
        (List.subset_append_left _ _) (List.subset_append_left _ _))
      obtain ⟨row', hrow', hspells'⟩ := prints_procedures hres procedures (k + 1) hs hdrop'
        (h.subset (List.subset_append_right _ _) (List.subset_append_right _ _)
          (List.subset_append_right _ _))
      have hname : IsPlainName name.toList :=
        h.name (by simp [Procedure.namesAll, Procedure.names])
      have hparams : ∀ d ∈ params, IsPlainName d.name.toList := fun d hd =>
        h.name (List.mem_append_left _
          (List.mem_cons_of_mem _ (List.mem_append_left _ (List.mem_map_of_mem hd))))
      rw [Site.declared_succ hp] at hblock hspells'
      obtain ⟨row, hrow, hspells⟩ := hblock.exists_procedure position hname hparams
      have hwrites := hrow.andThen hrow'
      rw [← List.flatMap_append] at hwrites
      rw [Procedure.leveledAll, Procedure.bareAll, Procedure.leveled, Procedure.bare,
        List.map_map]
      exact ⟨_, hwrites, hspells.cons hspells'⟩

end

/-- The listing of a program whose names are plain and whose literals can be read. -/
theorem Analysis.Resolves.exists_reading (hres : a.Resolves program)
    (hname : IsPlainName program.name.toList)
    (h : Plain program.block.names program.block.uses program.block.literals) :
    ∃ pieces, Segmented pieces (unmarked (a.listing program)).toList [] ∧
      ∃ d program', IsProgram d (lexemes [] pieces) program' ∧
        program'.bare = program.leveled.bare := by
  have hroot : program.site? [] = some ⟨program.block, Declaration.predeclared, []⟩ := rfl
  have hblock : PrintsBlock (a.blockListing 1 program.block) 0 _ :=
    prints_block hres program.block hroot h
  obtain ⟨row, hrow, hspells⟩ := hblock.writes_end (c := '.') hname rfl (by decide +kernel)
  have hword := writes_keyword (w := "program".toList) (by decide +kernel)
  have hheader := hword.andThen ((writes_leveled hname 0).append writes_semicolon fun _ _ =>
    stops_cons (by decide +kernel))
  have hline : (s!"program {program.name}0;").toList =
      "program".toList ++ [' '] ++ ((leveled program.name 0).toList ++ [';']) := by
    simp [leveled, toString, Nat.repr]
  rw [← hline] at hheader
  have hwrites := (writes_line 0 hheader fun _ => trivial).andThen hrow
  have htext : (a.listing program).toList =
      (listingLine 0 s!"program {program.name}0;").toList ++
      ((a.blockListing 1 program.block).flatMap String.toList ++
        (listingLine 0 (endListing "." program.name)).toList) := by
    simp [Analysis.listing, String.toList_join]
  obtain ⟨pieces, hunmark, hjoined, htokens⟩ := hwrites
  have hlisting : (unmarked (a.listing program)).toList =
      pieces.flatMap Piece.chars ++ [] := by
    rw [unmarked, String.toList_ofList, htext]
    simpa using hunmark []
  rw [hlisting]
  refine ⟨pieces, (hjoined [] trivial).segmented, ?_⟩
  rw [← map_bare_lexemes []] at htokens
  exact hspells.program rfl rfl rfl rfl htokens

end Blocks

end MiniPascal
