import MiniPascal.Proofs.Grammar.Agreement
import MiniPascal.Proofs.Grammar.NestingLimit

/-!
A parser in use. Its operations are the rules of the grammar and the steps that look at one
token, and they may follow one another in any order, on any tokens, whether those before
succeeded or failed.

What a single operation leaves of a parser is read off the agreement of the rules with the
rules under watch, and so is, operation by operation, what any use of the parser leaves of it.
-/

namespace MiniPascal

/-- What a parser can be asked to do, with what it answers. -/
inductive Operation : Type → Type
  | wholeProgram : Operation Program
  | program : Operation Program
  | block : Operation Block
  | declarations : Operation (List VarDecl × List Procedure)
  | variableGroup : Operation (List VarDecl)
  | procedure : Operation Procedure
  | parameters : Operation (List VarDecl)
  | compound : Operation (List Statement)
  | statementList : Operation (List Statement)
  | statement : Operation Statement
  | assignment : Operation Statement
  | call : Operation Call
  | write : Operation Statement
  | variableUse : Operation Variable
  | expr : Operation Expr
  | term : Operation Expr
  | factor : Operation Expr
  | typeName : Operation (DataType × Position)
  | identifier : Operation (String × Position)
  | current : Operation Token
  | peekKind : Operation Token.Kind
  | advance : Operation Token
  | check (kind : Token.Kind) : Operation Bool
  | accept (kind : Token.Kind) : Operation Bool
  | eat (kind : Token.Kind) : Operation Token
  | unexpected (expected : String) : Operation Unit

namespace Operation

variable {α : Type}

/-- The rule of an operation, where `levels` levels may be opened. -/
def rule (levels : Nat) : Operation α → Rule α
  | wholeProgram => Rule.wholeProgram levels
  | program => Rule.program levels
  | block => Rule.block levels
  | declarations => Rule.declarations levels
  | variableGroup => Rule.variableGroup
  | procedure => Rule.procedure levels
  | parameters => Rule.parameters
  | compound => Rule.compound levels
  | statementList => Rule.statementList levels
  | statement => Rule.statement levels
  | assignment => Rule.assignment (Rule.expr levels)
  | call => Rule.call (Rule.expr levels)
  | write => Rule.write (Rule.expr levels)
  | variableUse => Rule.variableUse
  | expr => Rule.expr levels
  | term => Rule.term levels
  | factor => Rule.factor levels
  | typeName => Rule.typeName
  | identifier => Rule.identifier
  | current => Rule.current
  | peekKind => Rule.peekKind
  | advance => Rule.advance
  | check kind => Rule.check kind
  | accept kind => Rule.accept kind
  | eat kind => Rule.eat kind
  | unexpected expected => Rule.unexpected expected

/-- The same rule under watch, where recursion goes less than `n` deep. -/
def watched (n : Nat) : Operation α → Watched α
  | wholeProgram => Watched.wholeProgram n
  | program => Watched.program n
  | block => Watched.block n
  | declarations => Watched.declarations n
  | variableGroup => Watched.variableGroup
  | procedure => Watched.procedure n
  | parameters => Watched.parameters
  | compound => Watched.compound n
  | statementList => Watched.statementList n
  | statement => Watched.statement n
  | assignment => Watched.assignment (Watched.expr n)
  | call => Watched.call (Watched.expr n)
  | write => Watched.write (Watched.expr n)
  | variableUse => Watched.variableUse
  | expr => Watched.expr n
  | term => Watched.term n
  | factor => Watched.factor n
  | typeName => Watched.plain Rule.typeName
  | identifier => Watched.plain Rule.identifier
  | current => Watched.plain Rule.current
  | peekKind => Watched.plain Rule.peekKind
  | advance => Watched.plain Rule.advance
  | check kind => Watched.plain (Rule.check kind)
  | accept kind => Watched.plain (Rule.accept kind)
  | eat kind => Watched.plain (Rule.eat kind)
  | unexpected expected => Watched.plain (Rule.unexpected expected)

/-- The nodes that an answer holds. -/
def nodes : Operation α → α → List Use
  | wholeProgram, p => p.block.uses
  | program, p => p.block.uses
  | block, b => b.uses
  | declarations, d => Procedure.usesAll d.2
  | procedure, p => p.uses
  | compound, body => Statement.usesAll body
  | statementList, body => Statement.usesAll body
  | statement, s => s.uses
  | assignment, s => s.uses
  | call, c => c.args.flatMap Expr.uses ++ [.call c]
  | write, s => s.uses
  | variableUse, v => [.var v]
  | expr, e => e.uses
  | term, e => e.uses
  | factor, e => e.uses
  | _, _ => []

theorem agrees (op : Operation α) {levels n : Nat} (h : levels < n) :
    Watched.Agrees levels [] (op.rule levels) (op.watched n) op.nodes := by
  have hexpr := Watched.forward_expr levels
  cases op with
  | wholeProgram => exact .wholeProgram h
  | program => exact .program h
  | block => exact .block h
  | declarations => exact (Watched.Agrees.block h).declarationsOf (.block (Nat.le_refl levels))
  | variableGroup => exact .variableGroup
  | procedure => exact .procedureOf (.block h)
  | parameters => exact .parameters
  | compound => exact .compound h
  | statementList => exact .statementList h (.compound h)
  | statement => exact (Watched.Agrees.compound h).statementOf hexpr (.expr h)
  | assignment => exact .assignment (.expr h)
  | call => exact .call hexpr (.expr h)
  | write => exact .write hexpr (.expr h)
  | variableUse => exact .variableUse
  | expr => exact .expr h
  | term => exact .chain rfl (.factor h)
  | factor => exact .factor h
  | typeName => exact .plain .typeName fun _ => rfl
  | identifier => exact .plain .identifier fun _ => rfl
  | current => exact .plain .current fun _ => rfl
  | peekKind => exact .plain .peekKind fun _ => rfl
  | advance => exact .plain .advance fun _ => rfl
  | check kind => exact .plain (.check kind) fun _ => rfl
  | accept kind => exact .plain (.accept kind) fun _ => rfl
  | eat kind => exact .plain (.eat kind) fun _ => rfl
  | unexpected expected => exact .plain (.unexpected expected) fun _ => rfl

/-- An answer or an error, and where it leaves what was worked on. -/
def outcome {σ : Type} : EStateM.Result SyntaxError σ α → Except SyntaxError α × σ
  | .ok a s => (.ok a, s)
  | .error e s => (.error e, s)

/-- Asks a parser in which no level is open. -/
def run (op : Operation α) (p : Parser) : Except SyntaxError α × Parser :=
  outcome (op.rule p.maxNesting p)

/-- Asks a parser under watch. -/
def watch (op : Operation α) (w : Watch) : Except SyntaxError α × Watch :=
  outcome (op.watched (w.parser.maxNesting + 1) w)

/-- One operation: the parser does the same under watch, and everything keeps its order. -/
theorem leads (op : Operation α) {w : Watch} (hw : w.Sound) (hdepth : w.depth = 0) :
    w.Leads (op.watch w).2 ∧ op.run w.parser = ((op.watch w).1, (op.watch w).2.parser) ∧
      ∀ a, (op.watch w).1 = .ok a → (op.watch w).2.built = w.built ++ op.nodes a := by
  have hlevels : w.depth + w.parser.maxNesting = w.parser.maxNesting := by
    rw [hdepth, Nat.zero_add]
  have hends :=
    op.agrees (Nat.lt_succ_self w.parser.maxNesting) hw hlevels (List.append_nil _).symm
  rw [run, watch]
  generalize op.rule w.parser.maxNesting w.parser = ρ at hends ⊢
  generalize op.watched (w.parser.maxNesting + 1) w = ξ at hends ⊢
  cases hends with
  | ok hleads hbuilt =>
      refine ⟨hleads, rfl, ?_⟩
      rintro a ha
      cases ha
      exact hbuilt
  | error hleads =>
      refine ⟨hleads, rfl, ?_⟩
      rintro a ha
      cases ha

end Operation

/-! ### Histories -/

/-- Operations one after the other, whatever their answers. -/
def Parser.after (p : Parser) (history : List (Sigma Operation)) : Parser :=
  history.foldl (fun p op => (op.2.run p).2) p

namespace Watch

def after (w : Watch) (history : List (Sigma Operation)) : Watch :=
  history.foldl (fun w op => (op.2.watch w).2) w

/-- A parser at the first of the tokens, with nothing done yet. -/
def start (tokens : List Token) (settings : Settings) (journal : Journal) : Watch :=
  ⟨.ofTokens tokens settings journal, 0, [], false⟩

theorem start_sound (tokens : List Token) (settings : Settings) (journal : Journal) :
    (start tokens settings journal).Sound where
  ended := Parser.ended_ofTokens tokens settings journal
  rounds := by cases tokens <;> exact Nat.le_refl _
  numbered := by cases tokens <;> rfl
  uncut := rfl

theorem leads_after {w : Watch} (hw : w.Sound) (hdepth : w.depth = 0)
    (history : List (Sigma Operation)) :
    w.Leads (w.after history) ∧ (w.after history).parser = w.parser.after history := by
  induction history generalizing w with
  | nil => exact ⟨.refl hw, rfl⟩
  | cons op history ih =>
      obtain ⟨hleads, hrun, -⟩ := op.2.leads hw hdepth
      obtain ⟨hrest, hparser⟩ := ih hleads.sound (hleads.depth.trans hdepth)
      refine ⟨hleads.trans hrest, ?_⟩
      have hnext : (op.2.run w.parser).2 = (op.2.watch w).2.parser := by rw [hrun]
      rw [Parser.after, List.foldl_cons, hnext]
      exact hparser

end Watch

/-! ### The cursor -/

/-- The index of the current token among all tokens of the parser. -/
def Parser.cursor (row : List Token) (p : Parser) : Nat := row.length - p.row.length

/-- What stands before the current token has been taken. -/
theorem Parser.Reaches.cursor {p q : Parser} (h : p.Reaches q) :
    p.row[q.cursor p.row]? = some q.current ∧
    Grammar.Endless (p.row.take (q.cursor p.row)) := by
  obtain ⟨ts, hts, hendless⟩ := h.taken
  have hcursor : q.cursor p.row = ts.length := by
    rw [Parser.cursor, hts, List.length_append, Nat.add_sub_cancel]
  rw [hcursor, hts]
  exact ⟨by simp [Parser.row], by simpa using hendless⟩

theorem Parser.Reaches.cursor_le {p q : Parser} (h : p.Reaches q) (row : List Token) :
    p.cursor row ≤ q.cursor row :=
  Nat.sub_le_sub_left h.suffix.length_le _

/-- What an operation leaves of a parser under watch, whose tokens are the `row`. -/
structure Operation.Keeps {α : Type} (op : Operation α) (row : List Token) (w : Watch) :
    Prop where
  /-- The answer is that of the parser that is not watched, which gets to the same place. -/
  unchanged : op.run w.parser = ((op.watch w).1, (op.watch w).2.parser)
  /-- No loop and no recursion has had to be stopped. -/
  uncut : (op.watch w).2.cut = false
  /-- The tokens from the cursor on are there, and the last of them is the end of the text. -/
  ended : (op.watch w).2.parser.Ended
  /-- The cursor is at a token. -/
  cursor_at : row[(op.watch w).2.parser.cursor row]? = some (op.watch w).2.parser.current
  cursor_le : w.parser.cursor row ≤ (op.watch w).2.parser.cursor row
  /-- No end of the text has been passed. -/
  endless : ∀ t ∈ row.take ((op.watch w).2.parser.cursor row), t.kind ≠ .endOfText
  nextId_le : w.parser.nextId ≤ (op.watch w).2.parser.nextId
  /-- What was built before is remembered. -/
  built : w.built <+: (op.watch w).2.built
  /-- No two of the nodes that were ever built share their number. -/
  nodup : ((op.watch w).2.built.map Use.id).Nodup
  /-- An answer holds what was built for it. -/
  answer : ∀ a, (op.watch w).1 = .ok a → (op.watch w).2.built = w.built ++ op.nodes a
  /-- As many levels are open as before. -/
  depth : (op.watch w).2.depth = w.depth

/-- **A parser stays sound however it is used.** On any tokens and under any settings, let
operations follow one another, each from where the one before has succeeded or failed. The next
one comes to an end by itself; its cursor stays at a token, with the end of the text ahead of
it or there, goes on or stays, and passes no end of the text; no number is given to two nodes,
in this operation or in any before it, kept or lost; and every level that it opens it
closes. -/
theorem parser_stays_sound (tokens : List Token) (settings : Settings) (journal : Journal)
    (history : List (Sigma Operation)) {α : Type} (op : Operation α) :
    let p := Parser.ofTokens tokens settings journal
    let w := (Watch.start tokens settings journal).after history
    w.parser = p.after history ∧ op.Keeps p.row w := by
  intro p w
  obtain ⟨hhistory, hparser⟩ :=
    Watch.leads_after (Watch.start_sound tokens settings journal) rfl history
  obtain ⟨hleads, hrun, hanswer⟩ := op.leads hhistory.sound hhistory.depth
  obtain ⟨hat, hendless⟩ := (hhistory.trans hleads).reaches.cursor
  exact ⟨hparser,
    { unchanged := hrun
      uncut := hleads.sound.uncut
      ended := hleads.sound.ended
      cursor_at := hat
      cursor_le := hleads.reaches.cursor_le p.row
      endless := hendless
      nextId_le := hleads.reaches.nextId
      built := hleads.built
      nodup := hleads.sound.numbered ▸ List.nodup_range
      answer := hanswer
      depth := hleads.depth }⟩

end MiniPascal
