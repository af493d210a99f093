import MiniPascal.Grammar.SyntaxError
import MiniPascal.Journal
import MiniPascal.Syntax.Tree

/-!
Rules of the grammar read tokens. A rule that fails leaves the parser at the token where it
failed, so that reading can go on from there.
-/

namespace MiniPascal

/-- Reads a list of tokens. The last token is the end of the text, and no end of the text is
ever passed. -/
structure Parser where
  current : Token
  /-- The tokens after the current one. -/
  ahead : List Token
  /-- How many tokens there are in all, which no loop over tokens can exceed. -/
  total : Nat
  nextId : Nat
  maxNesting : Nat
  journal : Journal

namespace Parser

/-- A parser at the first of the tokens. If they do not end with the end of the text, one is
put where the last token is. -/
def ofTokens (tokens : List Token) (settings : Settings) (journal : Journal) : Parser :=
  match tokens with
  | [] =>
      { current := ⟨.endOfText, none, .start⟩, ahead := [], total := 1, nextId := 0,
        maxNesting := settings.maxNesting, journal }
  | t :: ts =>
      let last := ts.getLastD t
      let ahead :=
        if last.kind = .endOfText then ts else ts ++ [⟨.endOfText, none, last.position⟩]
      { current := t, ahead, total := ahead.length + 1, nextId := 0,
        maxNesting := settings.maxNesting, journal }

end Parser

abbrev Rule := EStateM SyntaxError Parser

namespace Rule

def note (message : Unit → String) : Rule Unit :=
  modify fun p => { p with journal := p.journal.trace .parser message }

def current : Rule Token := fun p => .ok p.current p

/-- Whether the current token is of the given kind. -/
def check (kind : Token.Kind) : Rule Bool := fun p => .ok (p.current.kind = kind) p

/-- The kind of the token after the current one. -/
def peekKind : Rule Token.Kind := fun p =>
  match p.ahead with
  | [] => .ok .endOfText p
  | t :: _ => .ok t.kind p

/-- Takes the current token, whatever it is. -/
def advance : Rule Token := fun p =>
  match p.ahead with
  | [] => .ok p.current p
  | t :: ts =>
      if p.current.kind = .endOfText then .ok p.current p
      else .ok p.current { p with current := t, ahead := ts }

/-- Takes the current token if it is of the given kind. -/
def accept (kind : Token.Kind) : Rule Bool := do
  if ← check kind then
    let _ ← advance
    return true
  else
    return false

def unexpected {α : Type} (expected : String) : Rule α := fun p =>
  .error (.unexpected p.current (some expected)) p

/-- Takes the current token, which must be of the given kind. -/
def eat (kind : Token.Kind) : Rule Token := do
  let token ← current
  note fun _ => s!"eat({kind.name}) at {token.text}"
  if ← check kind then advance else unexpected kind.name

/-- Takes an identifier: its name and where it stands. -/
def identifier : Rule (String × Position) := do
  let token ← eat .identifier
  return (token.spelling?.getD "", token.position)

def newId : Rule NodeId := fun p => .ok p.nextId { p with nextId := p.nextId + 1 }

/-- Fails because the current token would open more than may be open at once. -/
def tooDeep {α : Type} : Rule α := fun p => .error (.tooDeep p.current p.maxNesting) p

/-- At most `n` results of `step`, up to the first time that it has none. -/
def collectUpTo {α : Type} (step : Rule (Option α)) : Nat → Rule (List α)
  | 0 => return []
  | n + 1 => do
      match ← step with
      | none => return []
      | some a => return a :: (← collectUpTo step n)

/-- The results of `step` up to the first time that it has none. Every result takes a token, so
the number of tokens bounds their number. -/
def collect {α : Type} (step : Rule (Option α)) : Rule (List α) := fun p =>
  collectUpTo step p.total p

/-- One item or more, with a token of the given kind between any two. -/
def separated {α : Type} (separator : Token.Kind) (item : Rule α) : Rule (List α) := do
  let first ← item
  let others ← collect do
    if ← accept separator then return some (← item) else return none
  return first :: others

end Rule

end MiniPascal
