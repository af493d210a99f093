import MiniPascal.Journal
import MiniPascal.Token.Scan

/-!
All tokens of a text. Reading goes on step by step to the end of the text or to the first
error, and the journal tells where every step starts and which token it finds.
-/

namespace MiniPascal

/-- One reading step. -/
structure Step where
  start : Position
  result : Except LexicalError Token

namespace Cursor

def step (c : Cursor) : Step × Cursor :=
  let (result, rest) := c.scan
  (⟨c.position, result⟩, rest)

/-- The steps up to the end of the text or the first error. -/
def steps (c : Cursor) : List Step :=
  match h : c.scan with
  | (.error e, _) => [⟨c.position, .error e⟩]
  | (.ok t, rest) =>
      if ht : t.kind = .endOfText then [⟨c.position, .ok t⟩]
      else
        have := length_scan_lt h ht
        ⟨c.position, .ok t⟩ :: rest.steps
termination_by c.rest.length

end Cursor

namespace Journal

def openText (j : Journal) (text : String) : Journal :=
  j.trace .lexer fun _ => s!"Lexer::new() over {text.utf8ByteSize} chars"

def step (j : Journal) (s : Step) : Journal :=
  let j := j.trace .lexer fun _ => s!"next_token() at {s.start.text}"
  match s.result with
  | .ok t => j.trace .token fun _ => t.text
  | .error _ => j

end Journal

/-- The tokens of a text, the last of which is the end of the text. -/
def tokens (text : String) : Except LexicalError (List Token) :=
  (Cursor.ofText text).steps.mapM (·.result)

/-- The tokens of a text, with every step in the journal. -/
def readTokens (text : String) (j : Journal) : Except LexicalError (List Token) × Journal :=
  let steps := (Cursor.ofText text).steps
  (steps.mapM (·.result), steps.foldl .step (j.openText text))

/-- The first `n` steps. An error does not end the reading. -/
def readSteps (text : String) (n : Nat) (j : Journal) : List Step × Journal :=
  let rec go : Nat → Cursor → Journal → List Step × Journal
    | 0, _, j => ([], j)
    | n + 1, c, j =>
        let (s, c) := c.step
        let (steps, j) := go n c (j.step s)
        (s :: steps, j)
  go n (.ofText text) (j.openText text)

end MiniPascal
