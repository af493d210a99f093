import MiniPascal.Diagnostic
import MiniPascal.Grammar.Program
import MiniPascal.Machine.Exec
import MiniPascal.Syntax.Outline
import MiniPascal.Token.Stream

/-!
A run takes a text through all stages: its tokens, its tree, the meaning of its names, and what
it does. It stops after the stage that the settings name, or at the first stage that fails.
-/

namespace MiniPascal

/-- The tokens of a text. -/
def tokenize (text : String) (j : Journal) : Except Error (List Token) × Journal :=
  match readTokens text (j.dump .text fun _ => text) with
  | (.ok tokens, j) => (.ok tokens, j)
  | (.error e, j) => (.error (.lexical e), j)

/-- The tree of a text. -/
def parse (settings : Settings) (text : String) (j : Journal) :
    Except Error Program × Journal :=
  match tokenize text j with
  | (.error e, j) => (.error e, j)
  | (.ok tokens, j) =>
      match parseProgram tokens settings j with
      | (.error e, j) => (.error (.syntactic e), j)
      | (.ok program, j) => (.ok program, j.dump .tree fun _ => program.outline)

/-- The meaning of the names of a program. -/
def analyze (program : Program) (j : Journal) : Except Error Analysis × Journal :=
  match analyzeProgram program j with
  | (.error errors, j) => (.error (.semantic errors), j)
  | (.ok analysis, j) => (.ok analysis, j)

/-- What a run has found out when it stops. -/
structure Outcome where
  program : Program
  analysis : Option Analysis := none
  /-- The frame of the program in the end. -/
  globals : Option Frame := none

/-- A text before its program is started: what the run stops with, or the program and its
meaning. -/
inductive Prepared where
  | stopped (result : Except Error Outcome)
  | ready (program : Program) (analysis : Analysis)

/-- Takes a text as far as the program can be started. -/
def prepare (settings : Settings) (text : String) (j : Journal) : Prepared × Journal :=
  match parse settings text j with
  | (.error e, j) => (.stopped (.error e), j)
  | (.ok program, j) =>
      if settings.stage = .parse then (.stopped (.ok { program }), j)
      else
        match analyze program j with
        | (.error e, j) => (.stopped (.error e), j)
        | (.ok analysis, j) =>
            if settings.stage = .analyze then
              (.stopped (.ok { program, analysis := some analysis }), j)
            else (.ready program analysis, j)

structure RunResult where
  result : Except Error Outcome
  output : Output
  journal : Journal

/-- What is left of a run when the program has ended. -/
def RunResult.ofEnding (program : Program) (analysis : Analysis) : Ending Frame → RunResult
  | .ok frame m =>
      ⟨.ok { program, analysis := some analysis, globals := some frame }, m.output, m.journal⟩
  | .error e m => ⟨.error (.runtime e), m.output, m.journal⟩

def run (settings : Settings) (text : String) (output : Output) (j : Journal) : RunResult :=
  match prepare settings text j with
  | (.stopped result, j) => ⟨result, output, j⟩
  | (.ready program analysis, j) =>
      .ofEnding program analysis
        (analysis.interpret settings.maxDepth program { output, journal := j })

end MiniPascal
