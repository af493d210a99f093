import MiniPascal.Analysis.SemanticError
import MiniPascal.Grammar.SyntaxError
import MiniPascal.Machine.RuntimeError
import MiniPascal.Text.Json
import MiniPascal.Text.Line
import MiniPascal.Token.LexicalError

/-!
Errors of all stages, and how they are shown: as one line of JSON, or as a text that quotes the
line in question with a mark under the column.
-/

namespace MiniPascal

inductive Error where
  | lexical (e : LexicalError)
  | syntactic (e : SyntaxError)
  | semantic (errors : List SemanticError)
  | runtime (e : RuntimeError)
  deriving DecidableEq

def Error.message : Error → String
  | .lexical e => e.message
  | .syntactic e => e.message
  | .semantic errors => s!"semantic analysis failed with {errors.length} error(s)"
  | .runtime e => e.message

/-- The stage that an error comes from. -/
inductive DiagnosticKind where
  | lexical
  | syntactic
  | semantic
  | runtime
  deriving DecidableEq

namespace DiagnosticKind

def all : List DiagnosticKind := [.lexical, .syntactic, .semantic, .runtime]

def name : DiagnosticKind → String
  | .lexical => "lexical"
  | .syntactic => "syntax"
  | .semantic => "semantic"
  | .runtime => "runtime"

def ofName? (s : String) : Option DiagnosticKind := all.find? (·.name = s)

end DiagnosticKind

structure Diagnostic where
  kind : DiagnosticKind
  code : ErrorCode
  message : String
  position : Option Position := none
  /-- The token in question, as messages show it. -/
  token : Option String := none
  deriving DecidableEq

namespace Diagnostic

def ofLexical (e : LexicalError) : Diagnostic :=
  { kind := .lexical, code := .lexerError, message := e.message, position := some e.position }

def ofSyntactic (e : SyntaxError) : Diagnostic :=
  { kind := .syntactic, code := e.code, message := e.message,
    position := some e.token.position, token := some e.token.text }

def ofSemantic (e : SemanticError) : Diagnostic :=
  { kind := .semantic, code := e.code, message := e.message, position := some e.position }

def ofRuntime (e : RuntimeError) : Diagnostic :=
  { kind := .runtime, code := .runtimeFault, message := e.message, position := e.position? }

/-- One line of JSON, without the fields that have no value. -/
def json (d : Diagnostic) : String :=
  Text.Json.object <|
    [("kind", Text.Json.string d.kind.name), ("code", Text.Json.string d.code.name),
      ("message", Text.Json.string d.message)]
    ++ d.position.toList.map (fun p => ("span", p.json))
    ++ d.token.toList.map (fun t => ("token", Text.Json.string t))

/-- The line of a text with the given number, counted from one. There is nothing on a line that
the text does not have. -/
def quotedLine (text : String) (line : Nat) : String := ((Text.lines text)[line - 1]?).getD ""

/-- The quoted line with a gutter on its left, and the mark under it. -/
def excerpt (text : String) (p : Position) : String :=
  let number := Text.alignRight 3 (toString p.line)
  s!"   |\n{number} | {quotedLine text p.line}\n   | {Text.spaces (p.column - 1)}^\n"

/-- The diagnostic for a reader, with the name of the text and the text itself. -/
def render (file text : String) (d : Diagnostic) : String :=
  let heading := s!"error[{d.code.name}]: {d.message}\n"
  match d.position with
  | some p => s!"{heading}  --> {file}:{p.text}\n{excerpt text p}"
  | none => s!"{heading}  --> {file}\n"

end Diagnostic

/-- One diagnostic, or as many as there are semantic errors. -/
def Error.diagnostics : Error → List Diagnostic
  | .lexical e => [.ofLexical e]
  | .syntactic e => [.ofSyntactic e]
  | .semantic errors => errors.map .ofSemantic
  | .runtime e => [.ofRuntime e]

end MiniPascal
