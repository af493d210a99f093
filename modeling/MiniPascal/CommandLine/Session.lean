import MiniPascal.CommandLine.Console
import MiniPascal.Text.Blank

/-!
The two ways to use the command line: a file is run once, and without a file there is a
session, in which programs are typed one after the other. In a session a blank line ends a
program, and a blank line where a program could start ends the session.
-/

namespace MiniPascal.CommandLine

def dataStatus : UInt32 := 65
def noInputStatus : UInt32 := 66
def softwareStatus : UInt32 := 70
def readStatus : UInt32 := 74
def misuseStatus : UInt32 := 2

def exitStatus : Option Error → UInt32
  | none => 0
  | some (.runtime _) => softwareStatus
  | some _ => dataStatus

/-- Why a text cannot be read. -/
inductive InputError where
  | missing
  | badEncoding
  | other (reason : String)

def InputError.message : InputError → String
  | .missing => "No such file or directory (os error 2)"
  | .badEncoding => "stream did not contain valid UTF-8"
  | .other reason => reason

/-- The text with the given bytes. -/
def decode (bytes : ByteArray) : Except InputError String :=
  match String.fromUTF8? bytes with
  | some text => .ok text
  | none => .error .badEncoding

/-- Runs the file `name`, given its contents. -/
def runFile (o : Options) (name : String) (contents : Except InputError ByteArray) :
    Console × UInt32 :=
  match contents >>= decode with
  | .error e =>
      (({} : Console).complain s!"spi: cannot read '{name}': {e.message}\n", noInputStatus)
  | .ok text =>
      let (c, error?) := ({} : Console).execute o name text
      (c, exitStatus error?)

/-- A session holds the lines of the program that is being typed. -/
structure Session where
  buffer : String := ""

/-- Whether a session goes on or ends with a status. -/
inductive Next where
  | goOn (s : Session)
  | quit (status : UInt32)

namespace Session

def name : String := "<repl>"

def firstPrompt : String := "spi> "

def nextPrompt : String := "...> "

def banner : String :=
  "SPI - Simple Pascal Interpreter\n" ++
  "Finish a program with an empty line. An empty program quits.\n"

/-- Runs what has been typed. -/
def execute (s : Session) (o : Options) (c : Console) : Console :=
  (c.execute o name s.buffer).1

/-- Takes a line. A line that is not encoded properly ends the session. -/
def feed (s : Session) (o : Options) (c : Console) (line : Option String) : Console × Next :=
  match line with
  | none =>
      (c.complain s!"spi: cannot read input: {InputError.badEncoding.message}\n",
        .quit readStatus)
  | some line =>
      if Text.isBlankLine line then
        if s.buffer.isEmpty then (c.print "\n", .quit 0)
        else ((s.execute o c).print firstPrompt, .goOn {})
      else (c.print nextPrompt, .goOn ⟨s.buffer ++ line ++ "\n"⟩)

/-- Ends where the input ends. A program that has been typed is still run. -/
def close (s : Session) (o : Options) (c : Console) : Console :=
  if s.buffer.isEmpty then c.print "\n" else s.execute o c

def start (c : Console) : Console := (c.print banner).print firstPrompt

/-- A session on the given lines. -/
def runFrom (s : Session) (o : Options) (c : Console) : List (Option String) → Console × UInt32
  | [] => (s.close o c, 0)
  | line :: lines =>
      match s.feed o c line with
      | (c, .goOn s) => s.runFrom o c lines
      | (c, .quit status) => (c, status)

def run (o : Options) (input : ByteArray) : Console × UInt32 :=
  runFrom {} o (start {}) (Text.byteLines input)

end Session

def versionText : String := "spi 0.1.0\n"

def helpText : String :=
  "Usage: spi [OPTIONS] [FILE]\n\n" ++
  "Runs FILE, or starts a session when no file is given.\n\n" ++
  "  --trace NAMES      token, lexer, parser, analyzer, symbol-table, interpreter\n" ++
  "  --dump NAMES       text, ast, symbols, stack\n" ++
  "  --run-level STAGE  parse, analyze, interpret\n" ++
  "  --max-depth N      most procedures that may be active at once\n" ++
  "  --max-nesting N    most constructs that may be open at once\n" ++
  "  --json             show diagnostics as JSON\n" ++
  "  --tokens           show the tokens and stop\n" ++
  "  --emit-source      show the listing and stop\n"

/-- Answers the arguments, given how files are read and what stands on the input. -/
def answer (args : List String) (readFile : String → Except InputError ByteArray)
    (input : ByteArray) : Console × UInt32 :=
  match read args with
  | .version => (({} : Console).print versionText, 0)
  | .help => (({} : Console).print helpText, 0)
  | .misuse => (({} : Console).complain helpText, misuseStatus)
  | .run o =>
      match o.file with
      | some name => runFile o name (readFile name)
      | none => Session.run o input

end MiniPascal.CommandLine
