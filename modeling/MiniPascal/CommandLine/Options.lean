import MiniPascal.Decimal.Layout
import MiniPascal.Settings

/-!
Arguments of the command line. Options and the file may come in any order; an option that takes
a value has it after `=` or as the next argument, and everything after `--` is a file. The
arguments are read from left to right up to the first that asks for nothing but the version, or
that is wrong.
-/

namespace MiniPascal.CommandLine

structure Options where
  file : Option String := none
  settings : Settings := {}
  /-- Show diagnostics as JSON. -/
  json : Bool := false
  /-- Show the tokens instead of running the program. -/
  tokens : Bool := false
  /-- Show the listing instead of running the program. -/
  listing : Bool := false
  deriving DecidableEq

/-- What the arguments ask for. -/
inductive Request where
  | run (options : Options)
  | version
  | help
  | misuse
  deriving DecidableEq

/-- The arguments read so far. What may be given only once is absent until it is. -/
structure Given where
  file : Option String := none
  traces : List Trace := []
  dumps : List Dump := []
  stage : Option Stage := none
  maxDepth : Option Nat := none
  maxNesting : Option Nat := none
  json : Bool := false
  tokens : Bool := false
  listing : Bool := false

namespace Given

def settings (g : Given) : Settings :=
  let plain : Settings := {}
  let limited : Settings :=
    { stage := g.stage.getD plain.stage, maxDepth := g.maxDepth.getD plain.maxDepth,
      maxNesting := g.maxNesting.getD plain.maxNesting }
  g.dumps.foldl Settings.withDump (g.traces.foldl Settings.withTrace limited)

def options (g : Given) : Options :=
  { file := g.file, settings := g.settings, json := g.json, tokens := g.tokens,
    listing := g.listing }

/-- There is at most one file, and its name is not empty. -/
def addFile (g : Given) (name : String) : Option Given :=
  if g.file.isNone ∧ name ≠ "" then some { g with file := some name } else none

def addFiles (g : Given) : List String → Option Given
  | [] => some g
  | name :: names => do (← g.addFile name).addFiles names

/-- A flag may be given once. -/
def addFlag (g : Given) (name : String) : Option Given :=
  match name with
  | "json" => if g.json then none else some { g with json := true }
  | "tokens" => if g.tokens then none else some { g with tokens := true }
  | "emit-source" => if g.listing then none else some { g with listing := true }
  | _ => none

/-- The greatest limit that can be asked for. -/
def maxLimit : Nat := 18446744073709551615

/-- A limit is a row of decimal digits, with or without a plus sign, that fits into 64 bits. -/
def limit? (s : String) : Option Nat :=
  let digits :=
    match s.toList with
    | '+' :: digits => digits
    | digits => digits
  let n := Decimal.natOfDigits digits
  if digits ≠ [] ∧ digits.all Char.isDigit ∧ n ≤ maxLimit then some n else none

/-- An option with its value. Traces and dumps are lists with commas and may be given again;
the others may be given once. -/
def addValue (g : Given) (name value : String) : Option Given :=
  match name with
  | "trace" => do
      let traces ← (value.splitOn ",").mapM Trace.ofName?
      some { g with traces := g.traces ++ traces }
  | "dump" => do
      let dumps ← (value.splitOn ",").mapM Dump.ofName?
      some { g with dumps := g.dumps ++ dumps }
  | "run-level" => do
      let stage ← Stage.ofName? value
      if g.stage.isSome then none else some { g with stage := some stage }
  | "max-depth" => do
      let n ← limit? value
      if g.maxDepth.isSome then none else some { g with maxDepth := some n }
  | "max-nesting" => do
      let n ← limit? value
      if g.maxNesting.isSome then none else some { g with maxNesting := some n }
  | _ => none

end Given

def takesValue (name : String) : Bool :=
  name ∈ ["trace", "dump", "run-level", "max-depth", "max-nesting"]

/-- One argument by its form. -/
inductive Argument where
  /-- The mark after which there are only files. -/
  | filesFollow
  | long (name : String) (value : Option String)
  | short (letters : List Char)
  | file (name : String)
  deriving DecidableEq

/-- A hyphen alone is a file. -/
def Argument.ofString (s : String) : Argument :=
  match s.toList with
  | '-' :: '-' :: [] => .filesFollow
  | '-' :: '-' :: cs =>
      let name := String.ofList (cs.takeWhile (· ≠ '='))
      match cs.dropWhile (· ≠ '=') with
      | _ :: value => .long name (some (String.ofList value))
      | [] => .long name none
  | '-' :: c :: cs => .short (c :: cs)
  | _ => .file s

/-- The request of arguments that can be used, and misuse otherwise. -/
def Request.ofGiven? (g : Option Given) : Request :=
  match g with
  | some g => .run g.options
  | none => .misuse

def readFrom (g : Given) : List String → Request
  | [] => .run g.options
  | arg :: args =>
      match Argument.ofString arg with
      | .filesFollow => .ofGiven? (g.addFiles args)
      | .file name =>
          match g.addFile name with
          | some g => readFrom g args
          | none => .misuse
      | .short ('V' :: _) => .version
      | .short ('h' :: _) => .help
      | .short _ => .misuse
      | .long "version" none => .version
      | .long "help" none => .help
      | .long name (some value) =>
          match if takesValue name then g.addValue name value else none with
          | some g => readFrom g args
          | none => .misuse
      | .long name none =>
          if takesValue name then
            match args with
            | [] => .misuse
            | value :: args =>
                match Argument.ofString value with
                | .file value =>
                    match g.addValue name value with
                    | some g => readFrom g args
                    | none => .misuse
                | _ => .misuse
          else
            match g.addFlag name with
            | some g => readFrom g args
            | none => .misuse

def read (args : List String) : Request := readFrom {} args

end MiniPascal.CommandLine
