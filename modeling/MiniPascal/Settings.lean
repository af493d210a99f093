/-!
Settings of a run: how far it goes, its two limits, and what it reports about itself. What is
reported changes nothing of what is computed.
-/

namespace MiniPascal

/-- Kinds of trace messages, one for each part of the work. -/
inductive Trace where
  | token
  | lexer
  | parser
  | analyzer
  | symbolTable
  | interpreter
  deriving DecidableEq

/-- Kinds of dumps. -/
inductive Dump where
  | text
  | tree
  | symbols
  | stack
  deriving DecidableEq

/-- The last stage of a run. -/
inductive Stage where
  | parse
  | analyze
  | interpret
  deriving DecidableEq

namespace Trace

def all : List Trace := [.token, .lexer, .parser, .analyzer, .symbolTable, .interpreter]

/-- The name by which a trace is asked for. -/
def name : Trace → String
  | .token => "token"
  | .lexer => "lexer"
  | .parser => "parser"
  | .analyzer => "analyzer"
  | .symbolTable => "symbol-table"
  | .interpreter => "interpreter"

def ofName? (s : String) : Option Trace := all.find? (·.name = s)

/-- The name under which a trace is reported. -/
def target : Trace → String
  | .token => "spi::token"
  | .lexer => "spi::lexer"
  | .parser => "spi::parser"
  | .analyzer => "spi::analyzer"
  | .symbolTable => "spi::symtab"
  | .interpreter => "spi::interpreter"

end Trace

namespace Dump

def all : List Dump := [.text, .tree, .symbols, .stack]

def name : Dump → String
  | .text => "text"
  | .tree => "ast"
  | .symbols => "symbols"
  | .stack => "stack"

def ofName? (s : String) : Option Dump := all.find? (·.name = s)

/-- All dumps are reported under one name. -/
def target : String := "spi::dump"

end Dump

namespace Stage

def all : List Stage := [.parse, .analyze, .interpret]

def name : Stage → String
  | .parse => "parse"
  | .analyze => "analyze"
  | .interpret => "interpret"

def ofName? (s : String) : Option Stage := all.find? (·.name = s)

end Stage

structure Settings where
  traces : List Trace := []
  dumps : List Dump := []
  stage : Stage := .interpret
  /-- How many procedures may be active at once. -/
  maxDepth : Nat := 512
  /-- How many blocks, compound statements, parentheses and signs may be open at once. -/
  maxNesting : Nat := 200
  deriving DecidableEq

namespace Settings

/-- Switches a trace on. -/
def withTrace (s : Settings) (t : Trace) : Settings :=
  if t ∈ s.traces then s else { s with traces := s.traces ++ [t] }

/-- Switches a dump on. -/
def withDump (s : Settings) (d : Dump) : Settings :=
  if d ∈ s.dumps then s else { s with dumps := s.dumps ++ [d] }

end Settings

end MiniPascal
