/-!
Kinds of tokens: punctuation, reserved words, identifiers and literals, and the end of the
text.
-/

namespace MiniPascal.Token

inductive Kind where
  | plus
  | minus
  | times
  | slash
  | leftParen
  | rightParen
  | semicolon
  | dot
  | colon
  | comma
  | program
  | integer
  | real
  | string
  | div
  | var
  | procedure
  | beginBlock
  | write
  | writeln
  | endBlock
  | identifier
  | integerLiteral
  | realLiteral
  | stringLiteral
  | assign
  | endOfText
  deriving DecidableEq, Inhabited

namespace Kind

def all : List Kind :=
  [.plus, .minus, .times, .slash, .leftParen, .rightParen, .semicolon, .dot, .colon, .comma,
    .program, .integer, .real, .string, .div, .var, .procedure, .beginBlock, .write, .writeln,
    .endBlock, .identifier, .integerLiteral, .realLiteral, .stringLiteral, .assign, .endOfText]

/-- The name that messages use. -/
def name : Kind → String
  | .plus => "PLUS"
  | .minus => "MINUS"
  | .times => "MUL"
  | .slash => "FLOAT_DIV"
  | .leftParen => "LPAREN"
  | .rightParen => "RPAREN"
  | .semicolon => "SEMI"
  | .dot => "DOT"
  | .colon => "COLON"
  | .comma => "COMMA"
  | .program => "PROGRAM"
  | .integer => "INTEGER"
  | .real => "REAL"
  | .string => "STRING"
  | .div => "INTEGER_DIV"
  | .var => "VAR"
  | .procedure => "PROCEDURE"
  | .beginBlock => "BEGIN"
  | .write => "WRITE"
  | .writeln => "WRITELN"
  | .endBlock => "END"
  | .identifier => "ID"
  | .integerLiteral => "INTEGER_CONST"
  | .realLiteral => "REAL_CONST"
  | .stringLiteral => "STRING_CONST"
  | .assign => "ASSIGN"
  | .endOfText => "EOF"

/-- The name in JSON, which sets off every part of it. -/
def jsonName : Kind → String
  | .leftParen => "L_PAREN"
  | .rightParen => "R_PAREN"
  | k => k.name

/-- Punctuation of one character. -/
def ofChar? : Char → Option Kind
  | '+' => some .plus
  | '-' => some .minus
  | '*' => some .times
  | '/' => some .slash
  | '(' => some .leftParen
  | ')' => some .rightParen
  | ';' => some .semicolon
  | '.' => some .dot
  | ':' => some .colon
  | ',' => some .comma
  | _ => none

/-- Reserved words, in upper case. -/
def ofWord? (word : String) : Option Kind :=
  match word with
  | "PROGRAM" => some .program
  | "INTEGER" => some .integer
  | "REAL" => some .real
  | "STRING" => some .string
  | "DIV" => some .div
  | "VAR" => some .var
  | "PROCEDURE" => some .procedure
  | "BEGIN" => some .beginBlock
  | "WRITE" => some .write
  | "WRITELN" => some .writeln
  | "END" => some .endBlock
  | _ => none

end Kind

end MiniPascal.Token
