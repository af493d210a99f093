import MiniPascal.Position

/-!
What can be wrong with a text before its tokens are put together.
-/

namespace MiniPascal

inductive LexicalError where
  | unrecognizedCharacter (c : Char) (position : Position)
  | unterminatedString (position : Position)
  | unterminatedComment (position : Position)
  | integerOutOfRange (lexeme : String) (position : Position)
  | realOutOfRange (lexeme : String) (position : Position)
  deriving DecidableEq

namespace LexicalError

def position : LexicalError → Position
  | .unrecognizedCharacter _ p => p
  | .unterminatedString p => p
  | .unterminatedComment p => p
  | .integerOutOfRange _ p => p
  | .realOutOfRange _ p => p

def message : LexicalError → String
  | .unrecognizedCharacter c p =>
      s!"unrecognized character '{c}' at line {p.line} column {p.column}"
  | .unterminatedString p => s!"unterminated string literal starting at {p.text}"
  | .unterminatedComment p => s!"unterminated comment starting at {p.text}"
  | .integerOutOfRange lexeme _ => s!"integer literal '{lexeme}' does not fit in 64 bits"
  | .realOutOfRange lexeme _ => s!"real literal '{lexeme}' is too large to represent"

end LexicalError

end MiniPascal
