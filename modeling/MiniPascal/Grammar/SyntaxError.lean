import MiniPascal.ErrorCode
import MiniPascal.Token.Basic

/-!
What can be wrong with the order of tokens: a token that fits nothing, or one that opens more
than may be open at once.
-/

namespace MiniPascal

inductive SyntaxError where
  | unexpected (token : Token) (expected : Option String)
  | tooDeep (token : Token) (limit : Nat)
  deriving DecidableEq

namespace SyntaxError

def token : SyntaxError → Token
  | .unexpected token _ => token
  | .tooDeep token _ => token

def code : SyntaxError → ErrorCode
  | .unexpected _ _ => .unexpectedToken
  | .tooDeep _ _ => .nestingTooDeep

/-- What would have been right instead. -/
def expected : SyntaxError → Option String
  | .unexpected _ expected => expected
  | .tooDeep _ limit => some s!"at most {limit} nested levels"

def message (e : SyntaxError) : String :=
  let found := s!"{e.code.description} -> {e.token.text}"
  match e.expected with
  | some what => s!"{found}, expected {what}"
  | none => found

end SyntaxError

end MiniPascal
