import MiniPascal.Position
import MiniPascal.Text.Json
import MiniPascal.Token.Kind
import MiniPascal.Value

/-!
Tokens. A token has a kind, the position of its first character and, unless it is the end of
the text, a value: numbers their number, strings their contents, words their upper-case
spelling and punctuation its spelling.
-/

namespace MiniPascal

structure Token where
  kind : Token.Kind
  value : Option Value
  position : Position
  deriving DecidableEq, Inhabited

def Position.json (p : Position) : String :=
  Text.Json.object [("line", toString p.line), ("column", toString p.column)]

namespace Token

/-- The value of a token whose value is a text. -/
def spelling? (t : Token) : Option String :=
  match t.value with
  | some (.string s) => some s
  | _ => none

/-- The token as messages show it. -/
def text (t : Token) : String :=
  match t.value with
  | some v => s!"Token({t.kind.name}, value={v.text}, position={t.position.text})"
  | none => s!"Token({t.kind.name}, position={t.position.text})"

def valueJson : Option Value → String
  | none => "null"
  | some (.integer n) => toString n.toInt
  | some (.real x) => Decimal.json x
  | some (.string s) => Text.Json.string s

def json (t : Token) : String :=
  Text.Json.object
    [("kind", Text.Json.string t.kind.jsonName), ("value", valueJson t.value),
      ("span", t.position.json)]

end Token

end MiniPascal
