import MiniPascal.Decimal.Layout

/-!
Values of the language and their three types. Integers are 64-bit words and reals are doubles.
-/

namespace MiniPascal

inductive DataType where
  | integer
  | real
  | string
  deriving DecidableEq, Inhabited

def DataType.name : DataType → String
  | .integer => "INTEGER"
  | .real => "REAL"
  | .string => "STRING"

/-- The least integer of 64 bits. -/
def minInteger : Int := -9223372036854775808

/-- The greatest integer of 64 bits. -/
def maxInteger : Int := 9223372036854775807

inductive Value where
  | integer (n : Int64)
  | real (x : Float)
  | string (s : String)
  deriving DecidableEq, Inhabited

namespace Value

def type : Value → DataType
  | .integer _ => .integer
  | .real _ => .real
  | .string _ => .string

/-- What `write` shows. -/
def text : Value → String
  | .integer n => toString n.toInt
  | .real x => Decimal.plain x
  | .string s => s

/-- A number as a real. -/
def toReal? : Value → Option Float
  | .integer n => some (Float.ofInt n.toInt)
  | .real x => some x
  | .string _ => none

/-- The value as it is stored in a variable of the given type. An integer is widened to a real
where a real is declared; apart from that the types must agree. -/
def coerce? (v : Value) (type : DataType) : Option Value :=
  match v, type with
  | .integer n, .real => some (.real (Float.ofInt n.toInt))
  | v, type => if v.type = type then some v else none

theorem type_of_coerce? {v w : Value} {type : DataType} (h : v.coerce? type = some w) :
    w.type = type := by
  unfold coerce? at h
  split at h
  · cases h; rfl
  · split at h
    · cases h; assumption
    · cases h

end Value

end MiniPascal
