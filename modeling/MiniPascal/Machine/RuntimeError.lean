import MiniPascal.Position
import MiniPascal.Value.Arithmetic

/-!
What can go wrong while a program runs.
-/

namespace MiniPascal

inductive RuntimeError where
  | arithmetic (fault : ArithmeticFault) (position : Position)
  | incompatibleAssignment (name : String) (declared actual : DataType) (position : Position)
  | uninitialized (name : String) (position : Position)
  | argumentCount (name : String) (expected found : Nat) (position : Position)
  | unresolved (name : String) (position : Position)
  | missingFrame (name : String) (level : Nat) (position : Position)
  | callDepthExceeded (name : String) (limit : Nat) (position : Position)
  | output (reason : String)
  deriving DecidableEq

namespace RuntimeError

/-- Where it went wrong. Output that fails has no position. -/
def position? : RuntimeError → Option Position
  | .arithmetic _ p => some p
  | .incompatibleAssignment _ _ _ p => some p
  | .uninitialized _ p => some p
  | .argumentCount _ _ _ p => some p
  | .unresolved _ p => some p
  | .missingFrame _ _ p => some p
  | .callDepthExceeded _ _ p => some p
  | .output _ => none

def message : RuntimeError → String
  | .arithmetic fault p => s!"{fault.message} at {p.text}"
  | .incompatibleAssignment name declared actual p =>
      s!"cannot store a {actual.name} value in {declared.name} variable '{name}' at {p.text}"
  | .uninitialized name p => s!"variable '{name}' used before it was assigned at {p.text}"
  | .argumentCount name expected found p =>
      s!"procedure '{name}' expects {expected} argument(s) but received {found} at {p.text}"
  | .unresolved name p => s!"'{name}' at {p.text} was never resolved by semantic analysis"
  | .missingFrame name level p =>
      s!"no live frame at nesting level {level} for '{name}' at {p.text}"
  | .callDepthExceeded name limit p =>
      s!"call depth limit of {limit} exceeded calling '{name}' at {p.text}"
  | .output reason => s!"failed to write program output: {reason}"

end RuntimeError

end MiniPascal
