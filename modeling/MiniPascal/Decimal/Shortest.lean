import MiniPascal.Decimal.Binary

/-!
The shortest decimal of a positive double: of all decimals that read back as the double one
with the fewest digits, and of these the nearest. Which of two equally near ones is taken is up
to the format that shows it. A decimal reads back if it lies between the midpoints to the
neighbouring doubles; the midpoints themselves read back exactly when the mantissa is even.

All comparisons are exact. The value and the midpoints are whole numbers of quarters of the
last binary place, which is fine enough for the narrower gap below a power of two.
-/

namespace MiniPascal.Decimal

/-- The number whose decimal digits are `digits`, times `10 ^ exponent`. -/
structure Shortest where
  digits : List Char
  exponent : Int

/-- Leaves out zeros at the end. -/
def Shortest.ofNat (n : Nat) (exponent : Int) : Shortest :=
  let digits := Nat.toDigits 10 n
  let kept := (digits.reverse.dropWhile (· = '0')).reverse
  ⟨kept, exponent + (digits.length - kept.length : Nat)⟩

/-- Which of two equally near decimals is taken. -/
inductive Tie where
  /-- The larger one. -/
  | up
  /-- The one whose last digit is even. -/
  | even
  deriving DecidableEq

/-- The choice between `n` and `n + 1`, which are equally near. -/
def Tie.choose (tie : Tie) (n : Nat) : Nat :=
  match tie with
  | .up => n + 1
  | .even => if n % 2 = 0 then n else n + 1

def tenTo (n : Nat) : Nat := Nat.pow 10 n

namespace Binary

def quarters (b : Binary) : Nat := 4 * b.mantissa

/-- The gap to the next smaller double is half as wide at a power of two. -/
def lowerMidpoint (b : Binary) : Nat :=
  if b.mantissa = twoTo fractionBits ∧ leastExponent < b.exponent then b.quarters - 1
  else b.quarters - 2

def upperMidpoint (b : Binary) : Nat := b.quarters + 2

/-- Factors that bring a multiple of `10 ^ place` and a number of quarters to one scale. -/
def scales (b : Binary) (place : Int) : Nat × Nat :=
  let power := b.exponent - 2
  (tenTo place.toNat * twoTo (-power).toNat, tenTo (-place).toNat * twoTo power.toNat)

def readsBack (b : Binary) (place : Int) (n : Nat) : Bool :=
  let (tens, twos) := b.scales place
  if b.mantissa % 2 = 0 then
    b.lowerMidpoint * twos ≤ n * tens ∧ n * tens ≤ b.upperMidpoint * twos
  else
    b.lowerMidpoint * twos < n * tens ∧ n * tens < b.upperMidpoint * twos

/-- The multiple of `10 ^ place` that reads back and is nearest, if there is one: it is one of
the two multiples around the number. -/
def onGrid? (b : Binary) (tie : Tie) (place : Int) : Option Nat :=
  let (tens, twos) := b.scales place
  let below := b.quarters * twos / tens
  match b.readsBack place below, b.readsBack place (below + 1) with
  | true, true =>
      let twice := 2 * (b.quarters * twos)
      let middle := (2 * below + 1) * tens
      some (if twice < middle then below else if twice = middle then tie.choose below
        else below + 1)
  | true, false => some below
  | false, true => some (below + 1)
  | false, false => none

/-- The place of the leading decimal digit. -/
def leadingPlace (b : Binary) : Int :=
  let power := b.exponent - 2
  let place : Int := (Nat.toDigits 10 (b.quarters * twoTo power.toNat)).length
    - (Nat.toDigits 10 (twoTo (-power).toNat)).length
  let (tens, twos) := b.scales place
  if tens ≤ b.quarters * twos then place else place - 1

/-- Seventeen digits tell any two doubles apart. -/
def maxDigits : Nat := 17

def shortest (b : Binary) (tie : Tie) : Shortest :=
  let places := (List.range maxDigits).map fun (i : Nat) => b.leadingPlace - i
  match places.findSome? fun place => (b.onGrid? tie place).map (Shortest.ofNat · place) with
  | some decimal => decimal
  | none => ⟨[], 0⟩

end Binary

end MiniPascal.Decimal
