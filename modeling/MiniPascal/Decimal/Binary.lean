/-!
A double as the exact number that it stands for: a sign and a whole multiple of a power of two.
-/

namespace MiniPascal.Decimal

/-- The number `mantissa * 2 ^ exponent`. -/
structure Binary where
  mantissa : Nat
  exponent : Int

def twoTo (n : Nat) : Nat := Nat.pow 2 n

/-- How many bits of a double hold its fraction. -/
def fractionBits : Nat := 52

/-- How many bits of a double hold its exponent. -/
def exponentBits : Nat := 11

/-- The exponent of the doubles next to zero. -/
def leastExponent : Int := -1074

/-- Zero has a sign, too. -/
def isNegative (x : Float) : Bool := x.toBits.toNat / twoTo (fractionBits + exponentBits) = 1

/-- The absolute value of a finite double. Below the least normal number the exponent stays
where it is and the leading bit of the mantissa is no longer implied. -/
def Binary.ofFloat (x : Float) : Binary :=
  let fraction : Nat := x.toBits.toNat % twoTo fractionBits
  let biased : Nat := x.toBits.toNat / twoTo fractionBits % twoTo exponentBits
  if biased = 0 then ⟨fraction, leastExponent⟩
  else ⟨twoTo fractionBits + fraction, leastExponent + (biased - 1 : Nat)⟩

/-- The whole part, toward zero. -/
def Binary.truncate (b : Binary) : Nat :=
  b.mantissa * twoTo b.exponent.toNat / twoTo (-b.exponent).toNat

/-- The whole part of a finite double, toward zero. -/
def truncate (x : Float) : Int :=
  if isNegative x then -(Binary.ofFloat x).truncate else (Binary.ofFloat x).truncate

end MiniPascal.Decimal
