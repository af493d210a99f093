import MiniPascal.Decimal.Shortest

/-!
Doubles as text. The plain layout never uses an exponent and shows a point only where digits
follow it; the JSON layout always shows a point or an exponent. Both show the shortest digits
that read back. Of two equally near decimals the plain layout shows the larger and the JSON
layout the even one.
-/

namespace MiniPascal.Decimal

def zeros (n : Nat) : List Char := List.replicate n '0'

/-- The digits with zeros filled in up to the point or after it. -/
def Shortest.positional (d : Shortest) : List Char :=
  let whole := d.digits.length + d.exponent
  if 0 ≤ d.exponent then d.digits ++ zeros d.exponent.toNat
  else if 0 < whole then d.digits.take whole.toNat ++ '.' :: d.digits.drop whole.toNat
  else '0' :: '.' :: zeros (-whole).toNat ++ d.digits

/-- The power of ten that the leading digit stands for. -/
def Shortest.magnitude (d : Shortest) : Int := d.digits.length + d.exponent - 1

def Shortest.scientific (d : Shortest) : List Char :=
  d.digits.take 1
    ++ (if d.digits.length = 1 then [] else '.' :: d.digits.drop 1)
    ++ 'e' :: (if 0 ≤ d.magnitude then ['+'] else ['-'])
    ++ Nat.toDigits 10 d.magnitude.natAbs

/-- Up to which powers of ten JSON notation is positional. -/
def jsonPositional (magnitude : Int) : Bool := -5 ≤ magnitude ∧ magnitude ≤ 15

def Shortest.json (d : Shortest) : List Char :=
  if jsonPositional d.magnitude then
    d.positional ++ (if 0 ≤ d.exponent then ['.', '0'] else [])
  else d.scientific

def signed (x : Float) (magnitude : List Char) : String :=
  String.ofList (if isNegative x then '-' :: magnitude else magnitude)

def plain (x : Float) : String :=
  if x.isNaN then "NaN"
  else if x.isInf then signed x "inf".toList
  else
    let b := Binary.ofFloat x
    signed x (if b.mantissa = 0 then ['0'] else (b.shortest .up).positional)

/-- Numbers that are not finite have no JSON notation. -/
def json (x : Float) : String :=
  if x.isNaN || x.isInf then "null"
  else
    let b := Binary.ofFloat x
    signed x (if b.mantissa = 0 then ['0', '.', '0'] else (b.shortest .even).json)

/-- The number that a row of decimal digits writes. -/
def natOfDigits (digits : List Char) : Nat :=
  digits.foldl (fun n c => 10 * n + (c.toNat - '0'.toNat)) 0

/-- The double nearest to `whole.fraction`. -/
def floatOfDigits (whole fraction : List Char) : Float :=
  Float.ofScientific (natOfDigits (whole ++ fraction)) true fraction.length

end MiniPascal.Decimal
