namespace ShapeRecovery

/-- The number `digits * 10 ^ exponent`, or its negative; zero has a sign too. -/
structure Decimal where
  negative : Bool
  digits : Nat
  exponent : Int
deriving DecidableEq, Repr

namespace Decimal

/-- The number without its power of ten. -/
def mantissa (d : Decimal) : Int :=
  if d.negative then -d.digits else d.digits

def powerOfTen (n : Nat) : Int :=
  (Nat.pow 10 n : Nat)

/-- How a decimal number compares to an integer, without rounding. -/
def compareInt (d : Decimal) (n : Int) : Ordering :=
  if 0 ≤ d.exponent then compare (d.mantissa * powerOfTen d.exponent.toNat) n
  else compare d.mantissa (n * powerOfTen (-d.exponent).toNat)

/-- The greatest integer that is not greater. -/
def floor (d : Decimal) : Int :=
  if 0 ≤ d.exponent then d.mantissa * powerOfTen d.exponent.toNat
  else d.mantissa.fdiv (powerOfTen (-d.exponent).toNat)

/-- Digits without the zeros at their end. -/
def significant (ds : List Char) : List Char :=
  (ds.reverse.dropWhile (· = '0')).reverse

def zeros (n : Int) : List Char :=
  List.replicate n.toNat '0'

/-- The digits `ds` with a point after the first `point` of them; there is at least one digit on
either side. -/
def positional (ds : List Char) (point : Int) : List Char :=
  if point ≤ 0 then '0' :: '.' :: zeros (-point) ++ ds
  else if ds.length ≤ point then ds ++ zeros (point - ds.length) ++ ['.', '0']
  else ds.take point.toNat ++ '.' :: ds.drop point.toNat

/-- The digits `ds` with a point after the first one and the power of ten, of two digits at
least. -/
def scientific (ds : List Char) (power : Int) : List Char :=
  let fraction := if ds.length ≤ 1 then [] else '.' :: ds.drop 1
  let size := Nat.toDigits 10 power.natAbs
  ds.take 1 ++ fraction ++ ['e', if power < 0 then '-' else '+'] ++ zeros (2 - size.length) ++ size

/-- Numbers from `0.0001` on and below `10 ^ 16` are written with all their places, others with a
power of ten. -/
def text (d : Decimal) : String :=
  let all := Nat.toDigits 10 d.digits
  let point := all.length + d.exponent
  let body :=
    if d.digits = 0 then ['0', '.', '0']
    else if -4 < point ∧ point ≤ 16 then positional (significant all) point
    else scientific (significant all) (point - 1)
  String.ofList (if d.negative then '-' :: body else body)

end Decimal

end ShapeRecovery
