import Transcription.Number.Rounding

/-!
# Numbers of double precision

A number of a document that is no integer is kept as the nearest number with a 53 bit significand
and a binary exponent of at least -1074. Its value is held exactly, as a rational number; the sign
of a zero is not kept, for nothing that is written depends on it.
-/

namespace Transcription.Number

/-- A number of double precision. -/
inductive Binary64 where
  /-- A finite number, by its exact value. -/
  | finite (value : Rat)
  /-- What lies beyond the finite numbers, on the negative or the positive side. -/
  | infinite (negative : Bool)
  /-- Not a number. -/
  | nan
  deriving DecidableEq

namespace Binary64

/-- The exponent of the leading binary digit of a positive number. -/
def leadingExponent (q : Rat) : Int :=
  let estimate : Int := (q.num.natAbs.log2 : Int) - (q.den.log2 : Int)
  if power 2 estimate ≤ q then estimate else estimate - 1

/-- The exponent of the last binary place of the numbers near a positive one. -/
def placeExponent (q : Rat) : Int := max (leadingExponent q - 52) (-1074)

/-- The nearest number to a positive rational; a tie goes to the even significand. -/
def nearestPositive (q : Rat) : Rat :=
  let place := power 2 (placeExponent q)
  roundHalfEven (q / place) * place

/-- The nearest number to a rational, infinite when the rounded value is out of range. -/
def nearest (q : Rat) : Binary64 :=
  if q = 0 then finite 0
  else
    let magnitude := nearestPositive (if q < 0 then -q else q)
    if power 2 1024 ≤ magnitude then infinite (decide (q < 0))
    else finite (if q < 0 then -magnitude else magnitude)

/-- The number nearest to a decimal numeral `digits · 10 ^ exponent`. Numerals far outside the range
are decided by the length of their digits. -/
def ofDecimal (negative : Bool) (digits : Nat) (exponent : Int) : Binary64 :=
  let size : Int := (Nat.toDigits 10 digits).length + exponent
  if digits = 0 ∨ size < -400 then finite 0
  else if 400 < size then infinite negative
  else nearest ((if negative then -1 else 1) * (digits : Rat) * power 10 exponent)

/-- Whether a number is at most zero; what is not a number is not. -/
def isNonpositive : Binary64 → Bool
  | finite q => q ≤ 0
  | infinite negative => negative
  | nan => false

end Binary64

end Transcription.Number
