import Transcription.Number.Binary64

/-!
# Logarithms of powers of two

The binary logarithm of a number is the quotient of its natural logarithm and that of two. In double
precision both logarithms are rounded and so is the quotient, which for some powers of two is then
not their exponent.
-/

namespace Transcription.Number

/-- The natural logarithm of two, with sixty-three decimal places. -/
def ln2 : Rat :=
  693147180559945309417232121458176568075500134360255254120680009 / power 10 63

/-- The binary logarithm of `2 ^ exponent` as it comes out in double precision. -/
def computedLog2 (exponent : Nat) : Rat :=
  if exponent = 0 then 0
  else Binary64.nearestPositive
    (Binary64.nearestPositive (exponent * ln2) / Binary64.nearestPositive ln2)

end Transcription.Number
