/-!
# Rounding to whole numbers

A rational number is rounded to the nearest integer, and a number halfway between two integers goes
to the even one. Decimal and binary places are rounded by scaling first.
-/

namespace Transcription.Number

/-- The nearest integer; of two nearest ones the even one. -/
def roundHalfEven (q : Rat) : Int :=
  let below := q.floor
  let excess := q - below
  if excess < 1 / 2 then below
  else if 1 / 2 < excess then below + 1
  else if below % 2 = 0 then below
  else below + 1

/-- An integral power of a natural base. -/
def power (base : Nat) (exponent : Int) : Rat :=
  if 0 ≤ exponent then (base.pow exponent.toNat : Rat) else 1 / (base.pow (-exponent).toNat : Rat)

/-- The nearest multiple of `1 / scale`; a tie goes to the even multiple. -/
def roundToMultiple (scale : Nat) (q : Rat) : Rat := roundHalfEven (q * scale) / scale

/-- Integers are their own nearest integers. -/
theorem roundHalfEven_intCast (n : Int) : roundHalfEven (n : Rat) = n := by
  have hexcess : (n : Rat) - n = 0 := by grind
  have hhalf : (0 : Rat) < 1 / 2 := by grind
  simp only [roundHalfEven, Rat.floor_intCast, hexcess]
  exact if_pos hhalf

end Transcription.Number
