import Transcription.Number.Rounding

/-!
# Numbers with six significant digits

A rational number is written with its first six decimal digits, rounded half to even, without zeros
at the end. Numbers below a million are written with a decimal point, larger ones with a power of
ten of at least two digits, and so are those below one ten-thousandth.
-/

namespace Transcription.Number.Significant

/-- The number of significant digits written. -/
def precision : Nat := 6

/-- The exponent of the leading decimal digit of a positive number. -/
def leadingExponent (q : Rat) : Int :=
  let width (n : Nat) : Int := (Nat.toDigits 10 n).length
  let estimate := width q.num.natAbs - width q.den
  if power 10 estimate ≤ q then estimate else estimate - 1

/-- The leading digits of a positive number as one integer, with the exponent of the first digit. -/
def leadingDigits (q : Rat) : Int × Int :=
  let exponent := leadingExponent q
  let digits := roundHalfEven (q / power 10 (exponent - (precision - 1)))
  if digits = Nat.pow 10 precision then (Nat.pow 10 (precision - 1), exponent + 1)
  else (digits, exponent)

/-- Remove the zeros at the end. -/
def dropTrailingZeros (digits : List Char) : List Char :=
  (digits.reverse.dropWhile (· = '0')).reverse

/-- Whole and fractional digits with a point between them, which is left out with an empty
fraction. -/
def joinFraction (whole fraction : List Char) : List Char :=
  if fraction = [] then whole else whole ++ '.' :: fraction

/-- Digits in positional notation, the first of them at the place of `10 ^ exponent`. -/
def positional (digits : List Char) (exponent : Int) : List Char :=
  if exponent < 0 then
    joinFraction ['0'] (List.replicate (-exponent - 1).toNat '0' ++ dropTrailingZeros digits)
  else
    let whole := exponent.toNat + 1
    joinFraction (digits.take whole) (dropTrailingZeros (digits.drop whole))

/-- Digits in scientific notation. -/
def scientific (digits : List Char) (exponent : Int) : List Char :=
  let power := Nat.toDigits 10 exponent.natAbs
  joinFraction (digits.take 1) (dropTrailingZeros (digits.drop 1)) ++
    ['e', if exponent < 0 then '-' else '+'] ++
    List.replicate (2 - power.length) '0' ++ power

/-- Without its last zeros a text has no other characters than before. -/
theorem dropTrailingZeros_subset (digits : List Char) : dropTrailingZeros digits ⊆ digits :=
  fun _ hc => List.mem_reverse.mp ((List.dropWhile_sublist _).subset (List.mem_reverse.mp hc))

/-- Whole and fractional digits are joined by at most a point. -/
theorem mem_joinFraction {whole fraction : List Char} {c : Char}
    (h : c ∈ joinFraction whole fraction) : c = '.' ∨ c ∈ whole ∨ c ∈ fraction := by
  unfold joinFraction at h
  split at h
  · exact Or.inr (Or.inl h)
  · rw [List.mem_append, List.mem_cons, or_left_comm] at h
    exact h

/-- Positional notation adds at most a point and zeros to the digits. -/
theorem mem_positional {digits : List Char} {exponent : Int} {c : Char}
    (h : c ∈ positional digits exponent) : c = '.' ∨ c = '0' ∨ c ∈ digits := by
  unfold positional at h
  split at h
  · rcases mem_joinFraction h with h | h | h
    · exact Or.inl h
    · exact Or.inr (Or.inl (List.mem_singleton.mp h))
    · rcases List.mem_append.mp h with h | h
      · exact Or.inr (Or.inl (List.eq_of_mem_replicate h))
      · exact Or.inr (Or.inr (dropTrailingZeros_subset _ h))
  · rcases mem_joinFraction h with h | h | h
    · exact Or.inl h
    · exact Or.inr (Or.inr (List.take_subset _ _ h))
    · exact Or.inr (Or.inr (List.drop_subset _ _ (dropTrailingZeros_subset _ h)))

/-- A positive number with six significant digits. -/
def positiveText (q : Rat) : List Char :=
  let (digits, exponent) := leadingDigits q
  let digits := Nat.toDigits 10 digits.toNat
  if -4 ≤ exponent ∧ exponent < precision then positional digits exponent
  else scientific digits exponent

/-- A number with six significant digits. -/
def text (q : Rat) : String :=
  if q = 0 then "0"
  else if q < 0 then String.ofList ('-' :: positiveText (-q))
  else String.ofList (positiveText q)

end Transcription.Number.Significant
