import Transcription.Failure
import Transcription.Text.Integer

/-!
# Length tokens

A note length is written as a number that divides the whole note, as in `4` for a quarter note; a
dot after it adds one half. A triplet of a length is written as three halves of its number. Lengths
that no token names are tied from several tokens.
-/

namespace Transcription.Length

/-- The number that stands for the triplet of a base length. -/
def tripletToken (base : Int) : String := toString ((base * 3).fdiv 2)

/-- The number that stands for the triplet of any base length, which has to have few enough
digits. -/
def tripletToken? (base : Int) : Except Failure String :=
  if Text.FitsIn Text.maxDigits ((base * 3).fdiv 2) then .ok (tripletToken base)
  else .error .tooLongToWrite

/-- Tie tokens into one length. -/
def tie (tokens : List String) : String := "~".intercalate tokens

/-- Whether an integer is no power of two, counting zero as one. -/
def isNoPowerOfTwo (n : Int) : Bool := n < 0 ∨ n.toNat &&& (n.toNat - 1) ≠ 0

/-- Whether a token is that of a triplet; a token without a dot has to be a number. -/
def isTriplet? (token : String) : Except Failure Bool :=
  if token.toList.getLast? = some '.' then .ok false
  else match Text.readInt token with
    | .ok n => .ok (isNoPowerOfTwo n)
    | .error .malformed => .error (.notAnInteger token)
    | .error (.tooManyDigits count) => .error (.tooManyDigits count)

/-- Whether a token is that of a triplet; what is no token is not. -/
def isTriplet (token : String) : Bool :=
  match isTriplet? token with
  | .ok triplet => triplet
  | .error _ => false

end Transcription.Length
