import Transcription.Text.Digit

/-!
# Integers written in text

An integer is an optional sign and decimal digits of any script, with single underscores allowed
between two digits and blanks allowed around the whole. The number of digits is limited; too many of
them are refused even if the text goes on with something else.
-/

namespace Transcription.Text

/-- Why a text is no integer. -/
inductive IntegerFault where
  /-- The text is written otherwise than an integer. -/
  | malformed
  /-- The text has more digits than an integer may have. -/
  | tooManyDigits (count : Nat)
  deriving DecidableEq

/-- The most digits that an integer may have. -/
def maxDigits : Nat := 4300

/-- An integer that has at most so many digits. -/
def FitsIn (digits : Nat) (n : Int) : Prop := n.natAbs < Nat.pow 10 digits

instance (digits : Nat) (n : Int) : Decidable (FitsIn digits n) :=
  inferInstanceAs (Decidable (n.natAbs < Nat.pow 10 digits))

/-- The blanks that may surround an integer: the separators of Unicode and the control characters
from tab to carriage return. -/
def isBlank (c : Char) : Bool :=
  let n := c.toNat
  (9 ≤ n ∧ n ≤ 13) ∨ n = 0x20 ∨ n = 0x85 ∨ n = 0xa0 ∨ n = 0x1680 ∨ (0x2000 ≤ n ∧ n ≤ 0x200a) ∨
    n = 0x2028 ∨ n = 0x2029 ∨ n = 0x202f ∨ n = 0x205f ∨ n = 0x3000

/-- Whether a character may stand in the digits of an integer. -/
def isDigitOrSeparator (c : Char) : Bool := c = '_' ∨ (digitValue? c).isSome

/-- Read the digits that follow a first one, whose value is `acc`. -/
def readMoreDigits (acc : Nat) : List Char → Option Nat
  | [] => some acc
  | '_' :: c :: rest => do readMoreDigits (10 * acc + (← digitValue? c)) rest
  | c :: rest => do readMoreDigits (10 * acc + (← digitValue? c)) rest

/-- Read an unsigned integer, which starts with a digit. -/
def readDigits? : List Char → Option Nat
  | [] => none
  | c :: rest => do readMoreDigits (← digitValue? c) rest

/-- Read an unsigned integer, after which only blanks may follow. -/
def readUnsigned (cs : List Char) : Except IntegerFault Nat :=
  let digits := cs.takeWhile isDigitOrSeparator
  let count := digits.countP (· ≠ '_')
  match readDigits? digits with
  | none => .error .malformed
  | some n =>
    if maxDigits < count then .error (.tooManyDigits count)
    else if (cs.dropWhile isDigitOrSeparator).all isBlank then .ok n
    else .error .malformed

/-- Read an integer with an optional sign. -/
def readSigned : List Char → Except IntegerFault Int
  | '-' :: rest => (readUnsigned rest).map (fun n => -(n : Int))
  | '+' :: rest => (readUnsigned rest).map (fun n => (n : Int))
  | cs => (readUnsigned cs).map (fun n => (n : Int))

/-- Read characters as an integer. -/
def readIntOf (cs : List Char) : Except IntegerFault Int := readSigned (cs.dropWhile isBlank)

/-- Read a text as an integer. -/
def readInt (text : String) : Except IntegerFault Int := readIntOf text.toList

end Transcription.Text
