import Transcription.Failure
import Transcription.Json.Value
import Transcription.Text.CodePoint

/-!
# Tokens of JSON texts

A text is a sequence of marks and of values without parts, with blanks between them. Besides the
standard words, `NaN`, `Infinity` and `-Infinity` stand for numbers. Texts hold no control character
that is not escaped, and a pair of escaped surrogates is one code point. Where a text cannot be read
on, the last token says why.
-/

namespace Transcription.Json

open Number (Binary64)

/-- A token of a JSON text. -/
inductive Token where
  /-- An opening bracket. -/
  | openArray
  /-- A closing bracket. -/
  | closeArray
  /-- An opening brace. -/
  | openObject
  /-- A closing brace. -/
  | closeObject
  /-- A colon. -/
  | colon
  /-- A comma. -/
  | comma
  /-- A value without parts. -/
  | literal (value : Json)
  /-- The cause for which no further token is read. -/
  | fault (e : Failure)

/-- The value of a digit in base sixteen. -/
def hexValue? (c : Char) : Option Nat :=
  if '0' ≤ c ∧ c ≤ '9' then some (c.toNat - '0'.toNat)
  else if 'a' ≤ c ∧ c ≤ 'f' then some (c.toNat - 'a'.toNat + 10)
  else if 'A' ≤ c ∧ c ≤ 'F' then some (c.toNat - 'A'.toNat + 10)
  else none

/-- The code unit of four digits in base sixteen. -/
def codeUnit? (a b c d : Char) : Option Nat := do
  return (((← hexValue? a) * 16 + (← hexValue? b)) * 16 + (← hexValue? c)) * 16 + (← hexValue? d)

/-- The character of a simple escape. -/
def simpleEscape? (c : Char) : Option Char :=
  if c = '"' ∨ c = '\\' ∨ c = '/' then some c
  else if c = 'b' then some '\x08'
  else if c = 'f' then some '\x0c'
  else if c = 'n' then some '\n'
  else if c = 'r' then some '\r'
  else if c = 't' then some '\t'
  else none

/-- Whether a code unit is the first of a surrogate pair. -/
def isHighSurrogate (n : Nat) : Bool := 0xd800 ≤ n ∧ n ≤ 0xdbff

/-- Whether a code unit is the second of a surrogate pair. -/
def isLowSurrogate (n : Nat) : Bool := 0xdc00 ≤ n ∧ n ≤ 0xdfff

/-- The code unit that an escape at the start of a text stands for. -/
def leadingUnit? : List Char → Option Nat
  | '\\' :: 'u' :: a :: b :: c :: d :: _ => codeUnit? a b c d
  | _ => none

/-- The code points of a text after its opening quote, and what follows the closing one. -/
def readText : List Char → Option (List Nat × List Char)
  | [] => none
  | '"' :: rest => some ([], rest)
  | '\\' :: 'u' :: a :: b :: c :: d :: rest => do
    let unit ← codeUnit? a b c d
    let (points, after) ← readText rest
    match (leadingUnit? rest).filter (fun low => isHighSurrogate unit ∧ isLowSurrogate low) with
    | some low =>
      some ((0x10000 + (unit - 0xd800) * 0x400 + (low - 0xdc00)) :: points.drop 1, after)
    | none => some (unit :: points, after)
  | '\\' :: c :: rest => do
    let escaped ← simpleEscape? c
    let (points, after) ← readText rest
    some (escaped.toNat :: points, after)
  | c :: rest => do
    if c = '\\' ∨ c.toNat < 0x20 then none
    let (points, after) ← readText rest
    some (c.toNat :: points, after)

/-- Whether a character is an ASCII digit. -/
def isDigit (c : Char) : Bool := '0' ≤ c ∧ c ≤ '9'

/-- The number written by ASCII digits. -/
def digitsValue (cs : List Char) : Nat := cs.foldl (fun n c => 10 * n + (c.toNat - '0'.toNat)) 0

/-- The digits at the start of a text, and what follows them. -/
def spanDigits (cs : List Char) : List Char × List Char := cs.span isDigit

/-- The digits before the point: a zero alone, or digits that begin with another one. -/
def readWhole? : List Char → Option (List Char × List Char)
  | '0' :: rest => some (['0'], rest)
  | c :: rest => if isDigit c then some (spanDigits (c :: rest)) else none
  | [] => none

/-- The digits after the point, none if there is no fraction. -/
def readFraction (cs : List Char) : List Char × List Char :=
  match cs with
  | '.' :: rest => if (spanDigits rest).1 = [] then ([], cs) else spanDigits rest
  | _ => ([], cs)

/-- The digits of an exponent with its sign. -/
def readExponentDigits? (negative : Bool) (cs : List Char) : Option (Int × List Char) :=
  match spanDigits cs with
  | ([], _) => none
  | (digits, rest) =>
    some ((if negative then -1 else 1) * (digitsValue digits : Int), rest)

/-- The exponent of a number, none if there is no exponent. -/
def readExponent? : List Char → Option (Int × List Char)
  | e :: '-' :: rest => if e = 'e' ∨ e = 'E' then readExponentDigits? true rest else none
  | e :: '+' :: rest => if e = 'e' ∨ e = 'E' then readExponentDigits? false rest else none
  | e :: rest => if e = 'e' ∨ e = 'E' then readExponentDigits? false rest else none
  | [] => none

/-- The token of an integer, whose digits are limited in number. -/
def integerToken (negative : Bool) (digits : List Char) : Token :=
  if Text.maxDigits < digits.length then .fault (.tooManyDigits digits.length)
  else
    let n : Int := digitsValue digits
    .literal (int (if negative then -n else n))

/-- A number after its sign. -/
def readUnsigned? (negative : Bool) (cs : List Char) : Option (Token × List Char) := do
  let (whole, rest) ← readWhole? cs
  let (fraction, rest) := readFraction rest
  let decimal (exponent : Int) : Token :=
    .literal (real (Binary64.ofDecimal negative (digitsValue (whole ++ fraction))
      (exponent - fraction.length)))
  match fraction, readExponent? rest with
  | [], none => some (integerToken negative whole, rest)
  | _, none => some (decimal 0, rest)
  | _, some (exponent, rest) => some (decimal exponent, rest)

/-- The words that stand for values. -/
def words : List (String × Json) :=
  [("null", null), ("true", bool true), ("false", bool false), ("NaN", real .nan),
    ("Infinity", real (.infinite false)), ("-Infinity", real (.infinite true))]

/-- The word at the start of a text, and what follows it. -/
def readWord? (cs : List Char) : Option (Token × List Char) :=
  (words.find? (fun w => w.1.toList.isPrefixOf cs)).map
    (fun w => (.literal w.2, cs.drop w.1.length))

/-- A number at the start of a text, and what follows it. -/
def readNumber? : List Char → Option (Token × List Char)
  | '-' :: rest => readUnsigned? true rest
  | cs => readUnsigned? false cs

/-- The first token of a text, and what follows it. -/
def readToken? : List Char → Option (Token × List Char)
  | '[' :: rest => some (.openArray, rest)
  | ']' :: rest => some (.closeArray, rest)
  | '\x7b' :: rest => some (.openObject, rest)
  | '\x7d' :: rest => some (.closeObject, rest)
  | ':' :: rest => some (.colon, rest)
  | ',' :: rest => some (.comma, rest)
  | '"' :: rest =>
    (readText rest).map (fun r => (.literal (str (Text.ofCodePoints r.1)), r.2))
  | cs => (readWord? cs).or (readNumber? cs)

/-- Whether a character may stand between tokens. -/
def isBlank (c : Char) : Bool := c = ' ' ∨ c = '\t' ∨ c = '\n' ∨ c = '\r'

/-- Read at most `fuel` tokens, up to the end of the text or to the first fault. -/
def readTokens (fuel : Nat) (cs : List Char) : List Token :=
  match fuel, cs.dropWhile isBlank with
  | _, [] => []
  | 0, _ => [.fault .notJson]
  | fuel + 1, cs =>
    match readToken? cs with
    | none => [.fault .notJson]
    | some (.fault e, _) => [.fault e]
    | some (token, rest) => token :: readTokens fuel rest

/-- The tokens of a text; there is at most one for each character. -/
def tokens (cs : List Char) : List Token := readTokens cs.length cs

end Transcription.Json
