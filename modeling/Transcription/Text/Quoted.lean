import Transcription.Text.CodePoint
import Transcription.Text.Printable

/-!
# Quoted text

Messages show a text in quotes so that its ends and its invisible code points can be seen: the quote
and the backslash are escaped, and so is every code point that is not printable. Without quotes only
surrogates are escaped, for which there is no character.
-/

namespace Transcription.Text

/-- A number in base sixteen with at least `width` digits. -/
def hexDigits (width n : Nat) : List Char :=
  let digits := Nat.toDigits 16 n
  List.replicate (width - digits.length) '0' ++ digits

/-- The escape of a code point with four digits in base sixteen. -/
def unicodeEscape (n : Nat) : List Char := '\\' :: 'u' :: hexDigits 4 n

/-- One code point inside a text that stands between two `quote` characters. -/
def quotePoint (quote : Char) (n : Nat) : List Char :=
  if n = quote.toNat ∨ n = '\\'.toNat then ['\\', Char.ofNat n]
  else if n = '\t'.toNat then ['\\', 't']
  else if n = '\n'.toNat then ['\\', 'n']
  else if n = '\r'.toNat then ['\\', 'r']
  else if isPrintable n then [Char.ofNat n]
  else if n < 0x100 then '\\' :: 'x' :: hexDigits 2 n
  else if n < 0x10000 then unicodeEscape n
  else '\\' :: 'U' :: hexDigits 8 n

/-- A text stands between single quotes, unless it holds one of these and no double quote. -/
def quoteMark (cs : List Char) : Char :=
  if '\x27' ∈ cs ∧ '\x22' ∉ cs then '\x22' else '\x27'

/-- A text in quotes, with escapes for what cannot be shown. -/
def quoted (text : String) : String :=
  let mark := quoteMark text.toList
  String.ofList (mark :: (codePoints text).flatMap (quotePoint mark) ++ [mark])

/-- A text as a plain string, with escapes for its surrogates. -/
def plain (text : String) : String :=
  String.ofList ((codePoints text).flatMap (fun n =>
    if isSurrogate n then unicodeEscape n else [Char.ofNat n]))

end Transcription.Text
