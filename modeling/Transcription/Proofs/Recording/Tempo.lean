import Transcription.Proofs.Text
import Transcription.Recording.Tempo

/-!
# The characters of tempos

Whatever a tempo is, its text is a number: digits with a sign, a decimal point and a power of ten at
most. So it has neither the characters that end a line nor those that end a setting.
-/

namespace Transcription

namespace Number.Significant

/-- The characters of numbers with a decimal point and a power of ten. -/
def isNumberChar (c : Char) : Bool := c.isDigit || c = '.' || c = 'e' || c = '+' || c = '-'

/-- A text that consists of the characters of numbers. -/
def IsNumber (cs : List Char) : Prop := ∀ c ∈ cs, isNumberChar c = true

/-- A text of digits consists of the characters of numbers. -/
theorem IsNumber.of_digits {cs : List Char} (h : ∀ c ∈ cs, c.isDigit = true) : IsNumber cs := by
  intro c hc
  simp [isNumberChar, h c hc]

/-- The decimal digits of a number are characters of numbers. -/
theorem isNumber_toDigits (n : Nat) : IsNumber (Nat.toDigits 10 n) :=
  .of_digits (fun _ hc => Nat.isDigit_of_mem_toDigits (by decide) (by decide) hc)

/-- Zeros are characters of numbers. -/
theorem isNumber_zeros (n : Nat) : IsNumber (List.replicate n '0') := by
  refine .of_digits (fun c hc => ?_)
  rw [List.eq_of_mem_replicate hc]
  decide

namespace IsNumber

variable {cs ds : List Char}

/-- Two texts of characters of numbers, one after the other. -/
theorem append (h : IsNumber cs) (h' : IsNumber ds) : IsNumber (cs ++ ds) := fun c hc =>
  (List.mem_append.mp hc).elim (h c) (h' c)

/-- A text within a text of characters of numbers. -/
theorem subset (h : IsNumber cs) (hsub : ds ⊆ cs) : IsNumber ds := fun c hc => h c (hsub hc)

/-- A fraction follows a point. -/
theorem joinFraction (h : IsNumber cs) (h' : IsNumber ds) : IsNumber (joinFraction cs ds) := by
  intro c hc
  rcases mem_joinFraction hc with rfl | hc | hc
  · decide
  · exact h c hc
  · exact h' c hc

end IsNumber

/-- Digits in positional notation are a number. -/
theorem isNumber_positional {digits : List Char} (h : IsNumber digits) (exponent : Int) :
    IsNumber (positional digits exponent) := by
  intro c hc
  rcases mem_positional hc with rfl | rfl | hc
  · decide
  · decide
  · exact h c hc

/-- Digits in scientific notation are a number. -/
theorem isNumber_scientific {digits : List Char} (h : IsNumber digits) (exponent : Int) :
    IsNumber (scientific digits exponent) := by
  have hhead : IsNumber (digits.take 1) := h.subset (List.take_subset _ _)
  have htail : IsNumber (dropTrailingZeros (digits.drop 1)) :=
    h.subset (List.Subset.trans (dropTrailingZeros_subset _) (List.drop_subset _ _))
  have hsign : IsNumber ['e', if exponent < 0 then '-' else '+'] := by
    split <;> exact List.all_eq_true.mp (by decide)
  exact (((hhead.joinFraction htail).append hsign).append (isNumber_zeros _)).append
    (isNumber_toDigits _)

/-- A number with six significant digits consists of the characters of numbers. -/
theorem isNumber_text (q : Rat) : IsNumber (text q).toList := by
  have hpositive (q : Rat) : IsNumber (positiveText q) := by
    simp only [positiveText]
    split
    · exact isNumber_positional (isNumber_toDigits _) _
    · exact isNumber_scientific (isNumber_toDigits _) _
  unfold text
  split
  · exact isNumber_zeros 1
  · split
    · rw [String.toList_ofList]
      intro c hc
      rcases List.mem_cons.mp hc with rfl | hc
      · decide
      · exact hpositive (-q) c hc
    · rw [String.toList_ofList]
      exact hpositive q

/-- An integer consists of the characters of numbers. -/
theorem isNumber_toString (n : Int) : IsNumber (toString n).toList := by
  intro c hc
  rcases mem_toList_toString hc with hdigit | rfl
  · simp [isNumberChar, hdigit]
  · decide

end Number.Significant

namespace Tempo

open Number.Significant

/-- A text that is a tempo: it consists of the characters of numbers. -/
def IsText (text : String) : Prop := IsNumber text.toList

/-- The text of a tempo is a number. -/
theorem isText_of_text {x : Number.Binary64} {t : String} (hok : text x = .ok t) : IsText t := by
  cases x with
  | nan => cases hok
  | infinite negative => cases hok
  | finite q =>
    rw [text] at hok
    split at hok
    · cases hok
      unfold IsText finiteText
      split
      · exact isNumber_toString _
      · exact isNumber_text _
    · cases hok
    · cases hok

end Tempo

end Transcription
