import Mathlib.Tactic.FieldSimp
import Transcription.Number.Significant
import Transcription.Proofs.Number.Binary64
import Transcription.Proofs.Text

/-!
# What numerals denote

A numeral consists of digits with at most one point, and a power of ten may follow by which they are
multiplied. Zeros at the end of the digits after the point are left out without a change of the
number.
-/

namespace Transcription.Number

/-! ### Numerals -/

/-- The number that digits denote, if there is at least one of them. -/
def digits? (cs : List Char) : Option Nat := if cs = [] then none else readNat? cs

/-- The number that digits with at most one point denote. -/
def decimal? (cs : List Char) : Option Rat :=
  match cs.splitOn '.' with
  | [whole] => (digits? whole).map (fun n : Nat => (n : Rat))
  | [whole, fraction] => do
    let n ← digits? whole
    let m ← digits? fraction
    return n + m / power 10 fraction.length
  | _ => none

/-- The exponent that digits with a sign denote. -/
def exponent? : List Char → Option Int
  | '+' :: cs => (digits? cs).map (fun n : Nat => (n : Int))
  | '-' :: cs => (digits? cs).map (fun n : Nat => -(n : Int))
  | _ => none

/-- The number that a numeral denotes: digits with at most one point, and a power of ten that they
are multiplied by if there is one. -/
def numeral? (cs : List Char) : Option Rat :=
  match cs.splitOn 'e' with
  | [mantissa] => decimal? mantissa
  | [mantissa, exponent] => do return (← decimal? mantissa) * power 10 (← exponent? exponent)
  | _ => none

/-- A text of digits. -/
def IsDigits (cs : List Char) : Prop := ∀ c ∈ cs, c.isDigit = true

namespace IsDigits

variable {cs ds : List Char}

theorem append (h : IsDigits cs) (h' : IsDigits ds) : IsDigits (cs ++ ds) := fun c hc =>
  (List.mem_append.mp hc).elim (h c) (h' c)

theorem subset (h : IsDigits cs) (hsub : ds ⊆ cs) : IsDigits ds := fun c hc => h c (hsub hc)

theorem notMem {c : Char} (h : IsDigits cs) (hc : c.isDigit = false) : c ∉ cs := by
  intro hmem
  rw [h c hmem] at hc
  cases hc

theorem toDigits (n : Nat) : IsDigits (Nat.toDigits 10 n) := fun _ hc =>
  Nat.isDigit_of_mem_toDigits (by decide) (by decide) hc

theorem replicate (n : Nat) : IsDigits (List.replicate n '0') := by
  intro c hc
  rw [List.eq_of_mem_replicate hc]
  rfl

/-- Zeros are removed at the end. -/
theorem dropTrailingZeros (h : IsDigits cs) : IsDigits (Significant.dropTrailingZeros cs) :=
  h.subset (Significant.dropTrailingZeros_subset cs)

/-- Digits denote a number if there is one of them. -/
theorem digits?_eq (h : IsDigits cs) (hne : cs ≠ []) :
    digits? cs = some (Nat.ofDigitChars 10 cs 0) := by
  rw [digits?, if_neg hne, readNat?, if_pos (List.all_eq_true.mpr h)]

end IsDigits

/-- Without a letter a numeral is digits with a point. -/
theorem numeral?_eq_decimal? {cs : List Char} (h : 'e' ∉ cs) : numeral? cs = decimal? cs := by
  rw [numeral?, splitOn_of_notMem h]

/-- An integer that is not negative is a numeral without a point. -/
theorem numeral?_toString (n : Nat) :
    numeral? (toString (n : Int)).toList = some (n : Rat) ∧
      decimal? (toString (n : Int)).toList = some (n : Rat) := by
  have hdigits : IsDigits (toString (n : Int)).toList := fun _ hc => isDigit_of_mem_toString hc
  have htext : (toString (n : Int)).toList = Nat.toDigits 10 n := by
    rw [Int.toString_eq_repr, Int.repr_eq_if, if_pos (Int.natCast_nonneg n), Int.toNat_natCast,
      Nat.toList_repr]
  have hread : decimal? (toString (n : Int)).toList = some (n : Rat) := by
    rw [decimal?, splitOn_of_notMem (hdigits.notMem rfl), htext]
    simp only [(IsDigits.toDigits n).digits?_eq Nat.toDigits_ne_nil, Nat.ofDigitChars_ten_toDigits,
      Option.map_some]
  exact ⟨(numeral?_eq_decimal? (hdigits.notMem rfl)).trans hread, hread⟩

open Significant (joinFraction dropTrailingZeros)

/-- There is no letter in digits with a point. -/
theorem letter_notMem_joinFraction {whole fraction : List Char} (hwhole : IsDigits whole)
    (hfraction : IsDigits fraction) : 'e' ∉ joinFraction whole fraction := by
  intro hmem
  rcases Significant.mem_joinFraction hmem with hpoint | hmem | hmem
  · cases hpoint
  · exact hwhole.notMem rfl hmem
  · exact hfraction.notMem rfl hmem

/-- Digits after a point denote what all digits denote together, divided by the power of ten of the
digits after the point. -/
theorem decimal?_joinFraction {whole fraction : List Char} (hwhole : IsDigits whole)
    (hne : whole ≠ []) (hfraction : IsDigits fraction) :
    decimal? (joinFraction whole fraction) =
      some ((Nat.ofDigitChars 10 (whole ++ fraction) 0 : Rat) / 10 ^ fraction.length) := by
  have hpoint : '.' ∉ whole := hwhole.notMem rfl
  unfold joinFraction
  split
  · rename_i hnil
    subst hnil
    rw [decimal?, splitOn_of_notMem hpoint]
    simp only [hwhole.digits?_eq hne, Option.map_some, List.append_nil, List.length_nil, pow_zero,
      div_one]
  · rename_i hsome
    have hjoined : whole ++ '.' :: fraction = ['.'].intercalate [whole, fraction] := by
      simp [List.intercalate_cons_cons]
    have hpieces : ∀ piece ∈ [whole, fraction], '.' ∉ piece := by
      simp [hpoint, hfraction.notMem (c := '.') rfl]
    have hpower : power 10 fraction.length = 10 ^ fraction.length := by
      rw [power_eq_zpow, zpow_natCast]
      rfl
    rw [decimal?, hjoined, List.splitOn_intercalate _ hpieces (List.cons_ne_nil _ _)]
    simp only [hwhole.digits?_eq hne, hfraction.digits?_eq hsome, Option.bind_eq_bind,
      Option.bind_some, hpower, pure]
    congr 1
    rw [Nat.ofDigitChars_append,
      @Nat.ofDigitChars_eq_ofDigitChars_zero fraction (Nat.ofDigitChars 10 whole 0)]
    push_cast
    field_simp

/-- A text is what is left without its last zeros, and then zeros. -/
theorem exists_dropTrailingZeros (cs : List Char) :
    ∃ n, cs = dropTrailingZeros cs ++ List.replicate n '0' := by
  have hzeros : ∀ c ∈ cs.reverse.takeWhile (· = '0'), c = '0' := fun c hc =>
    of_decide_eq_true (List.all_eq_true.mp List.all_takeWhile c hc)
  refine ⟨(cs.reverse.takeWhile (· = '0')).length, ?_⟩
  have hsplit := congrArg List.reverse
    (List.takeWhile_append_dropWhile (p := fun c => decide (c = '0')) (l := cs.reverse))
  rw [List.reverse_append, List.reverse_reverse, List.eq_replicate_of_mem hzeros,
    List.reverse_replicate] at hsplit
  exact hsplit.symm

/-- Zeros at the end of the digits after the point do not matter. -/
theorem decimal?_joinFraction_dropTrailingZeros {whole zeros digits : List Char}
    (hwhole : IsDigits whole) (hne : whole ≠ []) (hzeros : IsDigits zeros)
    (hdigits : IsDigits digits) :
    decimal? (joinFraction whole (zeros ++ dropTrailingZeros digits)) =
      some ((Nat.ofDigitChars 10 (whole ++ zeros ++ digits) 0 : Rat) /
        10 ^ (zeros.length + digits.length)) := by
  obtain ⟨n, hsplit⟩ := exists_dropTrailingZeros digits
  have hkept := hdigits.dropTrailingZeros
  generalize dropTrailingZeros digits = kept at hsplit hkept
  subst hsplit
  rw [decimal?_joinFraction hwhole hne (hzeros.append hkept), ← List.append_assoc (whole ++ zeros),
    Nat.ofDigitChars_append (l := whole ++ zeros ++ kept), Nat.ofDigitChars_replicate_zero,
    List.append_assoc whole]
  simp only [List.length_append, List.length_replicate, ← add_assoc, pow_add _ _ n]
  push_cast
  field_simp

end Transcription.Number
