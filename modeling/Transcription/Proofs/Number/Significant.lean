import Transcription.Proofs.Number.Numeral

/-!
# Six significant digits

A positive number that is written with six significant digits denotes the nearest multiple of the
place of its sixth digit. It is written with a power of ten only where the digits end before the
point or begin far behind it.
-/

namespace Transcription.Number

namespace Significant

/-! ### Six digits -/

/-- A power of ten with a negative exponent divides. -/
theorem div_ten_pow (x : Rat) {places : Nat} {exponent : Int} (h : exponent = -places) :
    x / 10 ^ places = x * power 10 exponent := by
  rw [h, power_eq_zpow, zpow_neg, zpow_natCast, Nat.cast_ofNat, div_eq_mul_inv]

/-- Zeros before digits do not matter. -/
theorem ofDigitChars_zeros (n : Nat) (cs : List Char) :
    Nat.ofDigitChars 10 (List.replicate n '0' ++ cs) 0 = Nat.ofDigitChars 10 cs 0 := by
  rw [Nat.ofDigitChars_append, Nat.ofDigitChars_replicate_zero, Nat.mul_zero]

section Digits

variable {digits : List Char} (hdigits : IsDigits digits) (hlength : digits.length = 6)

include hdigits hlength

/-- Six digits in positional notation denote their number, the last digit at its place. -/
theorem decimal?_positional {exponent : Int} (hexponent : exponent < 6) :
    decimal? (positional digits exponent) =
      some (Nat.ofDigitChars 10 digits 0 * power 10 (exponent - 5)) := by
  unfold positional
  split
  · rename_i hneg
    have hzero : IsDigits ['0'] := .replicate 1
    have hjoined : ['0'] ++ List.replicate (-exponent - 1).toNat '0' ++ digits =
        List.replicate ((-exponent - 1).toNat + 1) '0' ++ digits := by
      rw [List.replicate_succ]
      rfl
    rw [decimal?_joinFraction_dropTrailingZeros hzero (List.cons_ne_nil _ _) (.replicate _) hdigits,
      hjoined, ofDigitChars_zeros, List.length_replicate, hlength]
    exact congrArg some (div_ten_pow _ (by omega))
  · rename_i hnonneg
    have hwhole : digits.take (exponent.toNat + 1) ≠ [] := by
      rw [← List.length_pos_iff, List.length_take]
      omega
    have hfraction := decimal?_joinFraction_dropTrailingZeros
      (hdigits.subset (List.take_subset _ _)) hwhole (.replicate 0)
      (hdigits.subset (List.drop_subset (exponent.toNat + 1) _))
    rw [List.replicate_zero, List.nil_append, List.append_nil, List.take_append_drop,
      List.length_nil, Nat.zero_add, List.length_drop, hlength] at hfraction
    simp only
    rw [hfraction]
    exact congrArg some (div_ten_pow _ (by omega))

/-- Six digits in scientific notation denote their number, the last digit at its place. -/
theorem numeral?_scientific (exponent : Int) :
    numeral? (scientific digits exponent) =
      some (Nat.ofDigitChars 10 digits 0 * power 10 (exponent - 5)) := by
  have hmantissa : decimal? (joinFraction (digits.take 1) (dropTrailingZeros (digits.drop 1))) =
      some ((Nat.ofDigitChars 10 digits 0 : Rat) / 10 ^ 5) := by
    have hwhole : digits.take 1 ≠ [] := by
      rw [← List.length_pos_iff, List.length_take]
      omega
    have hfraction := decimal?_joinFraction_dropTrailingZeros
      (hdigits.subset (List.take_subset _ _)) hwhole (.replicate 0)
      (hdigits.subset (List.drop_subset 1 _))
    rwa [List.replicate_zero, List.nil_append, List.append_nil, List.take_append_drop,
      List.length_nil, Nat.zero_add, List.length_drop, hlength] at hfraction
  have hexponent : exponent? ((if exponent < 0 then '-' else '+') ::
      (List.replicate (2 - (Nat.toDigits 10 exponent.natAbs).length) '0' ++
        Nat.toDigits 10 exponent.natAbs)) = some exponent := by
    have hchars := (IsDigits.replicate (2 - (Nat.toDigits 10 exponent.natAbs).length)).append
      (.toDigits exponent.natAbs)
    have hread := hchars.digits?_eq (List.append_ne_nil_of_right_ne_nil _ Nat.toDigits_ne_nil)
    rw [ofDigitChars_zeros, Nat.ofDigitChars_ten_toDigits] at hread
    split
    · rw [exponent?, hread, Option.map_some]
      congr 1
      omega
    · rw [exponent?, hread, Option.map_some]
      congr 1
      omega
  have htext : scientific digits exponent = ['e'].intercalate
      [joinFraction (digits.take 1) (dropTrailingZeros (digits.drop 1)),
        (if exponent < 0 then '-' else '+') ::
          (List.replicate (2 - (Nat.toDigits 10 exponent.natAbs).length) '0' ++
            Nat.toDigits 10 exponent.natAbs)] := by
    simp [scientific, List.intercalate_cons_cons]
  have hpieces : ∀ piece ∈ [joinFraction (digits.take 1) (dropTrailingZeros (digits.drop 1)),
      (if exponent < 0 then '-' else '+') ::
        (List.replicate (2 - (Nat.toDigits 10 exponent.natAbs).length) '0' ++
          Nat.toDigits 10 exponent.natAbs)], 'e' ∉ piece := by
    intro piece hpiece
    rw [List.mem_cons, List.mem_singleton] at hpiece
    rcases hpiece with rfl | rfl
    · exact letter_notMem_joinFraction (hdigits.subset (List.take_subset _ _))
        (hdigits.subset (List.drop_subset _ _)).dropTrailingZeros
    · rw [List.mem_cons, not_or]
      refine ⟨by split <;> decide, ?_⟩
      exact ((IsDigits.replicate _).append (.toDigits _)).notMem rfl
  rw [numeral?, htext, List.splitOn_intercalate _ hpieces (List.cons_ne_nil _ _)]
  simp only [hmantissa, hexponent, Option.bind_eq_bind, Option.bind_some, pure]
  rw [div_ten_pow _ (show (-5 : Int) = -(5 : Nat) from rfl), mul_assoc, ← power_add]
  congr 3
  omega

end Digits

/-! ### Rounding to six digits -/

variable {q : Rat}

/-- A positive integer lies between the powers of ten of its digits. -/
theorem length_toDigits_spec {n : Nat} (hn : n ≠ 0) :
    power 10 (((Nat.toDigits 10 n).length : Int) - 1) ≤ n ∧
      (n : Rat) < power 10 (((Nat.toDigits 10 n).length : Int) - 1 + 1) := by
  have hcast (k : Nat) : power 10 k = ((10 ^ k : Nat) : Rat) := by
    rw [power_eq_zpow, zpow_natCast, Nat.cast_pow]
  have hlength : 0 < (Nat.toDigits 10 n).length := Nat.length_toDigits_pos
  have hhigh : n < 10 ^ (Nat.toDigits 10 n).length :=
    (Nat.length_toDigits_le_iff (by decide) hlength).mp le_rfl
  have hlow : 10 ^ ((Nat.toDigits 10 n).length - 1) ≤ n := by
    rcases Nat.eq_zero_or_pos ((Nat.toDigits 10 n).length - 1) with hzero | hpos
    · rw [hzero]
      omega
    · by_contra hlt
      have := (Nat.length_toDigits_le_iff (by decide) hpos).mpr (not_le.mp hlt)
      omega
  have hpred : ((Nat.toDigits 10 n).length : Int) - 1 = ((Nat.toDigits 10 n).length - 1 : Nat) := by
    omega
  rw [Int.sub_add_cancel, hcast, hpred, hcast]
  exact ⟨by exact_mod_cast hlow, by exact_mod_cast hhigh⟩

/-- A positive number lies between two powers of ten that follow one another. -/
theorem leadingExponent_spec (hpos : 0 < q) :
    power 10 (leadingExponent q) ≤ q ∧ q < power 10 (leadingExponent q + 1) := by
  have hnum : q.num.natAbs ≠ 0 := by
    have := Rat.num_pos.mpr hpos
    omega
  have hspec := leading_spec hpos (length_toDigits_spec hnum)
    (length_toDigits_spec q.den_nz)
  simpa only [leadingExponent, sub_sub_sub_cancel_right] using hspec

/-- The leading place of a number lies before a place that the number does not reach. -/
theorem leadingExponent_lt_iff (hpos : 0 < q) {exponent : Int} :
    leadingExponent q < exponent ↔ q < power 10 exponent := by
  obtain ⟨hlow, hhigh⟩ := leadingExponent_spec hpos
  constructor
  · intro h
    exact hhigh.trans_le (power_le_power.mpr h)
  · intro h
    by_contra hge
    exact absurd (hlow.trans_lt h) (not_lt.mpr (power_le_power.mpr (not_lt.mp hge)))

/-- A positive number rounded to its first six digits. -/
def rounded (q : Rat) : Rat :=
  roundHalfEven (q / power 10 (leadingExponent q - 5)) * power 10 (leadingExponent q - 5)

/-- A number is rounded to a multiple of the place of its sixth digit if this is less than one half
of the place away. -/
theorem rounded_eq {n : Int} (h : |n * power 10 (leadingExponent q - 5) - q| <
    power 10 (leadingExponent q - 5) / 2) : rounded q = n * power 10 (leadingExponent q - 5) := by
  have hplace := power_pos 10 (leadingExponent q - 5)
  have hscaled : (n - q / power 10 (leadingExponent q - 5)) * power 10 (leadingExponent q - 5) =
      n * power 10 (leadingExponent q - 5) - q := by
    rw [sub_mul, div_mul_cancel₀ _ hplace.ne']
  have hnear : |(n : Rat) - q / power 10 (leadingExponent q - 5)| < 1 / 2 := by
    rw [← hscaled, abs_mul, abs_of_pos hplace] at h
    exact lt_of_mul_lt_mul_right (by linarith) hplace.le
  rw [rounded, roundHalfEven_eq hnear]

/-- The leading digits are six, and they denote the rounded number. The first of them is at the
leading place, or at the place before it when rounding has carried over all of them. -/
theorem leadingDigits_spec (hpos : 0 < q) :
    ∃ n : Nat, (leadingDigits q).1 = n ∧ 10 ^ 5 ≤ n ∧ n < 10 ^ 6 ∧
      n * power 10 ((leadingDigits q).2 - 5) = rounded q ∧
      leadingExponent q ≤ (leadingDigits q).2 ∧ (leadingDigits q).2 ≤ leadingExponent q + 1 := by
  obtain ⟨hlow, hhigh⟩ := leadingExponent_spec hpos
  have hplace := power_pos 10 (leadingExponent q - 5)
  have hscaled : ((10 ^ 5 : Int) : Rat) ≤ q / power 10 (leadingExponent q - 5) ∧
      q / power 10 (leadingExponent q - 5) ≤ ((10 ^ 6 : Int) : Rat) := by
    have hfive : ((10 ^ 5 : Int) : Rat) * power 10 (leadingExponent q - 5) =
        power 10 (leadingExponent q) := by
      rw [show ((10 ^ 5 : Int) : Rat) = power 10 5 from rfl, ← power_add]
      congr 1
      omega
    have hsix : ((10 ^ 6 : Int) : Rat) * power 10 (leadingExponent q - 5) =
        power 10 (leadingExponent q + 1) := by
      rw [show ((10 ^ 6 : Int) : Rat) = power 10 6 from rfl, ← power_add]
      congr 1
      omega
    rw [le_div_iff₀ hplace, div_le_iff₀ hplace, hfive, hsix]
    exact ⟨hlow, hhigh.le⟩
  have hround := And.intro (le_roundHalfEven hscaled.1) (roundHalfEven_le hscaled.2)
  have hdigits : leadingDigits q =
      if roundHalfEven (q / power 10 (leadingExponent q - 5)) = 10 ^ 6 then
        (10 ^ 5, leadingExponent q + 1)
      else (roundHalfEven (q / power 10 (leadingExponent q - 5)), leadingExponent q) := rfl
  rw [hdigits, rounded]
  split
  · rename_i hcarry
    refine ⟨10 ^ 5, rfl, le_rfl, by decide, ?_, by simp only; omega, le_rfl⟩
    rw [hcarry, show ((10 ^ 5 : Nat) : Rat) = power 10 5 from rfl,
      show ((10 ^ 6 : Int) : Rat) = power 10 6 from rfl, ← power_add, ← power_add]
    congr 1
    omega
  · rename_i hsix
    obtain ⟨n, hn⟩ := Int.eq_ofNat_of_zero_le
      (by omega : 0 ≤ roundHalfEven (q / power 10 (leadingExponent q - 5)))
    rw [hn] at hround hsix ⊢
    refine ⟨n, rfl, by omega, by omega, rfl, le_rfl, by simp only; omega⟩

/-- Positional notation has no letter. -/
theorem letter_notMem_positional {digits : List Char} (hdigits : IsDigits digits) (exponent : Int) :
    'e' ∉ positional digits exponent := by
  intro hmem
  rcases mem_positional hmem with hpoint | hzero | hmem
  · cases hpoint
  · cases hzero
  · exact hdigits.notMem rfl hmem

/-- The text of a positive number denotes the number rounded to six digits. It has no power of ten
if the leading place is none of the first six before the point and none after the fourth behind it.
-/
theorem positiveText_spec (hpos : 0 < q) :
    numeral? (positiveText q) = some (rounded q) ∧
      (-4 ≤ leadingExponent q → leadingExponent q < 5 →
        decimal? (positiveText q) = some (rounded q)) := by
  obtain ⟨n, hn, hlow, hhigh, hvalue, hleading⟩ := leadingDigits_spec hpos
  have hdigits := IsDigits.toDigits n
  have hlength : (Nat.toDigits 10 n).length = 6 := by
    have hle := (Nat.length_toDigits_le_iff (by decide) (by decide : 0 < 6)).mpr hhigh
    have hgt := mt (Nat.length_toDigits_le_iff (by decide) (by decide : 0 < 5)).mp (not_lt.mpr hlow)
    omega
  have htext : positiveText q = if -4 ≤ (leadingDigits q).2 ∧ (leadingDigits q).2 < 6 then
      positional (Nat.toDigits 10 n) (leadingDigits q).2
      else scientific (Nat.toDigits 10 n) (leadingDigits q).2 := by
    have htoNat : (leadingDigits q).1.toNat = n := by omega
    rw [← htoNat]
    rfl
  rw [htext, ← hvalue]
  split
  · rename_i hplain
    have hread := decimal?_positional hdigits hlength hplain.2
    rw [Nat.ofDigitChars_ten_toDigits] at hread
    rw [numeral?_eq_decimal? (letter_notMem_positional hdigits _)]
    exact ⟨hread, fun _ _ => hread⟩
  · rename_i hpower
    have hread := numeral?_scientific hdigits hlength (leadingDigits q).2
    rw [Nat.ofDigitChars_ten_toDigits] at hread
    exact ⟨hread, fun hlow hhigh => absurd ⟨by omega, by omega⟩ hpower⟩

end Significant

end Transcription.Number
