import Mathlib.RingTheory.Coprime.Lemmas
import Transcription.Proofs.Number.Significant
import Transcription.Proofs.Recording.Refusals

/-!
# Tempos to the hundredth

A tempo is rounded to hundredths before it is written, and what is not whole is written with six
significant digits. So the hundredths are kept below 10000, tenths below 100000, and whole numbers
always; other hundredths are lost, and so is a tempo of at most half a hundredth, which is written
as zero. There are no ties, since no number of double precision lies halfway between two hundredths
that end in different tenths.
-/

namespace Transcription.Tempo

open Number
open Number.Binary64 (nearest nearestPositive)

/-- The hundredths of a tempo, rounded to a whole number. -/
def hundredths (q : Rat) : Int := roundHalfEven (q * 100)

/-- Hundredths that are kept when a tempo is written: there are some, and they make a whole number,
or one below 10000, or one below 100000 without hundredths but with tenths. -/
def Kept (k : Int) : Prop := 0 < k ∧ (100 ∣ k ∨ k < 10 ^ 6 ∨ 10 ∣ k ∧ k < 10 ^ 7)

instance : DecidablePred Kept := fun k =>
  inferInstanceAs (Decidable (0 < k ∧ (100 ∣ k ∨ k < 10 ^ 6 ∨ 10 ∣ k ∧ k < 10 ^ 7)))

variable {q v : Rat}

theorem roundToMultiple_eq (q : Rat) : roundToMultiple 100 q = hundredths q / 100 := rfl

/-- The hundredths of a tempo are at most one half of a hundredth away. -/
theorem abs_hundredths_sub_le (q : Rat) : |(hundredths q : Rat) / 100 - q| ≤ 1 / 200 := by
  have hround := abs_le.mp (abs_roundHalfEven_sub_le (q * 100))
  rw [abs_le, hundredths]
  constructor <;> linarith

/-- A positive tempo of double precision, and what it is rounded to. -/
structure Rounds (q v : Rat) : Prop where
  pos : 0 < q
  self : nearest q = .finite q
  rounded : rounded q = .finite v

namespace Rounds

/-- Among the multiples of one tenth only that of the hundredths is within half a hundredth. There
is no tie, for a binary number that lies halfway is a multiple of one eighth. -/
theorem abs_tenths_sub_le_iff (h : Rounds q v) (n : Int) :
    |(n : Rat) / 10 - q| ≤ 1 / 200 ↔ 10 * n = hundredths q := by
  have hround := abs_le.mp (abs_hundredths_sub_le q)
  constructor
  · intro hnear
    have hnear := abs_le.mp hnear
    by_contra hne
    have hnext : 10 * n = hundredths q + 1 ∨ 10 * n = hundredths q - 1 := by
      have hlow : (10 * n : Rat) ≤ hundredths q + 1 := by linarith
      have hhigh : (hundredths q - 1 : Rat) ≤ 10 * n := by linarith
      have hlow' : 10 * n ≤ hundredths q + 1 := by exact_mod_cast hlow
      have hhigh' : hundredths q - 1 ≤ 10 * n := by exact_mod_cast hhigh
      omega
    have htie : ∃ m : Int, q * 200 = m ∧ m % 5 ≠ 0 := by
      rcases hnext with hnext | hnext
      · have hcast : (10 * n : Rat) = hundredths q + 1 := by exact_mod_cast hnext
        refine ⟨20 * n - 1, ?_, by omega⟩
        push_cast
        linarith
      · have hcast : (10 * n : Rat) = hundredths q - 1 := by exact_mod_cast hnext
        refine ⟨20 * n + 1, ?_, by omega⟩
        push_cast
        linarith
    obtain ⟨m, hm, hfive⟩ := htie
    obtain ⟨places, k, hk⟩ :=
      Binary64.exists_mul_two_pow (Binary64.nearestPositive_of_nearest h.pos h.self)
    have hscaled : m * 2 ^ places = 200 * k := by
      have hcast : (m : Rat) * 2 ^ places = 200 * k := by rw [← hm, ← hk]; ring
      exact_mod_cast hcast
    have hdvd : (5 : Int) ∣ m * 2 ^ places := ⟨40 * k, by rw [hscaled]; ring⟩
    have hcoprime : IsCoprime (5 : Int) (2 ^ places) := IsCoprime.pow_right ⟨1, -2, rfl⟩
    exact hfive (Int.emod_eq_zero_of_dvd (hcoprime.dvd_of_dvd_mul_right hdvd))
  · intro heq
    have hcast : (10 * n : Rat) = hundredths q := by exact_mod_cast heq
    rw [abs_le]
    constructor <;> linarith

/-- A positive tempo has no negative hundredths. -/
theorem hundredths_nonneg (h : Rounds q v) : 0 ≤ hundredths q := by
  refine le_roundHalfEven ?_
  have hpos := h.pos
  push_cast
  linarith

theorem eq_zero (h : Rounds q v) (hzero : hundredths q = 0) : v = 0 := by
  have hrounded := h.rounded
  rw [Tempo.rounded, roundToMultiple_eq, hzero, Int.cast_zero, zero_div] at hrounded
  exact (Binary64.finite.inj hrounded).symm

/-- A tempo that is not rounded to zero is rounded to the number nearest to its hundredths. -/
theorem eq_nearestPositive (h : Rounds q v) (hpositive : 0 < (hundredths q : Rat) / 100) :
    v = nearestPositive (hundredths q / 100) := by
  have hrounded := h.rounded
  rw [Tempo.rounded, roundToMultiple_eq, Binary64.nearest_of_pos hpositive] at hrounded
  split at hrounded
  · cases hrounded
  · exact (Binary64.finite.inj hrounded).symm

/-- Either there are no hundredths, or they make a positive number. -/
theorem hundredths_cases (h : Rounds q v) :
    hundredths q = 0 ∨ 0 < hundredths q ∧ 0 < (hundredths q : Rat) / 100 := by
  rcases h.hundredths_nonneg.eq_or_lt with hzero | hpositive
  · exact Or.inl hzero.symm
  · have hcast : (0 : Rat) < hundredths q := by exact_mod_cast hpositive
    exact Or.inr ⟨hpositive, by linarith⟩

/-- The rounded tempo is as near to the hundredths as the tempo is. -/
theorem abs_sub_le (h : Rounds q v) : |v - hundredths q / 100| ≤ 1 / 200 := by
  rcases h.hundredths_cases with hzero | ⟨-, hpositive⟩
  · rw [h.eq_zero hzero, hzero]
    norm_num
  · rw [h.eq_nearestPositive hpositive]
    calc |nearestPositive (hundredths q / 100) - hundredths q / 100|
        ≤ |q - hundredths q / 100| := Binary64.abs_nearestPositive_sub_le_abs hpositive h.pos
          (Binary64.nearestPositive_of_nearest h.pos h.self)
      _ = |hundredths q / 100 - q| := abs_sub_comm _ _
      _ ≤ 1 / 200 := abs_hundredths_sub_le q

/-- The rounded tempo is whole exactly when the hundredths make a whole number. -/
theorem eq_intCast_iff (h : Rounds q v) (n : Int) : v = n ↔ hundredths q = 100 * n := by
  constructor
  · intro heq
    have hnear := abs_le.mp h.abs_sub_le
    rw [heq] at hnear
    have hlow : (hundredths q : Rat) < 100 * n + 1 := by linarith
    have hhigh : (100 * n : Rat) < hundredths q + 1 := by linarith
    have hlow' : hundredths q < 100 * n + 1 := by exact_mod_cast hlow
    have hhigh' : 100 * n < hundredths q + 1 := by exact_mod_cast hhigh
    omega
  · intro heq
    have hvalue : (hundredths q : Rat) / 100 = n := by
      rw [heq]
      push_cast
      ring
    rcases h.hundredths_cases with hzero | ⟨hpositive, hcast⟩
    · have hn : n = 0 := by omega
      rw [h.eq_zero hzero, hn, Int.cast_zero]
    · rw [h.eq_nearestPositive hcast, hvalue]
      rcases le_or_gt (power 2 53) q with hlarge | hsmall
      · -- the tempo is whole itself
        obtain ⟨m, hm⟩ := Binary64.exists_eq_intCast hlarge h.self
        have hhundredths : hundredths q = 100 * m := by
          have hscaled : q * 100 = ((100 * m : Int) : Rat) := by
            rw [hm]
            push_cast
            ring
          rw [hundredths, hscaled, roundHalfEven_intCast]
        have hmn : m = n := by omega
        rw [← hmn, ← hm]
        exact Binary64.nearestPositive_of_nearest h.pos h.self
      · have hpower : power 2 53 = (2 ^ 53 : Int) := rfl
        have hle : hundredths q ≤ 100 * 2 ^ 53 := by
          refine roundHalfEven_le ?_
          rw [hpower] at hsmall
          push_cast at hsmall ⊢
          linarith
        exact Binary64.nearestPositive_intCast (by omega) (by omega)


/-- The rounded tempo lies before an integer exactly when the hundredths do, unless they make one.
-/
theorem lt_intCast_iff (h : Rounds q v) (hwhole : ¬100 ∣ hundredths q) (n : Int) :
    v < n ↔ hundredths q < 100 * n := by
  have hnear := abs_le.mp h.abs_sub_le
  constructor
  · intro hlt
    have hcast : (hundredths q : Rat) < 100 * n + 1 := by linarith
    have hcast' : hundredths q < 100 * n + 1 := by exact_mod_cast hcast
    have hne : hundredths q ≠ 100 * n := fun heq => hwhole ⟨n, heq⟩
    omega
  · intro hlt
    have hcast : (hundredths q : Rat) + 1 ≤ 100 * n := by exact_mod_cast hlt
    linarith

/-- Hundredths below 10000 have no digit beyond the sixth. -/
theorem significant_of_lt (h : Rounds q v) (hwhole : ¬100 ∣ hundredths q)
    (hlt : hundredths q < 10 ^ 6) :
    0 < v ∧ -4 ≤ Significant.leadingExponent v ∧ Significant.leadingExponent v < 5 ∧
      Significant.rounded v = hundredths q / 100 := by
  have hnear := abs_le.mp h.abs_sub_le
  have hne : hundredths q ≠ 0 := fun hzero => hwhole (hzero ▸ dvd_zero 100)
  obtain ⟨hpositive, hcast⟩ := h.hundredths_cases.resolve_left hne
  have hone : (1 : Rat) ≤ hundredths q := by exact_mod_cast hpositive
  have hpos : 0 < v := by linarith
  have hlow : -3 ≤ Significant.leadingExponent v := by
    have hpower : power 10 (-3) = 1 / 1000 := rfl
    by_contra hbelow
    have := (Significant.leadingExponent_lt_iff hpos).mp (not_le.mp hbelow)
    linarith
  have hhigh : Significant.leadingExponent v < 4 := by
    rw [Significant.leadingExponent_lt_iff hpos]
    exact (h.lt_intCast_iff hwhole (10 ^ 4)).mpr (by omega)
  refine ⟨hpos, by omega, by omega, ?_⟩
  -- one hundredth is a multiple of the place of the sixth digit
  obtain ⟨m, hm⟩ := exists_power_eq_mul 10
    (show Significant.leadingExponent v - 5 ≤ -2 by omega)
  have hvalue : (hundredths q : Rat) / 100 =
      (hundredths q * m : Int) * power 10 (Significant.leadingExponent v - 5) := by
    rw [Int.cast_mul, mul_assoc, ← hm, show power 10 (-2) = 1 / 100 from rfl]
    ring
  rw [hvalue]
  refine Significant.rounded_eq ?_
  rw [← hvalue, abs_sub_comm]
  have hplace : Binary64.placeExponent ((hundredths q : Rat) / 100) ≤ -38 := by
    have hbelow : (hundredths q : Rat) / 100 < power 2 14 := by
      have hcast' : (hundredths q : Rat) < 10 ^ 6 := by exact_mod_cast hlt
      rw [show power 2 14 = 16384 from rfl]
      linarith
    have hleading := power_lt_power.mp ((Binary64.leadingExponent_spec hcast).1.trans_lt hbelow)
    unfold Binary64.placeExponent
    omega
  have hround : |v - hundredths q / 100| ≤
      power 2 (Binary64.placeExponent (hundredths q / 100)) / 2 := by
    conv_lhs => rw [h.eq_nearestPositive hcast]
    exact Binary64.abs_nearestPositive_sub_le _
  calc |v - hundredths q / 100|
      ≤ power 2 (Binary64.placeExponent (hundredths q / 100)) / 2 := hround
    _ ≤ power 2 (-38) / 2 := by
        have hpower : power 2 _ ≤ power 2 (-38) := power_le_power.mpr hplace
        linarith
    _ < power 10 (-8) / 2 := by decide +kernel
    _ ≤ power 10 (Significant.leadingExponent v - 5) / 2 := by
        have hpower : power 10 (-8) ≤ power 10 (Significant.leadingExponent v - 5) :=
          power_le_power.mpr (by omega)
        linarith

/-- Tenths below 100000 have no digit beyond the sixth. -/
theorem significant_of_tenths (h : Rounds q v) (hwhole : ¬100 ∣ hundredths q)
    (hge : 10 ^ 6 ≤ hundredths q) (htenths : 10 ∣ hundredths q) (hlt : hundredths q < 10 ^ 7) :
    0 < v ∧ -4 ≤ Significant.leadingExponent v ∧ Significant.leadingExponent v < 5 ∧
      Significant.rounded v = hundredths q / 100 := by
  have hge' : ¬v < ((10 ^ 4 : Int) : Rat) := by
    rw [h.lt_intCast_iff hwhole]
    omega
  have hpos : 0 < v := lt_of_lt_of_le (by norm_num) (not_lt.mp hge')
  have hlow : ¬Significant.leadingExponent v < 4 := by
    rw [Significant.leadingExponent_lt_iff hpos]
    exact hge'
  have hhigh : Significant.leadingExponent v < 5 := by
    rw [Significant.leadingExponent_lt_iff hpos]
    exact (h.lt_intCast_iff hwhole (10 ^ 5)).mpr (by omega)
  refine ⟨hpos, by omega, hhigh, ?_⟩
  have hplace : power 10 (Significant.leadingExponent v - 5) = 1 / 10 := by
    rw [show Significant.leadingExponent v - 5 = -1 by omega]
    rfl
  obtain ⟨n, hn⟩ := htenths
  have hvalue : (hundredths q : Rat) / 100 = n * power 10 (Significant.leadingExponent v - 5) := by
    rw [hplace, hn]
    push_cast
    ring
  rw [hvalue]
  refine Significant.rounded_eq ?_
  rw [← hvalue, abs_sub_comm, hplace]
  exact h.abs_sub_le.trans_lt (by norm_num)

/-- From 10000 on the six digits end with the tenths, and from 100000 on before them. -/
theorem significant_of_ge (h : Rounds q v) (hwhole : ¬100 ∣ hundredths q)
    (hge : 10 ^ 6 ≤ hundredths q) (hlost : ¬(10 ∣ hundredths q ∧ hundredths q < 10 ^ 7)) :
    0 < v ∧ ∃ n : Int, Significant.rounded v = n / 10 ∧ 10 * n ≠ hundredths q := by
  have hge' : ¬v < ((10 ^ 4 : Int) : Rat) := by
    rw [h.lt_intCast_iff hwhole]
    omega
  have hpos : 0 < v := lt_of_lt_of_le (by norm_num) (not_lt.mp hge')
  have hlow : ¬Significant.leadingExponent v < 4 := by
    rw [Significant.leadingExponent_lt_iff hpos]
    exact hge'
  obtain ⟨m, hm⟩ := exists_power_eq_mul 10
    (show -1 ≤ Significant.leadingExponent v - 5 by omega)
  refine ⟨hpos, roundHalfEven (v / power 10 (Significant.leadingExponent v - 5)) * m, ?_, ?_⟩
  · rw [Significant.rounded, Int.cast_mul, mul_div_assoc, div_eq_mul_one_div (m : Rat),
      ← show power 10 (-1) = 1 / 10 from rfl, ← hm]
  · intro heq
    have hfive : ¬Significant.leadingExponent v < 5 := by
      rw [Significant.leadingExponent_lt_iff hpos]
      refine mt (h.lt_intCast_iff hwhole (10 ^ 5)).mp ?_
      omega
    -- the six digits make a whole number, so the hundredths would, too
    obtain ⟨j, hj⟩ := exists_power_eq_mul 10
      (show 0 ≤ Significant.leadingExponent v - 5 by omega)
    have hten : m = 10 * j := by
      have hcast : (m : Rat) = 10 * j := by
        have hsame := hm.symm.trans hj
        rw [show power 10 (-1) = 1 / 10 from rfl, show power 10 0 = 1 from rfl] at hsame
        linarith
      exact_mod_cast hcast
    refine hwhole ⟨roundHalfEven (v / power 10 (Significant.leadingExponent v - 5)) * j, ?_⟩
    rw [← heq, hten]
    ring

/-- Hundredths that make a whole number are written as an integer, and others with six digits. -/
theorem finiteText_cases (h : Rounds q v) :
    (∃ n : Nat, hundredths q = 100 * n ∧ finiteText v = toString (n : Int)) ∨
      ¬100 ∣ hundredths q ∧ (0 < v → (finiteText v).toList = Significant.positiveText v) := by
  unfold finiteText
  split
  · rename_i hden
    have hvalue : hundredths q = 100 * v.num :=
      (h.eq_intCast_iff v.num).mp ((Rat.den_eq_one_iff v).mp hden).symm
    have hnonneg := h.hundredths_nonneg
    obtain ⟨n, hn⟩ := Int.eq_ofNat_of_zero_le (by omega : 0 ≤ v.num)
    exact Or.inl ⟨n, by rw [hvalue, hn], by rw [hn]⟩
  · rename_i hden
    refine Or.inr ⟨?_, fun hpos => ?_⟩
    · rintro ⟨n, hn⟩
      exact hden ((h.eq_intCast_iff n).mpr hn ▸ Rat.den_intCast n)
    · rw [Significant.text, if_neg hpos.ne', if_neg (not_lt.mpr hpos.le), String.toList_ofList]

/-- Hundredths that are kept are what the text denotes, without a power of ten. -/
theorem finiteText_of_kept (h : Rounds q v) (hkept : Kept (hundredths q)) :
    numeral? (finiteText v).toList = some ((hundredths q : Rat) / 100) ∧
      decimal? (finiteText v).toList = some ((hundredths q : Rat) / 100) := by
  rcases h.finiteText_cases with ⟨n, hn, htext⟩ | ⟨hwhole, htext⟩
  · have hcast : (hundredths q : Rat) / 100 = n := by
      rw [hn]
      push_cast
      ring
    rw [htext, hcast]
    exact numeral?_toString n
  · have hsix : 0 < v ∧ -4 ≤ Significant.leadingExponent v ∧ Significant.leadingExponent v < 5 ∧
        Significant.rounded v = hundredths q / 100 := by
      by_cases hlt : hundredths q < 10 ^ 6
      · exact h.significant_of_lt hwhole hlt
      · obtain ⟨htenths, hbelow⟩ := (hkept.2.resolve_left hwhole).resolve_left hlt
        exact h.significant_of_tenths hwhole (not_lt.mp hlt) htenths hbelow
    obtain ⟨hpos, hlow, hhigh, hrounded⟩ := hsix
    obtain ⟨hnumeral, hdecimal⟩ := Significant.positiveText_spec hpos
    rw [htext hpos, ← hrounded]
    exact ⟨hnumeral, hdecimal hlow hhigh⟩

/-- Hundredths that are not kept are lost: the text denotes no positive number within half a
hundredth of the tempo. -/
theorem finiteText_of_not_kept (h : Rounds q v) (hlost : ¬Kept (hundredths q)) :
    ∃ d, numeral? (finiteText v).toList = some d ∧ ¬(0 < d ∧ |d - q| ≤ 1 / 200) := by
  have hnonneg := h.hundredths_nonneg
  rcases h.finiteText_cases with ⟨n, hn, htext⟩ | ⟨hwhole, htext⟩
  · have hzero : n = 0 := by
      rw [hn, Kept] at hlost
      omega
    refine ⟨n, htext ▸ (numeral?_toString n).1, ?_⟩
    rw [hzero, Nat.cast_zero]
    exact fun hd => lt_irrefl 0 hd.1
  · have hge : 10 ^ 6 ≤ hundredths q ∧ ¬(10 ∣ hundredths q ∧ hundredths q < 10 ^ 7) := by
      rw [Kept] at hlost
      omega
    obtain ⟨hpos, n, hrounded, hne⟩ := h.significant_of_ge hwhole hge.1 hge.2
    refine ⟨n / 10, ?_, fun hd => hne ((h.abs_tenths_sub_le_iff n).mp hd.2)⟩
    rw [htext hpos, (Significant.positiveText_spec hpos).1, hrounded]

end Rounds

/-- The text of a positive tempo is a number. It gives the tempo to the hundredth exactly when the
hundredths are kept, and then it is a decimal fraction that denotes these. -/
theorem text_spec (hpos : 0 < q) (hself : nearest q = .finite q) {t : String}
    (ht : text (.finite q) = .ok t) :
    ∃ d, numeral? t.toList = some d ∧
      (0 < d ∧ |d - q| ≤ 1 / 200 ↔ Kept (hundredths q)) ∧
      (Kept (hundredths q) → decimal? t.toList = some d) := by
  obtain ⟨v, hv⟩ := exists_rounded hpos.le hself
  have hrounds : Rounds q v := ⟨hpos, hself, hv⟩
  rw [text, hv] at ht
  cases ht
  by_cases hkept : Kept (hundredths q)
  · obtain ⟨hnumeral, hdecimal⟩ := hrounds.finiteText_of_kept hkept
    have hcast : (0 : Rat) < hundredths q := by exact_mod_cast hkept.1
    have hnear := abs_hundredths_sub_le q
    exact ⟨_, hnumeral, iff_of_true ⟨by linarith, hnear⟩ hkept, fun _ => hdecimal⟩
  · obtain ⟨d, hnumeral, hlost⟩ := hrounds.finiteText_of_not_kept hkept
    exact ⟨d, hnumeral, iff_of_false hlost hkept, fun h => absurd h hkept⟩

end Transcription.Tempo
