import Mathlib.Algebra.Order.Field.Power
import Mathlib.Data.Rat.Cast.Order
import Mathlib.Tactic.Linarith
import Mathlib.Tactic.Ring
import Transcription.Number.Binary64

/-!
# The range of double precision

Rounding to the nearest number of double precision keeps the order to every number with the same
last binary place. So the numbers that it takes beyond the range are those from half a last place
below `2 ^ 1024` on, and what it gives back it leaves as it is when it rounds again.
-/

namespace Transcription.Number

/-! ### Powers -/

theorem power_eq_zpow (base : Nat) (exponent : Int) :
    power base exponent = (base : Rat) ^ exponent := by
  unfold power
  split
  · rename_i hnonneg
    conv_rhs => rw [← Int.toNat_of_nonneg hnonneg, zpow_natCast]
    exact Nat.cast_pow _ _
  · rename_i hneg
    have hpos : 0 ≤ -exponent := by omega
    conv_rhs => rw [← neg_neg exponent, zpow_neg, ← Int.toNat_of_nonneg hpos, zpow_natCast]
    rw [one_div]
    exact congrArg _ (Nat.cast_pow _ _)

theorem cast_two_pow (n : Nat) : ((2 ^ n : Int) : Rat) = power 2 n := by
  rw [power_eq_zpow, zpow_natCast]
  norm_cast

section Powers

variable (base : Nat) [base.AtLeastTwo]

private theorem one_lt_base : (1 : Rat) < base := by exact_mod_cast Nat.AtLeastTwo.one_lt

theorem power_pos (exponent : Int) : 0 < power base exponent := by
  rw [power_eq_zpow]
  exact zpow_pos (zero_lt_one.trans (one_lt_base base)) _

/-- A power with a greater exponent is a multiple of one with a smaller exponent. -/
theorem exists_power_eq_mul {m n : Int} (h : m ≤ n) :
    ∃ k : Int, power base n = k * power base m := by
  refine ⟨(base : Int) ^ (n - m).toNat, ?_⟩
  rw [power_eq_zpow, power_eq_zpow, Int.cast_pow, Int.cast_natCast, ← zpow_natCast,
    ← zpow_add₀ (zero_lt_one.trans (one_lt_base base)).ne']
  congr 1
  omega

variable {base}

theorem power_add (m n : Int) : power base (m + n) = power base m * power base n := by
  simp only [power_eq_zpow]
  exact zpow_add₀ (zero_lt_one.trans (one_lt_base base)).ne' _ _

theorem power_le_power {m n : Int} : power base m ≤ power base n ↔ m ≤ n := by
  simp only [power_eq_zpow]
  exact zpow_le_zpow_iff_right₀ (one_lt_base base)

theorem power_lt_power {m n : Int} : power base m < power base n ↔ m < n := by
  simp only [power_eq_zpow]
  exact zpow_lt_zpow_iff_right₀ (one_lt_base base)

/-- If numerator and denominator lie between neighbouring powers, so does their quotient: the
difference of the exponents or the exponent before it is the leading one. -/
theorem leading_spec {q : Rat} (hpos : 0 < q) {a b : Int}
    (hnum : power base a ≤ q.num.natAbs ∧ (q.num.natAbs : Rat) < power base (a + 1))
    (hden : power base b ≤ q.den ∧ (q.den : Rat) < power base (b + 1)) :
    let leading := if power base (a - b) ≤ q then a - b else a - b - 1
    power base leading ≤ q ∧ q < power base (leading + 1) := by
  have hvalue : q = (q.num.natAbs : Rat) / (q.den : Rat) := by
    have hcast : ((q.num.natAbs : Int) : Rat) = q.num := by
      rw [Int.natAbs_of_nonneg (Rat.num_pos.mpr hpos).le]
    rw [← Int.cast_natCast q.num.natAbs, hcast, Rat.num_div_den]
  have hdenPos : (0 : Rat) < q.den := by exact_mod_cast q.den_pos
  have hlow : power base (a - b - 1) < q := by
    rw [hvalue, lt_div_iff₀ hdenPos]
    calc power base (a - b - 1) * q.den < power base (a - b - 1) * power base (b + 1) :=
          mul_lt_mul_of_pos_left hden.2 (power_pos base _)
      _ = power base a := by rw [← power_add]; congr 1; omega
      _ ≤ q.num.natAbs := hnum.1
  have hhigh : q < power base (a - b + 1) := by
    rw [hvalue, div_lt_iff₀ hdenPos]
    calc (q.num.natAbs : Rat) < power base (a + 1) := hnum.2
      _ = power base (a - b + 1) * power base b := by rw [← power_add]; congr 1; omega
      _ ≤ power base (a - b + 1) * q.den := mul_le_mul_of_nonneg_left hden.1 (power_pos base _).le
  intro leading
  by_cases hle : power base (a - b) ≤ q
  · have hleading : leading = a - b := if_pos hle
    rw [hleading]
    exact ⟨hle, hhigh⟩
  · have hleading : leading = a - b - 1 := if_neg hle
    rw [hleading, Int.sub_add_cancel]
    exact ⟨hlow.le, not_le.mp hle⟩

end Powers

/-! ### Whole numbers -/

variable {q : Rat}

/-- Rounding changes a number by at most one half. -/
theorem abs_roundHalfEven_sub_le (q : Rat) : |(roundHalfEven q : Rat) - q| ≤ 1 / 2 := by
  have hbelow := Rat.floor_le q
  have habove := Rat.lt_floor_add_one q
  rw [abs_le]
  simp only [roundHalfEven]
  split_ifs <;> push_cast at habove ⊢ <;> constructor <;> linarith

/-- Rounding goes to an integer that is at least as near as any other. -/
theorem abs_roundHalfEven_sub_le_abs (q : Rat) (n : Int) :
    |(roundHalfEven q : Rat) - q| ≤ |(n : Rat) - q| := by
  have hround := abs_roundHalfEven_sub_le q
  by_cases hn : roundHalfEven q = n
  · rw [hn]
  · have hapart : (1 : Rat) ≤ |(roundHalfEven q : Rat) - n| := by
      exact_mod_cast Int.one_le_abs (sub_ne_zero.mpr hn)
    have htriangle := abs_sub_le (roundHalfEven q : Rat) q n
    rw [abs_sub_comm q] at htriangle
    linarith

/-- A number less than one half away from an integer is rounded to it. -/
theorem roundHalfEven_eq {n : Int} (h : |(n : Rat) - q| < 1 / 2) : roundHalfEven q = n := by
  have hround := abs_roundHalfEven_sub_le q
  have htriangle := abs_sub_le (roundHalfEven q : Rat) q n
  rw [abs_sub_comm q] at htriangle
  have hapart : |roundHalfEven q - n| < 1 := by
    have hcast : |(roundHalfEven q : Rat) - n| < 1 := by linarith
    exact_mod_cast hcast
  exact sub_eq_zero.mp (Int.abs_lt_one_iff.mp hapart)

/-- Rounding does not go below an integer. -/
theorem le_roundHalfEven {n : Int} (h : (n : Rat) ≤ q) : n ≤ roundHalfEven q := by
  have hnear := (abs_le.mp (abs_roundHalfEven_sub_le q)).1
  have hlt : (n : Rat) - 1 < roundHalfEven q := by linarith
  have : n - 1 < roundHalfEven q := by exact_mod_cast hlt
  omega

/-- Rounding does not go above an integer. -/
theorem roundHalfEven_le {n : Int} (h : q ≤ n) : roundHalfEven q ≤ n := by
  have hnear := (abs_le.mp (abs_roundHalfEven_sub_le q)).2
  have hlt : (roundHalfEven q : Rat) < n + 1 := by linarith
  have : roundHalfEven q < n + 1 := by exact_mod_cast hlt
  omega

/-- What is rounded up to an even integer at least is not more than one half below it. -/
theorem le_roundHalfEven_iff {n : Int} (heven : n % 2 = 0) :
    n ≤ roundHalfEven q ↔ (n : Rat) - 1 / 2 ≤ q := by
  constructor
  · intro h
    have hle : (n : Rat) ≤ roundHalfEven q := by exact_mod_cast h
    have hnear := (abs_le.mp (abs_roundHalfEven_sub_le q)).2
    linarith
  · intro h
    have hbelow : n - 1 ≤ q.floor := Rat.le_floor_iff.mpr (by push_cast; linarith)
    rcases hbelow.lt_or_eq with hlt | heq
    · have hfloor : n ≤ q.floor := by omega
      exact le_roundHalfEven (Rat.le_floor_iff.mp hfloor)
    · -- the integer below is odd, so a tie goes up
      have hexcess : 1 / 2 ≤ q - ((n - 1 : Int) : Rat) := by push_cast; linarith
      simp only [roundHalfEven, ← heq]
      rw [if_neg (not_lt.mpr hexcess), if_neg (by omega : ¬(n - 1) % 2 = 0)]
      split
      · omega
      · omega

/-- Rounding to a multiple does not go above an integer. -/
theorem roundToMultiple_le {scale : Nat} {n : Int} (hscale : 0 < scale) (h : q ≤ n) :
    roundToMultiple scale q ≤ n := by
  have hcast : (0 : Rat) < scale := by exact_mod_cast hscale
  have hround : roundHalfEven (q * scale) ≤ n * scale := by
    refine roundHalfEven_le ?_
    push_cast
    exact mul_le_mul_of_nonneg_right h hcast.le
  rw [roundToMultiple, div_le_iff₀ hcast]
  exact_mod_cast hround

/-- Rounding to a multiple does not go below an integer. -/
theorem le_roundToMultiple {scale : Nat} {n : Int} (hscale : 0 < scale) (h : (n : Rat) ≤ q) :
    (n : Rat) ≤ roundToMultiple scale q := by
  have hcast : (0 : Rat) < scale := by exact_mod_cast hscale
  have hround : n * scale ≤ roundHalfEven (q * scale) := by
    refine le_roundHalfEven ?_
    push_cast
    exact mul_le_mul_of_nonneg_right h hcast.le
  rw [roundToMultiple, le_div_iff₀ hcast]
  exact_mod_cast hround

/-- Integers are multiples already. -/
theorem roundToMultiple_intCast {scale : Nat} (hscale : 0 < scale) (n : Int) :
    roundToMultiple scale n = n :=
  le_antisymm (roundToMultiple_le hscale le_rfl) (le_roundToMultiple hscale le_rfl)

namespace Binary64

/-! ### Places -/

/-- A positive natural number lies between two powers of two that follow one another. -/
theorem log2_spec {m : Nat} (hm : m ≠ 0) :
    power 2 (m.log2 : Int) ≤ m ∧ (m : Rat) < power 2 ((m.log2 : Int) + 1) := by
  rw [← Nat.cast_succ, ← cast_two_pow, ← cast_two_pow]
  exact ⟨by exact_mod_cast Nat.log2_self_le hm, by exact_mod_cast Nat.lt_log2_self⟩

/-- A positive number lies between two powers of two that follow one another. -/
theorem leadingExponent_spec (hpos : 0 < q) :
    power 2 (leadingExponent q) ≤ q ∧ q < power 2 (leadingExponent q + 1) := by
  have hnum : q.num.natAbs ≠ 0 := by
    have := Rat.num_pos.mpr hpos
    omega
  exact leading_spec hpos (log2_spec hnum) (log2_spec q.den_nz)

/-- The leading exponent of a positive number is the greatest one with a power up to it. -/
theorem le_leadingExponent_iff {k : Int} (hpos : 0 < q) :
    k ≤ leadingExponent q ↔ power 2 k ≤ q := by
  obtain ⟨hlow, hhigh⟩ := leadingExponent_spec hpos
  constructor
  · intro h
    exact (power_le_power.mpr h).trans hlow
  · intro h
    have := power_lt_power.mp (h.trans_lt hhigh)
    omega

/-- What is rounded to the nearest number stays below a multiple of its last binary place. -/
theorem nearestPositive_le {k : Int} (h : q ≤ k * power 2 (placeExponent q)) :
    nearestPositive q ≤ k * power 2 (placeExponent q) := by
  have hplace := power_pos 2 (placeExponent q)
  have hround : roundHalfEven (q / power 2 (placeExponent q)) ≤ k :=
    roundHalfEven_le ((div_le_iff₀ hplace).mpr h)
  exact mul_le_mul_of_nonneg_right (by exact_mod_cast hround) hplace.le

/-- What is rounded to the nearest number stays above a multiple of its last binary place. -/
theorem le_nearestPositive {k : Int} (h : k * power 2 (placeExponent q) ≤ q) :
    k * power 2 (placeExponent q) ≤ nearestPositive q := by
  have hplace := power_pos 2 (placeExponent q)
  have hround : k ≤ roundHalfEven (q / power 2 (placeExponent q)) :=
    le_roundHalfEven ((le_div_iff₀ hplace).mpr h)
  exact mul_le_mul_of_nonneg_right (by exact_mod_cast hround) hplace.le

/-- Multiples of the last binary place are not rounded. -/
theorem nearestPositive_eq_self {k : Int} (h : q = k * power 2 (placeExponent q)) :
    nearestPositive q = q :=
  le_antisymm ((nearestPositive_le h.le).trans h.ge) (h.le.trans (le_nearestPositive h.ge))

/-! ### Numbers beyond the range -/

/-- The least number that is too large: half a last place below `2 ^ 1024`. -/
def limit : Int := 2 ^ 1024 - 2 ^ 970

theorem cast_limit : (limit : Rat) = power 2 1024 - power 2 970 := by
  rw [limit, Int.cast_sub, cast_two_pow, cast_two_pow, Nat.cast_ofNat, Nat.cast_ofNat]

/-- Powers of two below the last one of the range are below the limit. -/
theorem power_lt_limit {e : Int} (he : e ≤ 1023) : power 2 e < limit := by
  have hdouble : power 2 1024 = 2 * power 2 1023 := by
    rw [show (1024 : Int) = 1 + 1023 from rfl, power_add]
    rfl
  have hle : power 2 e ≤ power 2 1023 := power_le_power.mpr he
  have hlt : power 2 970 < power 2 1023 := power_lt_power.mpr (by decide)
  rw [cast_limit, hdouble]
  linarith

theorem limit_pos : 0 < limit := by
  have hpos : (0 : Rat) < limit := (power_pos 2 0).trans (power_lt_limit (by decide))
  exact_mod_cast hpos

/-- Rounding goes beyond the range from the limit on. -/
theorem power_le_nearestPositive_iff (hpos : 0 < q) :
    power 2 1024 ≤ nearestPositive q ↔ (limit : Rat) ≤ q := by
  obtain ⟨hlow, hhigh⟩ := leadingExponent_spec hpos
  have hhalf : power 2 971 = 2 * power 2 970 := by
    rw [show (971 : Int) = 1 + 970 from rfl, power_add]
    rfl
  have hlast : power 2 1024 = ((2 ^ 53 : Int) : Rat) * power 2 971 := by
    rw [cast_two_pow, ← power_add]
    rfl
  rcases lt_trichotomy (leadingExponent q) 1023 with hlt | heq | hgt
  · -- `2 ^ 1023` is a multiple of the last place
    have hplace : placeExponent q ≤ 1023 := by unfold placeExponent; omega
    obtain ⟨k, hk⟩ := exists_power_eq_mul 2 hplace
    have hbelow : q < power 2 1023 := hhigh.trans_le (power_le_power.mpr (by omega))
    have hrounded : nearestPositive q ≤ power 2 1023 := hk ▸ nearestPositive_le (hk ▸ hbelow.le)
    have hrange : power 2 1023 < power 2 1024 := power_lt_power.mpr (by decide)
    have hlimit : power 2 1023 < limit := power_lt_limit le_rfl
    constructor
    · intro h
      exact absurd (h.trans hrounded) (not_le.mpr hrange)
    · intro h
      exact absurd (h.trans hbelow.le) (not_le.mpr hlimit)
  · have hplace : placeExponent q = 971 := by unfold placeExponent; omega
    have hpositive := power_pos 2 971
    have heven : (2 ^ 53 : Int) % 2 = 0 := by decide
    calc power 2 1024 ≤ nearestPositive q
        ↔ (2 ^ 53 : Int) ≤ roundHalfEven (q / power 2 971) := by
          rw [nearestPositive, hplace, hlast, mul_le_mul_iff_left₀ hpositive]
          exact Int.cast_le
      _ ↔ ((2 ^ 53 : Int) : Rat) - 1 / 2 ≤ q / power 2 971 := le_roundHalfEven_iff heven
      _ ↔ (limit : Rat) ≤ q := by
          rw [cast_limit, le_div_iff₀ hpositive, sub_mul, ← hlast, hhalf, ← mul_assoc, one_div,
            inv_mul_cancel₀ two_ne_zero, one_mul]
  · -- the leading power of two is a multiple of the last place
    have hplace : placeExponent q ≤ leadingExponent q := by unfold placeExponent; omega
    obtain ⟨k, hk⟩ := exists_power_eq_mul 2 hplace
    have habove : power 2 1024 ≤ power 2 (leadingExponent q) := power_le_power.mpr hgt
    have hrounded : power 2 (leadingExponent q) ≤ nearestPositive q :=
      hk ▸ le_nearestPositive (hk ▸ hlow)
    have hlimit : (limit : Rat) ≤ power 2 1024 := by
      rw [cast_limit]
      linarith [power_pos 2 970]
    exact iff_of_true (habove.trans hrounded) (hlimit.trans (habove.trans hlow))

/-- The nearest number to a positive one is infinite from the limit on. -/
theorem nearest_of_pos (hpos : 0 < q) :
    nearest q = if (limit : Rat) ≤ q then infinite false else finite (nearestPositive q) := by
  have hnot : ¬q < 0 := not_lt.mpr hpos.le
  simp only [nearest, if_neg hpos.ne', hnot, if_false, decide_false]
  simp only [power_le_nearestPositive_iff hpos]

/-! ### Numbers that are their own nearest -/

/-- A number of double precision is a finite one that is its own nearest. -/
def IsFinite : Binary64 → Prop
  | finite value => nearest value = finite value
  | _ => False

/-- Powers of two within the range are not rounded. -/
theorem nearestPositive_power {e : Int} (h : -1074 ≤ e) :
    nearestPositive (power 2 e) = power 2 e := by
  have hpos := power_pos 2 e
  have hleading : leadingExponent (power 2 e) ≤ e :=
    power_le_power.mp (leadingExponent_spec hpos).1
  have hplace : placeExponent (power 2 e) ≤ e := by unfold placeExponent; omega
  obtain ⟨k, hk⟩ := exists_power_eq_mul 2 hplace
  exact nearestPositive_eq_self hk

/-- Rounding a second time changes nothing. -/
theorem nearestPositive_nearestPositive (hpos : 0 < q) (hne : 0 < nearestPositive q) :
    nearestPositive (nearestPositive q) = nearestPositive q := by
  obtain ⟨-, hhigh⟩ := leadingExponent_spec hpos
  have hlow' := (leadingExponent_spec hne).1
  have hplace : placeExponent q = max (leadingExponent q - 52) (-1074) := rfl
  have hplace' : placeExponent (nearestPositive q) =
      max (leadingExponent (nearestPositive q) - 52) (-1074) := rfl
  rcases le_or_gt (placeExponent (nearestPositive q)) (placeExponent q) with hle | hgt
  · -- a multiple of the old last place is one of the new last place
    obtain ⟨k, hk⟩ := exists_power_eq_mul 2 hle
    refine nearestPositive_eq_self (k := roundHalfEven (q / power 2 (placeExponent q)) * k) ?_
    rw [Int.cast_mul, mul_assoc, ← hk]
    rfl
  · -- the rounded number has reached the next power of two
    have hfits : placeExponent q ≤ leadingExponent q + 1 := by
      by_contra hnot
      have hbelow : q < power 2 (placeExponent q) :=
        hhigh.trans (power_lt_power.mpr (not_le.mp hnot))
      have hrounded : nearestPositive q ≤ power 2 (placeExponent q) := by
        simpa using nearestPositive_le (k := 1) (by simpa using hbelow.le)
      have hleading := power_le_power.mp (hlow'.trans hrounded)
      omega
    obtain ⟨k, hk⟩ := exists_power_eq_mul 2 hfits
    have hupper : nearestPositive q ≤ power 2 (leadingExponent q + 1) :=
      hk ▸ nearestPositive_le (hk ▸ hhigh.le)
    have hlower : power 2 (leadingExponent q + 1) ≤ nearestPositive q :=
      (power_le_power.mpr (by omega)).trans hlow'
    rw [le_antisymm hupper hlower]
    exact nearestPositive_power (by omega)

/-- Positive numbers are rounded to numbers that are not negative. -/
theorem nearestPositive_nonneg (hpos : 0 < q) : 0 ≤ nearestPositive q := by
  simpa using le_nearestPositive (k := 0) (by simpa using hpos.le)

/-- From the least place on a number is not rounded to zero. -/
theorem nearestPositive_pos (h : power 2 (-1074) ≤ q) : 0 < nearestPositive q := by
  have hpos : 0 < q := (power_pos 2 (-1074)).trans_le h
  have hleading := (le_leadingExponent_iff hpos).mpr h
  have hplace : placeExponent q ≤ leadingExponent q := by unfold placeExponent; omega
  obtain ⟨k, hk⟩ := exists_power_eq_mul 2 hplace
  have hlow := (leadingExponent_spec hpos).1
  exact (power_pos 2 (leadingExponent q)).trans_le (hk ▸ le_nearestPositive (hk ▸ hlow))

/-- What is nearest to a number is its own nearest number. -/
theorem nearest_eq_self {x : Rat} (hpos : 0 < q) (h : nearest q = finite x) :
    nearest x = finite x := by
  rw [nearest_of_pos hpos] at h
  split at h
  · cases h
  · rename_i hsmall
    cases h
    rcases (nearestPositive_nonneg hpos).eq_or_lt with hzero | hne
    · rw [← hzero]
      rfl
    · have hself := nearestPositive_nearestPositive hpos hne
      have hsmall' : ¬(limit : Rat) ≤ nearestPositive q := by
        rwa [← power_le_nearestPositive_iff hne, hself, power_le_nearestPositive_iff hpos]
      rw [nearest_of_pos hne, if_neg hsmall', hself]

/-- A positive number that is its own nearest is not rounded. -/
theorem nearestPositive_of_nearest (hpos : 0 < q) (hself : nearest q = finite q) :
    nearestPositive q = q := by
  rw [nearest_of_pos hpos] at hself
  split at hself
  · cases hself
  · exact finite.inj hself

/-- From `2 ^ 53` on a number that is its own nearest is whole. -/
theorem exists_eq_intCast (hlarge : power 2 53 ≤ q) (hself : nearest q = finite q) :
    ∃ n : Int, q = n := by
  have hpos : 0 < q := (power_pos 2 53).trans_le hlarge
  have hvalue := nearestPositive_of_nearest hpos hself
  have hleading := (le_leadingExponent_iff hpos).mpr hlarge
  have hplace : 0 ≤ placeExponent q := by unfold placeExponent; omega
  obtain ⟨k, hk⟩ := exists_power_eq_mul 2 hplace
  have hone : power 2 0 = 1 := rfl
  rw [hone, mul_one] at hk
  refine ⟨roundHalfEven (q / power 2 (placeExponent q)) * k, ?_⟩
  rw [Int.cast_mul, ← hk]
  exact hvalue.symm

/-! ### Nearness -/

/-- The nearest number is at most half a last binary place away. -/
theorem abs_nearestPositive_sub_le (q : Rat) :
    |nearestPositive q - q| ≤ power 2 (placeExponent q) / 2 := by
  have hplace := power_pos 2 (placeExponent q)
  have hround := abs_roundHalfEven_sub_le (q / power 2 (placeExponent q))
  have heq : nearestPositive q - q =
      (roundHalfEven (q / power 2 (placeExponent q)) - q / power 2 (placeExponent q)) *
        power 2 (placeExponent q) := by
    rw [sub_mul, div_mul_cancel₀ _ hplace.ne']
    rfl
  rw [heq, abs_mul, abs_of_pos hplace]
  calc _ ≤ 1 / 2 * power 2 (placeExponent q) := mul_le_mul_of_nonneg_right hround hplace.le
    _ = power 2 (placeExponent q) / 2 := by ring

/-- No multiple of the last binary place is nearer than the nearest number. -/
theorem abs_nearestPositive_sub_le_of_multiple (q : Rat) (k : Int) :
    |nearestPositive q - q| ≤ |k * power 2 (placeExponent q) - q| := by
  have hplace := power_pos 2 (placeExponent q)
  have hround := abs_roundHalfEven_sub_le_abs (q / power 2 (placeExponent q)) k
  have heq (x : Rat) : x * power 2 (placeExponent q) - q =
      (x - q / power 2 (placeExponent q)) * power 2 (placeExponent q) := by
    rw [sub_mul, div_mul_cancel₀ _ hplace.ne']
  rw [nearestPositive, heq, heq, abs_mul, abs_mul]
  exact mul_le_mul_of_nonneg_right hround (abs_nonneg _)

/-- No number that is not rounded is nearer than the nearest number. -/
theorem abs_nearestPositive_sub_le_abs (hpos : 0 < q) {x : Rat} (hx : 0 < x)
    (hself : nearestPositive x = x) : |nearestPositive q - q| ≤ |x - q| := by
  rcases le_or_gt (placeExponent q) (placeExponent x) with hle | hgt
  · -- the number is a multiple of the last place
    obtain ⟨k, hk⟩ := exists_power_eq_mul 2 hle
    have hmultiple : x = (roundHalfEven (x / power 2 (placeExponent x)) * k : Int) *
        power 2 (placeExponent q) := by
      rw [Int.cast_mul, mul_assoc, ← hk]
      exact hself.symm
    rw [hmultiple]
    exact abs_nearestPositive_sub_le_of_multiple q _
  · -- the number lies before the leading power of two, which is a multiple of the last place
    have hleading : placeExponent q ≤ leadingExponent q ∧
        leadingExponent x + 1 ≤ leadingExponent q := by
      unfold placeExponent at hgt ⊢
      omega
    obtain ⟨k, hk⟩ := exists_power_eq_mul 2 hleading.1
    have hlow := (leadingExponent_spec hpos).1
    have hbefore : x ≤ power 2 (leadingExponent q) :=
      (leadingExponent_spec hx).2.le.trans (power_le_power.mpr hleading.2)
    calc |nearestPositive q - q| ≤ |power 2 (leadingExponent q) - q| :=
          hk ▸ abs_nearestPositive_sub_le_of_multiple q k
      _ = q - power 2 (leadingExponent q) := by
          rw [abs_of_nonpos (sub_nonpos.mpr hlow), neg_sub]
      _ ≤ q - x := sub_le_sub_left hbefore q
      _ ≤ |x - q| := by
          rw [← neg_sub]
          exact neg_le_abs _

/-- Positive integers up to `2 ^ 53` are not rounded. -/
theorem nearestPositive_intCast {n : Int} (hpos : 0 < n) (hle : n ≤ 2 ^ 53) :
    nearestPositive (n : Rat) = n := by
  have hcast : (0 : Rat) < n := by exact_mod_cast hpos
  rcases hle.lt_or_eq with hlt | rfl
  · have hbelow : (n : Rat) < power 2 53 := by
      have hcast53 : ((2 ^ 53 : Int) : Rat) = power 2 53 := cast_two_pow 53
      rw [← hcast53]
      exact_mod_cast hlt
    have hleading := power_lt_power.mp ((leadingExponent_spec hcast).1.trans_lt hbelow)
    have hplace : placeExponent (n : Rat) ≤ 0 := by unfold placeExponent; omega
    obtain ⟨k, hk⟩ := exists_power_eq_mul 2 hplace
    have hone : power 2 0 = 1 := rfl
    refine nearestPositive_eq_self (k := n * k) ?_
    rw [Int.cast_mul, mul_assoc, ← hk, hone, mul_one]
  · rw [cast_two_pow]
    exact nearestPositive_power (by decide)

/-- A number that is its own nearest is a whole number of binary places. -/
theorem exists_mul_two_pow (hself : nearestPositive q = q) :
    ∃ (places : Nat) (n : Int), q * 2 ^ places = n := by
  obtain ⟨k, hk⟩ := exists_power_eq_mul 2 (min_le_left (placeExponent q) 0)
  obtain ⟨places, hplaces⟩ := Int.exists_eq_neg_ofNat (min_le_right (placeExponent q) 0)
  have hone : power 2 (-places) * 2 ^ places = 1 := by
    rw [power_eq_zpow, zpow_neg, zpow_natCast, Nat.cast_ofNat]
    exact inv_mul_cancel₀ (pow_ne_zero _ two_ne_zero)
  refine ⟨places, roundHalfEven (q / power 2 (placeExponent q)) * k, ?_⟩
  calc q * 2 ^ places
      = nearestPositive q * 2 ^ places := by rw [hself]
    _ = roundHalfEven (q / power 2 (placeExponent q)) * k * (power 2 (-places) * 2 ^ places) := by
        rw [nearestPositive, hk, hplaces]
        ring
    _ = _ := by rw [hone, mul_one, Int.cast_mul]

end Binary64

end Transcription.Number
