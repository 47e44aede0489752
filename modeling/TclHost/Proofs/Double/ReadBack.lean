import TclHost.Proofs.Double.Rounded
/-! # Decimals with so many places that read back

A multiple of a decimal unit may be the nearest one to a double without being the one with the
fewest digits.  It reads back all the same if any multiple of that unit does: the numbers that read
as a double lie evenly around it, so that the nearer one is among them.  Only around a power of two
do they not, but from 0.0001 on these are multiples of every such unit themselves.
-/
namespace TclHost.Double

/-! ## The nearest integer -/

/-- The nearest integer is less than one half away, or one half if it is even. -/
theorem halfEven_eq_iff {v : ℚ} (hv : 0 ≤ v) {n : Nat} :
    halfEven v = n ↔ |v - n| < 1 / 2 ∨ |v - n| = 1 / 2 ∧ Even n := by
  have hlower := Nat.floor_le hv
  have hupper := Nat.lt_floor_add_one v
  constructor
  · rintro rfl
    refine (abs_sub_halfEven_le hv).lt_or_eq.imp_right fun htie => ⟨htie, ?_⟩
    rw [halfEven] at htie ⊢
    split at htie
    · next hlow =>
      rw [abs_of_nonneg (by linarith)] at htie
      linarith
    · split at htie
      · next hhigh =>
        rw [Nat.cast_succ, abs_of_neg (by linarith)] at htie
        linarith
      · next hlow hhigh =>
        rw [if_neg hlow, if_neg hhigh]
        split
        · next heven => exact Nat.even_iff.mpr heven
        · next hodd => exact Nat.even_iff.mpr (by omega)
  · rintro (hnear | ⟨htie, heven⟩)
    · exact halfEven_eq hv hnear
    · rcases abs_eq (by norm_num) |>.mp htie with hv' | hv'
      · have hfloor : ⌊v⌋₊ = n := (Nat.floor_eq_iff hv).mpr ⟨by linarith, by linarith⟩
        rw [halfEven, hfloor, if_neg (by linarith), if_neg (by linarith),
          if_pos (Nat.even_iff.mp heven)]
      · obtain ⟨k, rfl⟩ : ∃ k, n = k + 1 := Nat.exists_eq_succ_of_ne_zero (by
          rintro rfl
          rw [Nat.cast_zero] at hv'
          linarith)
        rw [Nat.cast_succ] at hv'
        have hfloor : ⌊v⌋₊ = k := (Nat.floor_eq_iff hv).mpr ⟨by linarith, by linarith⟩
        have hodd : k % 2 ≠ 0 := by
          have := Nat.even_iff.mp heven
          omega
        rw [halfEven, hfloor, if_neg (by linarith), if_neg (by linarith), if_neg hodd]

/-- What is no further from an integer than a number that rounds to it rounds to it too. -/
theorem halfEven_of_closer {v w : ℚ} (hv : 0 ≤ v) (hw : 0 ≤ w) {n : Nat} (h : halfEven v = n)
    (hle : |w - n| ≤ |v - n|) : halfEven w = n := by
  rw [halfEven_eq_iff hv] at h
  rw [halfEven_eq_iff hw]
  rcases h with hnear | ⟨htie, heven⟩
  · exact .inl (hle.trans_lt hnear)
  · rcases (hle.trans_eq htie).lt_or_eq with hlt | heq
    · exact .inl hlt
    · exact .inr ⟨heq, heven⟩

theorem abs_sub_halfEven_le_abs_sub {v : ℚ} (hv : 0 ≤ v) (n : Nat) :
    |v - halfEven v| ≤ |v - n| := by
  by_cases hn : halfEven v = n
  · rw [hn]
  · have hhalf := abs_sub_halfEven_le hv
    have hone : (1 : ℚ) ≤ |(halfEven v : ℚ) - n| := by
      have hne : (1 : Int) ≤ |(halfEven v : Int) - n| :=
        Int.one_le_abs (sub_ne_zero.mpr (by exact_mod_cast hn))
      exact_mod_cast hne
    have htriangle := abs_sub_le (halfEven v : ℚ) v n
    rw [abs_sub_comm (halfEven v : ℚ) v] at htriangle
    linarith

/-! ## Numbers that read as a double -/

section
variable {v : ℚ} {m : Nat} {e : Int}

/-- A number that reads as a double has the same last place, and rounds to the significand there, or
lies just below a power of two, where the places are half as large. -/
theorem lastPlace_of_nearest (hcanonical : Canonical m e) (hv : 0 < v)
    (h : nearest v = finiteBits m e) :
    lastPlace v = e ∧ halfEven (v / 2 ^ e) = m ∨
      m = 2 ^ 52 ∧ lastPlace v = e - 1 ∧ halfEven (v / 2 ^ (e - 1)) = 2 ^ 53 := by
  have hfinite := hcanonical.finiteBits_lt
  have hplace : -1074 ≤ lastPlace v := le_max_right _ _
  have hupper := halfEven_lastPlace_le hv
  have hlower := le_halfEven_lastPlace hv
  obtain ⟨hleast, -, hbound, hfull⟩ := hcanonical
  rw [nearest, if_neg hv.ne'] at h
  rw [finiteBits] at h hfinite
  have hcases : lastPlace v = e ∧ halfEven (v / 2 ^ lastPlace v) = m ∨
      m = 2 ^ 52 ∧ lastPlace v = e - 1 ∧ halfEven (v / 2 ^ lastPlace v) = 2 ^ 53 := by
    omega
  rcases hcases with ⟨hp, hm⟩ | ⟨hm, hp, hround⟩
  · exact .inl ⟨hp, hp ▸ hm⟩
  · exact .inr ⟨hm, hp, hp ▸ hround⟩

theorem abs_sub_le_of_nearest (hcanonical : Canonical m e) (hv : 0 < v)
    (h : nearest v = finiteBits m e) : |v - m * 2 ^ e| ≤ 2 ^ e / 2 := by
  have hscaled {n : Nat} {p : Int} (hround : halfEven (v / 2 ^ p) = n) :
      |v - n * 2 ^ p| ≤ 2 ^ p / 2 := by
    have hunit : (0 : ℚ) < 2 ^ p := zpow_pos (by norm_num) p
    have hhalf := abs_sub_halfEven_le (div_pos hv hunit).le
    rw [hround, div_sub' hunit.ne', abs_div, abs_of_pos hunit, div_le_iff₀ hunit] at hhalf
    rw [mul_comm]
    linarith
  rcases lastPlace_of_nearest hcanonical hv h with ⟨-, hround⟩ | ⟨rfl, -, hround⟩
  · exact hscaled hround
  · have hnear := hscaled hround
    have hunit : (0 : ℚ) < 2 ^ e := zpow_pos (by norm_num) e
    have hhalf : (2 : ℚ) ^ (e - 1) = 2 ^ e / 2 := by
      rw [zpow_sub_one₀ (by norm_num), div_eq_mul_inv]
    have hsame : ((2 ^ 53 : Nat) : ℚ) * (2 ^ e / 2) = (2 ^ 52 : Nat) * 2 ^ e := by
      push_cast
      ring
    rw [hhalf, hsame] at hnear
    linarith

theorem le_of_nearest (hcanonical : Canonical m e) (hm : 0 < m) (hv : 0 < v)
    (h : nearest v = finiteBits m e) {w : ℚ} (hw : 0 < w) (h' : nearest w = finiteBits m e) :
    w ≤ 3 * v := by
  have hunit : (2 : ℚ) ^ e ≤ m * 2 ^ e :=
    le_mul_of_one_le_left (zpow_pos (by norm_num) e).le (by exact_mod_cast hm)
  have hlow := (abs_le.mp (abs_sub_le_of_nearest hcanonical hv h)).1
  have hhigh := (abs_le.mp (abs_sub_le_of_nearest hcanonical hw h')).2
  linarith

/-- Around a double that is no power of two, what is no further away than a number that reads as the
double reads as it too. -/
theorem nearest_of_closer (hcanonical : Canonical m e) (hm : 2 ^ 52 < m) (hv : 0 < v)
    (h : nearest v = finiteBits m e) {w : ℚ} (hle : |w - m * 2 ^ e| ≤ |v - m * 2 ^ e|) :
    nearest w = finiteBits m e := by
  have hunit : (0 : ℚ) < 2 ^ e := zpow_pos (by norm_num) e
  have hround : halfEven (v / 2 ^ e) = m := by
    rcases lastPlace_of_nearest hcanonical hv h with ⟨-, hround⟩ | ⟨rfl, -, -⟩
    · exact hround
    · exact absurd hm (lt_irrefl _)
  have hscaled (u : ℚ) : |u / 2 ^ e - m| = |u - m * 2 ^ e| / 2 ^ e := by
    rw [div_sub' hunit.ne', abs_div, abs_of_pos hunit, mul_comm]
  have hnear : |w / 2 ^ e - m| ≤ 1 / 2 := by
    rw [hscaled, div_le_iff₀ hunit]
    linarith [abs_sub_le_of_nearest hcanonical hv h]
  have hlower : (2 : ℚ) ^ (52 : Int) + 1 ≤ m := by exact_mod_cast hm
  have hupper : (m : ℚ) + 1 ≤ 2 ^ (53 : Int) := by exact_mod_cast hcanonical.bound
  have hpower : (0 : ℚ) < 2 ^ (52 : Int) := zpow_pos (by norm_num) _
  obtain ⟨hlow, hhigh⟩ := abs_le.mp hnear
  have hpositive : 0 < w / 2 ^ e := by linarith
  have hw : 0 < w := (div_pos_iff_of_pos_right hunit).mp hpositive
  have hplace : lastPlace w = e := by
    apply lastPlace_eq hw hcanonical.lower
    · rw [zpow_add₀ (by norm_num), mul_comm, ← div_lt_iff₀ hunit]
      linarith
    · right
      rw [zpow_add₀ (by norm_num), mul_comm, ← le_div_iff₀ hunit]
      linarith
  have hround' : halfEven (w / 2 ^ e) = m := by
    refine halfEven_of_closer (div_pos hv hunit).le hpositive.le hround ?_
    rw [hscaled, hscaled]
    exact div_le_div_of_nonneg_right hle hunit.le
  have hfinite := hcanonical.finiteBits_lt
  rw [finiteBits] at hfinite
  rw [nearest, if_neg hw.ne', hplace, hround', min_eq_right hfinite.le, finiteBits]

/-- What reads as a double and is not below 0.0001 shows that the exponent is not far below. -/
theorem exponent_lower_bound (hcanonical : Canonical m e) (hv : 10 ^ (-4 : Int) ≤ v)
    (h : nearest v = finiteBits m e) : -68 < e := by
  have hunit : (0 : ℚ) < 2 ^ e := zpow_pos (by norm_num) e
  have hpos : 0 < v := lt_of_lt_of_le (zpow_pos (by norm_num) _) hv
  have hnear := (abs_le.mp (abs_sub_le_of_nearest hcanonical hpos h)).2
  have hm : (m : ℚ) + 1 ≤ 2 ^ 53 := by exact_mod_cast hcanonical.bound
  have hlt : (2 : ℚ) ^ (-14 : Int) < 2 ^ (e + 54) :=
    calc (2 : ℚ) ^ (-14 : Int) < 10 ^ (-4 : Int) := by norm_num
      _ ≤ v := hv
      _ ≤ (m + 1) * 2 ^ e := by linarith
      _ ≤ 2 ^ 53 * 2 ^ e := mul_le_mul_of_nonneg_right hm hunit.le
      _ < 2 ^ (e + 54) := by
        rw [zpow_add₀ (by norm_num), mul_comm]
        exact mul_lt_mul_of_pos_left (by norm_num) hunit
  have := (zpow_lt_zpow_iff_right₀ (by norm_num)).mp hlt
  omega

/-- A power of two that a decimal reads as is a multiple of the unit of that decimal: the fewer
places it has, the further it would be from the power, if it were not the power itself. -/
theorem exists_units_of_power {units places : Nat}
    (hcanonical : Canonical (2 ^ 52) e) (hv : 10 ^ (-4 : Int) ≤ (units : ℚ) * 10 ^ (-places : Int))
    (h : nearest (units * 10 ^ (-places : Int)) = finiteBits (2 ^ 52) e) :
    ∃ n : Nat, ((2 ^ 52 : Nat) : ℚ) * 2 ^ e / 10 ^ (-places : Int) = n := by
  have hpos : (0 : ℚ) < units * 10 ^ (-places : Int) :=
    lt_of_lt_of_le (zpow_pos (by norm_num) _) hv
  have hpower : ((2 ^ 52 : Nat) : ℚ) * 2 ^ e / 10 ^ (-places : Int) =
      2 ^ (e + 52) * 10 ^ places := by
    rw [zpow_neg, div_inv_eq_mul, zpow_natCast, zpow_add₀ (by norm_num), Nat.cast_pow]
    ring
  rw [hpower]
  by_cases hexponent : -(e + 52) ≤ places
  · -- so many places are enough for every such power
    obtain ⟨k, hk⟩ : ∃ k : Nat, e + 52 + places = k := ⟨(e + 52 + places).toNat, by omega⟩
    refine ⟨2 ^ k * 5 ^ places, ?_⟩
    have hten : (10 : ℚ) ^ places = 2 ^ (places : Int) * 5 ^ places := by
      rw [zpow_natCast, ← mul_pow]
      norm_num
    rw [hten, ← mul_assoc, ← zpow_add₀ (by norm_num), hk]
    push_cast
    rw [zpow_natCast]
  · -- with fewer places the decimal is the power
    obtain ⟨i, hi⟩ : ∃ i : Nat, e = -(i : Int) - 52 := ⟨(-(e + 52)).toNat, by omega⟩
    have hlow := exponent_lower_bound hcanonical hv h
    have hplaces : (10 : ℚ) ^ places ≤ 10 ^ 14 := pow_le_pow_right₀ (by norm_num) (by omega)
    have hnear := abs_sub_le_of_nearest hcanonical hpos h
    have htwo : (0 : ℚ) < 2 ^ i := pow_pos (by norm_num) i
    have hunit : (2 : ℚ) ^ e = 1 / (2 ^ i * 2 ^ 52) := by
      rw [hi, sub_eq_add_neg, zpow_add₀ (by norm_num), zpow_neg, zpow_natCast, one_div, mul_inv]
      norm_num
    have hdistance : |(units : ℚ) * 2 ^ i - 10 ^ places| < 1 := by
      have hten : (0 : ℚ) < 10 ^ places := pow_pos (by norm_num) places
      have hfactor : (units : ℚ) * 2 ^ i - 10 ^ places =
          (units * 10 ^ (-places : Int) - (2 ^ 52 : Nat) * 2 ^ e) * (2 ^ i * 10 ^ places) := by
        rw [hunit, zpow_neg, zpow_natCast]
        push_cast
        field_simp
        ring
      rw [hfactor, abs_mul, abs_of_pos (mul_pos htwo hten)]
      calc _ ≤ 2 ^ e / 2 * (2 ^ i * 10 ^ places) :=
            mul_le_mul_of_nonneg_right hnear (mul_pos htwo hten).le
        _ = 10 ^ places / 2 ^ 53 := by
            rw [hunit]
            field_simp
        _ < 1 := by
            rw [div_lt_one (by norm_num)]
            exact hplaces.trans_lt (by norm_num)
    have hsame : units * 2 ^ i = 10 ^ places := by
      have hint : |((units * 2 ^ i : Nat) : Int) - (10 ^ places : Nat)| < 1 := by
        exact_mod_cast hdistance
      have := abs_lt.mp hint
      omega
    refine ⟨units, ?_⟩
    have hten : (10 : ℚ) ^ places = units * 2 ^ i := by exact_mod_cast hsame.symm
    rw [hten, mul_left_comm, hi, sub_add_cancel, zpow_neg, zpow_natCast,
      inv_mul_cancel₀ htwo.ne', mul_one]

/-- Rounded to as many places as a decimal has that reads as the double, a double from 0.0001 on
reads back. -/
theorem nearest_rounded {units places : Nat} (hcanonical : Canonical m e)
    (hv : 10 ^ (-4 : Int) ≤ (units : ℚ) * 10 ^ (-places : Int))
    (h : nearest (units * 10 ^ (-places : Int)) = finiteBits m e) :
    nearest (halfEven ((m : ℚ) * 2 ^ e / 10 ^ (-places : Int)) * 10 ^ (-places : Int)) =
      finiteBits m e := by
  have hplace : (0 : ℚ) < 10 ^ (-places : Int) := zpow_pos (by norm_num) _
  have hlow := exponent_lower_bound hcanonical hv h
  have hlead : 2 ^ 52 ≤ m := hcanonical.full.resolve_left (by omega)
  rcases hlead.eq_or_lt with rfl | hm
  · obtain ⟨n, hn⟩ := exists_units_of_power hcanonical hv h
    rw [hn, halfEven_natCast, ← hn, div_mul_cancel₀ _ hplace.ne']
    exact nearest_exact hcanonical
  · have hpos : (0 : ℚ) < units * 10 ^ (-places : Int) :=
      lt_of_lt_of_le (zpow_pos (by norm_num) _) hv
    refine nearest_of_closer hcanonical hm hpos h ?_
    have hscaled (n : Nat) : |(n : ℚ) * 10 ^ (-places : Int) - m * 2 ^ e| =
        |(m : ℚ) * 2 ^ e / 10 ^ (-places : Int) - n| * 10 ^ (-places : Int) := by
      rw [div_sub' hplace.ne', abs_div, abs_of_pos hplace, div_mul_cancel₀ _ hplace.ne',
        abs_sub_comm, mul_comm (n : ℚ)]
    rw [hscaled, hscaled]
    exact mul_le_mul_of_nonneg_right
      (abs_sub_halfEven_le_abs_sub (div_nonneg (mul_two_zpow_nonneg m e) hplace.le) units)
      hplace.le

/-! ## The fewest digits -/

theorem Scientific.ReadsBack.trimZeros {s : Scientific} {bits : Nat} (h : s.ReadsBack bits) :
    s.trimZeros.ReadsBack bits := by
  have hdigits := (Scientific.HasDigits.mk h.digits h.ne_nil).trimZeros
  have hexponent := s.digits_trimZeros.1
  constructor
  · exact hdigits.digits
  · exact hdigits.ne_nil
  · rw [s.value_trimZeros, h.nearest]
  · rw [hexponent]
    exact h.lower
  · rw [hexponent]
    exact h.upper

/-- The exponent of the fewest digits of a double is the one of their number. -/
theorem exists_shortest_denotes (h : Canonical m e) (hm : 0 < m) :
    ∃ v, 0 < v ∧ (shortest m e).Denotes v := by
  obtain ⟨n, place, hbits, hshortest⟩ :=
    Ratio.shortest_eq h hm (den_magnitude_pos m e) (value_magnitude m e)
  rw [Ratio.nearestBits_eq (Ratio.den_scaled_pos (by decide) n place),
    Ratio.value_scaled (by decide)] at hbits
  have hn : n ≠ 0 := by
    rintro rfl
    rw [Nat.cast_zero, zero_mul, finiteBits] at hbits
    have hzero : nearest 0 = 0 := rfl
    omega
  rw [shortest, nearestBits_magnitude h, hshortest]
  exact ⟨_, mul_pos (Nat.cast_pos.mpr (Nat.pos_of_ne_zero hn)) (zpow_pos (by norm_num) place),
    (Scientific.denotes_ofUnits hn place).trimZeros⟩

end

end TclHost.Double
