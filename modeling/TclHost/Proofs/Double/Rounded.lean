import TclHost.Proofs.Double.Numeral
import TclHost.Proofs.Double.Order
import TclHost.Proofs.Double.Shortest
/-! # Rounding to decimal digits

A number rounded to so many significant digits is a whole number of units of the last of them, and
has one digit more where rounding carries into a new one.  Rounding the exact number once more, to a
coarser unit that the rounded number is a multiple of, gives the same: the two are at most a
twentieth of the coarser unit apart.
-/
namespace TclHost.Double

open Text

/-! ## The rounded number -/

/-- A positive number rounded to so many significant decimal digits; of two equally near ones the
even one. -/
def roundSignificant (v : ℚ) (digits : Nat) : ℚ :=
  halfEven (v / 10 ^ (Int.log 10 v - digits + 1)) * 10 ^ (Int.log 10 v - digits + 1)

theorem roundSignificant_succ (v : ℚ) (places : Nat) :
    roundSignificant v (places + 1) =
      halfEven (v / 10 ^ (Int.log 10 v - places)) * 10 ^ (Int.log 10 v - places) := by
  have hplace : Int.log 10 v - (places + 1 : Nat) + 1 = Int.log 10 v - places := by
    push_cast
    ring
  rw [roundSignificant, hplace]

theorem abs_sub_halfEven_le {v : ℚ} (hv : 0 ≤ v) : |v - halfEven v| ≤ 1 / 2 := by
  have hlower := Nat.floor_le hv
  have hupper := Nat.lt_floor_add_one v
  rw [halfEven, abs_le]
  split
  · constructor <;> linarith
  · split
    · push_cast
      constructor <;> linarith
    · split
      · constructor <;> linarith
      · push_cast
        constructor <;> linarith

/-- Rounding to a coarser unit that the rounded number is a multiple of gives that number again. -/
theorem halfEven_of_coarser {v : ℚ} (hv : 0 ≤ v) {fine coarse : Int} (hle : fine ≤ coarse) {n : Nat}
    (h : (halfEven (v / 10 ^ fine) : ℚ) * 10 ^ fine = n * 10 ^ coarse) :
    halfEven (v / 10 ^ coarse) = n := by
  have hfine : (0 : ℚ) < 10 ^ fine := zpow_pos (by norm_num) _
  have hcoarse : (0 : ℚ) < 10 ^ coarse := zpow_pos (by norm_num) _
  -- with the same unit the number may be half a unit off, so the distance decides nothing there
  rcases hle.eq_or_lt with rfl | hlt
  · exact_mod_cast mul_right_cancel₀ hfine.ne' h
  · have hratio : (10 : ℚ) ^ fine / 10 ^ coarse ≤ 1 / 10 := by
      rw [div_le_div_iff₀ hcoarse (by norm_num), one_mul, ← zpow_add_one₀ (by norm_num)]
      exact zpow_le_zpow_right₀ (by norm_num) hlt
    have hdist : v / 10 ^ coarse - n =
        (v / 10 ^ fine - halfEven (v / 10 ^ fine)) * (10 ^ fine / 10 ^ coarse) := by
      rw [sub_mul, div_mul_div_cancel₀ hfine.ne', ← mul_div_assoc, h,
        mul_div_cancel_right₀ _ hcoarse.ne']
    apply halfEven_eq (div_nonneg hv hcoarse.le)
    calc |v / 10 ^ coarse - n|
        = |v / 10 ^ fine - halfEven (v / 10 ^ fine)| * (10 ^ fine / 10 ^ coarse) := by
          rw [hdist, abs_mul, abs_of_pos (div_pos hfine hcoarse)]
      _ ≤ 1 / 2 * (1 / 10) :=
          mul_le_mul (abs_sub_halfEven_le (div_nonneg hv hfine.le)) hratio
            (div_pos hfine hcoarse).le (by norm_num)
      _ < 1 / 2 := by norm_num

/-- Rounded to the place so many digits behind the first, a number has that many digits more, and
another one if rounding carries. -/
theorem halfEven_place_bounds {v : ℚ} (hv : 0 < v) (places : Nat) :
    10 ^ places ≤ halfEven (v / 10 ^ (Int.log 10 v - places)) ∧
      halfEven (v / 10 ^ (Int.log 10 v - places)) ≤ 10 ^ (places + 1) := by
  have hplace : (0 : ℚ) < 10 ^ (Int.log 10 v - places) := zpow_pos (by norm_num) _
  have hlower := Int.zpow_log_le_self (b := 10) (by decide) hv
  have hupper := Int.lt_zpow_succ_log_self (b := 10) (by decide) v
  rw [Nat.cast_ofNat] at hlower hupper
  constructor
  · refine le_halfEven ?_
    rw [le_div_iff₀ hplace, Nat.cast_pow, Nat.cast_ofNat, ← zpow_natCast,
      ← zpow_add₀ (by norm_num), add_sub_cancel]
    exact hlower
  · rw [← halfEven_natCast (10 ^ (places + 1))]
    refine halfEven_mono (div_pos hv hplace).le ?_
    rw [div_le_iff₀ hplace, Nat.cast_pow, Nat.cast_ofNat, ← zpow_natCast,
      ← zpow_add₀ (by norm_num)]
    refine hupper.le.trans (le_of_eq ?_)
    congr 1
    push_cast
    ring

theorem zpow_log_le_roundSignificant {v : ℚ} (hv : 0 < v) (places : Nat) :
    10 ^ Int.log 10 v ≤ roundSignificant v (places + 1) := by
  have hlower : (10 : ℚ) ^ places ≤ halfEven (v / 10 ^ (Int.log 10 v - places)) := by
    exact_mod_cast (halfEven_place_bounds hv places).1
  rw [roundSignificant_succ]
  calc (10 : ℚ) ^ Int.log 10 v = 10 ^ places * 10 ^ (Int.log 10 v - places) := by
        rw [← zpow_natCast, ← zpow_add₀ (by norm_num), add_sub_cancel]
    _ ≤ _ := mul_le_mul_of_nonneg_right hlower (zpow_pos (by norm_num) _).le

theorem roundSignificant_le {v : ℚ} (hv : 0 < v) (places : Nat) :
    roundSignificant v (places + 1) ≤ 10 ^ (Int.log 10 v + 1) := by
  have hupper : (halfEven (v / 10 ^ (Int.log 10 v - places)) : ℚ) ≤ 10 ^ (places + 1) := by
    exact_mod_cast (halfEven_place_bounds hv places).2
  rw [roundSignificant_succ]
  calc _ ≤ (10 : ℚ) ^ (places + 1) * 10 ^ (Int.log 10 v - places) :=
        mul_le_mul_of_nonneg_right hupper (zpow_pos (by norm_num) _).le
    _ = 10 ^ (Int.log 10 v + 1) := by
        rw [← zpow_natCast, ← zpow_add₀ (by norm_num)]
        congr 1
        push_cast
        ring

theorem Canonical.log_bounds {m : Nat} {e : Int} (h : Canonical m e) (hm : 0 < m) :
    -400 ≤ Int.log 10 ((m : ℚ) * 2 ^ e) ∧ Int.log 10 ((m : ℚ) * 2 ^ e) < 400 := by
  have hunit : (0 : ℚ) < 2 ^ e := zpow_pos (by norm_num) e
  have hv : (0 : ℚ) < m * 2 ^ e := mul_pos (Nat.cast_pos.mpr hm) hunit
  constructor
  · apply (Int.zpow_le_iff_le_log (b := 10) (by decide) hv).mp
    calc (10 : ℚ) ^ (-400 : Int) ≤ 2 ^ (-1075 : Int) := by
          rw [zpow_neg, zpow_neg]
          exact inv_anti₀ (zpow_pos (by norm_num) _) two_pow_le_ten_pow
      _ ≤ 2 ^ e := zpow_le_zpow_right₀ (by norm_num) (le_trans (by norm_num) h.lower)
      _ ≤ m * 2 ^ e := le_mul_of_one_le_left hunit.le (by exact_mod_cast hm)
  · apply (Int.lt_zpow_iff_log_lt (b := 10) (by decide) hv).mp
    have hm' : (m : ℚ) < 2 ^ (53 : Int) := by exact_mod_cast h.bound
    calc (m : ℚ) * 2 ^ e < 2 ^ (53 : Int) * 2 ^ e := mul_lt_mul_of_pos_right hm' hunit
      _ = 2 ^ (53 + e) := (zpow_add₀ (by norm_num) _ _).symm
      _ ≤ 2 ^ (1075 : Int) := by
          have := h.upper
          exact zpow_le_zpow_right₀ (by norm_num) (by omega)
      _ ≤ 10 ^ (400 : Int) := two_pow_le_ten_pow

/-! ## Scientific notation -/

/-- Scientific notation with at least one digit and nothing but digits. -/
structure Scientific.HasDigits (s : Scientific) : Prop where
  digits : ∀ d ∈ s.digits, isAsciiDigit d = true
  ne_nil : s.digits ≠ []

theorem Scientific.HasDigits.of_zeros {s t : Scientific} {k : Nat} (h : s.HasDigits)
    (hdigits : s.digits = t.digits ++ List.replicate k '0') (hne : t.digits ≠ []) :
    t.HasDigits := by
  refine ⟨fun d hd => h.digits d ?_, hne⟩
  rw [hdigits]
  exact List.mem_append_left _ hd

theorem Scientific.HasDigits.trimZeros {s : Scientific} (h : s.HasDigits) :
    s.trimZeros.HasDigits := by
  obtain ⟨-, hne, k, hdigits⟩ := s.digits_trimZeros
  exact h.of_zeros hdigits (hne h.ne_nil)

theorem Scientific.hasDigits_ofUnits (n : Nat) (e : Int) : (ofUnits n e).HasDigits := by
  constructor
  · rw [digits_ofUnits]
    exact fun d hd => isAsciiDigit_of_mem_toDigits hd
  · rw [digits_ofUnits]
    exact Nat.toDigits_ne_nil

theorem Ratio.hasDigits_toScientific (r : Ratio) (places : Nat) :
    (r.toScientific places).HasDigits := by
  rw [toScientific]
  split
  · exact ⟨isAsciiDigit_zeros _, by simp⟩
  · have hunits := Scientific.hasDigits_ofUnits
      (r.divPow 10 (r.decimalExponent - places)).round (r.decimalExponent - places)
    exact ⟨fun d hd => hunits.digits d (List.mem_of_mem_take hd), by simp [hunits.ne_nil]⟩

structure Scientific.Denotes (s : Scientific) (v : ℚ) : Prop extends s.HasDigits where
  value : s.value = v
  exponent : s.exponent = Int.log 10 v

theorem Scientific.denotes_ofUnits {n : Nat} (hn : n ≠ 0) (e : Int) :
    (ofUnits n e).Denotes (n * 10 ^ e) := by
  have hpos : (0 : ℚ) < n * 10 ^ e :=
    mul_pos (Nat.cast_pos.mpr (Nat.pos_of_ne_zero hn)) (zpow_pos (by norm_num) e)
  obtain ⟨hlower, hupper⟩ := value_bounds hn e
  have hlog := (Int.zpow_le_iff_le_log (b := 10) (by decide) hpos).mp hlower
  have hlog' := (Int.lt_zpow_iff_log_lt (b := 10) (by decide) hpos).mp hupper
  constructor
  · exact hasDigits_ofUnits n e
  · exact value_ofUnits n e
  · omega

theorem Scientific.Denotes.of_zeros {s t : Scientific} {v : ℚ} {k : Nat} (h : s.Denotes v)
    (hexponent : t.exponent = s.exponent) (hdigits : s.digits = t.digits ++ List.replicate k '0')
    (hne : t.digits ≠ []) : t.Denotes v := by
  constructor
  · exact h.toHasDigits.of_zeros hdigits hne
  · rw [← h.value, value_zeros hexponent hdigits]
  · rw [hexponent, h.exponent]

theorem Scientific.Denotes.trimZeros {s : Scientific} {v : ℚ} (h : s.Denotes v) :
    s.trimZeros.Denotes v := by
  obtain ⟨hexponent, hne, k, hdigits⟩ := s.digits_trimZeros
  exact h.of_zeros hexponent hdigits (hne h.ne_nil)

/-- A number up to a power of ten has as many digits as its exponent says, and a zero behind them
if it is that power. -/
theorem toDigits_eq_take {n places : Nat} (hlower : 10 ^ places ≤ n)
    (hupper : n ≤ 10 ^ (places + 1)) :
    ∃ k, Nat.toDigits 10 n = (Nat.toDigits 10 n).take (places + 1) ++ List.replicate k '0' := by
  have hlength (n : Nat) (h : n < 10 ^ (places + 1)) : (Nat.toDigits 10 n).length ≤ places + 1 :=
    (Nat.length_toDigits_le_iff (by decide) (Nat.succ_pos _)).mpr h
  rcases hupper.eq_or_lt with rfl | hlt
  · -- the digits of a power of ten are those of the power below and a zero
    have hten : 10 ≤ 10 ^ (places + 1) := Nat.le_self_pow (Nat.succ_ne_zero _) 10
    have hdigits : Nat.toDigits 10 (10 ^ (places + 1)) =
        Nat.toDigits 10 (10 ^ places) ++ ['0'] := by
      rw [Nat.toDigits_of_base_le (by decide) hten, Nat.pow_succ, Nat.mul_div_cancel _ (by decide),
        Nat.mul_mod_left]
      rfl
    have hone : (Nat.toDigits 10 (10 ^ places)).length = places + 1 := by
      apply Nat.le_antisymm (hlength _ (Nat.pow_lt_pow_right (by decide) (Nat.lt_succ_self _)))
      by_contra hshort
      have hpos : 0 < places := by
        have := Nat.length_toDigits_pos (b := 10) (n := 10 ^ places)
        omega
      have := (Nat.length_toDigits_le_iff (b := 10) (n := 10 ^ places) (by decide) hpos).mp
        (by omega)
      omega
    refine ⟨1, ?_⟩
    rw [hdigits, List.take_left' hone]
    rfl
  · refine ⟨0, ?_⟩
    rw [List.take_of_length_le (hlength n hlt), List.replicate_zero, List.append_nil]

namespace Ratio

variable {r : Ratio}

/-- Scientific notation with so many digits behind the first denotes the rounded number. -/
theorem toScientific_denotes (hden : 0 < r.den) (hnum : r.num ≠ 0) (places : Nat) :
    (r.toScientific places).Denotes (roundSignificant r.value (places + 1)) := by
  have hv := value_pos hden hnum
  obtain ⟨hlower, hupper⟩ := halfEven_place_bounds hv places
  have hunits : (r.divPow 10 (r.decimalExponent - places)).round =
      halfEven (r.value / 10 ^ (Int.log 10 r.value - places)) := by
    rw [round_eq (den_divPow_pos hden (by decide) _), value_divPow (by decide),
      decimalExponent_eq hden hnum, Nat.cast_ofNat]
  obtain ⟨k, hdigits⟩ := toDigits_eq_take hlower hupper
  have hdenotes := Scientific.denotes_ofUnits
    (Nat.ne_of_gt (Nat.lt_of_lt_of_le (Nat.pow_pos (by decide)) hlower))
    (Int.log 10 r.value - places)
  rw [← roundSignificant_succ] at hdenotes
  rw [toScientific, if_neg hnum]
  dsimp only
  rw [hunits, decimalExponent_eq hden hnum]
  refine hdenotes.of_zeros (k := k) (by rfl) ?_ ?_
  · simpa only [Scientific.digits_ofUnits] using hdigits
  · simp [Scientific.digits_ofUnits, Nat.toDigits_ne_nil]

theorem length_toScientific_le (r : Ratio) (places : Nat) :
    (r.toScientific places).digits.length ≤ places + 1 := by
  rw [toScientific]
  split
  · simp
  · simp only [List.length_take]
    exact Nat.min_le_left _ _

theorem toFixed_eq (hden : 0 < r.den) (places : Nat) :
    r.toFixed places = fixedDigits (halfEven (r.value / 10 ^ (-places : Int))) places := by
  rw [toFixed, round_eq (den_divPow_pos hden (by decide) _), value_divPow (by decide),
    Nat.cast_ofNat]

end Ratio

theorem ten_dvd_numeral_iff {c : Char} (hc : isAsciiDigit c = true) (front : List Char) :
    10 ∣ numeral 10 (front ++ [c]) ↔ c = '0' := by
  obtain ⟨hlower, hupper⟩ := toNat_of_isAsciiDigit hc
  have hzero : '0'.toNat = 48 := rfl
  have hlast : numeral 10 [c] = c.toNat - '0'.toNat := by
    rw [numeral_cons hc]
    simp [numeral, numeralFrom]
  have hsame : c = '0' ↔ c.toNat = '0'.toNat := Char.toNat_inj.symm
  rw [numeral_append, hlast, hsame, List.length_singleton, Nat.pow_one]
  omega

theorem Scientific.Denotes.not_ten_dvd {s : Scientific} {v : ℚ} (h : s.Denotes v) (hv : v ≠ 0) :
    ¬10 ∣ numeral 10 s.trimZeros.digits := by
  obtain ⟨d, ds, hds⟩ := List.exists_cons_of_ne_nil h.ne_nil
  have hmem : ∀ c ∈ d :: ds, isAsciiDigit c = true := hds ▸ h.digits
  have hvalue := s.value_trimZeros.trans h.value
  have htrim : s.trimZeros.digits = d :: (ds.reverse.dropWhile (· == '0')).reverse := by
    rw [Scientific.trimZeros, hds]
  rw [Scientific.value, htrim] at hvalue
  rw [htrim]
  cases hrest : ds.reverse.dropWhile (· == '0') with
  | nil =>
    -- one digit is left, and it is not zero because the number is not
    rw [hrest, List.reverse_nil] at hvalue
    rw [List.reverse_nil, ← List.nil_append [d], ten_dvd_numeral_iff (hmem d List.mem_cons_self)]
    rintro rfl
    exact hv (hvalue.symm.trans (zero_mul _))
  | cons c cs =>
    have hc : c ∈ ds := by
      have := (List.dropWhile_sublist (· == '0') (l := ds.reverse)).mem
        (hrest ▸ List.mem_cons_self)
      exact List.mem_reverse.mp this
    have hhead := List.head?_dropWhile_not (· == '0') ds.reverse
    rw [hrest] at hhead
    rw [List.reverse_cons, ← List.cons_append,
      ten_dvd_numeral_iff (hmem c (List.mem_cons_of_mem d hc))]
    simpa using hhead

/-- A positive number rounded to so many digits, without the zeros at the end of them. -/
structure Scientific.Rounds (s : Scientific) (v : ℚ) (digits : Nat) : Prop where
  denotes : s.Denotes (roundSignificant v digits)
  length : s.digits.length ≤ digits
  trimmed : ¬10 ∣ numeral 10 s.digits

theorem Ratio.rounds_trimZeros {r : Ratio} (hden : 0 < r.den) (hnum : r.num ≠ 0) (places : Nat) :
    (r.toScientific places).trimZeros.Rounds r.value (places + 1) := by
  have hdenotes := toScientific_denotes hden hnum places
  have hpos := (zpow_pos (by norm_num) _).trans_le
    (zpow_log_le_roundSignificant (value_pos hden hnum) places)
  constructor
  · exact hdenotes.trimZeros
  · obtain ⟨-, -, k, hdigits⟩ := (r.toScientific places).digits_trimZeros
    have hlength := r.length_toScientific_le places
    rw [hdigits, List.length_append] at hlength
    omega
  · exact hdenotes.not_ten_dvd hpos.ne'

/-- The exponent of the rounded number is that of the number, or the next one if rounding
carries. -/
theorem Scientific.Rounds.exponent_bounds {s : Scientific} {v : ℚ} {places : Nat} (hv : 0 < v)
    (h : s.Rounds v (places + 1)) :
    Int.log 10 v ≤ s.exponent ∧ s.exponent ≤ Int.log 10 v + 1 := by
  have hlower := zpow_log_le_roundSignificant hv places
  have hupper := roundSignificant_le hv places
  have hpos := (zpow_pos (by norm_num) _).trans_le hlower
  rw [h.denotes.exponent]
  constructor
  · exact (Int.zpow_le_iff_le_log (b := 10) (by decide) hpos).mp hlower
  · have hlt := hupper.trans_lt (zpow_lt_zpow_right₀ (by norm_num) (Int.lt_succ _))
    exact Int.lt_add_one_iff.mp ((Int.lt_zpow_iff_log_lt (b := 10) (by decide) hpos).mp hlt)

/-! ## Positional notation -/

/-- Units of the last place, written with a point in front of so many places. -/
theorem fixedDigits_eq (units places : Nat) :
    ∃ whole fraction, fixedDigits units places = pointText whole fraction ∧ whole ≠ [] ∧
      fraction.length = places ∧ (∀ c ∈ whole ++ fraction, isAsciiDigit c = true) ∧
      numeral 10 (whole ++ fraction) = units := by
  rw [fixedDigits, decimalDigits_eq]
  generalize hds : List.replicate (places + 1 - (Nat.toDigits 10 units).length) '0' ++
    Nat.toDigits 10 units = ds
  have hlength : places + 1 ≤ ds.length := by
    rw [← hds, List.length_append, List.length_replicate]
    omega
  refine ⟨ds.take (ds.length - places), ds.drop (ds.length - places), ?_, ?_, ?_, ?_, ?_⟩
  · by_cases hplaces : places = 0
    · simp [hplaces, pointText]
    · rw [if_neg hplaces, pointText, if_neg]
      rw [List.drop_eq_nil_iff]
      omega
  · rw [ne_eq, List.take_eq_nil_iff]
    rintro (h | h)
    · omega
    · simp [h] at hlength
  · rw [List.length_drop]
    omega
  · rw [List.take_append_drop, ← hds]
    exact List.forall_mem_append.mpr
      ⟨isAsciiDigit_zeros _, fun c hc => isAsciiDigit_of_mem_toDigits hc⟩
  · rw [List.take_append_drop, ← hds, numeral_replicate_append, numeral_toDigits (by decide)
      (by decide)]

/-- The places behind the point that the digits of scientific notation need. -/
def Scientific.places (s : Scientific) : Nat :=
  (s.digits.length - 1 - s.exponent).toNat

def Scientific.units (s : Scientific) : Nat :=
  numeral 10 s.digits * 10 ^ (s.exponent + 1 - s.digits.length).toNat

theorem Scientific.value_eq_units (s : Scientific) :
    s.value = s.units * 10 ^ (-s.places : Int) := by
  rw [value, units, places]
  push_cast
  rw [mul_assoc, ← zpow_natCast, ← zpow_add₀ (by norm_num)]
  congr 2
  omega

theorem Scientific.units_eq {s : Scientific} (h : s.places ≠ 0) :
    s.units = numeral 10 s.digits := by
  rw [places] at h
  have hfactor : (s.exponent + 1 - s.digits.length).toNat = 0 := by omega
  rw [units, hfactor, Nat.pow_zero, Nat.mul_one]

/-- Rounding to the places that the rounded number needs gives the rounded number again, since the
last of them is not behind the last significant digit. -/
theorem Ratio.toFixed_rounded {r : Ratio} (hden : 0 < r.den) (hnum : r.num ≠ 0) {places : Nat}
    {s : Scientific} (h : s.Rounds r.value (places + 1)) (hbelow : s.exponent ≤ places) :
    r.toFixed s.places = fixedDigits s.units s.places := by
  have hv := value_pos hden hnum
  have hlower := (h.exponent_bounds hv).1
  have hlength := h.length
  have hcoarser : Int.log 10 r.value - places ≤ -(s.places : Int) := by
    rw [Scientific.places]
    omega
  have hsame := h.denotes.value.symm.trans s.value_eq_units
  rw [roundSignificant_succ] at hsame
  rw [toFixed_eq hden, halfEven_of_coarser hv.le hcoarser hsame]

end TclHost.Double
