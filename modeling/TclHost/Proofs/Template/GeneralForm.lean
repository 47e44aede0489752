import TclHost.Proofs.Double.Integral
import TclHost.Proofs.Double.Rounded
import TclHost.Proofs.Value.NumberText
import TclHost.Template.Arg
/-! # The general form with a precision

The digits and the exponent of the general form come from one rounding, to significant digits.
Where it is written with the point in place, the number is rounded a second time, to as many places
as those digits need.  The places are never finer than the significant digits, so the second
rounding leaves the number as it is.
-/
namespace TclHost.Template

open Text Double

/-! ## The two layouts -/

def Denotes (text : List Char) (v : ℚ) : Prop :=
  ∃ n, readNumeral? text = some n ∧ n.value = v

/-- Digits around a point; no zero is the last of those behind it. -/
structure PointForm (whole fraction : List Char) : Prop where
  ne_nil : whole ≠ []
  digits : ∀ c ∈ whole ++ fraction, isAsciiDigit c = true
  trimmed : fraction.getLast? ≠ some '0'

def IsExponent (text : List Char) (exponent : Int) : Prop :=
  ∃ power, text = (if exponent < 0 then '-' else '+') :: power ∧ 2 ≤ power.length ∧
    (∀ c ∈ power, isAsciiDigit c = true) ∧ numeral 10 power = exponent.natAbs

def IsPlain (text : List Char) : Prop :=
  ∃ whole fraction, PointForm whole fraction ∧ text = pointText whole fraction

def IsExponential (text : List Char) (upper : Bool) (exponent : Int) : Prop :=
  ∃ first fraction tail, PointForm [first] fraction ∧ IsExponent tail exponent ∧
    text = pointText [first] fraction ++ (if upper then 'E' else 'e') :: tail

theorem isExponent_exponentText (e : Int) : IsExponent (exponentText e) e := by
  refine ⟨_, rfl, ?_, ?_, ?_⟩
  · simp only [List.length_append, List.length_replicate]
    omega
  · exact List.forall_mem_append.mpr
      ⟨isAsciiDigit_zeros _, fun c hc => isAsciiDigit_of_mem_toDigits hc⟩
  · rw [numeral_replicate_append, numeral_toDigits (by decide) (by decide)]

theorem pointForm_of_not_ten_dvd {whole fraction : List Char} (hne : whole ≠ [])
    (hdigits : ∀ c ∈ whole ++ fraction, isAsciiDigit c = true)
    (hten : fraction = [] ∨ ¬10 ∣ numeral 10 (whole ++ fraction)) : PointForm whole fraction := by
  refine ⟨hne, hdigits, fun hlast => ?_⟩
  obtain ⟨front, rfl⟩ := List.getLast?_eq_some_iff.mp hlast
  rcases hten with hnil | hten
  · simp at hnil
  · rw [← List.append_assoc, ten_dvd_numeral_iff rfl] at hten
    exact hten rfl

section
variable {s : Scientific}

theorem isExponential_scientificText (h : s.HasDigits) (hten : ¬10 ∣ numeral 10 s.digits)
    (upper : Bool) : IsExponential (scientificText s upper) upper s.exponent := by
  obtain ⟨d, ds, hds⟩ := List.exists_cons_of_ne_nil h.ne_nil
  have hdigits := h.digits
  rw [hds] at hdigits hten
  refine ⟨d, ds, exponentText s.exponent, ?_, isExponent_exponentText _, ?_⟩
  · exact pointForm_of_not_ten_dvd (List.cons_ne_nil d []) hdigits (.inr hten)
  · rw [scientificText, mantissa_eq_pointText hds]

theorem denotes_scientificText (h : s.HasDigits) (hlimit : s.exponent.natAbs < exponentLimit)
    (upper : Bool) : Denotes (scientificText s upper) s.value := by
  have hmark : (if upper then 'E' else 'e') = 'e' ∨ (if upper then 'E' else 'e') = 'E' := by
    cases upper <;> simp
  obtain ⟨n, hread, -, hvalue⟩ := readNumeral?_scientific hmark h.digits h.ne_nil hlimit
  exact ⟨n, hread, hvalue⟩

end

/-- Units of the last place that are no multiple of ten, or units of one. -/
theorem isPlain_fixedDigits {units places : Nat} (h : places = 0 ∨ ¬10 ∣ units) :
    IsPlain (fixedDigits units places) := by
  obtain ⟨whole, fraction, htext, hne, hlength, hdigits, hunits⟩ := fixedDigits_eq units places
  refine ⟨whole, fraction, pointForm_of_not_ten_dvd hne hdigits ?_, htext⟩
  rw [hunits, ← List.length_eq_zero_iff, hlength]
  exact h

theorem denotes_fixedDigits (units places : Nat) :
    Denotes (fixedDigits units places) (units * 10 ^ (-places : Int)) := by
  obtain ⟨whole, fraction, htext, hne, hlength, hdigits, hunits⟩ := fixedDigits_eq units places
  have hread := readNumeral?_pointText [] hdigits hne (by simp)
  rw [List.append_nil, ← htext] at hread
  refine ⟨_, hread, ?_⟩
  rw [Numeral.value, hunits, hlength, zero_sub]

/-- No text has both layouts: only one of them has a letter. -/
theorem IsPlain.not_isExponential {text : List Char} (h : IsPlain text) (upper : Bool) (e : Int) :
    ¬IsExponential text upper e := by
  obtain ⟨whole, fraction, hform, rfl⟩ := h
  rintro ⟨first, fraction', tail, -, -, htext⟩
  have hmark : (if upper then 'E' else 'e') ∈ pointText whole fraction := by simp [htext]
  rcases mem_pointText hmark with hmem | hmem
  · cases upper <;> cases hmem
  · have hdigit := hform.digits _ hmem
    cases upper <;> cases hdigit

/-! ## The choice between them -/

/-- A positive number written with so many significant digits: the text denotes the rounded number,
and it has an exponent if that of the rounded number is below -4 or not below the number of
digits. -/
structure RoundedForm (text : List Char) (v : ℚ) (digits : Nat) (upper : Bool) : Prop where
  value : Denotes text (roundSignificant v digits)
  exponential_iff : IsExponential text upper (Int.log 10 (roundSignificant v digits)) ↔
    Int.log 10 (roundSignificant v digits) < -4 ∨ digits ≤ Int.log 10 (roundSignificant v digits)
  plain_iff : IsPlain text ↔ ¬(Int.log 10 (roundSignificant v digits) < -4 ∨
    digits ≤ Int.log 10 (roundSignificant v digits))

/-- The threshold that looks at the digits that are left is the one of the precision: the exponent
is not between the two. -/
theorem scientificFrom_le_iff (precision digits : Nat) (exponent : Int) :
    scientificFrom (some precision) digits exponent ≤ exponent ↔
      (max precision 1 : Nat) ≤ exponent := by
  simp only [scientificFrom]
  split <;> omega

section
variable {s : Scientific} {v : ℚ} {digits : Nat}

theorem roundedForm_scientificText (h : s.Rounds v digits)
    (hlimit : s.exponent.natAbs < exponentLimit) (hchoice : s.exponent < -4 ∨ digits ≤ s.exponent)
    (upper : Bool) : RoundedForm (scientificText s upper) v digits upper := by
  have hform := isExponential_scientificText h.denotes.toHasDigits h.trimmed upper
  have hvalue := denotes_scientificText h.denotes.toHasDigits hlimit upper
  rw [h.denotes.exponent] at hform hchoice
  rw [h.denotes.value] at hvalue
  constructor
  · exact hvalue
  · exact iff_of_true hform hchoice
  · exact iff_of_false (fun hplain => hplain.not_isExponential _ _ hform) (not_not_intro hchoice)

theorem roundedForm_fixedDigits (h : s.Rounds v digits)
    (hchoice : ¬(s.exponent < -4 ∨ digits ≤ s.exponent)) (upper : Bool) :
    RoundedForm (fixedDigits s.units s.places) v digits upper := by
  have hplain : IsPlain (fixedDigits s.units s.places) := by
    apply isPlain_fixedDigits
    by_cases hplaces : s.places = 0
    · exact .inl hplaces
    · exact .inr (s.units_eq hplaces ▸ h.trimmed)
  have hvalue := denotes_fixedDigits s.units s.places
  rw [← s.value_eq_units, h.denotes.value] at hvalue
  rw [h.denotes.exponent] at hchoice
  constructor
  · exact hvalue
  · exact iff_of_false (hplain.not_isExponential _ _) hchoice
  · exact iff_of_true hplain hchoice

end

theorem roundedForm_generalMagnitude {m : Nat} {e : Int} (h : Canonical m e) (hm : 0 < m)
    (precision : Nat) (upper : Bool) :
    RoundedForm (generalMagnitude m e (some precision) upper) (m * 2 ^ e) (max precision 1)
      upper := by
  have hden := den_magnitude_pos m e
  have hvalue := value_magnitude m e
  have hv : (0 : ℚ) < m * 2 ^ e := mul_pos (Nat.cast_pos.mpr hm) (zpow_pos (by norm_num) e)
  have hnum : (magnitude m e).num ≠ 0 := fun hzero =>
    hv.ne' (hvalue.symm.trans ((Ratio.value_eq_zero_iff hden).mpr hzero))
  obtain ⟨places, hplaces⟩ : ∃ places, max precision 1 = places + 1 :=
    ⟨max precision 1 - 1, by omega⟩
  have hrounds := Ratio.rounds_trimZeros hden hnum places
  generalize hs : ((magnitude m e).toScientific places).trimZeros = s at hrounds
  have htext : generalMagnitude m e (some precision) upper =
      if s.exponent < -4 ∨ (max precision 1 : Nat) ≤ s.exponent then scientificText s upper
      else (magnitude m e).toFixed s.places := by
    rw [generalMagnitude, if_neg hm.ne']
    simp only [scientificFrom_le_iff]
    rw [hplaces, Nat.add_sub_cancel, hs]
    rfl
  rw [htext, hplaces]
  split
  · next hchoice =>
    rw [hvalue] at hrounds
    have hlimit : s.exponent.natAbs < exponentLimit := by
      obtain ⟨hlower, hupper⟩ := h.log_bounds hm
      obtain ⟨hlower', hupper'⟩ := hrounds.exponent_bounds hv
      rw [exponentLimit]
      omega
    exact roundedForm_scientificText hrounds hlimit hchoice upper
  · next hchoice =>
    -- below the threshold the point does not stand behind the last significant digit
    have hbelow : s.exponent ≤ places := by omega
    rw [Ratio.toFixed_rounded hden hnum hrounds hbelow]
    rw [hvalue] at hrounds
    exact roundedForm_fixedDigits hrounds hchoice upper

/-- The general form of a double other than zero with a precision: behind the sign, the text denotes
the magnitude rounded half to even to so many significant digits, it has no zero at the end of those
behind a point, and it has an exponent only if that of the rounded number asks for one. -/
theorem generalText_rounded {x : Float} {q : ℚ} (hx : rational? x = some q) (hq : q ≠ 0)
    (precision : Nat) (upper : Bool) :
    ∃ body, generalText x (some precision) upper = String.ofList (signed (decide (q < 0)) body) ∧
      RoundedForm body |q| (max precision 1) upper := by
  obtain ⟨negative, m, e, hdatum, hcanonical, rfl⟩ := exists_datum_of_rational? hx
  have hm : m ≠ 0 := by
    rintro rfl
    cases negative <;> simp [withSign] at hq
  have hv : (0 : ℚ) < m * 2 ^ e :=
    mul_pos (Nat.cast_pos.mpr (Nat.pos_of_ne_zero hm)) (zpow_pos (by norm_num) e)
  have hsign : decide (withSign negative ((m : ℚ) * 2 ^ e) < 0) = negative := by
    cases negative
    · simpa [withSign] using hv.le
    · simpa [withSign] using hv
  have habs : |withSign negative ((m : ℚ) * 2 ^ e)| = m * 2 ^ e := by
    cases negative
    · exact abs_of_pos hv
    · exact (abs_neg _).trans (abs_of_pos hv)
  refine ⟨generalMagnitude m e (some precision) upper, ?_, ?_⟩
  · rw [generalText, hdatum, hsign]
    simp [signed, hm]
  · rw [habs]
    exact roundedForm_generalMagnitude hcanonical (Nat.pos_of_ne_zero hm) precision upper

theorem generalText_rounded_threeDigits :
    ∃ body, generalText (ofRatio true ⟨99950, 1⟩) (some 3) false = String.ofList ('-' :: body) ∧
      RoundedForm body 99950 3 false := by
  have hx := rational?_ofRatio true (n := 99950) (by decide)
  have hsign : decide (withSign true ((99950 : Nat) : ℚ) < 0) = true := by norm_num [withSign]
  have habs : |withSign true ((99950 : Nat) : ℚ)| = 99950 := by norm_num [withSign]
  obtain ⟨body, htext, hform⟩ := generalText_rounded hx (by norm_num [withSign]) 3 false
  rw [hsign] at htext
  rw [habs] at hform
  exact ⟨body, htext, hform⟩

end TclHost.Template
