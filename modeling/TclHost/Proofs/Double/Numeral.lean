import TclHost.Proofs.Double.Nearest
import TclHost.Text.Delimited
import TclHost.Value.Basic
/-! # Reading numerals

A decimal numeral is read as the double nearest to its number, whatever its size, and digits around
a point with an exponent behind them are the numeral that one expects.
-/
namespace TclHost.Double

open Text

def Numeral.value (n : Numeral) : ℚ :=
  numeral 10 n.digits * 10 ^ (n.exponent - n.places)

/-- A numeral is read as the double nearest to its number; out of the range in which the digits
are looked at, that is zero or infinity. -/
theorem Numeral.toFloat_eq {n : Numeral} (h : ∀ d ∈ n.digits, isAsciiDigit d = true)
    (negative : Bool) : n.toFloat negative = ofMagnitudeBits negative (nearest n.value) := by
  have hvalue :
      n.value = numeral 10 (n.digits.dropWhile (· == '0')) * 10 ^ (n.exponent - n.places) := by
    rw [value, numeral_dropWhile]
  have hplace : (0 : ℚ) < 10 ^ (n.exponent - n.places) := zpow_pos (by norm_num) _
  rw [toFloat]
  cases hsignificant : n.digits.dropWhile (· == '0') with
  | nil =>
    rw [hsignificant] at hvalue
    have hzero : n.value = 0 := hvalue.trans (zero_mul _)
    rw [hzero]
    rfl
  | cons d ds =>
    rw [hsignificant] at hvalue
    have hmem : ∀ c ∈ d :: ds, isAsciiDigit c = true := fun c hc =>
      h c ((List.dropWhile_sublist _).mem (hsignificant ▸ hc))
    have hd : d ≠ '0' := by
      have hhead := List.head?_dropWhile_not (· == '0') n.digits
      simp [hsignificant] at hhead
      exact hhead
    have hlower : (10 : ℚ) ^ ds.length ≤ numeral 10 (d :: ds) := by
      exact_mod_cast le_numeral (hmem d List.mem_cons_self) hd
    have hupper : (numeral 10 (d :: ds) : ℚ) < 10 ^ (ds.length + 1) := by
      exact_mod_cast numeral_lt hmem
    have hbelow : (10 : ℚ) ^ (ds.length + (n.exponent - n.places)) ≤ n.value := by
      rw [hvalue, zpow_add₀ (by norm_num), zpow_natCast]
      exact mul_le_mul_of_nonneg_right hlower hplace.le
    have habove : n.value < (10 : ℚ) ^ (ds.length + 1 + (n.exponent - n.places)) := by
      rw [hvalue, zpow_add₀ (by norm_num), ← Nat.cast_succ, zpow_natCast]
      exact mul_lt_mul_of_pos_right hupper hplace
    simp only [List.isEmpty_cons, Bool.false_or, decide_eq_true_eq, List.length_cons, Nat.cast_succ]
    split
    · next hsmall =>
      have hzero : nearest n.value = 0 :=
        nearest_eq_zero_of_lt (hbelow.trans' (zpow_pos (by norm_num) _).le)
          (habove.trans_le (zpow_le_zpow_right₀ (by norm_num) (by omega)))
      rw [hzero]
    · split
      · next hlarge =>
        have hinf : nearest n.value = infinityBits :=
          nearest_eq_infinity_of_le ((zpow_le_zpow_right₀ (by norm_num) (by omega)).trans hbelow)
        rw [hinf]
      · rw [ofRatio, Ratio.nearestBits_eq (Ratio.den_scaled_pos (by decide) _ _),
          Ratio.value_scaled (by decide), longNumeral_eq, hvalue]
        rfl

/-! ## Exponents -/

theorem exponentOf_eq {ds : List Char} (h : numeral 10 ds < exponentLimit) :
    exponentOf ds = numeral 10 ds := by
  suffices hall : ∀ (start : Nat) (ds : List Char), numeralFrom 10 start ds < exponentLimit →
      ds.foldl (fun e d => if e < exponentLimit then numeralFrom 10 e [d] else e) start =
        numeralFrom 10 start ds from hall 0 ds h
  intro start ds
  induction ds generalizing start with
  | nil => exact fun _ => rfl
  | cons d ds ih =>
    intro h
    have hstep : numeralFrom 10 start (d :: ds) = numeralFrom 10 (numeralFrom 10 start [d]) ds :=
      rfl
    have hle : start ≤ numeralFrom 10 start (d :: ds) := by
      rw [numeralFrom_eq]
      exact Nat.le_add_right_of_le (Nat.le_mul_of_pos_right start (Nat.pow_pos (by decide)))
    rw [List.foldl_cons, if_pos (Nat.lt_of_le_of_lt hle h), hstep]
    exact ih _ (hstep ▸ h)

theorem readExponent?_exponentText {mark : Char} (hmark : mark = 'e' ∨ mark = 'E') {e : Int}
    (h : e.natAbs < exponentLimit) : readExponent? (mark :: exponentText e) = some e := by
  have hdigits : ∀ d ∈ List.replicate (2 - (Nat.toDigits 10 e.natAbs).length) '0' ++
      Nat.toDigits 10 e.natAbs, isAsciiDigit d = true := by
    intro d hd
    rcases List.mem_append.mp hd with hd | hd
    · exact isAsciiDigit_zeros _ d hd
    · exact isAsciiDigit_of_mem_toDigits hd
  have hnumeral : numeral 10 (List.replicate (2 - (Nat.toDigits 10 e.natAbs).length) '0' ++
      Nat.toDigits 10 e.natAbs) = e.natAbs := by
    rw [numeral_replicate_append, numeral_toDigits (by decide) (by decide)]
  have hexponent := (exponentOf_eq (hnumeral.symm ▸ h)).trans hnumeral
  have hsign : splitSign (exponentText e) = (decide (e < 0),
      List.replicate (2 - (Nat.toDigits 10 e.natAbs).length) '0' ++ Nat.toDigits 10 e.natAbs) := by
    rw [exponentText]
    split <;> simp [splitSign, *]
  rw [readExponent?, if_pos hmark, hsign]
  dsimp only
  rw [hexponent, if_neg]
  · congr 1
    split
    · next hnegative =>
      have hlt : e < 0 := of_decide_eq_true hnegative
      omega
    · next hnegative =>
      have hle : ¬e < 0 := fun hlt => hnegative (decide_eq_true hlt)
      omega
  · simp [Nat.toDigits_ne_nil, List.all_eq_true.mpr hdigits]

/-! ## Numerals -/

section
variable {whole fraction : List Char} (rest : List Char)

theorem readNumeral?_point (hwhole : ∀ d ∈ whole, isAsciiDigit d = true)
    (hfraction : ∀ d ∈ fraction, isAsciiDigit d = true) (hne : whole ≠ [] ∨ fraction ≠ [])
    (hrest : ∀ c ∈ rest.head?, isAsciiDigit c = false) :
    readNumeral? (whole ++ '.' :: (fraction ++ rest)) =
      (readExponent? rest).map fun e => ⟨whole ++ fraction, fraction.length, e⟩ := by
  have hdot : ∀ c ∈ ('.' :: (fraction ++ rest)).head?, isAsciiDigit c = false := by
    simp [isAsciiDigit]
  obtain ⟨hpoint, hpoint'⟩ := span_append hwhole hdot
  obtain ⟨hend, hend'⟩ := span_append hfraction hrest
  rw [readNumeral?]
  simp only [hpoint, hpoint', hend, hend']
  rw [if_neg]
  rcases hne with h | h <;> simp [h]

theorem readNumeral?_whole (hwhole : ∀ d ∈ whole, isAsciiDigit d = true) (hne : whole ≠ [])
    (hrest : ∀ c ∈ rest.head?, isAsciiDigit c = false ∧ c ≠ '.') :
    readNumeral? (whole ++ rest) = (readExponent? rest).map fun e => ⟨whole, 0, e⟩ := by
  obtain ⟨htake, hdrop⟩ := span_append hwhole fun c hc => (hrest c hc).1
  rw [readNumeral?]
  simp only [htake, hdrop]
  split
  · exact absurd rfl (hrest '.' rfl).2
  · rw [if_neg (by simp [hne])]
    simp only [List.append_nil]
    rfl

/-- Digits around a point, which is left out if no digit follows it. -/
def pointText (whole fraction : List Char) : List Char :=
  if fraction = [] then whole else whole ++ '.' :: fraction

theorem mem_pointText {c : Char} (h : c ∈ pointText whole fraction) :
    c = '.' ∨ c ∈ whole ++ fraction := by
  rw [pointText] at h
  split at h
  · exact .inr (List.mem_append_left _ h)
  · simp only [List.mem_append, List.mem_cons] at h ⊢
    tauto

theorem readNumeral?_pointText (hdigits : ∀ d ∈ whole ++ fraction, isAsciiDigit d = true)
    (hne : whole ≠ []) (hrest : ∀ c ∈ rest.head?, isAsciiDigit c = false ∧ c ≠ '.') :
    readNumeral? (pointText whole fraction ++ rest) =
      (readExponent? rest).map fun e => ⟨whole ++ fraction, fraction.length, e⟩ := by
  obtain ⟨hwhole, hfraction⟩ := List.forall_mem_append.mp hdigits
  rw [pointText]
  split
  · next hnil =>
    rw [readNumeral?_whole rest hwhole hne hrest, hnil, List.append_nil]
    rfl
  · rw [List.append_assoc, List.cons_append]
    exact readNumeral?_point rest hwhole hfraction (.inl hne) fun c hc => (hrest c hc).1

end

end TclHost.Double
