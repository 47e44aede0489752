import TclHost.Proofs.Double.Integral
import TclHost.Proofs.Expr.IntegerPower
/-! # Integers from doubles

The functions that make an integer of a double refuse what is not a finite number.  Of a finite one
they give the integer that is meant if 64 bits hold it, and otherwise the end of the range that is
nearest to it, where an integer that is too large to represent calls for an error.
-/
namespace TclHost.Expr

theorem toInt_clampToInt64 (n : Int) :
    (Double.clampToInt64 n).toInt = max (-2 ^ 63) (min (2 ^ 63 - 1) n) :=
  Int64.toInt_ofInt_of_le (by omega) (by omega)

theorem toInt_clampToInt64_eq_iff (n : Int) :
    (Double.clampToInt64 n).toInt = n ↔ -2 ^ 63 ≤ n ∧ n < 2 ^ 63 := by
  rw [toInt_clampToInt64]
  omega

theorem towardZero_withSign (negative : Bool) {v : ℚ} (hv : 0 ≤ v) :
    towardZero (Double.withSign negative v) = Double.withSign negative ⌊v⌋ := by
  cases negative with
  | false => exact if_pos hv
  | true =>
    rw [Double.withSign, Double.withSign, if_pos rfl, if_pos rfl]
    rcases hv.eq_or_lt with rfl | hpos
    · norm_num [towardZero]
    · rw [towardZero, if_neg (by linarith), Int.ceil_neg]

theorem toInteger_of_rational? {x : Float} {q : ℚ} (h : Double.rational? x = some q) :
    toInteger x = .ok (Double.clampToInt64 (towardZero q)) := by
  obtain ⟨negative, m, e, hdatum, -, rfl⟩ := Double.exists_datum_of_rational? h
  rw [towardZero_withSign negative (Double.mul_two_zpow_nonneg m e), toInteger, hdatum,
    Double.truncate?_of_datum hdatum, Option.getD_some]

theorem exists_toInteger_error {x : Float} (h : Double.rational? x = none) :
    ∃ text, toInteger x = .error (.tooLarge text) := by
  rw [Double.rational?] at h
  rw [toInteger]
  split
  · exact ⟨_, rfl⟩
  · exact ⟨_, rfl⟩
  · next hdatum =>
    rw [hdatum] at h
    cases h

theorem int_of_rational? {x : Float} {q : ℚ} (h : Double.rational? x = some q) :
    applyFunction "int" [.float x] = .ok (.int (Double.clampToInt64 (towardZero q))) := by
  have hint : applyFunction "int" [.float x] = (toInteger x).map Value.int := rfl
  rw [hint, toInteger_of_rational? h]
  rfl

theorem round_of_rational? {x : Float} {q : ℚ} (h : Double.rational? x = some q) :
    applyFunction "round" [.float x] = .ok (.int (Double.clampToInt64 (Double.nearestAway q))) := by
  have hround : applyFunction "round" [.float x] = (toInteger (Double.round x)).map Value.int := rfl
  rw [hround, toInteger_of_rational? (Double.rational?_round h), towardZero_intCast]
  rfl

/-- What a function from doubles to integers gives: it refuses what is not a finite number, and the
integer that is meant by a finite one is cut off at the ends of the 64-bit range, so that it comes
out exactly if it lies in that range. -/
def Saturates (meant : ℚ → Int) (x : Float) (result : Except OperatorError Value) : Prop :=
  match Double.rational? x with
  | none => ∃ text, result = .error (.tooLarge text)
  | some q => ∃ n : Int64, result = .ok (.int n) ∧
      n.toInt = max (-2 ^ 63) (min (2 ^ 63 - 1) (meant q)) ∧
      (n.toInt = meant q ↔ -2 ^ 63 ≤ meant q ∧ meant q < 2 ^ 63)

theorem saturates_clampToInt64 (meant : ℚ → Int) {x : Float} {q : ℚ}
    (h : Double.rational? x = some q) :
    Saturates meant x (.ok (.int (Double.clampToInt64 (meant q)))) := by
  rw [Saturates, h]
  exact ⟨_, rfl, toInt_clampToInt64 _, toInt_clampToInt64_eq_iff _⟩

/-- The integer part and the nearest integer of a double never wrap around, but only doubles that
are not finite are refused: an integer that 64 bits do not hold becomes the end of the range. -/
theorem integer_functions_saturate (x : Float) :
    Saturates towardZero x (applyFunction "int" [.float x]) ∧
      Saturates Double.nearestAway x (applyFunction "round" [.float x]) := by
  cases hx : Double.rational? x with
  | none =>
    obtain ⟨text, htext⟩ := exists_toInteger_error hx
    have hint : applyFunction "int" [.float x] = .error (.tooLarge text) :=
      congrArg (Except.map Value.int) htext
    -- what is not a finite number is not changed by rounding
    have hround : applyFunction "round" [.float x] = .error (.tooLarge text) := by
      rw [← Double.round_of_rational?_eq_none hx] at htext
      exact congrArg (Except.map Value.int) htext
    rw [Saturates, Saturates, hx]
    exact ⟨⟨text, hint⟩, ⟨text, hround⟩⟩
  | some q =>
    rw [int_of_rational? hx, round_of_rational? hx]
    exact ⟨saturates_clampToInt64 _ hx, saturates_clampToInt64 _ hx⟩

/-- The double 10^19 is an integer beyond the range, and is not refused. -/
theorem integer_functions_ten_pow_nineteen :
    Double.rational? (Double.ofInt (10 ^ 19)) = some (10 ^ 19) ∧
      applyFunction "int" [.float (Double.ofInt (10 ^ 19))] = .ok (.int 9223372036854775807) ∧
      applyFunction "round" [.float (Double.ofInt (10 ^ 19))] = .ok (.int 9223372036854775807) := by
  have hdatum : Double.datum (Double.ofInt (10 ^ 19)) = .finite false 4882812500000000 11 := by
    decide +kernel
  have hx : Double.rational? (Double.ofInt (10 ^ 19)) = some (10 ^ 19) := by
    rw [Double.rational?_of_datum hdatum, Double.withSign]
    norm_num
  have hint : towardZero (10 ^ 19) = 10 ^ 19 := by norm_num [towardZero]
  have hround : Double.nearestAway (10 ^ 19) = 10 ^ 19 := by norm_num [Double.nearestAway]
  have hclamp : Double.clampToInt64 (10 ^ 19) = 9223372036854775807 := by decide
  rw [int_of_rational? hx, round_of_rational? hx, hint, hround, hclamp]
  exact ⟨hx, rfl, rfl⟩

end TclHost.Expr
