import TclHost.Double.Integral
import TclHost.Proofs.Double.Order
/-! # Rounding doubles to integers

Every integer below 2^53 is a double, and a double with a fraction has an integer part below that.
So the double that rounding gives is the integer that is meant, and not merely one near to it.
-/
namespace TclHost.Double

def rational? (x : Float) : Option ℚ :=
  match datum x with
  | .finite negative m e => some (withSign negative ((m : ℚ) * 2 ^ e))
  | _ => none

theorem rational?_of_datum {x : Float} {negative : Bool} {m : Nat} {e : Int}
    (h : datum x = .finite negative m e) :
    rational? x = some (withSign negative ((m : ℚ) * 2 ^ e)) := by
  rw [rational?, h]

theorem exists_datum_of_rational? {x : Float} {q : ℚ} (h : rational? x = some q) :
    ∃ negative m e, datum x = .finite negative m e ∧ Canonical m e ∧
      q = withSign negative ((m : ℚ) * 2 ^ e) := by
  obtain ⟨hdatum, -⟩ | ⟨negative, hdatum, -⟩ | ⟨negative, m, e, hdatum, hcanonical, -⟩ :=
    datum_cases x
  · rw [rational?, hdatum] at h
    cases h
  · rw [rational?, hdatum] at h
    cases h
  · rw [rational?_of_datum hdatum] at h
    cases h
    exact ⟨negative, m, e, hdatum, hcanonical, rfl⟩

/-! ### Integers among the doubles -/

theorem datum_ofMagnitudeBits (negative : Bool) {m : Nat} {e : Int} (h : Canonical m e) :
    datum (ofMagnitudeBits negative (finiteBits m e)) = .finite negative m e := by
  have hsmall := h.finiteBits_lt
  rw [datum, toNat_toBits_ofMagnitudeBits negative hsmall.le]
  rw [infinityBits] at hsmall
  obtain ⟨hlower, hupper, hbound, hfull⟩ := h
  have hsign : ((if negative then 2 ^ 63 + finiteBits m e else finiteBits m e) / 2 ^ 63 % 2 == 1)
      = negative := by
    cases negative
    · simp only [Bool.false_eq_true, if_false, beq_eq_false_iff_ne]
      omega
    · simp only [if_true, beq_iff_eq]
      omega
  have hbiased : (if negative then 2 ^ 63 + finiteBits m e else finiteBits m e) / 2 ^ 52 % 2 ^ 11
      = finiteBits m e / 2 ^ 52 := by
    split <;> omega
  have hfraction : (if negative then 2 ^ 63 + finiteBits m e else finiteBits m e) % 2 ^ 52
      = finiteBits m e % 2 ^ 52 := by
    split <;> omega
  rw [datumOfBits, hsign, hbiased, hfraction, finiteBits]
  rw [finiteBits] at hsmall
  rw [if_neg (by omega)]
  by_cases hm : m < 2 ^ 52
  · -- a number with fewer bits has the least exponent
    have he : e = -1074 := by omega
    subst he
    rw [if_pos (by omega)]
    congr 1
    omega
  · rw [if_neg (by omega)]
    congr 1 <;> omega

theorem exists_canonical {n : Nat} (h : n < 2 ^ 53) :
    ∃ m e, Canonical m e ∧ (n : ℚ) = m * 2 ^ e := by
  rcases Nat.eq_zero_or_pos n with rfl | hn
  · exact ⟨0, -1074, .zero, by simp⟩
  · have hlog : n.log2 ≤ 52 := Nat.le_of_lt_succ ((Nat.log2_lt hn.ne').mpr h)
    have hsplit : 2 ^ n.log2 * 2 ^ (52 - n.log2) = 2 ^ 52 := by
      rw [← pow_add]
      congr 1
      omega
    refine ⟨n * 2 ^ (52 - n.log2), -(52 - n.log2 : Nat), ⟨by omega, by omega, ?_, .inr ?_⟩, ?_⟩
    · calc n * 2 ^ (52 - n.log2)
          < 2 ^ (n.log2 + 1) * 2 ^ (52 - n.log2) :=
            Nat.mul_lt_mul_of_pos_right Nat.lt_log2_self (Nat.two_pow_pos _)
        _ = 2 ^ 53 := by
          rw [pow_succ, mul_right_comm, hsplit]
          rfl
    · calc 2 ^ 52 = 2 ^ n.log2 * 2 ^ (52 - n.log2) := hsplit.symm
        _ ≤ n * 2 ^ (52 - n.log2) := Nat.mul_le_mul_right _ (Nat.log2_self_le hn.ne')
    · rw [zpow_neg, zpow_natCast, Nat.cast_mul, Nat.cast_pow, Nat.cast_ofNat,
        mul_inv_cancel_right₀ (pow_ne_zero _ two_ne_zero)]

theorem rational?_ofRatio (negative : Bool) {n : Nat} (h : n < 2 ^ 53) :
    rational? (ofRatio negative ⟨n, 1⟩) = some (withSign negative (n : ℚ)) := by
  obtain ⟨m, e, hcanonical, hn⟩ := exists_canonical h
  have hvalue : (⟨n, 1⟩ : Ratio).value = (m : ℚ) * 2 ^ e := by
    rw [← hn]
    exact div_one _
  rw [ofRatio, Ratio.nearestBits_eq Nat.one_pos, hvalue, nearest_exact hcanonical,
    rational?_of_datum (datum_ofMagnitudeBits negative hcanonical), hn]

/-! ### Rounding -/

/-- The integer nearest to a number; of two equally near ones the one that is further from zero. -/
def nearestAway (q : ℚ) : Int :=
  if 0 ≤ q then ⌊q + 1 / 2⌋ else ⌈q - 1 / 2⌉

/-- No integer is nearer, and a half goes away from zero. -/
theorem abs_sub_nearestAway_le (q : ℚ) :
    |q - nearestAway q| ≤ 1 / 2 ∧ (|q - nearestAway q| = 1 / 2 → |q| < |(nearestAway q : ℚ)|) := by
  rw [nearestAway]
  split
  · next hq =>
    have hlow := Int.floor_le (q + 1 / 2)
    have hhigh := Int.lt_floor_add_one (q + 1 / 2)
    refine ⟨abs_le.mpr ⟨by linarith, by linarith⟩, fun htie => ?_⟩
    have hup : (⌊q + 1 / 2⌋ : ℚ) = q + 1 / 2 := by
      rcases abs_cases (q - ⌊q + 1 / 2⌋) with h | h <;> linarith
    rw [hup, abs_of_nonneg hq, abs_of_nonneg (by linarith)]
    linarith
  · next hq =>
    have hlow := Int.ceil_lt_add_one (q - 1 / 2)
    have hhigh := Int.le_ceil (q - 1 / 2)
    refine ⟨abs_le.mpr ⟨by linarith, by linarith⟩, fun htie => ?_⟩
    have hdown : (⌈q - 1 / 2⌉ : ℚ) = q - 1 / 2 := by
      rcases abs_cases (q - ⌈q - 1 / 2⌉) with h | h <;> linarith
    rw [hdown, abs_of_neg (not_le.mp hq), abs_of_neg (by linarith)]
    linarith

theorem cast_withSign (negative : Bool) (n : Int) :
    ((withSign negative n : Int) : ℚ) = withSign negative (n : ℚ) := by
  cases negative
  · rfl
  · exact Int.cast_neg n

theorem nearestAway_withSign (negative : Bool) {v : ℚ} (hv : 0 ≤ v) :
    nearestAway (withSign negative v) = withSign negative ⌊v + 1 / 2⌋ := by
  cases negative with
  | false => exact if_pos hv
  | true =>
    rw [withSign, withSign, if_pos rfl, if_pos rfl]
    rcases hv.eq_or_lt with rfl | hpos
    · norm_num [nearestAway]
    · rw [nearestAway, if_neg (by linarith), ← neg_add', Int.ceil_neg]

/-- Half a unit more carries exactly if the fraction is at least half a unit. -/
theorem floor_div_add_half (m : Nat) {unit : Nat} (h : 0 < unit) :
    ⌊(m : ℚ) / unit + 1 / 2⌋ =
      ((m / unit + if unit ≤ 2 * (m % unit) then 1 else 0 : Nat) : Int) := by
  have hunit : (0 : ℚ) < unit := Nat.cast_pos.mpr h
  have hparts : (m : ℚ) / unit = (m / unit : Nat) + ((m % unit : Nat) : ℚ) / unit := by
    have hm : (m : ℚ) = unit * (m / unit : Nat) + (m % unit : Nat) := by
      exact_mod_cast (Nat.div_add_mod m unit).symm
    field_simp
    linarith
  have hnonneg : (0 : ℚ) ≤ ((m % unit : Nat) : ℚ) / unit :=
    div_nonneg (Nat.cast_nonneg _) hunit.le
  have hlt : ((m % unit : Nat) : ℚ) / unit < 1 :=
    (div_lt_one hunit).mpr (Nat.cast_lt.mpr (Nat.mod_lt m h))
  have hhalf : unit ≤ 2 * (m % unit) ↔ (1 : ℚ) / 2 ≤ ((m % unit : Nat) : ℚ) / unit := by
    rw [div_le_div_iff₀ two_pos hunit, one_mul, mul_comm]
    exact_mod_cast Iff.rfl
  rw [hparts, add_assoc, Int.floor_natCast_add, Nat.cast_add, add_right_inj, Int.floor_eq_iff]
  split
  · next hcarry =>
    rw [hhalf] at hcarry
    constructor <;> push_cast <;> linarith
  · next hcarry =>
    rw [hhalf] at hcarry
    constructor <;> push_cast <;> linarith

/-- The double that rounding gives is the integer nearest to the number. -/
theorem rational?_round {x : Float} {q : ℚ} (h : rational? x = some q) :
    rational? (round x) = some (nearestAway q : ℚ) := by
  obtain ⟨negative, m, e, hdatum, hcanonical, rfl⟩ := exists_datum_of_rational? h
  rw [nearestAway_withSign negative (mul_two_zpow_nonneg m e), cast_withSign]
  by_cases he : 0 ≤ e
  · -- the number is an integer already
    obtain ⟨k, rfl⟩ := Int.eq_ofNat_of_zero_le he
    have hround : round x = x := by
      rw [round, roundBy, hdatum]
      exact if_pos he
    have hinteger : (m : ℚ) * 2 ^ (k : Int) = (m * 2 ^ k : Nat) := by
      push_cast
      rw [zpow_natCast]
    have hfloor : ⌊((m * 2 ^ k : Nat) : ℚ) + 1 / 2⌋ = (m * 2 ^ k : Nat) := by
      rw [Int.floor_natCast_add]
      norm_num
    rw [hround, h, hinteger, hfloor, Int.cast_natCast]
  · have hround : round x = ofRatio negative
        ⟨m / 2 ^ (-e).toNat + if 2 ^ (-e).toNat ≤ 2 * (m % 2 ^ (-e).toNat) then 1 else 0, 1⟩ := by
      simp only [round, roundBy, hdatum, if_neg he, decide_eq_true_iff]
    have hquotient : (m : ℚ) * 2 ^ e = m / (2 ^ (-e).toNat : Nat) := by
      rw [div_eq_mul_inv, Nat.cast_pow, Nat.cast_ofNat, ← zpow_natCast, ← zpow_neg,
        Int.toNat_of_nonneg (by omega), neg_neg]
    have hsmall : m / 2 ^ (-e).toNat +
        (if 2 ^ (-e).toNat ≤ 2 * (m % 2 ^ (-e).toNat) then 1 else 0) < 2 ^ 53 := by
      have hhalved : m / 2 ^ (-e).toNat ≤ m / 2 ^ 1 :=
        Nat.div_le_div_left (Nat.pow_le_pow_right two_pos (by omega)) (Nat.two_pow_pos 1)
      have hbound := hcanonical.bound
      split <;> omega
    rw [hround, rational?_ofRatio negative hsmall, hquotient,
      floor_div_add_half m (Nat.two_pow_pos _), Int.cast_natCast]

theorem round_of_rational?_eq_none {x : Float} (h : rational? x = none) : round x = x := by
  rw [round, roundBy]
  split
  · next hdatum =>
    rw [rational?_of_datum hdatum] at h
    cases h
  · rfl

/-! ### Truncation -/

theorem truncate?_of_datum {x : Float} {negative : Bool} {m : Nat} {e : Int}
    (h : datum x = .finite negative m e) :
    truncate? x = some (withSign negative ⌊(m : ℚ) * 2 ^ e⌋) := by
  have hfloor : ((Ratio.scaled 2 m e).floor : Int) = ⌊(m : ℚ) * 2 ^ e⌋ := by
    rw [Ratio.floor_eq, Ratio.value_scaled two_pos, Nat.cast_ofNat]
    exact Int.natCast_floor_eq_floor (mul_two_zpow_nonneg m e)
  rw [truncate?, h, ← hfloor]
  rfl

end TclHost.Double
