import Mathlib.Algebra.Order.Field.Power
import Mathlib.Data.Rat.Floor
import Mathlib.NumberTheory.Multiplicity
import Mathlib.RingTheory.Coprime.Lemmas
import Mathlib.Tactic.Linarith
import Mathlib.Tactic.Ring
import TclHost.Expr.Operator
/-! # Powers of integers

A power with an exponent that is not negative is taken modulo 2^64, but no exponent counts for more
than the largest one that 32 bits hold.  For an even base this makes no difference; for an odd one
it makes none exactly if the square of the base and what is cut off the exponent together hold
enough powers of two.
-/
namespace TclHost.Expr

/-! ### Powers by squaring -/

theorem wrappingPow_ofInt (x : Int) (n : Nat) :
    wrappingPow (Int64.ofInt x) n = Int64.ofInt (x ^ n) := by
  induction n using Nat.strong_induction_on generalizing x with
  | _ n ih =>
    rw [wrappingPow]
    split
    · next hn =>
      rw [hn, pow_zero]
      rfl
    · next hn =>
      have hhalf := ih (n / 2) (by omega) (x * x)
      rw [Int64.ofInt_mul] at hhalf
      rw [hhalf, ← pow_two, ← pow_mul]
      dsimp only
      split
      · rw [← Int64.ofInt_mul, ← pow_succ']
        congr 2
        omega
      · congr 2
        omega

theorem ofInt_eq_ofInt_iff (x y : Int) :
    Int64.ofInt x = Int64.ofInt y ↔ (2 : Int) ^ 64 ∣ x - y := by
  rw [Int64.ofInt_eq_iff_bmod_eq_toInt, Int64.toInt_ofInt]
  change x.bmod (2 ^ 64) = y.bmod (2 ^ 64) ↔ _
  rw [Int.bmod_eq_bmod_iff_bmod_sub_eq_zero, ← Int.dvd_iff_bmod_eq_zero]
  norm_num

/-! ### Exponents that are cut off -/

/-- An odd number to an even exponent is as close to one as its square, and by the powers of two of
the exponent closer. -/
theorem two_pow_dvd_pow_sub_one_iff {x : Int} (hx : ¬2 ∣ x) {n : Nat} (hn : Even n) (k : Nat) :
    2 ^ k ∣ x ^ n - 1 ↔ 2 ^ (k + 1) ∣ (x ^ 2 - 1) * n := by
  have hlift := Int.two_pow_sub_pow (y := 1) (by omega) hx hn
  rw [one_pow, ← emultiplicity_mul Int.prime_two, ← emultiplicity_mul Int.prime_two,
    show (x + 1) * (x - 1) = x ^ 2 - 1 by ring] at hlift
  rw [pow_dvd_iff_le_emultiplicity, pow_dvd_iff_le_emultiplicity, ← hlift, Nat.cast_succ]
  exact (ENat.add_le_add_iff_right ENat.one_ne_top).symm

theorem two_pow_dvd_pow_sub_one_iff_of_odd {x : Int} (hx : ¬2 ∣ x) {n : Nat} (hn : ¬Even n)
    (k : Nat) : 2 ^ k ∣ x ^ n - 1 ↔ 2 ^ k ∣ x - 1 := by
  have hlift := emultiplicity_pow_sub_pow_of_prime Int.prime_two (x := x) (y := 1) (by omega) hx
    (n := n) (by exact_mod_cast fun h => hn (even_iff_two_dvd.mpr h))
  rw [one_pow] at hlift
  rw [pow_dvd_iff_le_emultiplicity, pow_dvd_iff_le_emultiplicity, hlift]

theorem two_pow_dvd_toInt_sub_one_iff (a : Int64) : (2 : Int) ^ 64 ∣ a.toInt - 1 ↔ a = 1 := by
  rw [← ofInt_eq_ofInt_iff, Int64.ofInt_toInt]
  exact Iff.rfl

/-- Two large exponents give the same power modulo 2^64 exactly if the base is even or one, or if
their difference is even and together with the square of the base holds enough powers of two. -/
theorem ofInt_pow_eq_iff (a : Int64) {m n : Nat} (hm : 64 ≤ m) (hmn : m ≤ n) :
    Int64.ofInt (a.toInt ^ m) = Int64.ofInt (a.toInt ^ n) ↔
      2 ∣ a.toInt ∨ a = 1 ∨ 2 ∣ n - m ∧ 2 ^ 65 ∣ (a.toInt ^ 2 - 1) * (n - m : Nat) := by
  rw [eq_comm, ofInt_eq_ofInt_iff]
  by_cases ha : 2 ∣ a.toInt
  · have hpow : (2 : Int) ^ 64 ∣ a.toInt ^ m :=
      (pow_dvd_pow_of_dvd ha 64).trans (pow_dvd_pow _ hm)
    exact iff_of_true (dvd_sub (hpow.trans (pow_dvd_pow _ hmn)) hpow) (.inl ha)
  · have hcoprime : IsCoprime ((2 : Int) ^ 64) (a.toInt ^ m) :=
      IsCoprime.pow ⟨-(a.toInt / 2), 1, by omega⟩
    have hfactor : a.toInt ^ n - a.toInt ^ m = a.toInt ^ m * (a.toInt ^ (n - m) - 1) := by
      rw [mul_sub, mul_one, ← pow_add, Nat.add_sub_cancel' hmn]
    have hcancel : (2 : Int) ^ 64 ∣ a.toInt ^ n - a.toInt ^ m ↔
        2 ^ 64 ∣ a.toInt ^ (n - m) - 1 := by
      rw [hfactor]
      exact ⟨hcoprime.dvd_of_dvd_mul_left, fun h => h.mul_left _⟩
    rw [hcancel]
    by_cases heven : 2 ∣ n - m
    · rw [two_pow_dvd_pow_sub_one_iff ha (even_iff_two_dvd.mpr heven)]
      constructor
      · exact fun h => .inr (.inr ⟨heven, h⟩)
      · rintro (h | rfl | ⟨-, h⟩)
        · exact absurd h ha
        · simp
        · exact h
    · rw [two_pow_dvd_pow_sub_one_iff_of_odd ha (fun h => heven (even_iff_two_dvd.mp h)),
        two_pow_dvd_toInt_sub_one_iff]
      constructor
      · exact fun h => .inr (.inl h)
      · rintro (h | h | ⟨h, -⟩)
        · exact absurd h ha
        · exact h
        · exact absurd h heven

/-! ### Negative exponents -/

/-- A number without its fraction. -/
def towardZero (q : ℚ) : Int :=
  if 0 ≤ q then ⌊q⌋ else ⌈q⌉

theorem towardZero_intCast (n : Int) : towardZero n = n := by
  rw [towardZero, Int.floor_intCast, Int.ceil_intCast, ite_self]

theorem towardZero_eq_zero {q : ℚ} (h : |q| < 1) : towardZero q = 0 := by
  obtain ⟨hlow, hhigh⟩ := abs_lt.mp h
  unfold towardZero
  split
  · next hq => exact Int.floor_eq_zero_iff.mpr ⟨hq, hhigh⟩
  · next hq => exact Int.ceil_eq_zero_iff.mpr ⟨hlow, (not_le.mp hq).le⟩

theorem one_lt_abs_toInt {a : Int64} (h0 : a ≠ 0) (h1 : a ≠ 1) (hminus : a ≠ -1) :
    1 < |(a.toInt : ℚ)| := by
  rw [ne_eq, ← Int64.toInt_inj] at h0 h1 hminus
  rw [Int64.toInt_zero] at h0
  rw [Int64.toInt_one] at h1
  rw [show (-1 : Int64).toInt = -1 by decide] at hminus
  have hnat : 1 < a.toInt.natAbs := by omega
  rw [← Int.cast_abs, Int.abs_eq_natAbs]
  exact_mod_cast hnat

/-- A power with a negative exponent is the one of the rationals without its fraction. -/
theorem exists_intPow_of_neg {a b : Int64} (hb : b < 0) (ha : a ≠ 0) :
    ∃ r, intPow a b = .ok r ∧ r.toInt = towardZero ((a.toInt : ℚ) ^ b.toInt) := by
  rw [intPow, if_pos hb, if_neg ha]
  by_cases hone : a = 1
  · subst hone
    refine ⟨1, if_pos rfl, ?_⟩
    rw [Int64.toInt_one, Int.cast_one, one_zpow]
    exact (towardZero_intCast 1).symm
  rw [if_neg hone]
  by_cases hminus : a = -1
  · subst hminus
    refine ⟨_, if_pos rfl, ?_⟩
    rw [show (-1 : Int64).toInt = -1 by decide, Int.cast_neg, Int.cast_one]
    split
    · next h =>
      rw [Even.neg_one_zpow (Int.even_iff.mpr h)]
      exact (towardZero_intCast 1).symm
    · next h =>
      rw [Odd.neg_one_zpow (Int.odd_iff.mpr (by omega))]
      exact (towardZero_intCast (-1)).symm
  · refine ⟨0, if_neg hminus, ?_⟩
    have hsmall : |(a.toInt : ℚ) ^ b.toInt| < 1 := by
      rw [abs_zpow]
      rw [Int64.lt_iff_toInt_lt, Int64.toInt_zero] at hb
      exact zpow_lt_one_of_neg₀ (one_lt_abs_toInt ha hone hminus) hb
    rw [towardZero_eq_zero hsmall]
    exact Int64.toInt_zero

/-- The power with an exponent that is not negative, whether it was cut off or not. -/
theorem intPow_of_nonneg (a : Int64) {b : Int64} (hb : 0 ≤ b.toInt) :
    intPow a b = .ok (Int64.ofInt (a.toInt ^ min b.toInt.toNat maxExponent)) := by
  have hnonneg : ¬b < 0 := by rwa [Int64.lt_iff_toInt_lt, Int64.toInt_zero, not_lt]
  rw [intPow, if_neg hnonneg, ← wrappingPow_ofInt, Int64.ofInt_toInt]

/-- The power of two integers.  With a negative exponent it is the fraction rounded toward zero,
and there is none for the base zero only.  Otherwise it is the power with the exponent cut off at
the largest one, and so the exact power modulo 2^64 if and only if nothing was cut off, the base is
even or one, or what was cut off is even and makes up for the powers of two that the square of the
base lacks. -/
theorem power_exact_iff (a b : Int64) :
    if b < 0 then
      if a = 0 then applyBinary .pow (.int a) (.int b) = .error .zeroToNegativePower
      else ∃ r, applyBinary .pow (.int a) (.int b) = .ok (.int r) ∧
        r.toInt = towardZero ((a.toInt : ℚ) ^ b.toInt)
    else
      (applyBinary .pow (.int a) (.int b) =
        .ok (.int (.ofInt (a.toInt ^ min b.toInt.toNat maxExponent)))) ∧
      (applyBinary .pow (.int a) (.int b) = .ok (.int (.ofInt (a.toInt ^ b.toInt.toNat))) ↔
        b.toInt ≤ maxExponent ∨ 2 ∣ a.toInt ∨ a = 1 ∨
          2 ∣ b.toInt - maxExponent ∧ 2 ^ 65 ∣ (a.toInt ^ 2 - 1) * (b.toInt - maxExponent)) := by
  have hpow : applyBinary .pow (.int a) (.int b) = (intPow a b).map Value.int := rfl
  rw [hpow]
  split
  · next hb =>
    split
    · next ha =>
      rw [intPow, if_pos hb, if_pos ha]
      rfl
    · next ha =>
      obtain ⟨r, hok, hr⟩ := exists_intPow_of_neg hb ha
      rw [hok]
      exact ⟨r, rfl, hr⟩
  · next hb =>
    rw [Int64.lt_iff_toInt_lt, Int64.toInt_zero, not_lt] at hb
    rw [intPow_of_nonneg a hb]
    refine ⟨rfl, ?_⟩
    have hvalue (x y : Int64) : (Except.ok x : Except OperatorError Int64).map Value.int =
        .ok (.int y) ↔ x = y :=
      ⟨fun h => by cases h; rfl, fun h => by rw [h]; rfl⟩
    rw [hvalue]
    rcases le_or_gt b.toInt maxExponent with hle | hlt
    · rw [Nat.min_eq_left (by omega)]
      exact iff_of_true rfl (.inl hle)
    · have hexcess : ((b.toInt.toNat - maxExponent : Nat) : Int) = b.toInt - maxExponent := by
        omega
      have heven : 2 ∣ b.toInt.toNat - maxExponent ↔ 2 ∣ b.toInt - (maxExponent : Int) := by
        omega
      rw [Nat.min_eq_right (by omega), ofInt_pow_eq_iff a (by decide) (by omega), hexcess, heven]
      exact ⟨.inr, fun h => h.resolve_left (not_le.mpr hlt)⟩

/-- Minus one to the even exponent 2^32 is minus one: the odd exponent below it counts. -/
theorem power_of_minus_one_cut_off :
    applyBinary .pow (.int (-1)) (.int 4294967296) = .ok (.int (-1)) ∧
      Int64.ofInt ((-1 : Int64).toInt ^ (4294967296 : Int64).toInt.toNat) = 1 := by
  have hbase : (-1 : Int64).toInt = -1 := by decide
  have hexponent : (4294967296 : Int64).toInt = 4294967296 := by decide
  have hpow : applyBinary .pow (.int (-1)) (.int 4294967296) =
      (intPow (-1) 4294967296).map Value.int := rfl
  constructor
  · rw [hpow, intPow_of_nonneg _ (by rw [hexponent]; decide), hbase, hexponent,
      Odd.neg_one_pow (Nat.odd_iff.mpr (by decide))]
    rfl
  · rw [hbase, hexponent, Even.neg_one_pow (Nat.even_iff.mpr (by decide))]
    rfl

end TclHost.Expr
