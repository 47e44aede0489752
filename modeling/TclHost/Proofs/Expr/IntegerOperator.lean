import Mathlib.Data.Rat.Floor
import Mathlib.Tactic.FieldSimp
import Mathlib.Tactic.Linarith
import Mathlib.Tactic.Ring
import TclHost.Expr.Operator
/-! # Operators on integers

Integers are 64 bits wide: what an operator gives is the exact result, read modulo 2^64.  Quotients
are those of the rationals, rounded toward negative infinity, although the machine rounds them
toward zero; the step from the one to the other never leaves the 64 bits.
-/
namespace TclHost.Expr

/-! ### Quotients of integers -/

/-- A quotient is the rounded one if the remainder that goes with it lies between zero and the
divisor. -/
theorem floor_div_eq {x y q r : Int} (hx : x = y * q + r)
    (hr : 0 ≤ r ∧ r < y ∨ y < r ∧ r ≤ 0) : ⌊(x : ℚ) / y⌋ = q := by
  have hy : (y : ℚ) ≠ 0 := Int.cast_ne_zero.mpr (by omega)
  have hquotient : (x : ℚ) / y = q + r / y := by
    rw [hx]
    push_cast
    field_simp
  have hfraction : (0 : ℚ) ≤ r / y ∧ (r : ℚ) / y < 1 := by
    rcases hr with ⟨hlow, hhigh⟩ | ⟨hlow, hhigh⟩
    · have hpos : (0 : ℚ) < y := Int.cast_pos.mpr (by omega)
      exact ⟨div_nonneg (Int.cast_nonneg hlow) hpos.le,
        (div_lt_one hpos).mpr (Int.cast_lt.mpr hhigh)⟩
    · have hneg : (y : ℚ) < 0 := Int.cast_lt_zero.mpr (by omega)
      exact ⟨div_nonneg_of_nonpos (Int.cast_nonpos.mpr hhigh) hneg.le,
        (div_lt_one_of_neg hneg).mpr (Int.cast_lt.mpr hlow)⟩
  rw [hquotient, Int.floor_eq_iff]
  constructor <;> linarith

/-- What the rounded quotient leaves over lies between zero and the divisor. -/
theorem sub_mul_floor_bounds (x : Int) {y : Int} (hy : y ≠ 0) :
    0 ≤ x - y * ⌊(x : ℚ) / y⌋ ∧ x - y * ⌊(x : ℚ) / y⌋ < y ∨
      y < x - y * ⌊(x : ℚ) / y⌋ ∧ x - y * ⌊(x : ℚ) / y⌋ ≤ 0 := by
  have hlow := Int.floor_le ((x : ℚ) / y)
  have hhigh := Int.lt_floor_add_one ((x : ℚ) / y)
  generalize ⌊(x : ℚ) / y⌋ = q at hlow hhigh ⊢
  rcases Int.lt_or_gt_of_ne hy with h | h
  · have hneg : (y : ℚ) < 0 := Int.cast_lt_zero.mpr h
    rw [le_div_iff_of_neg hneg] at hlow
    rw [div_lt_iff_of_neg hneg] at hhigh
    have hlow : x ≤ q * y := by exact_mod_cast hlow
    have hhigh : (q + 1) * y < x := by exact_mod_cast hhigh
    right
    constructor <;> linarith
  · have hpos : (0 : ℚ) < y := Int.cast_pos.mpr h
    rw [le_div_iff₀ hpos] at hlow
    rw [div_lt_iff₀ hpos] at hhigh
    have hlow : q * y ≤ x := by exact_mod_cast hlow
    have hhigh : x < (q + 1) * y := by exact_mod_cast hhigh
    left
    constructor <;> linarith

/-- What is left over by the quotient that is rounded toward zero goes with the dividend, and is
smaller than the divisor. -/
theorem tmod_facts {x y : Int} (hy : y ≠ 0) :
    x = y * x.tdiv y + x.tmod y ∧ (x.tmod y).natAbs < y.natAbs ∧
      (0 ≤ x → 0 ≤ x.tmod y) ∧ (x ≤ 0 → x.tmod y ≤ 0) := by
  refine ⟨(Int.mul_tdiv_add_tmod x y).symm, ?_, fun h => Int.tmod_nonneg y h, fun h => ?_⟩
  · rw [Int.natAbs_tmod]
    exact Nat.mod_lt _ (Int.natAbs_pos.mpr hy)
  · have hneg := Int.tmod_nonneg y (Int.neg_nonneg_of_nonpos h)
    rw [Int.neg_tmod] at hneg
    omega

/-! ### Quotients of 64-bit integers -/

variable {a b : Int64}

theorem toInt_ne_zero (h : b ≠ 0) : b.toInt ≠ 0 := fun hzero =>
  h (Int64.toInt_inj.mp (hzero.trans Int64.toInt_zero.symm))

theorem signsDiffer_eq_true_iff : signsDiffer a b = true ↔ ¬(a.toInt < 0 ↔ b.toInt < 0) := by
  simp [signsDiffer, Int64.lt_iff_toInt_lt]

theorem ofInt_tdiv (a b : Int64) : Int64.ofInt (a.toInt.tdiv b.toInt) = a / b := by
  rw [Int64.ofInt_eq_iff_bmod_eq_toInt, Int64.toInt_div]

/-- Something is left over, so that the quotient stays clear of both ends of the 64 bits. -/
theorem toInt_div_bounds (hrem : a % b ≠ 0) (hb : b ≠ 0) :
    (a / b).toInt = a.toInt.tdiv b.toInt ∧ (a.toInt.tdiv b.toInt).natAbs ≤ 2 ^ 62 := by
  have hmod : a.toInt.tmod b.toInt ≠ 0 := by
    rw [← Int64.toInt_mod]
    exact toInt_ne_zero hrem
  have hdivisor : 2 ≤ b.toInt.natAbs := by
    obtain ⟨-, hlt, -, -⟩ := tmod_facts (x := a.toInt) (toInt_ne_zero hb)
    omega
  have hquotient : (a.toInt.tdiv b.toInt).natAbs ≤ 2 ^ 62 := by
    rw [Int.natAbs_tdiv]
    have hhalf : a.toInt.natAbs / b.toInt.natAbs ≤ a.toInt.natAbs / 2 :=
      Nat.div_le_div_left hdivisor Nat.two_pos
    have hlow := Int64.le_toInt a
    have hhigh := Int64.toInt_lt a
    exact hhalf.trans (by omega)
  refine ⟨?_, hquotient⟩
  rw [Int64.toInt_div, Int.bmod_eq_of_le (by omega) (by omega)]

theorem signsDiffer_mod (hrem : a % b ≠ 0) (hb : b ≠ 0) :
    signsDiffer (a % b) b = signsDiffer a b := by
  have hmod := toInt_ne_zero hrem
  rw [Int64.toInt_mod] at hmod
  obtain ⟨-, -, hnonneg, hnonpos⟩ := tmod_facts (x := a.toInt) (toInt_ne_zero hb)
  rw [Bool.eq_iff_iff, signsDiffer_eq_true_iff, signsDiffer_eq_true_iff, Int64.toInt_mod]
  omega

/-- One below the machine's quotient is within the 64 bits if the quotient is too high. -/
theorem toInt_div_sub_one (hrem : a % b ≠ 0) (hb : b ≠ 0) :
    (a / b - 1).toInt = (a / b).toInt - 1 := by
  obtain ⟨heq, hle⟩ := toInt_div_bounds hrem hb
  rw [Int64.toInt_sub, heq, Int64.toInt_one, Int.bmod_eq_of_le (by omega) (by omega)]

/-- The machine's remainder and a divisor of the other sign add up within the 64 bits. -/
theorem toInt_mod_add (hsigns : signsDiffer (a % b) b = true) :
    (a % b + b).toInt = (a % b).toInt + b.toInt := by
  rw [signsDiffer_eq_true_iff] at hsigns
  have ha := Int64.le_toInt (a % b)
  have ha' := Int64.toInt_lt (a % b)
  have hb := Int64.le_toInt b
  have hb' := Int64.toInt_lt b
  rw [Int64.toInt_add, Int.bmod_eq_of_le (by omega) (by omega)]

theorem floor_div_toInt (hb : b ≠ 0) :
    ⌊(a.toInt : ℚ) / b.toInt⌋ =
      if a % b != 0 && signsDiffer a b then a.toInt.tdiv b.toInt - 1 else a.toInt.tdiv b.toInt := by
  obtain ⟨hx, hlt, hnonneg, hnonpos⟩ := tmod_facts (x := a.toInt) (toInt_ne_zero hb)
  have hmod : a % b = 0 ↔ a.toInt.tmod b.toInt = 0 := by
    rw [← Int64.toInt_mod, ← Int64.toInt_inj, Int64.toInt_zero]
  have hdiffer := signsDiffer_eq_true_iff (a := a) (b := b)
  split
  · next h =>
    rw [Bool.and_eq_true, bne_iff_ne, ne_eq, hmod, hdiffer] at h
    refine floor_div_eq (r := a.toInt.tmod b.toInt + b.toInt) ?_ (by omega)
    rw [mul_sub]
    omega
  · next h =>
    rw [Bool.and_eq_true, bne_iff_ne, ne_eq, hmod, hdiffer] at h
    exact floor_div_eq hx (by omega)

theorem floorDiv_eq (a b : Int64) :
    floorDiv a b = if b = 0 then .error .divideByZero
      else .ok (Int64.ofInt ⌊(a.toInt : ℚ) / b.toInt⌋) := by
  unfold floorDiv
  split
  · rfl
  · next hb =>
    rw [floor_div_toInt hb]
    split
    · rw [Int64.ofInt_sub, ofInt_tdiv]
      rfl
    · rw [ofInt_tdiv]

/-- The remainder is exact, not only modulo 2^64. -/
theorem exists_floorMod (a : Int64) (hb : b ≠ 0) :
    ∃ r, floorMod a b = .ok r ∧ r.toInt = a.toInt - b.toInt * ⌊(a.toInt : ℚ) / b.toInt⌋ := by
  obtain ⟨hx, -⟩ := tmod_facts (x := a.toInt) (toInt_ne_zero hb)
  have hmod : (a % b).toInt = a.toInt - b.toInt * a.toInt.tdiv b.toInt := by
    rw [Int64.toInt_mod]
    omega
  rw [floorMod, if_neg hb, floor_div_toInt hb]
  dsimp only
  cases hrem : a % b != 0 with
  | false => exact ⟨a % b, rfl, hmod⟩
  | true =>
    rw [signsDiffer_mod (bne_iff_ne.mp hrem) hb]
    cases hsigns : signsDiffer a b with
    | false => exact ⟨a % b, rfl, hmod⟩
    | true =>
      refine ⟨a % b + b, rfl, ?_⟩
      rw [toInt_mod_add (by rw [signsDiffer_mod (bne_iff_ne.mp hrem) hb, hsigns]), hmod]
      simp only [Bool.and_true, if_true]
      ring

/-! ### Shifts -/

theorem toInt_shiftCount (b : Int64) : (shiftCount b).toInt = min b.toInt 63 := by
  change (if b ≤ 63 then b else 63 : Int64).toInt = _
  have h63 : (63 : Int64).toInt = 63 := by decide
  split
  · next h =>
    rw [Int64.le_iff_toInt_le, h63] at h
    exact (min_eq_left h).symm
  · next h =>
    rw [Int64.le_iff_toInt_le, h63] at h
    rw [h63, min_eq_right (by omega)]

/-- The number of places is not negative and smaller than the number of bits, so that reducing it
modulo that number changes nothing. -/
theorem toNat_smod_shiftCount (hb : 0 ≤ b.toInt) :
    ((shiftCount b).toBitVec.smod 64).toNat = min b.toInt.toNat 63 := by
  have hcount := toInt_shiftCount b
  have h64 : (64 : BitVec 64).toInt = 64 := by decide
  have hsmod : ((shiftCount b).toBitVec.smod 64).toInt = min b.toInt 63 := by
    rw [BitVec.toInt_smod, Int64.toInt_toBitVec, hcount, h64,
      Int.fmod_eq_of_lt (by omega) (by omega)]
  rw [BitVec.toInt_eq_toNat_cond] at hsmod
  split at hsmod <;> omega

theorem toInt_shiftRight (a : Int64) (hb : 0 ≤ b.toInt) :
    (a >>> shiftCount b).toInt = a.toInt / 2 ^ min b.toInt.toNat 63 := by
  rw [← Int64.toInt_toBitVec, Int64.toBitVec_shiftRight, BitVec.toInt_sshiftRight',
    toNat_smod_shiftCount hb, Int.shiftRight_eq_div_pow, Int64.toInt_toBitVec]
  norm_num

theorem shiftLeft_eq_ofInt (a : Int64) (hb : 0 ≤ b.toInt) :
    a <<< shiftCount b = Int64.ofInt (a.toInt * 2 ^ min b.toInt.toNat 63) := by
  have htwo (k : Nat) : BitVec.ofInt 64 (2 ^ k) = BitVec.twoPow 64 k := by
    apply BitVec.eq_of_toNat_eq
    rw [show (2 : Int) ^ k = (2 ^ k : Nat) by norm_cast, BitVec.ofInt_natCast, BitVec.toNat_ofNat,
      BitVec.toNat_twoPow]
  apply Int64.toBitVec_inj.mp
  rw [Int64.toBitVec_shiftLeft, Int64.toBitVec_ofInt, BitVec.shiftLeft_eq',
    toNat_smod_shiftCount hb, BitVec.shiftLeft_eq_mul_twoPow, BitVec.ofInt_mul, htwo,
    ← Int64.toInt_toBitVec a, BitVec.ofInt_toInt]

/-- From 63 places on, only the sign is left. -/
theorem div_two_pow_of_le (a : Int64) {n : Nat} (hn : 63 ≤ n) :
    a.toInt / 2 ^ n = a.toInt / 2 ^ 63 := by
  have hpow : (2 : Int) ^ 63 ≤ 2 ^ n := pow_le_pow_right₀ (by decide) hn
  have hlow := Int64.le_toInt a
  have hhigh := Int64.toInt_lt a
  rcases Int.lt_or_le a.toInt 0 with h | h
  · rw [Int.ediv_eq_neg_one_of_neg_of_le h (by omega),
      Int.ediv_eq_neg_one_of_neg_of_le h (by omega)]
  · rw [Int.ediv_eq_zero_of_lt h (by omega), Int.ediv_eq_zero_of_lt h (by omega)]

theorem shiftLeft_eq (a b : Int64) :
    shiftLeft a b = if b < 0 then .error .negativeShift
      else .ok (Int64.ofInt (a.toInt * 2 ^ b.toInt.toNat)) := by
  unfold shiftLeft
  split
  · rfl
  · next hb =>
    rw [Int64.lt_iff_toInt_lt, Int64.toInt_zero, not_lt] at hb
    split
    · next h63 =>
      -- every bit has left the 64 bits
      rw [Int64.lt_iff_toInt_lt, show (63 : Int64).toInt = 63 by decide] at h63
      have hdvd : ((2 ^ 64 : Nat) : Int) ∣ a.toInt * 2 ^ b.toInt.toNat := by
        push_cast
        have hpow : (2 : Int) ^ 64 ∣ 2 ^ b.toInt.toNat := pow_dvd_pow 2 (by omega)
        exact hpow.mul_left _
      rw [(Int64.ofInt_eq_iff_bmod_eq_toInt _ 0).mpr (Int.dvd_iff_bmod_eq_zero.mp hdvd)]
    · next h63 =>
      rw [Int64.lt_iff_toInt_lt, show (63 : Int64).toInt = 63 by decide] at h63
      rw [shiftLeft_eq_ofInt a hb, Nat.min_eq_left (by omega)]

theorem exists_shiftRight (a : Int64) (hb : ¬b < 0) :
    ∃ r, shiftRight a b = .ok r ∧ r.toInt = ⌊(a.toInt : ℚ) / 2 ^ b.toInt.toNat⌋ := by
  refine ⟨a >>> shiftCount b, if_neg hb, ?_⟩
  rw [Int64.lt_iff_toInt_lt, Int64.toInt_zero, not_lt] at hb
  have hfloor : ⌊(a.toInt : ℚ) / 2 ^ b.toInt.toNat⌋ = a.toInt / 2 ^ b.toInt.toNat := by
    exact_mod_cast Rat.floor_intCast_div_natCast a.toInt (2 ^ b.toInt.toNat)
  rw [toInt_shiftRight a hb, hfloor]
  rcases Nat.le_total b.toInt.toNat 63 with h | h
  · rw [Nat.min_eq_left h]
  · rw [Nat.min_eq_right h, div_two_pow_of_le a h]

/-! ### The operators -/

/-- Operators on integers give the exact result modulo 2^64, where the quotient is rounded toward
negative infinity; the remainder and the shift to the right are exact.  Nothing that is worked out
on the way leaves the 64 bits, and the machine shifts by fewer than 64 places. -/
theorem integer_operators_exact (a b : Int64) :
    applyBinary .add (.int a) (.int b) = .ok (.int (.ofInt (a.toInt + b.toInt))) ∧
    applyBinary .sub (.int a) (.int b) = .ok (.int (.ofInt (a.toInt - b.toInt))) ∧
    applyBinary .mul (.int a) (.int b) = .ok (.int (.ofInt (a.toInt * b.toInt))) ∧
    applyBinary .div (.int a) (.int b) = (if b = 0 then .error .divideByZero
      else .ok (.int (.ofInt ⌊(a.toInt : ℚ) / b.toInt⌋))) ∧
    (if b = 0 then applyBinary .rem (.int a) (.int b) = .error .divideByZero
      else ∃ r, applyBinary .rem (.int a) (.int b) = .ok (.int r) ∧
        r.toInt = a.toInt - b.toInt * ⌊(a.toInt : ℚ) / b.toInt⌋ ∧
        r.toInt.natAbs < b.toInt.natAbs ∧ (r = 0 ∨ (r < 0 ↔ b < 0))) ∧
    applyBinary .shiftLeft (.int a) (.int b) = (if b < 0 then .error .negativeShift
      else .ok (.int (.ofInt (a.toInt * 2 ^ b.toInt.toNat)))) ∧
    (if b < 0 then applyBinary .shiftRight (.int a) (.int b) = .error .negativeShift
      else ∃ r, applyBinary .shiftRight (.int a) (.int b) = .ok (.int r) ∧
        r.toInt = ⌊(a.toInt : ℚ) / 2 ^ b.toInt.toNat⌋) ∧
    (b ≠ 0 → a % b ≠ 0 → signsDiffer a b = true → (a / b - 1).toInt = (a / b).toInt - 1) ∧
    (b ≠ 0 → signsDiffer (a % b) b = true → (a % b + b).toInt = (a % b).toInt + b.toInt) ∧
    (0 ≤ b → 0 ≤ (shiftCount b).toInt ∧ (shiftCount b).toInt < 64) := by
  refine ⟨?_, ?_, ?_, ?_, ?_, ?_, ?_, ?_, ?_, ?_⟩
  · change Except.ok (Value.int (a + b)) = _
    rw [Int64.ofInt_add, Int64.ofInt_toInt, Int64.ofInt_toInt]
  · change Except.ok (Value.int (a - b)) = _
    rw [Int64.ofInt_sub, Int64.ofInt_toInt, Int64.ofInt_toInt]
  · change Except.ok (Value.int (a * b)) = _
    rw [Int64.ofInt_mul, Int64.ofInt_toInt, Int64.ofInt_toInt]
  · change (floorDiv a b).map Value.int = _
    rw [floorDiv_eq]
    split <;> rfl
  · have hrem : applyBinary .rem (.int a) (.int b) = (floorMod a b).map Value.int := rfl
    rw [hrem]
    split
    · next hb =>
      rw [floorMod, if_pos hb]
      rfl
    · next hb =>
      obtain ⟨r, hok, hr⟩ := exists_floorMod a hb
      have hbounds := sub_mul_floor_bounds a.toInt (toInt_ne_zero hb)
      rw [← hr] at hbounds
      rw [hok]
      refine ⟨r, rfl, hr, by omega, ?_⟩
      rw [← Int64.toInt_inj, Int64.lt_iff_toInt_lt, Int64.lt_iff_toInt_lt, Int64.toInt_zero]
      omega
  · change (shiftLeft a b).map Value.int = _
    rw [shiftLeft_eq]
    split <;> rfl
  · have hshift : applyBinary .shiftRight (.int a) (.int b) = (shiftRight a b).map Value.int := rfl
    rw [hshift]
    split
    · next hb =>
      rw [shiftRight, if_pos hb]
      rfl
    · next hb =>
      obtain ⟨r, hok, hr⟩ := exists_shiftRight a hb
      rw [hok]
      exact ⟨r, rfl, hr⟩
  · intro hb hrem _
    exact toInt_div_sub_one hrem hb
  · intro _ hsigns
    exact toInt_mod_add hsigns
  · intro hb
    rw [Int64.le_iff_toInt_le, Int64.toInt_zero] at hb
    rw [toInt_shiftCount]
    omega

end TclHost.Expr
