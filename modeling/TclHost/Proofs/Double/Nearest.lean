import Mathlib.Algebra.Order.Floor.Semifield
import Mathlib.Data.Int.Log
import Mathlib.Data.Rat.Floor
import Mathlib.Tactic.Linarith
import Mathlib.Tactic.NormNum
import Mathlib.Tactic.FieldSimp
import Mathlib.Tactic.Ring
import TclHost.Proofs.Double.Bits
/-! # The double nearest to a number

What is worked out on a fraction depends on its value only: the integer part, the rounded integer,
the exponent of the last bit and with it the nearest double.
-/
namespace TclHost.Double

def Ratio.value (r : Ratio) : ℚ :=
  r.num / r.den

/-- The integer nearest to a positive number; of two equally near ones the even one. -/
def halfEven (v : ℚ) : Nat :=
  if 2 * (v - ⌊v⌋₊) < 1 then ⌊v⌋₊
  else if 1 < 2 * (v - ⌊v⌋₊) then ⌊v⌋₊ + 1
  else if ⌊v⌋₊ % 2 = 0 then ⌊v⌋₊ else ⌊v⌋₊ + 1

/-- The exponent of the last bit of the double nearest to a positive number. -/
def lastPlace (v : ℚ) : Int :=
  max (Int.log 2 v - 52) (-1074)

def nearest (v : ℚ) : Nat :=
  if v = 0 then 0
  else min infinityBits ((lastPlace v + 1074).toNat * 2 ^ 52 + halfEven (v / 2 ^ lastPlace v))

namespace Ratio

variable {r : Ratio} {base : Nat}

theorem value_scaled (hbase : 0 < base) (n : Nat) (e : Int) :
    (scaled base n e).value = n * (base : ℚ) ^ e := by
  have hne : (base : ℚ) ≠ 0 := Nat.cast_ne_zero.mpr (Nat.ne_of_gt hbase)
  unfold scaled
  split
  · next h =>
    obtain ⟨k, rfl⟩ : ∃ k : Nat, e = -k := ⟨(-e).toNat, by omega⟩
    simp [value, div_eq_mul_inv]
  · next h =>
    obtain ⟨k, rfl⟩ : ∃ k : Nat, e = k := ⟨e.toNat, by omega⟩
    simp [value]

theorem den_scaled_pos (hbase : 0 < base) (n : Nat) (e : Int) : 0 < (scaled base n e).den := by
  unfold scaled
  split
  · exact Nat.pow_pos hbase
  · exact Nat.one_pos

theorem value_divPow (hbase : 0 < base) (e : Int) :
    (r.divPow base e).value = r.value / (base : ℚ) ^ e := by
  have hne : (base : ℚ) ≠ 0 := Nat.cast_ne_zero.mpr (Nat.ne_of_gt hbase)
  unfold divPow
  split
  · next h =>
    obtain ⟨k, rfl⟩ : ∃ k : Nat, e = -k := ⟨(-e).toNat, by omega⟩
    simp [value, div_eq_mul_inv, mul_right_comm]
  · next h =>
    obtain ⟨k, rfl⟩ : ∃ k : Nat, e = k := ⟨e.toNat, by omega⟩
    simp [value, div_div]

theorem den_divPow_pos (hden : 0 < r.den) (hbase : 0 < base) (e : Int) :
    0 < (r.divPow base e).den := by
  unfold divPow
  split
  · exact hden
  · exact Nat.mul_pos hden (Nat.pow_pos hbase)

theorem floor_eq (r : Ratio) : r.floor = ⌊r.value⌋₊ :=
  (Nat.floor_div_eq_div r.num r.den).symm

theorem value_eq_zero_iff (hden : 0 < r.den) : r.value = 0 ↔ r.num = 0 := by
  simp [value, Nat.ne_of_gt hden]

theorem value_pos (hden : 0 < r.den) (hnum : r.num ≠ 0) : 0 < r.value :=
  div_pos (Nat.cast_pos.mpr (Nat.pos_of_ne_zero hnum)) (Nat.cast_pos.mpr hden)

theorem round_eq (hden : 0 < r.den) : r.round = halfEven r.value := by
  have hd : (0 : ℚ) < r.den := Nat.cast_pos.mpr hden
  have hfraction : r.value - ⌊r.value⌋₊ = (r.num % r.den : Nat) / (r.den : ℚ) := by
    have hdiv : (r.den : ℚ) * r.floor + (r.num % r.den : Nat) = r.num := by
      exact_mod_cast Nat.div_add_mod r.num r.den
    rw [← floor_eq, value, eq_div_iff hd.ne', sub_mul, div_mul_cancel₀ _ hd.ne']
    linarith
  have hlt : 2 * (r.value - ⌊r.value⌋₊) < 1 ↔ 2 * (r.num % r.den) < r.den := by
    rw [hfraction, ← mul_div_assoc, div_lt_one hd]
    exact_mod_cast Iff.rfl
  have hgt : 1 < 2 * (r.value - ⌊r.value⌋₊) ↔ r.den < 2 * (r.num % r.den) := by
    rw [hfraction, ← mul_div_assoc, one_lt_div hd]
    exact_mod_cast Iff.rfl
  rw [halfEven]
  simp only [hlt, hgt]
  rw [← floor_eq]
  rfl

/-- A quotient of two numbers lies between two powers of a base if the numbers do. -/
theorem value_bounds {b : Nat} (hb : 1 < b) {k l : Nat} (hk : b ^ k ≤ r.num)
    (hk' : r.num < b ^ (k + 1)) (hl : b ^ l ≤ r.den) (hl' : r.den < b ^ (l + 1)) :
    (b : ℚ) ^ ((k : Int) - l - 1) ≤ r.value ∧ r.value < (b : ℚ) ^ ((k : Int) - l + 1) := by
  have hbase : (0 : ℚ) < b := Nat.cast_pos.mpr (Nat.lt_trans Nat.zero_lt_one hb)
  have hd : (0 : ℚ) < r.den :=
    Nat.cast_pos.mpr (Nat.lt_of_lt_of_le (Nat.pow_pos (Nat.lt_trans Nat.zero_lt_one hb)) hl)
  have hk₁ : (b : ℚ) ^ k ≤ r.num := by exact_mod_cast hk
  have hk₂ : (r.num : ℚ) < (b : ℚ) ^ (k + 1) := by exact_mod_cast hk'
  have hl₁ : (b : ℚ) ^ l ≤ r.den := by exact_mod_cast hl
  have hl₂ : (r.den : ℚ) < (b : ℚ) ^ (l + 1) := by exact_mod_cast hl'
  constructor
  · rw [value, le_div_iff₀ hd]
    calc (b : ℚ) ^ ((k : Int) - l - 1) * r.den
        ≤ (b : ℚ) ^ ((k : Int) - l - 1) * (b : ℚ) ^ (l + 1) :=
          mul_le_mul_of_nonneg_left hl₂.le (zpow_pos hbase _).le
      _ = (b : ℚ) ^ k := by
        rw [← zpow_natCast, ← zpow_natCast, ← zpow_add₀ hbase.ne']
        congr 1
        push_cast
        ring
      _ ≤ r.num := hk₁
  · rw [value, div_lt_iff₀ hd]
    calc (r.num : ℚ) < (b : ℚ) ^ (k + 1) := hk₂
      _ = (b : ℚ) ^ ((k : Int) - l + 1) * (b : ℚ) ^ l := by
        rw [← zpow_natCast, ← zpow_natCast, ← zpow_add₀ hbase.ne']
        congr 1
        push_cast
        ring
      _ ≤ (b : ℚ) ^ ((k : Int) - l + 1) * r.den :=
        mul_le_mul_of_nonneg_left hl₁ (zpow_pos hbase _).le

theorem floor_divPow_lt_iff {b : Nat} (hb : 1 < b) (hden : 0 < r.den) (hnum : r.num ≠ 0)
    (e : Int) (k : Nat) :
    (r.divPow b e).floor < b ^ k ↔ Int.log b r.value < e + k := by
  have hbase : (0 : ℚ) < b := Nat.cast_pos.mpr (Nat.lt_trans Nat.zero_lt_one hb)
  have hv := value_pos hden hnum
  rw [floor_eq, value_divPow (Nat.lt_trans Nat.zero_lt_one hb),
    Nat.floor_lt (div_nonneg hv.le (zpow_nonneg hbase.le e)),
    ← Int.lt_zpow_iff_log_lt hb hv, div_lt_iff₀ (zpow_pos hbase e), zpow_add₀ hbase.ne',
    Nat.cast_pow, zpow_natCast, mul_comm]

theorem unitExponent_eq (hden : 0 < r.den) (hnum : r.num ≠ 0) :
    r.unitExponent = lastPlace r.value := by
  have hv := value_pos hden hnum
  have hbounds := value_bounds (r := r) (b := 2) (by decide) (Nat.log2_self_le hnum)
    Nat.lt_log2_self (Nat.log2_self_le (Nat.ne_of_gt hden)) Nat.lt_log2_self
  have hlower := (Int.zpow_le_iff_le_log (by decide) hv).mp hbounds.1
  have hupper := (Int.lt_zpow_iff_log_lt (by decide) hv).mp hbounds.2
  have htest (e : Int) : (r.divPow 2 e).floor < 2 ^ 52 ↔ Int.log 2 r.value < e + 52 :=
    floor_divPow_lt_iff (by decide) hden hnum e 52
  rw [unitExponent, lastPlace]
  simp only [htest]
  split <;> omega

theorem nearestBits_eq (hden : 0 < r.den) : r.nearestBits = nearest r.value := by
  rw [nearestBits, nearest]
  by_cases hnum : r.num = 0
  · rw [if_pos hnum, if_pos ((value_eq_zero_iff hden).mpr hnum)]
  · rw [if_neg hnum, if_neg (fun h => hnum ((value_eq_zero_iff hden).mp h))]
    dsimp only
    rw [round_eq (den_divPow_pos hden (by decide) _), value_divPow (by decide),
      unitExponent_eq hden hnum]
    rfl

end Ratio

theorem halfEven_eq {v : ℚ} {n : Nat} (hv : 0 ≤ v) (h : |v - n| < 1 / 2) : halfEven v = n := by
  obtain ⟨hlower, hupper⟩ := abs_lt.mp h
  rcases le_or_gt (n : ℚ) v with hn | hn
  · have hfloor : ⌊v⌋₊ = n := (Nat.floor_eq_iff hv).mpr ⟨hn, by linarith⟩
    rw [halfEven, hfloor, if_pos (by linarith)]
  · obtain ⟨k, rfl⟩ : ∃ k, n = k + 1 := Nat.exists_eq_succ_of_ne_zero (by
      rintro rfl
      exact absurd hv (not_le.mpr (by simpa using hn)))
    rw [Nat.cast_succ] at hlower hn
    have hfloor : ⌊v⌋₊ = k := (Nat.floor_eq_iff hv).mpr ⟨by linarith, hn⟩
    rw [halfEven, hfloor, if_neg (by linarith), if_pos (by linarith)]

theorem lastPlace_eq {v : ℚ} {e : Int} (hv : 0 < v) (hle : -1074 ≤ e) (hlt : v < 2 ^ (e + 53))
    (h : e = -1074 ∨ (2 : ℚ) ^ (e + 52) ≤ v) : lastPlace v = e := by
  have hupper : Int.log 2 v < e + 53 := (Int.lt_zpow_iff_log_lt (by decide) hv).mp hlt
  rw [lastPlace]
  rcases h with rfl | h
  · omega
  · have hlower : e + 52 ≤ Int.log 2 v := (Int.zpow_le_iff_le_log (by decide) hv).mp h
    omega

theorem nearest_of_lastPlace {v : ℚ} {m : Nat} {e : Int} (hv : 0 < v) (he : lastPlace v = e)
    (h : |v / 2 ^ e - m| < 1 / 2) : nearest v = min infinityBits (finiteBits m e) := by
  have hscaled : 0 ≤ v / (2 : ℚ) ^ e := div_nonneg hv.le (zpow_pos (by norm_num) e).le
  rw [nearest, if_neg hv.ne', he, halfEven_eq hscaled h, finiteBits]

/-- A number is read as a double that it is near to: nearer than half a unit of the last place,
and nearer than a quarter where the doubles below lie twice as close. -/
theorem nearest_eq {v : ℚ} {m : Nat} {e : Int} (hcanonical : Canonical m e) (hv : 0 < v)
    (hnear : |v / 2 ^ e - m| < 1 / 2) (hclose : m = 2 ^ 52 → |v / 2 ^ e - m| < 1 / 4) :
    nearest v = finiteBits m e := by
  have hunit : (0 : ℚ) < 2 ^ e := zpow_pos (by norm_num) e
  obtain ⟨hlower, hupper⟩ := abs_lt.mp hnear
  have hscaled (k : Int) : (2 : ℚ) ^ (e + k) = 2 ^ k * 2 ^ e := by
    rw [zpow_add₀ (by norm_num), mul_comm]
  have hm : (m : ℚ) + 1 ≤ 2 ^ (53 : Int) := by exact_mod_cast hcanonical.bound
  have hlt : v < (2 : ℚ) ^ (e + 53) := by
    rw [hscaled, ← div_lt_iff₀ hunit]
    linarith
  by_cases hplace : e = -1074 ∨ (2 : ℚ) ^ (e + 52) ≤ v
  · rw [nearest_of_lastPlace hv (lastPlace_eq hv hcanonical.lower hlt hplace) hnear,
      min_eq_right hcanonical.finiteBits_lt.le]
  · -- below the least significand of the exponent the doubles lie twice as close
    obtain ⟨hne, hsmall⟩ := not_or.mp hplace
    have hbelow : v / 2 ^ e < 2 ^ (52 : Int) := by
      rw [div_lt_iff₀ hunit, ← hscaled]
      exact not_le.mp hsmall
    obtain rfl : m = 2 ^ 52 := by
      refine Nat.le_antisymm ?_ (hcanonical.full.resolve_left hne)
      have hm : (m : ℚ) < 2 ^ (52 : Int) + 1 := by linarith
      exact Nat.lt_succ_iff.mp (by exact_mod_cast hm)
    obtain ⟨hlower, hupper⟩ := abs_lt.mp (hclose rfl)
    have hhalf : (2 : ℚ) ^ (e - 1) = 2 ^ e / 2 := by
      rw [zpow_sub_one₀ (by norm_num), div_eq_mul_inv]
    have hdouble : v / 2 ^ (e - 1) = 2 * (v / 2 ^ e) := by
      rw [hhalf]
      field_simp
    have hplace : lastPlace v = e - 1 := by
      have hlower' := hcanonical.lower
      refine lastPlace_eq hv (by omega) ?_ (.inr ?_)
      · rw [show e - 1 + 53 = e + 52 by ring]
        exact not_le.mp hsmall
      · rw [show e - 1 + 52 = e + 51 by ring, hscaled, ← le_div_iff₀ hunit]
        push_cast at hlower
        norm_num
        linarith
    have hnear' : |v / 2 ^ (e - 1) - (2 ^ 53 : Nat)| < 1 / 2 := by
      rw [hdouble, abs_lt]
      push_cast at hlower hupper ⊢
      constructor <;> linarith
    have hbits : finiteBits (2 ^ 53) (e - 1) = finiteBits (2 ^ 52) e := by
      have hlower' := hcanonical.lower
      rw [finiteBits, finiteBits]
      omega
    rw [nearest_of_lastPlace hv hplace hnear', hbits, min_eq_right hcanonical.finiteBits_lt.le]

/-- The double nearest to a finite double is that double. -/
theorem nearest_exact {m : Nat} {e : Int} (h : Canonical m e) :
    nearest (m * 2 ^ e) = finiteBits m e := by
  have hunit : (0 : ℚ) < 2 ^ e := zpow_pos (by norm_num) e
  rcases Nat.eq_zero_or_pos m with rfl | hm
  · obtain rfl : e = -1074 := h.full.resolve_right (by decide)
    rw [Nat.cast_zero, zero_mul]
    rfl
  · have hzero : |(m : ℚ) * 2 ^ e / 2 ^ e - m| = 0 := by
      rw [mul_div_cancel_right₀ _ hunit.ne', sub_self, abs_zero]
    refine nearest_eq h (mul_pos (Nat.cast_pos.mpr hm) hunit) ?_ fun _ => ?_ <;>
    · rw [hzero]
      norm_num

theorem nearest_eq_zero {v : ℚ} (hv : 0 ≤ v) (h : v < 2 ^ (-1075 : Int)) : nearest v = 0 := by
  rcases hv.eq_or_lt with rfl | hv
  · rfl
  have hunit : (0 : ℚ) < 2 ^ (-1074 : Int) := zpow_pos (by norm_num) _
  have hdouble : (2 : ℚ) ^ (-1074 : Int) = 2 ^ (-1075 : Int) * 2 := by
    rw [show (-1074 : Int) = -1075 + 1 by decide, zpow_add_one₀ two_ne_zero]
  have hplace : lastPlace v = -1074 :=
    lastPlace_eq hv (le_refl _)
      (h.trans_le (zpow_le_zpow_right₀ (by norm_num) (by norm_num))) (.inl rfl)
  have hnear : |v / 2 ^ (-1074 : Int) - (0 : Nat)| < 1 / 2 := by
    rw [Nat.cast_zero, sub_zero, abs_of_pos (div_pos hv hunit), div_lt_iff₀ hunit]
    linarith
  rw [nearest_of_lastPlace hv hplace hnear]
  rfl

theorem le_halfEven {v : ℚ} {n : Nat} (h : n ≤ v) : n ≤ halfEven v := by
  have hfloor : n ≤ ⌊v⌋₊ := Nat.le_floor h
  rw [halfEven]
  split
  · exact hfloor
  · split
    · exact Nat.le_succ_of_le hfloor
    · split
      · exact hfloor
      · exact Nat.le_succ_of_le hfloor

theorem nearest_eq_infinity {v : ℚ} (h : 2 ^ (1024 : Int) ≤ v) : nearest v = infinityBits := by
  have hv : 0 < v := lt_of_lt_of_le (zpow_pos (by norm_num) _) h
  have hlog : 1024 ≤ Int.log 2 v := (Int.zpow_le_iff_le_log (by decide) hv).mp h
  have hplace : lastPlace v = Int.log 2 v - 52 := by
    rw [lastPlace]
    omega
  have hlead : 2 ^ 52 ≤ halfEven (v / 2 ^ lastPlace v) := by
    refine le_halfEven ?_
    rw [le_div_iff₀ (zpow_pos (by norm_num) _), hplace]
    refine le_trans (le_of_eq ?_) (Int.zpow_log_le_self (b := 2) (by decide) hv)
    rw [zpow_sub₀ two_ne_zero, Nat.cast_ofNat]
    push_cast
    field_simp
  rw [nearest, if_neg hv.ne', infinityBits]
  omega

theorem nearest_ne_zero {v : ℚ} (h : 2 ^ (-1074 : Int) ≤ v) : nearest v ≠ 0 := by
  have hv : 0 < v := lt_of_lt_of_le (zpow_pos (by norm_num) _) h
  have hplace : -1074 ≤ lastPlace v := le_max_right _ _
  rw [nearest, if_neg hv.ne', infinityBits]
  rcases hplace.eq_or_lt with he | he
  · have hlead : 1 ≤ halfEven (v / 2 ^ lastPlace v) := by
      refine le_halfEven ?_
      rw [← he, Nat.cast_one, one_le_div (zpow_pos (by norm_num) _)]
      exact h
    omega
  · omega

theorem nearest_le (v : ℚ) : nearest v ≤ infinityBits := by
  rw [nearest]
  split
  · exact Nat.zero_le _
  · exact min_le_left _ _

/-! ## Powers of ten beyond the doubles -/

theorem two_pow_le_ten_pow : (2 : ℚ) ^ (1075 : Int) ≤ 10 ^ (400 : Int) := by
  calc (2 : ℚ) ^ (1075 : Int) ≤ 2 ^ (1200 : Int) := zpow_le_zpow_right₀ (by norm_num) (by norm_num)
    _ = (2 ^ 3) ^ 400 := by
      rw [← pow_mul]
      rfl
    _ ≤ 10 ^ 400 := pow_le_pow_left₀ (by norm_num) (by norm_num) 400

theorem nearest_eq_infinity_of_le {v : ℚ} (h : 10 ^ (400 : Int) ≤ v) : nearest v = infinityBits :=
  nearest_eq_infinity <| (zpow_le_zpow_right₀ (by norm_num) (by norm_num)).trans
    (two_pow_le_ten_pow.trans h)

theorem nearest_eq_zero_of_lt {v : ℚ} (hv : 0 ≤ v) (h : v < 10 ^ (-400 : Int)) : nearest v = 0 := by
  refine nearest_eq_zero hv (h.trans_le ?_)
  rw [zpow_neg, zpow_neg]
  exact inv_anti₀ (zpow_pos (by norm_num) _) two_pow_le_ten_pow

end TclHost.Double
