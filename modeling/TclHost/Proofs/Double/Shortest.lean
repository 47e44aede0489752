import TclHost.Double.Decimal
import TclHost.Proofs.Double.Nearest
import TclHost.Text.Digit
/-! # The fewest digits that read back

The search for the fewest digits of a double ends with digits whose nearest double it is: at
seventeen digits a unit of the last place is smaller than the distance of the doubles.
-/
namespace TclHost.Double

open Text

namespace Ratio

variable {r : Ratio}

theorem decimalExponent_eq (hden : 0 < r.den) (hnum : r.num ≠ 0) :
    r.decimalExponent = Int.log 10 r.value := by
  have hv := value_pos hden hnum
  obtain ⟨hk, hk'⟩ := length_toDigits_bounds hnum
  obtain ⟨hl, hl'⟩ := length_toDigits_bounds (Nat.ne_of_gt hden)
  have hnumPos : 0 < (Nat.toDigits 10 r.num).length := Nat.length_toDigits_pos
  have hdenPos : 0 < (Nat.toDigits 10 r.den).length := Nat.length_toDigits_pos
  have hbounds := value_bounds (r := r) (b := 10) (by decide) hk
    (by rwa [Nat.sub_add_cancel hnumPos]) hl (by rwa [Nat.sub_add_cancel hdenPos])
  have hlower := (Int.zpow_le_iff_le_log (by decide) hv).mp hbounds.1
  have hupper := (Int.lt_zpow_iff_log_lt (by decide) hv).mp hbounds.2
  have htest (e : Int) : (r.divPow 10 e).floor = 0 ↔ Int.log 10 r.value < e := by
    have h := floor_divPow_lt_iff (b := 10) (by decide) hden hnum e 0
    rw [Nat.pow_zero, Nat.lt_one_iff, Nat.cast_zero, add_zero] at h
    exact h
  rw [decimalExponent]
  simp only [decimalDigits_eq, htest]
  split <;> omega

theorem nearestBits_of_neighbour {bits n : Nat} {e : Int}
    (h : r.neighbourReadingBack? bits e = some n) : (scaled 10 n e).nearestBits = bits := by
  unfold neighbourReadingBack? at h
  simp only [Bool.and_eq_true, beq_iff_eq] at h
  split at h
  · next hboth =>
    cases h
    split
    · exact hboth.1
    · exact hboth.2
  · split at h
    · cases h
      assumption
    · split at h
      · cases h
        assumption
      · cases h

theorem isSome_neighbour {bits n : Nat} {e : Int}
    (hn : n = (r.divPow 10 e).floor ∨ n = (r.divPow 10 e).floor + 1)
    (h : (scaled 10 n e).nearestBits = bits) : (r.neighbourReadingBack? bits e).isSome := by
  unfold neighbourReadingBack?
  simp only [Bool.and_eq_true, beq_iff_eq]
  split
  · rfl
  · split
    · rfl
    · split
      · rfl
      · rcases hn with rfl | rfl <;> contradiction

theorem exists_near_floor {v : ℚ} (hv : 0 ≤ v) :
    ∃ n : Nat, (n = ⌊v⌋₊ ∨ n = ⌊v⌋₊ + 1) ∧ |v - n| ≤ 1 / 2 := by
  have hlower := Nat.floor_le hv
  have hupper := Nat.lt_floor_add_one v
  rcases le_total (v - ⌊v⌋₊) (1 / 2) with h | h
  · exact ⟨⌊v⌋₊, .inl rfl, abs_le.mpr ⟨by linarith, h⟩⟩
  · refine ⟨⌊v⌋₊ + 1, .inr rfl, abs_le.mpr ⟨?_, ?_⟩⟩ <;>
    · push_cast
      linarith

/-- A multiple of a unit that is half a unit from a double, where the unit is at most `m / 10 ^ 16`
units of the last binary place. -/
theorem nearest_of_near {m n : Nat} {e : Int} {unit : ℚ} (hcanonical : Canonical m e)
    (hunit : 0 < unit) (hsmall : 10 ^ 16 * unit ≤ m * 2 ^ e)
    (hnear : |m * 2 ^ e / unit - n| ≤ 1 / 2) :
    nearest (n * unit) = finiteBits m e := by
  have hlast : (0 : ℚ) < 2 ^ e := zpow_pos (by norm_num) e
  have hratio : unit / 2 ^ e ≤ m / 10 ^ 16 := by
    rw [div_le_div_iff₀ hlast (by norm_num)]
    linarith
  have hdist : |n * unit / 2 ^ e - m| ≤ 1 / 2 * (m / 10 ^ 16) := by
    have hfactor : n * unit / 2 ^ e - m = -(m * 2 ^ e / unit - n) * (unit / 2 ^ e) := by
      field_simp
      ring
    rw [hfactor, abs_mul, abs_neg, abs_of_pos (div_pos hunit hlast)]
    exact mul_le_mul hnear hratio (div_pos hunit hlast).le (by norm_num)
  have hn : (0 : ℚ) < n := by
    have hlarge : 10 ^ 16 ≤ m * 2 ^ e / unit := (le_div_iff₀ hunit).mpr hsmall
    have hupper := (abs_le.mp hnear).2
    norm_num at hlarge
    linarith
  refine nearest_eq hcanonical (mul_pos hn hunit) (hdist.trans_lt ?_) fun hleast =>
    hdist.trans_lt ?_
  · have hbound : (m : ℚ) < 2 ^ 53 := by exact_mod_cast hcanonical.bound
    calc 1 / 2 * ((m : ℚ) / 10 ^ 16) < 1 / 2 * (2 ^ 53 / 10 ^ 16) := by gcongr
      _ ≤ 1 / 2 := by norm_num
  · rw [hleast]
    norm_num

theorem seventeen_digits {m : Nat} {e : Int} (hcanonical : Canonical m e) (hm : 0 < m)
    (hden : 0 < r.den) (hvalue : r.value = m * 2 ^ e) :
    (r.neighbourReadingBack? (finiteBits m e) (r.decimalExponent - 16)).isSome := by
  have hv : 0 < r.value := hvalue ▸ mul_pos (Nat.cast_pos.mpr hm) (zpow_pos (by norm_num) e)
  have hnum : r.num ≠ 0 := fun h => hv.ne' ((value_eq_zero_iff hden).mpr h)
  have hplace : (0 : ℚ) < 10 ^ (r.decimalExponent - 16) := zpow_pos (by norm_num) _
  have hsmall : 10 ^ 16 * (10 : ℚ) ^ (r.decimalExponent - 16) ≤ m * 2 ^ e := by
    have hle := Int.zpow_log_le_self (b := 10) (by decide) hv
    rw [← decimalExponent_eq hden hnum, hvalue] at hle
    refine le_trans (le_of_eq ?_) hle
    rw [zpow_sub₀ (by norm_num), Nat.cast_ofNat]
    norm_num
    ring
  obtain ⟨n, hn, hnear⟩ := exists_near_floor (div_nonneg hv.le hplace.le)
  have hfloor : (r.divPow 10 (r.decimalExponent - 16)).floor
      = ⌊r.value / 10 ^ (r.decimalExponent - 16)⌋₊ := by
    rw [floor_eq, value_divPow (by decide)]
    rfl
  refine isSome_neighbour (n := n) (hfloor ▸ hn) ?_
  have hread := nearest_of_near hcanonical hplace hsmall (hvalue ▸ hnear)
  rw [nearestBits_eq (den_scaled_pos (by decide) n _), value_scaled (by decide)]
  exact hread

/-- Trying digit by digit ends with digits that read back, if some number of them does. -/
theorem shortestFrom_eq {bits tries : Nat} {e : Int}
    (h : ∃ k < tries, (r.neighbourReadingBack? bits (e - k)).isSome) :
    ∃ (n : Nat) (e' : Int), (scaled 10 n e').nearestBits = bits ∧
      r.shortestFrom bits tries e = (Scientific.ofUnits n e').trimZeros := by
  induction tries generalizing e with
  | zero =>
    obtain ⟨k, hk, -⟩ := h
    exact absurd hk (Nat.not_lt_zero k)
  | succ tries ih =>
    obtain ⟨k, hk, hsome⟩ := h
    rw [shortestFrom]
    cases hn : r.neighbourReadingBack? bits e with
    | some n => exact ⟨n, e, nearestBits_of_neighbour hn, rfl⟩
    | none =>
      cases k with
      | zero => simp [hn] at hsome
      | succ k =>
        refine ih ⟨k, Nat.lt_of_succ_lt_succ hk, ?_⟩
        rwa [sub_sub, add_comm, ← Nat.cast_succ]

theorem fewestFrom_bounds (bits : Nat) (e : Int) {ns : List Nat} (h : ∀ n ∈ ns, n ≤ 15) :
    1 ≤ r.fewestFrom bits e ns ∧ r.fewestFrom bits e ns ≤ 16 := by
  induction ns with
  | nil => exact ⟨Nat.le_refl 1, (by decide : 1 ≤ 16)⟩
  | cons n ns ih =>
    rw [fewestFrom]
    split
    · exact ih fun k hk => h k (List.mem_cons_of_mem n hk)
    · exact ⟨Nat.le_add_left 1 n, Nat.succ_le_succ (h n List.mem_cons_self)⟩

theorem shortest_eq {m : Nat} {e : Int} (hcanonical : Canonical m e) (hm : 0 < m)
    (hden : 0 < r.den) (hvalue : r.value = m * 2 ^ e) :
    ∃ (n : Nat) (e' : Int), (scaled 10 n e').nearestBits = finiteBits m e ∧
      r.shortest (finiteBits m e) = (Scientific.ofUnits n e').trimZeros := by
  have hcounts : ∀ n ∈ [15, 9, 4], n ≤ 15 := by decide
  obtain ⟨hlower, hupper⟩ := fewestFrom_bounds (r := r) (finiteBits m e) r.decimalExponent hcounts
  refine shortestFrom_eq ⟨17 - r.fewestFrom (finiteBits m e) r.decimalExponent [15, 9, 4],
    by omega, ?_⟩
  have hplace : r.decimalExponent - r.fewestFrom (finiteBits m e) r.decimalExponent [15, 9, 4] + 1
      - (17 - r.fewestFrom (finiteBits m e) r.decimalExponent [15, 9, 4] : Nat)
      = r.decimalExponent - 16 := by
    omega
  rw [hplace]
  exact seventeen_digits hcanonical hm hden hvalue

end Ratio

/-! ## The digits as notation -/

def Scientific.value (s : Scientific) : ℚ :=
  numeral 10 s.digits * 10 ^ (s.exponent + 1 - s.digits.length)

/-- Notation that reads back as the double with these bits. -/
structure Scientific.ReadsBack (s : Scientific) (bits : Nat) : Prop where
  digits : ∀ d ∈ s.digits, isAsciiDigit d = true
  ne_nil : s.digits ≠ []
  nearest : nearest s.value = bits
  lower : -400 ≤ s.exponent
  upper : s.exponent < 400

theorem Scientific.digits_trimZeros (s : Scientific) :
    s.trimZeros.exponent = s.exponent ∧ (s.digits ≠ [] → s.trimZeros.digits ≠ []) ∧
      ∃ k, s.digits = s.trimZeros.digits ++ List.replicate k '0' := by
  rw [trimZeros]
  split
  · next h => exact ⟨rfl, id, 0, by simp⟩
  · next d ds h =>
    have hsplit := List.takeWhile_append_dropWhile (p := (· == '0')) (l := ds.reverse)
    have hzeros := List.eq_replicate_of_mem (a := '0') (l := ds.reverse.takeWhile (· == '0'))
      fun c hc => beq_iff_eq.mp (List.all_eq_true.mp List.all_takeWhile c hc)
    refine ⟨rfl, fun _ => List.cons_ne_nil _ _, (ds.reverse.takeWhile (· == '0')).length, ?_⟩
    rw [h, List.cons_append, ← List.reverse_replicate, ← hzeros, ← List.reverse_append, hsplit,
      List.reverse_reverse]

theorem Scientific.value_zeros {s t : Scientific} {k : Nat} (hexponent : t.exponent = s.exponent)
    (hdigits : s.digits = t.digits ++ List.replicate k '0') : t.value = s.value := by
  rw [value, value, hexponent, hdigits, numeral_append_replicate, List.length_append,
    List.length_replicate]
  push_cast
  rw [mul_assoc, ← zpow_natCast, ← zpow_add₀ (by norm_num)]
  congr 2
  ring

theorem Scientific.value_trimZeros (s : Scientific) : s.trimZeros.value = s.value := by
  obtain ⟨hexponent, -, k, hdigits⟩ := s.digits_trimZeros
  exact value_zeros hexponent hdigits

theorem Scientific.digits_ofUnits (n : Nat) (e : Int) :
    (ofUnits n e).digits = Nat.toDigits 10 n :=
  decimalDigits_eq n

theorem Scientific.exponent_ofUnits (n : Nat) (e : Int) :
    (ofUnits n e).exponent = e + ((Nat.toDigits 10 n).length - 1) := by
  rw [← decimalDigits_eq]
  rfl

theorem Scientific.value_ofUnits (n : Nat) (e : Int) : (ofUnits n e).value = n * 10 ^ e := by
  rw [value, digits_ofUnits, exponent_ofUnits, numeral_toDigits (by decide) (by decide)]
  congr 2
  ring

theorem Scientific.value_bounds {n : Nat} (hn : n ≠ 0) (e : Int) :
    (10 : ℚ) ^ (ofUnits n e).exponent ≤ n * 10 ^ e ∧
      (n : ℚ) * 10 ^ e < 10 ^ ((ofUnits n e).exponent + 1) := by
  obtain ⟨hlower, hupper⟩ := length_toDigits_bounds hn
  have hpos : 0 < (Nat.toDigits 10 n).length := Nat.length_toDigits_pos
  have hplace : (0 : ℚ) < 10 ^ e := zpow_pos (by norm_num) e
  have hfirst : (ofUnits n e).exponent = ((Nat.toDigits 10 n).length - 1 : Nat) + e := by
    rw [exponent_ofUnits]
    omega
  have hnext : (ofUnits n e).exponent + 1 = (Nat.toDigits 10 n).length + e := by
    rw [exponent_ofUnits]
    ring
  rw [hnext, hfirst, zpow_add₀ (by norm_num), zpow_add₀ (by norm_num), zpow_natCast, zpow_natCast]
  constructor
  · exact mul_le_mul_of_nonneg_right (by exact_mod_cast hlower) hplace.le
  · exact mul_lt_mul_of_pos_right (by exact_mod_cast hupper) hplace

theorem Scientific.readsBack_trimZeros {n bits : Nat} {e : Int}
    (h : (Ratio.scaled 10 n e).nearestBits = bits) (hzero : bits ≠ 0) (hinf : bits ≠ infinityBits) :
    (ofUnits n e).trimZeros.ReadsBack bits := by
  obtain ⟨hexponent, hne, k, hdigits⟩ := (ofUnits n e).digits_trimZeros
  have hvalue : (ofUnits n e).trimZeros.value = n * 10 ^ e := by
    rw [value_trimZeros, value_ofUnits]
  have hread : Double.nearest (n * 10 ^ e) = bits := by
    rw [← h, Ratio.nearestBits_eq (Ratio.den_scaled_pos (by decide) n e),
      Ratio.value_scaled (by decide)]
    rfl
  have hn : n ≠ 0 := by
    rintro rfl
    rw [Nat.cast_zero, zero_mul] at hread
    exact hzero hread.symm
  have hbelow : (n : ℚ) * 10 ^ e < 10 ^ (400 : Int) := by
    refine lt_of_not_ge fun hle => hinf ?_
    rw [← hread, nearest_eq_infinity_of_le hle]
  have hnonneg : (0 : ℚ) ≤ n * 10 ^ e :=
    mul_nonneg n.cast_nonneg (zpow_pos (by norm_num) e).le
  have habove : (10 : ℚ) ^ (-400 : Int) ≤ n * 10 ^ e := by
    refine le_of_not_gt fun hlt => hzero ?_
    rw [← hread, nearest_eq_zero_of_lt hnonneg hlt]
  obtain ⟨hlower, hupper⟩ := Scientific.value_bounds hn e
  refine ⟨fun d hd => ?_, hne ?_, hvalue ▸ hread, ?_, ?_⟩
  · refine isAsciiDigit_of_mem_toDigits (n := n) ?_
    rw [← digits_ofUnits n e, hdigits]
    exact List.mem_append_left _ hd
  · rw [digits_ofUnits]
    exact Nat.toDigits_ne_nil
  · rw [hexponent]
    have hlt := habove.trans_lt hupper
    exact Int.lt_add_one_iff.mp ((zpow_lt_zpow_iff_right₀ (by norm_num)).mp hlt)
  · rw [hexponent]
    exact (zpow_lt_zpow_iff_right₀ (by norm_num)).mp (hlower.trans_lt hbelow)

theorem den_magnitude_pos (m : Nat) (e : Int) : 0 < (magnitude m e).den :=
  Ratio.den_scaled_pos (by decide) m e

theorem value_magnitude (m : Nat) (e : Int) : (magnitude m e).value = m * 2 ^ e :=
  Ratio.value_scaled (by decide) m e

theorem nearestBits_magnitude {m : Nat} {e : Int} (h : Canonical m e) :
    (magnitude m e).nearestBits = finiteBits m e := by
  rw [Ratio.nearestBits_eq (den_magnitude_pos m e), value_magnitude]
  exact nearest_exact h

/-- The fewest digits of a finite double read back as the double. -/
theorem shortest_readsBack {m : Nat} {e : Int} (h : Canonical m e) (hm : 0 < m) :
    (shortest m e).ReadsBack (finiteBits m e) := by
  obtain ⟨n, e', hbits, hshortest⟩ :=
    Ratio.shortest_eq h hm (den_magnitude_pos m e) (value_magnitude m e)
  rw [shortest, nearestBits_magnitude h, hshortest]
  have hzero : finiteBits m e ≠ 0 := by
    rw [finiteBits]
    omega
  exact Scientific.readsBack_trimZeros hbits hzero (Nat.ne_of_lt h.finiteBits_lt)

end TclHost.Double
