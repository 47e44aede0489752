import Mathlib.Data.EReal.Operations
import Mathlib.Order.Compare
import TclHost.Proofs.Double.Nearest
/-! # The order of doubles

The bits of a magnitude grow with the number that it stands for, infinity included, so that doubles
are compared as the numbers that they denote.  Rounding to the nearest double keeps the order, but
may merge two numbers into one double.
-/
namespace TclHost.Double

/-! ### Rounding keeps the order -/

theorem halfEven_le_succ (v : ℚ) : halfEven v ≤ ⌊v⌋₊ + 1 := by
  rw [halfEven]
  split
  · exact Nat.le_succ _
  · split
    · exact le_refl _
    · split
      · exact Nat.le_succ _
      · exact le_refl _

theorem halfEven_mono {v w : ℚ} (hv : 0 ≤ v) (h : v ≤ w) : halfEven v ≤ halfEven w := by
  have hw : ⌊w⌋₊ ≤ halfEven w := le_halfEven (Nat.floor_le (hv.trans h))
  rcases (Nat.floor_mono h).eq_or_lt with hfloor | hfloor
  · -- both numbers have the same integer part, and the fractions decide
    rw [halfEven, hfloor]
    split
    · exact hw
    · next hlow =>
      have hlow' : ¬2 * (w - ⌊w⌋₊) < 1 := by linarith
      rw [halfEven, if_neg hlow']
      split
      · next hhigh =>
        have hhigh' : 1 < 2 * (w - ⌊w⌋₊) := by linarith
        rw [if_pos hhigh']
      · split <;> split <;> omega
  · exact (halfEven_le_succ v).trans (Nat.le_trans hfloor hw)

theorem halfEven_natCast (n : Nat) : halfEven n = n :=
  halfEven_eq (Nat.cast_nonneg n) (by norm_num)

theorem lastPlace_mono {v w : ℚ} (hv : 0 < v) (h : v ≤ w) : lastPlace v ≤ lastPlace w := by
  have hlog : Int.log 2 v ≤ Int.log 2 w := Int.log_mono_right hv h
  rw [lastPlace, lastPlace]
  omega

theorem halfEven_lastPlace_le {v : ℚ} (hv : 0 < v) :
    halfEven (v / 2 ^ lastPlace v) ≤ 2 ^ 53 := by
  have hunit : (0 : ℚ) < 2 ^ lastPlace v := zpow_pos (by norm_num) _
  have hlt : v < 2 ^ (lastPlace v + 53) := by
    refine (Int.lt_zpow_iff_log_lt (b := 2) (by decide) hv).mpr ?_
    rw [lastPlace]
    omega
  rw [zpow_add₀ (by norm_num), mul_comm, ← div_lt_iff₀ hunit] at hlt
  calc halfEven (v / 2 ^ lastPlace v)
      ≤ halfEven (2 ^ 53 : Nat) :=
        halfEven_mono (div_pos hv hunit).le (by exact_mod_cast hlt.le)
    _ = 2 ^ 53 := halfEven_natCast _

theorem le_halfEven_lastPlace {v : ℚ} (hv : 0 < v) (hplace : -1074 < lastPlace v) :
    2 ^ 52 ≤ halfEven (v / 2 ^ lastPlace v) := by
  have hunit : (0 : ℚ) < 2 ^ lastPlace v := zpow_pos (by norm_num) _
  have hle : 2 ^ (lastPlace v + 52) ≤ v := by
    refine (Int.zpow_le_iff_le_log (b := 2) (by decide) hv).mpr ?_
    rw [lastPlace] at hplace ⊢
    omega
  rw [zpow_add₀ (by norm_num), mul_comm, ← le_div_iff₀ hunit] at hle
  exact le_halfEven (by exact_mod_cast hle)

/-- Of two numbers the larger one has the larger nearest double, or both have the same one. -/
theorem nearest_mono {v w : ℚ} (hv : 0 ≤ v) (h : v ≤ w) : nearest v ≤ nearest w := by
  rcases hv.eq_or_lt with rfl | hv
  · exact Nat.zero_le _
  have hw : 0 < w := hv.trans_le h
  rw [nearest, nearest, if_neg hv.ne', if_neg hw.ne']
  have hlow : -1074 ≤ lastPlace v := le_max_right _ _
  refine min_le_min_left _ ?_
  rcases (lastPlace_mono hv h).eq_or_lt with hplace | hplace
  · have hunit : (0 : ℚ) < 2 ^ lastPlace w := zpow_pos (by norm_num) _
    have hmono : halfEven (v / 2 ^ lastPlace w) ≤ halfEven (w / 2 ^ lastPlace w) :=
      halfEven_mono (div_pos hv hunit).le (div_le_div_of_nonneg_right h hunit.le)
    rw [hplace]
    omega
  · have hupper := halfEven_lastPlace_le hv
    have hlower := le_halfEven_lastPlace hw (by omega)
    omega

/-! ### Places of magnitudes -/

theorem Canonical.zero : Canonical 0 (-1074) :=
  ⟨le_refl _, by decide, by decide, .inl rfl⟩

theorem mul_two_zpow_nonneg (m : Nat) (e : Int) : (0 : ℚ) ≤ m * 2 ^ e :=
  mul_nonneg (Nat.cast_nonneg m) (zpow_pos two_pos e).le

/-- The bits of the double nearest to a magnitude. -/
inductive Rounds : Nat → EReal → Prop
  | finite {q : ℚ} : 0 ≤ q → Rounds (nearest q) ((q : ℝ) : EReal)
  | infinite : Rounds infinityBits ⊤

/-- The bits of the double that is a magnitude. -/
inductive Magnitude : Nat → EReal → Prop
  | finite {m : Nat} {e : Int} : Canonical m e →
      Magnitude (finiteBits m e) (((m * 2 ^ e : ℚ) : ℝ) : EReal)
  | infinite : Magnitude infinityBits ⊤

theorem Rounds.zero : Rounds 0 0 := by
  simpa [nearest] using Rounds.finite (le_refl (0 : ℚ))

theorem Magnitude.zero : Magnitude 0 0 := by
  simpa [finiteBits] using Magnitude.finite Canonical.zero

theorem Rounds.nonneg {b : Nat} {v : EReal} (h : Rounds b v) : 0 ≤ v := by
  cases h with
  | finite hq => exact_mod_cast hq
  | infinite => exact le_top

theorem Rounds.mono {b b' : Nat} {v v' : EReal} (h : Rounds b v) (h' : Rounds b' v')
    (hle : v ≤ v') : b ≤ b' := by
  cases h with
  | finite hq =>
    cases h' with
    | finite _ => exact nearest_mono hq (by exact_mod_cast hle)
    | infinite => exact nearest_le _
  | infinite =>
    cases h' with
    | finite _ => exact absurd hle (not_le.mpr (EReal.coe_lt_top _))
    | infinite => exact le_refl _

theorem Magnitude.rounds {b : Nat} {v : EReal} (h : Magnitude b v) : Rounds b v := by
  cases h with
  | infinite => exact .infinite
  | @finite m e hcanonical =>
    rw [← nearest_exact hcanonical]
    exact .finite (mul_two_zpow_nonneg m e)

theorem Canonical.eq_of_finiteBits {m m' : Nat} {e e' : Int} (h : Canonical m e)
    (h' : Canonical m' e') (heq : finiteBits m e = finiteBits m' e') : m = m' ∧ e = e' := by
  obtain ⟨hlow, -, hbound, hfull⟩ := h
  obtain ⟨hlow', -, hbound', hfull'⟩ := h'
  rw [finiteBits, finiteBits] at heq
  omega

theorem Magnitude.eq_of_bits {b : Nat} {v v' : EReal} (h : Magnitude b v) (h' : Magnitude b v') :
    v = v' := by
  generalize hb : b = b' at h'
  cases h with
  | finite hcanonical =>
    cases h' with
    | finite hcanonical' =>
      obtain ⟨rfl, rfl⟩ := hcanonical.eq_of_finiteBits hcanonical' hb
      rfl
    | infinite => exact absurd hb hcanonical.finiteBits_lt.ne
  | infinite =>
    cases h' with
    | finite hcanonical => exact absurd hb.symm hcanonical.finiteBits_lt.ne
    | infinite => rfl

/-! ### Signs -/

def withSign {α : Type*} [Neg α] (negative : Bool) (v : α) : α :=
  if negative then -v else v

theorem Rounds.withSign_mono {b b' : Nat} {v v' : EReal} {negative negative' : Bool}
    (h : Rounds b v) (h' : Rounds b' v') (hle : withSign negative v ≤ withSign negative' v') :
    withSign negative (b : Int) ≤ withSign negative' (b' : Int) := by
  have hzero : v ≤ 0 → b ≤ 0 := h.mono .zero
  have hzero' : v' ≤ 0 → b' ≤ 0 := h'.mono .zero
  have hnonneg := h.nonneg
  have hnonneg' := h'.nonneg
  cases negative <;> cases negative' <;>
    simp only [withSign, if_true, Bool.false_eq_true, if_false] at hle ⊢
  · exact_mod_cast h.mono h' hle
  · have hv := hzero (hle.trans (EReal.neg_le_zero.mpr hnonneg'))
    have hv' := hzero' ((EReal.le_neg_of_le_neg hle).trans (EReal.neg_le_zero.mpr hnonneg))
    omega
  · omega
  · have := h'.mono h (EReal.neg_le_neg_iff.mp hle)
    omega

theorem Magnitude.eq_of_withSign {b b' : Nat} {v v' : EReal} {negative negative' : Bool}
    (h : Magnitude b v) (h' : Magnitude b' v')
    (heq : withSign negative (b : Int) = withSign negative' (b' : Int)) :
    withSign negative v = withSign negative' v' := by
  -- the signs of two numbers with the same place may differ only if both are zero
  have hzero (hb : b = 0) : v = 0 := (hb ▸ h).eq_of_bits .zero
  have hzero' (hb : b' = 0) : v' = 0 := (hb ▸ h').eq_of_bits .zero
  cases negative <;> cases negative' <;>
    simp only [withSign, if_true, Bool.false_eq_true, if_false] at heq ⊢
  · obtain rfl : b = b' := by omega
    exact h.eq_of_bits h'
  · rw [hzero (by omega), hzero' (by omega), neg_zero]
  · rw [hzero (by omega), hzero' (by omega), neg_zero]
  · obtain rfl : b = b' := by omega
    rw [h.eq_of_bits h']

/-! ### Doubles and integers -/

noncomputable def value? (x : Float) : Option EReal :=
  match datum x with
  | .nan => none
  | .infinite negative => some (withSign negative ⊤)
  | .finite negative m e => some (withSign negative (((m * 2 ^ e : ℚ) : ℝ) : EReal))

/-- A double that is a number has a magnitude and a sign, which give its place and its value. -/
theorem exists_magnitude {x : Float} {v : EReal} (h : value? x = some v) :
    ∃ negative b u, Magnitude b u ∧ rank? x = some (withSign negative (b : Int)) ∧
      v = withSign negative u := by
  rw [value?] at h
  obtain ⟨hdatum, -⟩ | ⟨negative, hdatum, hx⟩ | ⟨negative, m, e, hdatum, hcanonical, hx⟩ :=
    datum_cases x
  · rw [hdatum] at h
    cases h
  · rw [hdatum] at h
    cases h
    exact ⟨negative, infinityBits, ⊤, .infinite, by
      rw [hx, rank?_ofMagnitudeBits _ (le_refl _)]; rfl, rfl⟩
  · rw [hdatum] at h
    cases h
    exact ⟨negative, finiteBits m e, _, .finite hcanonical, by
      rw [hx, rank?_ofMagnitudeBits _ hcanonical.finiteBits_lt.le]; rfl, rfl⟩

theorem rank?_ofInt (n : Int) :
    rank? (ofInt n) = some (withSign (decide (n < 0)) (nearest n.natAbs : Int)) := by
  have hvalue : (⟨n.natAbs, 1⟩ : Ratio).value = n.natAbs := by simp [Ratio.value]
  rw [ofInt, ofRatio, Ratio.nearestBits_eq Nat.one_pos, hvalue,
    rank?_ofMagnitudeBits _ (nearest_le _)]
  rfl

theorem withSign_natAbs (n : Int) :
    withSign (decide (n < 0)) ((((n.natAbs : ℚ) : ℝ)) : EReal) = ((n : ℝ) : EReal) := by
  have habs : ((n.natAbs : ℚ) : ℝ) = |(n : ℝ)| := by
    rw [Rat.cast_natCast, Nat.cast_natAbs, Int.cast_abs]
  rw [habs, withSign]
  split
  · next h =>
    have hneg : (n : ℝ) < 0 := Int.cast_lt_zero.mpr (of_decide_eq_true h)
    rw [abs_of_neg hneg, EReal.coe_neg, neg_neg]
  · next h =>
    have hnonneg : (0 : ℝ) ≤ n := Int.cast_nonneg (not_lt.mp fun hn => h (decide_eq_true hn))
    rw [abs_of_nonneg hnonneg]

/-- Places that go with the order of numbers tell the order, or are the same. -/
theorem compare_eq_or_eq_cmp {a b : Int} {v w : EReal} (hle : v ≤ w → a ≤ b)
    (hge : w ≤ v → b ≤ a) : Ord.compare a b = .eq ∨ Ord.compare a b = cmp v w := by
  rcases lt_trichotomy a b with h | h | h
  · right
    rw [compare_lt_iff_lt.mpr h, eq_comm, cmp_eq_lt_iff]
    exact not_le.mp fun hwv => (hge hwv).not_gt h
  · exact .inl (compare_eq_iff_eq.mpr h)
  · right
    rw [compare_gt_iff_gt.mpr h, eq_comm, cmp_eq_gt_iff]
    exact not_le.mp fun hvw => (hle hvw).not_gt h

theorem rank?_of_datum_nan {x : Float} (h : datum x = .nan) : rank? x = none := by
  rw [datum, datumOfBits] at h
  have hbeyond : infinityBits < x.toBits.toNat % 2 ^ 63 := by
    rw [infinityBits]
    split at h
    · split at h
      · cases h
      · omega
    · split at h <;> cases h
  rw [rank?, if_pos hbeyond]

theorem exists_value?_of_rank? {x : Float} {r : Int} (h : rank? x = some r) :
    ∃ v, value? x = some v := by
  rw [value?]
  split
  · next hnan =>
    rw [rank?_of_datum_nan hnan] at h
    cases h
  · exact ⟨_, rfl⟩
  · exact ⟨_, rfl⟩

/-- Two doubles are in the order of their numbers. -/
theorem compare_eq_cmp {x y : Float} {v w : EReal} (hx : value? x = some v)
    (hy : value? y = some w) : compare x y = cmp v w := by
  obtain ⟨sx, b, u, hb, hrank, rfl⟩ := exists_magnitude hx
  obtain ⟨sy, b', u', hb', hrank', rfl⟩ := exists_magnitude hy
  rw [compare, hrank, hrank']
  rcases compare_eq_or_eq_cmp (hb.rounds.withSign_mono hb'.rounds)
    (hb'.rounds.withSign_mono hb.rounds) with h | h
  · rw [hb.eq_of_withSign hb' (compare_eq_iff_eq.mp h), cmp_self_eq_eq]
    exact h
  · exact h

/-- An integer and a double are in the order of their numbers, unless the integer is rounded to
that double. -/
theorem compare_ofInt {n : Int} {x : Float} {v : EReal} (hx : value? x = some v) :
    compare (ofInt n) x = .eq ∨ compare (ofInt n) x = cmp ((n : ℝ) : EReal) v := by
  obtain ⟨sx, b, u, hb, hrank, rfl⟩ := exists_magnitude hx
  have hn : Rounds (nearest n.natAbs) (((n.natAbs : ℚ) : ℝ) : EReal) :=
    .finite (Nat.cast_nonneg _)
  rw [compare, rank?_ofInt, hrank, ← withSign_natAbs n]
  exact compare_eq_or_eq_cmp (hn.withSign_mono hb.rounds) (hb.rounds.withSign_mono hn)

theorem exists_value?_ofInt (n : Int) : ∃ v, value? (ofInt n) = some v :=
  exists_value?_of_rank? (rank?_ofInt n)

theorem compare_swap (x y : Float) : (compare x y).swap = compare y x := by
  rw [compare, compare]
  cases rank? x <;> cases rank? y <;> first | rfl | exact Int.compare_swap _ _

theorem compare_eq_lt_iff {x y : Float} :
    compare x y = .lt ↔ ∃ r s, rank? x = some r ∧ rank? y = some s ∧ r < s := by
  rw [compare]
  cases hx : rank? x <;> cases hy : rank? y <;> simp [compare_lt_iff_lt]

theorem exists_rank?_ofInt_le {m n : Int} (h : m ≤ n) :
    ∃ r s, rank? (ofInt m) = some r ∧ rank? (ofInt n) = some s ∧ r ≤ s := by
  refine ⟨_, _, rank?_ofInt m, rank?_ofInt n, ?_⟩
  refine Rounds.withSign_mono (.finite (Nat.cast_nonneg m.natAbs))
    (.finite (Nat.cast_nonneg n.natAbs)) ?_
  rw [withSign_natAbs, withSign_natAbs]
  exact_mod_cast h

end TclHost.Double
