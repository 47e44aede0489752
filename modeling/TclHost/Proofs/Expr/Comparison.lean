import TclHost.Expr.Operator
import TclHost.Proofs.Value.Order
/-! # Comparison operators, least and greatest numbers

Operands that are numbers are compared by value, where an integer that is rounded to the double
beside it counts as that double.  The least of several numbers is found by comparing the best one
so far with each of the others; since coming before is transitive, none of them comes before the
number that is kept, whatever the order in which they are given.
-/
namespace TclHost

namespace Value

noncomputable def value? (v : Value) : Option EReal :=
  v.num?.bind Num.value?

/-- An integer operand and a double one that differ, although the integer is rounded to that
double. -/
def Merged (v w : Value) : Prop :=
  ∃ a b, v.num? = some a ∧ w.num? = some b ∧ a.Merged b

theorem exists_num?_of_value? {v : Value} {x : EReal} (h : v.value? = some x) :
    ∃ a, v.num? = some a ∧ a.value? = some x :=
  Option.bind_eq_some_iff.mp h

theorem compare_of_num? {v w : Value} {a b : Num} (ha : v.num? = some a) (hb : w.num? = some b) :
    v.compare w = a.compare b := by
  rw [compare, ha, hb]

theorem merged_iff {v w : Value} {a b : Num} (ha : v.num? = some a) (hb : w.num? = some b) :
    v.Merged w ↔ a.Merged b := by
  simp [Merged, ha, hb]

theorem compare_cases {v w : Value} {x y : EReal} (hv : v.value? = some x)
    (hw : w.value? = some y) :
    v.Merged w ∧ v.compare w = .eq ∨ ¬v.Merged w ∧ v.compare w = cmp x y := by
  obtain ⟨a, ha, hx⟩ := exists_num?_of_value? hv
  obtain ⟨b, hb, hy⟩ := exists_num?_of_value? hw
  rw [merged_iff ha hb, compare_of_num? ha hb]
  exact Num.compare_cases hx hy

end Value

namespace Expr

open Value

/-- Two operands are compared as if they were the given numbers. -/
structure ComparedAs (v w : Value) (x y : EReal) : Prop where
  compare : v.compare w = cmp x y
  eq : applyBinary .eq v w = .ok (.ofBool (decide (x = y)))
  ne : applyBinary .ne v w = .ok (.ofBool (decide (x ≠ y)))
  lt : applyBinary .lt v w = .ok (.ofBool (decide (x < y)))
  le : applyBinary .le v w = .ok (.ofBool (decide (x ≤ y)))
  gt : applyBinary .gt v w = .ok (.ofBool (decide (x > y)))
  ge : applyBinary .ge v w = .ok (.ofBool (decide (x ≥ y)))

theorem ComparedAs.of_compare {v w : Value} {x y : EReal} (h : v.compare w = cmp x y) :
    ComparedAs v w x y := by
  have heq : (cmp x y == .eq) = decide (x = y) := by
    rw [Bool.eq_iff_iff, beq_iff_eq, cmp_eq_eq_iff, decide_eq_true_iff]
  have hlt : (cmp x y == .lt) = decide (x < y) := by
    rw [Bool.eq_iff_iff, beq_iff_eq, cmp_eq_lt_iff, decide_eq_true_iff]
  have hgt : (cmp x y == .gt) = decide (x > y) := by
    rw [Bool.eq_iff_iff, beq_iff_eq, cmp_eq_gt_iff, decide_eq_true_iff]
  refine ⟨h, ?_, ?_, ?_, ?_, ?_, ?_⟩ <;> rw [applyBinary, h]
  · rw [heq]
    rfl
  · rw [bne, heq, ← decide_not]
    rfl
  · rw [hlt]
    rfl
  · rw [bne, hgt, ← decide_not, decide_eq_decide.mpr not_lt]
    rfl
  · rw [hgt]
    rfl
  · rw [bne, hlt, ← decide_not, decide_eq_decide.mpr not_lt]
    rfl

/-! ### Least and greatest numbers -/

theorem number_of_num? (name : String) {v : Value} {a : Num} (h : v.num? = some a) :
    number name v = .ok a := by
  rw [number, asNum, h]
  rfl

theorem extreme_eq (name : String) (wanted : Ordering) (best : Num) {vs : List Value}
    (h : ∀ v ∈ vs, ∃ a, v.num? = some a) :
    extreme name wanted best vs
      = .ok (.ofNum (Num.extremeFrom wanted best (vs.filterMap num?))) := by
  induction vs generalizing best with
  | nil => rfl
  | cons v vs ih =>
    obtain ⟨a, ha⟩ := h v List.mem_cons_self
    rw [extreme, number_of_num? name ha, List.filterMap_cons_some ha, Num.extremeFrom,
      ← ih _ fun w hw => h w (List.mem_cons_of_mem v hw)]
    rfl

/-- Of operands that are numbers one is picked that no other one surpasses. -/
theorem exists_pickExtreme {wanted : Ordering} (hwanted : wanted ≠ .eq) (name : String)
    {vs : List Value} (hne : vs ≠ []) (h : ∀ v ∈ vs, ∃ x, v.value? = some x) :
    ∃ v ∈ vs, ∃ a, v.num? = some a ∧ pickExtreme name wanted vs = .ok (.ofNum a) ∧
      ∀ w ∈ vs, w.compare v ≠ wanted := by
  have hnum (v) (hv : v ∈ vs) : ∃ a, v.num? = some a := by
    obtain ⟨x, hx⟩ := h v hv
    exact (exists_num?_of_value? hx).imp fun _ => And.left
  obtain ⟨v, vs, rfl⟩ := List.exists_cons_of_ne_nil hne
  obtain ⟨a, ha⟩ := hnum v List.mem_cons_self
  have hpick : pickExtreme name wanted (v :: vs)
      = .ok (.ofNum (Num.extremeFrom wanted a (vs.filterMap num?))) := by
    rw [pickExtreme, number_of_num? name ha,
      ← extreme_eq name wanted a fun w hw => hnum w (List.mem_cons_of_mem v hw)]
    rfl
  have hnums : (v :: vs).filterMap num? = a :: vs.filterMap num? := List.filterMap_cons_some ha
  obtain ⟨u, hu, hum⟩ := List.mem_filterMap.mp
    (hnums ▸ Num.extremeFrom_mem wanted a (vs.filterMap num?))
  refine ⟨u, hu, _, hum, hpick, fun w hw => ?_⟩
  obtain ⟨b, hb⟩ := hnum w hw
  rw [compare_of_num? hb hum]
  exact Num.compare_extremeFrom_ne hwanted (hnums ▸ List.mem_filterMap.mpr ⟨w, hw, hb⟩)

theorem cmp_ne_of_compare_ne {v w : Value} {x y : EReal} {wanted : Ordering}
    (hv : v.value? = some x) (hw : w.value? = some y) (hmerged : ¬v.Merged w)
    (h : v.compare w ≠ wanted) : cmp x y ≠ wanted := by
  rcases compare_cases hv hw with h' | h'
  · exact absurd h'.1 hmerged
  · exact h'.2 ▸ h

/-- Operands that are numbers are compared by value, unless one is an integer that is rounded to the
other one, which then counts as equal to it.  Coming before is transitive, and the least and the
greatest of several operands is one that no other one comes before or after. -/
theorem numbers_ordered_unless_merged :
    (∀ v w : Value, ∀ x y, v.value? = some x → w.value? = some y →
      (v.Merged w → ComparedAs v w y y) ∧ (¬v.Merged w → ComparedAs v w x y)) ∧
    (∀ u v w : Value, (∀ n ∈ [u, v, w], ∃ x, n.value? = some x) →
      u.compare v = .lt → v.compare w = .lt → u.compare w = .lt) ∧
    (∀ vs : List Value, vs ≠ [] → (∀ v ∈ vs, ∃ x, v.value? = some x) →
      (∃ v ∈ vs, ∃ a, v.num? = some a ∧ applyFunction "min" vs = .ok (.ofNum a) ∧
        ∀ w ∈ vs, w.compare v ≠ .lt ∧
          ∀ x y, v.value? = some x → w.value? = some y → ¬w.Merged v → x ≤ y) ∧
      (∃ v ∈ vs, ∃ a, v.num? = some a ∧ applyFunction "max" vs = .ok (.ofNum a) ∧
        ∀ w ∈ vs, w.compare v ≠ .gt ∧
          ∀ x y, v.value? = some x → w.value? = some y → ¬w.Merged v → y ≤ x)) := by
  refine ⟨?_, ?_, ?_⟩
  · intro v w x y hv hw
    rcases compare_cases hv hw with ⟨hm, h⟩ | ⟨hm, h⟩
    · exact ⟨fun _ => .of_compare (h.trans (cmp_self_eq_eq y).symm), fun hn => absurd hm hn⟩
    · exact ⟨fun hy => absurd hy hm, fun _ => .of_compare h⟩
  · intro u v w hvalue huv hvw
    simp only [List.forall_mem_cons] at hvalue
    obtain ⟨⟨_, hu⟩, ⟨_, hv⟩, ⟨_, hw⟩, -⟩ := hvalue
    obtain ⟨a, ha, -⟩ := exists_num?_of_value? hu
    obtain ⟨b, hb, -⟩ := exists_num?_of_value? hv
    obtain ⟨c, hc, -⟩ := exists_num?_of_value? hw
    rw [compare_of_num? ha hb] at huv
    rw [compare_of_num? hb hc] at hvw
    rw [compare_of_num? ha hc]
    exact Num.compare_lt_trans huv hvw
  · intro vs hne hvalue
    constructor
    · obtain ⟨v, hv, a, ha, hpick, hleast⟩ :=
        exists_pickExtreme (show Ordering.lt ≠ .eq by decide) "min" hne hvalue
      refine ⟨v, hv, a, ha, hpick, fun w hw => ⟨hleast w hw, ?_⟩⟩
      intro x y hx hy hmerged
      have hcmp := cmp_ne_of_compare_ne hy hx hmerged (hleast w hw)
      rwa [ne_eq, cmp_eq_lt_iff, not_lt] at hcmp
    · obtain ⟨v, hv, a, ha, hpick, hgreatest⟩ :=
        exists_pickExtreme (show Ordering.gt ≠ .eq by decide) "max" hne hvalue
      refine ⟨v, hv, a, ha, hpick, fun w hw => ⟨hgreatest w hw, ?_⟩⟩
      intro x y hx hy hmerged
      have hcmp := cmp_ne_of_compare_ne hy hx hmerged (hgreatest w hw)
      rwa [ne_eq, cmp_eq_gt_iff, not_lt] at hcmp

/-- The double nearest to 2^53 + 1 is 2^53, so that the two count as equal and either one may be the
least of both. -/
theorem integer_merged_with_smaller_double :
    let v := Value.int 9007199254740993
    let w := Value.float (Double.ofMagnitudeBits false 0x4340000000000000)
    v.value? = some ((9007199254740993 : ℝ) : EReal) ∧
      w.value? = some ((9007199254740992 : ℝ) : EReal) ∧
      v.compare w = .eq ∧ applyBinary .eq v w = .ok (.ofBool true) ∧
      applyFunction "min" [v, w] = .ok v := by
  intro v w
  have hint : (9007199254740993 : Int64).toInt = 9007199254740993 := by decide
  have hbits : Double.ofInt 9007199254740993
      = Double.ofMagnitudeBits false 0x4340000000000000 :=
    congrArg (Double.ofMagnitudeBits false)
      (by decide : (⟨9007199254740993, 1⟩ : Double.Ratio).nearestBits = 0x4340000000000000)
  have hdatum : Double.datum (Double.ofMagnitudeBits false 0x4340000000000000)
      = .finite false (2 ^ 52) 1 := by
    rw [Double.datum, Double.toNat_toBits_ofMagnitudeBits false (by decide)]
    decide
  have hv : v.value? = some ((9007199254740993 : ℝ) : EReal) := by
    change some (((Int64.toInt 9007199254740993 : ℤ) : ℝ) : EReal) = _
    rw [hint]
    norm_num
  have hw : Double.value? (Double.ofMagnitudeBits false 0x4340000000000000)
      = some ((9007199254740992 : ℝ) : EReal) := by
    rw [Double.value?, hdatum]
    norm_num [Double.withSign]
  have hcompare : Num.compare (.int 9007199254740993)
      (.float (Double.ofMagnitudeBits false 0x4340000000000000)) = .eq := by
    rw [Num.compare, Num.toFloat, hint, hbits, Num.toFloat, Double.compare_eq_cmp hw hw,
      cmp_self_eq_eq]
    intro _ _ _ h
    cases h
  have hcompare' : v.compare w = .eq := (compare_of_num? rfl rfl).trans hcompare
  refine ⟨hv, hw, hcompare', ?_, ?_⟩
  · rw [applyBinary, hcompare']
    rfl
  · have hmin : applyFunction "min" [v, w]
        = extreme "min" .lt (.int 9007199254740993) [w] := rfl
    rw [hmin, extreme_eq "min" .lt _ (List.forall_mem_singleton.mpr ⟨_, rfl⟩),
      show [w].filterMap num? = [.float _] from rfl, Num.extremeFrom, Num.extremeFrom, Num.better,
      ← Num.compare_swap, hcompare]
    rfl

end Expr
end TclHost
