import TclHost.Proofs.Double.Order
import TclHost.Value.Basic
/-! # The order of numbers

Two integers are compared exactly, and so are two doubles.  An integer is compared with a double
after it has been rounded to one: such a pair is in the order of the two numbers or, if the integer
is rounded to that very double, counts as equal.  Coming before stays transitive all the same.
-/
namespace TclHost.Num

/-- The number that is denoted, with the infinities at the ends. -/
noncomputable def value? : Num → Option EReal
  | .int n => some ((n.toInt : ℝ) : EReal)
  | .float x => Double.value? x

/-- An integer and a double that differ, although the integer is rounded to that double. -/
def Merged : Num → Num → Prop
  | .int n, .float x => Double.value? x ≠ some ((n.toInt : ℝ) : EReal) ∧
      Double.value? (Double.ofInt n.toInt) = Double.value? x
  | .float x, .int n => Double.value? x ≠ some ((n.toInt : ℝ) : EReal) ∧
      Double.value? (Double.ofInt n.toInt) = Double.value? x
  | _, _ => False

theorem Merged.symm {a b : Num} (h : a.Merged b) : b.Merged a := by
  cases a <;> cases b <;> exact h

theorem compare_swap (a b : Num) : (a.compare b).swap = b.compare a := by
  cases a <;> cases b <;> first | exact Int.compare_swap _ _ | exact Double.compare_swap _ _

/-! ### Comparing by value -/

theorem compare_int_int (m n : Int64) :
    (Num.int m).compare (.int n) = cmp ((m.toInt : ℝ) : EReal) ((n.toInt : ℝ) : EReal) := by
  have hmono : StrictMono fun k : Int => ((k : ℝ) : EReal) :=
    EReal.coe_strictMono.comp Int.cast_strictMono
  rw [hmono.cmp_map_eq, cmp_eq_compare]
  rfl

theorem compare_int_float {n : Int64} {x : Float} {v : EReal} (hx : Double.value? x = some v) :
    (Num.int n).Merged (.float x) ∧ (Num.int n).compare (.float x) = .eq ∨
      ¬(Num.int n).Merged (.float x) ∧
        (Num.int n).compare (.float x) = cmp ((n.toInt : ℝ) : EReal) v := by
  obtain ⟨w, hw⟩ := Double.exists_value?_ofInt n.toInt
  have hcompare : (Num.int n).compare (.float x) = cmp w v := Double.compare_eq_cmp hw hx
  have hmerged : (Num.int n).Merged (.float x) ↔ v ≠ ((n.toInt : ℝ) : EReal) ∧ w = v := by
    rw [Merged, hw, hx, ne_eq, Option.some_inj, Option.some_inj]
  rw [hmerged]
  by_cases hwv : w = v
  · rw [hwv, cmp_self_eq_eq] at hcompare
    by_cases hv : v = ((n.toInt : ℝ) : EReal)
    · exact .inr ⟨fun h => h.1 hv, by rw [hcompare, hv, cmp_self_eq_eq]⟩
    · exact .inl ⟨⟨hv, hwv⟩, hcompare⟩
  · refine .inr ⟨fun h => hwv h.2, (Double.compare_ofInt hx).resolve_left fun heq => ?_⟩
    exact hwv ((cmp_eq_eq_iff w v).mp (hcompare.symm.trans heq))

/-- Two numbers count as equal if the integer among them is rounded to the other one, and are in
the order of their values otherwise. -/
theorem compare_cases {a b : Num} {v w : EReal} (ha : a.value? = some v) (hb : b.value? = some w) :
    a.Merged b ∧ a.compare b = .eq ∨ ¬a.Merged b ∧ a.compare b = cmp v w := by
  cases a with
  | int m =>
    cases ha
    cases b with
    | int n =>
      cases hb
      exact .inr ⟨id, compare_int_int m n⟩
    | float y => exact compare_int_float hb
  | float x =>
    cases b with
    | int n =>
      cases hb
      rw [← compare_swap, ← cmp_swap]
      obtain ⟨hm, hc⟩ | ⟨hm, hc⟩ := compare_int_float (n := n) ha
      · exact .inl ⟨hm, by rw [hc]; rfl⟩
      · exact .inr ⟨hm, by rw [hc]⟩
    | float y => exact .inr ⟨id, Double.compare_eq_cmp ha hb⟩

/-! ### Transitivity -/

/-- The place of the double that a number counts as beside a double. -/
def place? (a : Num) : Option Int :=
  Double.rank? a.toFloat

theorem exists_place?_int_le {m n : Int64} (h : m.toInt ≤ n.toInt) :
    ∃ r s, (Num.int m).place? = some r ∧ (Num.int n).place? = some s ∧ r ≤ s :=
  Double.exists_rank?_ofInt_le h

/-- A number that comes before another one has no higher place, and a lower one unless both are
integers. -/
theorem exists_place?_of_compare_lt {a b : Num} (h : a.compare b = .lt) :
    ∃ r s, a.place? = some r ∧ b.place? = some s ∧
      (r < s ∨ r = s ∧ ∃ m n, a = .int m ∧ b = .int n) := by
  cases a with
  | int m =>
    cases b with
    | int n =>
      have hlt : m.toInt < n.toInt := compare_lt_iff_lt.mp h
      obtain ⟨r, s, hr, hs, hle⟩ := exists_place?_int_le hlt.le
      exact ⟨r, s, hr, hs, hle.lt_or_eq.imp_right fun heq => ⟨heq, m, n, rfl, rfl⟩⟩
    | float y =>
      obtain ⟨r, s, hr, hs, hlt⟩ := Double.compare_eq_lt_iff.mp h
      exact ⟨r, s, hr, hs, .inl hlt⟩
  | float x =>
    obtain ⟨r, s, hr, hs, hlt⟩ := Double.compare_eq_lt_iff.mp h
    exact ⟨r, s, hr, hs, .inl hlt⟩

theorem compare_lt_of_place? {a b : Num} {r s : Int} (hr : a.place? = some r)
    (hs : b.place? = some s) (h : r < s) : a.compare b = .lt := by
  cases a with
  | int m =>
    cases b with
    | int n =>
      refine compare_lt_iff_lt.mpr (not_le.mp fun hle => ?_)
      obtain ⟨s', r', hs', hr', hle'⟩ := exists_place?_int_le hle
      cases hr.symm.trans hr'
      cases hs.symm.trans hs'
      exact h.not_ge hle'
    | float y => exact Double.compare_eq_lt_iff.mpr ⟨r, s, hr, hs, h⟩
  | float x => exact Double.compare_eq_lt_iff.mpr ⟨r, s, hr, hs, h⟩

theorem compare_lt_trans {a b c : Num} (hab : a.compare b = .lt) (hbc : b.compare c = .lt) :
    a.compare c = .lt := by
  obtain ⟨r, s, hr, hs, hrs⟩ := exists_place?_of_compare_lt hab
  obtain ⟨s', t, hs', ht, hst⟩ := exists_place?_of_compare_lt hbc
  cases hs.symm.trans hs'
  rcases hrs with hrs | ⟨rfl, m, n, rfl, rfl⟩
  · exact compare_lt_of_place? hr ht (hrs.trans_le (hst.elim le_of_lt (·.1.le)))
  · rcases hst with hst | ⟨-, -, k, -, rfl⟩
    · exact compare_lt_of_place? hr ht hst
    · -- all three are integers
      exact compare_lt_iff_lt.mpr ((compare_lt_iff_lt.mp hab).trans (compare_lt_iff_lt.mp hbc))

/-- Coming before is transitive, and so is coming after. -/
theorem compare_trans {a b c : Num} {wanted : Ordering} (hwanted : wanted ≠ .eq)
    (hab : a.compare b = wanted) (hbc : b.compare c = wanted) : a.compare c = wanted := by
  cases wanted with
  | lt => exact compare_lt_trans hab hbc
  | eq => exact absurd rfl hwanted
  | gt =>
    rw [← compare_swap, Ordering.swap_eq_gt] at hab hbc ⊢
    exact compare_lt_trans hbc hab

theorem compare_asymm {a b : Num} {wanted : Ordering} (hwanted : wanted ≠ .eq)
    (h : a.compare b = wanted) : b.compare a ≠ wanted := by
  rw [← compare_swap, h]
  cases wanted <;> simp_all

/-! ### The extreme one of several numbers -/

/-- Of the best number so far and another one, the latter if it surpasses the former. -/
def better (wanted : Ordering) (best candidate : Num) : Num :=
  if candidate.compare best == wanted then candidate else best

def extremeFrom (wanted : Ordering) (best : Num) : List Num → Num
  | [] => best
  | candidate :: others => extremeFrom wanted (better wanted best candidate) others

theorem better_mem (wanted : Ordering) (best candidate : Num) :
    better wanted best candidate ∈ [best, candidate] := by
  rw [better]
  split <;> simp

theorem better_surpasses (wanted : Ordering) (best candidate : Num) :
    better wanted best candidate = best ∨ (better wanted best candidate).compare best = wanted := by
  rw [better]
  split
  · next h => exact .inr (beq_iff_eq.mp h)
  · exact .inl rfl

theorem compare_better_ne {wanted : Ordering} (hwanted : wanted ≠ .eq) (best candidate : Num) :
    best.compare (better wanted best candidate) ≠ wanted ∧
      candidate.compare (better wanted best candidate) ≠ wanted := by
  have hself (b : Num) : b.compare b ≠ wanted := fun h => compare_asymm hwanted h h
  rw [better]
  split
  · next h => exact ⟨compare_asymm hwanted (beq_iff_eq.mp h), hself _⟩
  · next h => exact ⟨hself _, fun heq => h (beq_iff_eq.mpr heq)⟩

theorem extremeFrom_mem (wanted : Ordering) (best : Num) (others : List Num) :
    extremeFrom wanted best others ∈ best :: others := by
  induction others generalizing best with
  | nil => exact List.mem_singleton_self best
  | cons c others ih =>
    have hbetter : better wanted best c ∈ best :: c :: others :=
      List.mem_append_left others (better_mem wanted best c)
    rw [extremeFrom]
    rcases List.mem_cons.mp (ih (better wanted best c)) with h | h
    · exact h.symm ▸ hbetter
    · exact List.mem_cons_of_mem _ (List.mem_cons_of_mem _ h)

theorem extremeFrom_surpasses {wanted : Ordering} (hwanted : wanted ≠ .eq) (best : Num)
    (others : List Num) : extremeFrom wanted best others = best ∨
      (extremeFrom wanted best others).compare best = wanted := by
  induction others generalizing best with
  | nil => exact .inl rfl
  | cons c others ih =>
    rw [extremeFrom]
    rcases ih (better wanted best c) with h | h
    · rw [h]
      exact better_surpasses wanted best c
    · rcases better_surpasses wanted best c with h' | h'
      · exact .inr (h'.symm ▸ h)
      · exact .inr (compare_trans hwanted h h')

/-- What does not surpass the best number so far does not surpass the one that is kept. -/
theorem compare_extremeFrom_ne_of_best {wanted : Ordering} (hwanted : wanted ≠ .eq)
    {a best : Num} (others : List Num) (ha : a.compare best ≠ wanted) :
    a.compare (extremeFrom wanted best others) ≠ wanted := by
  rcases extremeFrom_surpasses hwanted best others with h | h
  · exact h.symm ▸ ha
  · exact fun ha' => ha (compare_trans hwanted ha' h)

/-- No number surpasses the one that is kept. -/
theorem compare_extremeFrom_ne {wanted : Ordering} (hwanted : wanted ≠ .eq) {best : Num}
    {others : List Num} {a : Num} (ha : a ∈ best :: others) :
    a.compare (extremeFrom wanted best others) ≠ wanted := by
  induction others generalizing best with
  | nil =>
    cases List.mem_singleton.mp ha
    exact fun h => compare_asymm hwanted h h
  | cons c others ih =>
    obtain ⟨hbest, hcandidate⟩ := compare_better_ne hwanted best c
    rw [extremeFrom]
    rcases List.mem_cons.mp ha with rfl | ha
    · exact compare_extremeFrom_ne_of_best hwanted others hbest
    rcases List.mem_cons.mp ha with rfl | ha
    · exact compare_extremeFrom_ne_of_best hwanted others hcandidate
    · exact ih (List.mem_cons_of_mem _ ha)

end TclHost.Num
