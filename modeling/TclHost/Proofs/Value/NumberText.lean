import TclHost.Proofs.Value.Reading
/-! # The texts of numbers

The text of a double has five layouts: the words for what is not finite, zero, scientific notation,
and positional notation with digits after the point or a zero put there.  In each of them it reads
as that double, and never as an integer.  The text of an integer reads as that integer.
-/
namespace TclHost

open Text Double

section
variable {s : Scientific} {bits : Nat}

/-! ## Scientific notation -/

theorem isDoubleChar_exponentText {e : Int} : ∀ c ∈ exponentText e, isDoubleChar c = true := by
  intro c hc
  rw [exponentText, List.mem_cons, List.mem_append] at hc
  rcases hc with rfl | hc | hc
  · split <;> rfl
  · exact isDoubleChar_of_isAsciiDigit (isAsciiDigit_zeros _ c hc)
  · exact isDoubleChar_of_isAsciiDigit (isAsciiDigit_of_mem_toDigits hc)

theorem mantissa_eq (h : s.digits ≠ []) :
    ∃ d ds, d ∈ s.digits ∧ s.mantissa = d :: ds ∧ ∀ c ∈ ds, c = '.' ∨ c ∈ s.digits := by
  unfold Scientific.mantissa
  split
  · next hnil => exact absurd hnil h
  · next d hd => exact ⟨d, [], by simp [hd], rfl, by simp⟩
  · next d ds hne hd =>
    refine ⟨d, '.' :: ds, by simp [hd], rfl, fun c hc => ?_⟩
    rw [hd]
    rcases List.mem_cons.mp hc with hc | hc
    · exact .inl hc
    · exact .inr (List.mem_cons_of_mem d hc)

theorem mantissa_eq_pointText {d : Char} {ds : List Char} (h : s.digits = d :: ds) :
    s.mantissa = pointText [d] ds := by
  rw [Scientific.mantissa, h, pointText]
  cases ds <;> rfl

theorem readNumeral?_scientific {mark : Char} (hmark : mark = 'e' ∨ mark = 'E')
    (hdigits : ∀ d ∈ s.digits, isAsciiDigit d = true) (hne : s.digits ≠ [])
    (hlimit : s.exponent.natAbs < exponentLimit) :
    ∃ n, readNumeral? (s.mantissa ++ mark :: exponentText s.exponent) = some n ∧
      n.digits = s.digits ∧ n.value = s.value := by
  obtain ⟨d, ds, hds⟩ := List.exists_cons_of_ne_nil hne
  have hstop : ∀ c ∈ (mark :: exponentText s.exponent).head?, isAsciiDigit c = false ∧ c ≠ '.' := by
    rcases hmark with rfl | rfl <;> simp [isAsciiDigit]
  have hmem : ∀ c ∈ [d] ++ ds, isAsciiDigit c = true := by
    rw [hds] at hdigits
    exact hdigits
  have hread := readNumeral?_pointText (mark :: exponentText s.exponent) hmem (by simp) hstop
  rw [readExponent?_exponentText hmark hlimit] at hread
  refine ⟨_, (mantissa_eq_pointText hds).symm ▸ hread, hds.symm, ?_⟩
  rw [Numeral.value, Scientific.value, hds, List.length_cons]
  congr 2
  push_cast
  ring

theorem readsNearest_scientific (h : s.ReadsBack bits) :
    ReadsNearest (s.mantissa ++ 'e' :: exponentText s.exponent) bits := by
  have hlimit : s.exponent.natAbs < exponentLimit := by
    have hlower := h.lower
    have hupper := h.upper
    rw [exponentLimit]
    omega
  obtain ⟨n, hread, hdigits, hvalue⟩ := readNumeral?_scientific (.inl rfl) h.digits h.ne_nil hlimit
  exact ⟨n, hread, hdigits ▸ h.digits, hvalue ▸ h.nearest⟩

theorem doubleBody_scientific (h : s.ReadsBack bits) :
    DoubleBody (s.mantissa ++ 'e' :: exponentText s.exponent) bits := by
  have hreads := readsNearest_scientific h
  have hdigits := h.digits
  obtain ⟨d, ds, hd, hmantissa, hds⟩ := mantissa_eq h.ne_nil
  rw [hmantissa] at hreads ⊢
  refine ⟨⟨d, rfl, hdigits d hd⟩, fun c hc => ?_, .inr (by simp), hreads⟩
  rcases List.mem_append.mp hc with hc | hc
  · rcases List.mem_cons.mp hc with rfl | hc
    · exact isDoubleChar_of_isAsciiDigit (hdigits c hd)
    · rcases hds c hc with rfl | hc
      · rfl
      · exact isDoubleChar_of_isAsciiDigit (hdigits c hc)
  · rcases List.mem_cons.mp hc with rfl | hc
    · rfl
    · exact isDoubleChar_exponentText c hc

/-! ## Positional notation -/

theorem positional_below_one (hneg : s.exponent < 0) :
    s.positional = '0' :: '.' :: (List.replicate (-s.exponent - 1).toNat '0' ++ s.digits) := by
  rw [Scientific.positional, if_pos hneg]

theorem positional_whole (hnonneg : ¬s.exponent < 0)
    (hlen : s.digits.length ≤ s.exponent.toNat + 1) :
    s.positional =
      s.digits ++ List.replicate (s.exponent.toNat + 1 - s.digits.length) '0' := by
  have hdrop : (s.digits ++ List.replicate (s.exponent.toNat + 1 - s.digits.length) '0').drop
      (s.exponent.toNat + 1) = [] := by
    rw [List.drop_eq_nil_iff, List.length_append, List.length_replicate]
    omega
  rw [Scientific.positional, if_neg hnonneg]
  simp only [hdrop]

theorem positional_point (hnonneg : ¬s.exponent < 0)
    (hlen : s.exponent.toNat + 1 < s.digits.length) :
    s.positional = s.digits.take (s.exponent.toNat + 1) ++
      '.' :: s.digits.drop (s.exponent.toNat + 1) := by
  have hzeros : List.replicate (s.exponent.toNat + 1 - s.digits.length) '0' = [] := by
    rw [Nat.sub_eq_zero_of_le (Nat.le_of_lt hlen)]
    rfl
  rw [Scientific.positional, if_neg hnonneg]
  simp only [hzeros, List.append_nil]
  cases hdrop : s.digits.drop (s.exponent.toNat + 1) with
  | nil => exact absurd (List.drop_eq_nil_iff.mp hdrop) (Nat.not_le_of_gt hlen)
  | cons c cs => rfl

def pointed (s : Scientific) : List Char :=
  if s.positional.contains '.' then s.positional else s.positional ++ ['.', '0']

theorem pointed_eq (h : s.ReadsBack bits) :
    ∃ whole fraction, pointed s = whole ++ '.' :: fraction ∧ whole ≠ [] ∧
      (∀ c ∈ whole ++ fraction, isAsciiDigit c = true) ∧
      (numeral 10 (whole ++ fraction) : ℚ) * 10 ^ (-(fraction.length : Int)) = s.value := by
  have hdigits := h.digits
  rw [Scientific.value, pointed]
  by_cases hneg : s.exponent < 0
  · refine ⟨['0'], List.replicate (-s.exponent - 1).toNat '0' ++ s.digits, ?_, by simp, ?_, ?_⟩
    · rw [positional_below_one hneg, if_pos (by simp)]
      rfl
    · rw [← List.append_assoc]
      exact List.forall_mem_append.mpr ⟨isAsciiDigit_zeros ((-s.exponent - 1).toNat + 1), hdigits⟩
    · have hzeros := numeral_replicate_append 10 ((-s.exponent - 1).toNat + 1) s.digits
      rw [← List.append_assoc, List.length_append, List.length_replicate]
      refine (congrArg (fun n : Nat => (n : ℚ) * _) hzeros).trans ?_
      congr 2
      omega
  · rcases Nat.lt_or_ge (s.exponent.toNat + 1) s.digits.length with hlen | hlen
    · refine ⟨s.digits.take (s.exponent.toNat + 1), s.digits.drop (s.exponent.toNat + 1), ?_, ?_,
        ?_, ?_⟩
      · rw [positional_point hneg hlen, if_pos (by simp)]
      · simp [h.ne_nil]
      · rw [List.take_append_drop]
        exact hdigits
      · rw [List.take_append_drop, List.length_drop]
        congr 2
        omega
    · have hpadded (k : Nat) := List.forall_mem_append.mpr ⟨hdigits, isAsciiDigit_zeros k⟩
      have hno (k : Nat) : ¬(s.digits ++ List.replicate k '0').contains '.' = true := fun hdot =>
        absurd (hpadded k '.' (List.contains_iff_mem.mp hdot)) (by decide)
      refine ⟨s.digits ++ List.replicate (s.exponent.toNat + 1 - s.digits.length) '0', ['0'], ?_,
        ?_, ?_, ?_⟩
      · rw [positional_whole hneg hlen, if_neg (hno _)]
      · simp [h.ne_nil]
      · rw [List.append_assoc, ← List.replicate_succ']
        exact hpadded _
      · rw [List.append_assoc, ← List.replicate_succ', numeral_append_replicate]
        push_cast
        rw [mul_assoc, ← zpow_natCast, ← zpow_add₀ (by norm_num)]
        congr 2
        rw [List.length_singleton]
        omega

theorem doubleBody_pointed (h : s.ReadsBack bits) : DoubleBody (pointed s) bits := by
  obtain ⟨whole, fraction, htext, hne, hdigits, hvalue⟩ := pointed_eq h
  have hparts := List.forall_mem_append.mp hdigits
  have hread := readNumeral?_point [] hparts.1 hparts.2 (.inl hne) (by simp)
  rw [List.append_nil] at hread
  have hnearest : ReadsNearest (pointed s) bits := by
    refine ⟨_, htext ▸ hread, hdigits, ?_⟩
    rw [← h.nearest, Numeral.value, ← hvalue, zero_sub]
  obtain ⟨d, ds, rfl⟩ := List.exists_cons_of_ne_nil hne
  rw [htext] at hnearest ⊢
  refine ⟨⟨d, rfl, hdigits d List.mem_cons_self⟩, fun c hc => ?_, .inl (by simp), hnearest⟩
  rcases List.mem_append.mp hc with hc | hc
  · exact isDoubleChar_of_isAsciiDigit (hdigits c (List.mem_append_left _ hc))
  · rcases List.mem_cons.mp hc with rfl | hc
    · rfl
    · exact isDoubleChar_of_isAsciiDigit (hdigits c (List.mem_append_right _ hc))

end

/-! ## Doubles -/

theorem doubleBody_magnitudeText {m : Nat} {e : Int} (h : Canonical m e) (hm : 0 < m) :
    DoubleBody (magnitudeText m e) (finiteBits m e) := by
  have hreads := shortest_readsBack h hm
  rw [magnitudeText]
  split
  · exact doubleBody_scientific hreads
  · exact doubleBody_pointed hreads

theorem doubleBody_zero : DoubleBody ['0', '.', '0'] 0 where
  head := ⟨'0', rfl, rfl⟩
  chars := by simp [isDoubleChar, isAsciiDigit]
  marked := .inl (by simp)
  reads := by
    have hvalue : (⟨['0', '0'], 1, 0⟩ : Numeral).value = 0 := zero_mul _
    exact ⟨_, rfl, isAsciiDigit_zeros 2, (congrArg nearest hvalue).trans (if_pos rfl)⟩

/-- The text of a double reads as that double, and not as an integer. -/
theorem parseDouble_doubleText (x : Float) :
    (∃ error, Number.parseInt (doubleText x) = .error error) ∧
      Number.parseDouble (doubleText x) = .ok x := by
  rw [doubleText]
  obtain ⟨hdatum, hx⟩ | ⟨negative, hdatum, hx⟩ | ⟨negative, m, e, hdatum, hcanonical, hx⟩ :=
    datum_cases x
  · rw [hdatum, hx]
    exact ⟨⟨_, rfl⟩, rfl⟩
  · rw [hdatum, hx]
    cases negative with
    | false => exact ⟨⟨_, rfl⟩, rfl⟩
    | true => exact ⟨⟨_, rfl⟩, rfl⟩
  · rw [hdatum, hx]
    have hbody : DoubleBody (if m = 0 then ['0', '.', '0'] else magnitudeText m e)
        (finiteBits m e) := by
      rcases Nat.eq_zero_or_pos m with rfl | hm
      · obtain rfl : e = -1074 := hcanonical.full.resolve_right (by decide)
        exact doubleBody_zero
      · rw [if_neg (Nat.ne_of_gt hm)]
        exact doubleBody_magnitudeText hcanonical hm
    exact ⟨hbody.parseInt_eq_error negative, hbody.parseDouble_eq negative⟩

/-! ## Integers -/

theorem intText_eq (n : Int64) :
    intText n = String.ofList (signed (n.toInt < 0) (Nat.toDigits 10 n.toInt.natAbs)) := by
  rw [intText]
  generalize n.toInt = k
  cases k with
  | ofNat k => exact Nat.toString_eq_ofList_toDigits
  | negSucc k =>
    change "-" ++ (k + 1).repr = _
    rw [Nat.repr_eq_ofList_toDigits]
    apply String.toList_inj.mp
    simp [signed, Int.negSucc_lt_zero]

theorem signedReading_natAbs (n : Int64) :
    Number.signedReading (n.toInt < 0) n.toInt.natAbs = n := by
  rw [Number.signedReading, ← Int64.ofInt_eq_ofNat]
  split
  · next hneg =>
    have hlt : n.toInt < 0 := of_decide_eq_true hneg
    have hn : -(n.toInt.natAbs : Int) = n.toInt := by omega
    rw [← Int64.ofInt_neg, hn, Int64.ofInt_toInt]
  · next hnonneg =>
    have hle : ¬n.toInt < 0 := fun hlt => hnonneg (decide_eq_true hlt)
    have hn : (n.toInt.natAbs : Int) = n.toInt := by omega
    rw [hn, Int64.ofInt_toInt]

theorem parseInt_intText (n : Int64) : Number.parseInt (intText n) = .ok n := by
  have hlt : n.toInt.natAbs < 2 ^ 64 := by
    have hlower := n.le_toInt
    have hupper := n.toInt_lt
    omega
  rw [intText_eq, parseInt_toDigits _ hlt, signedReading_natAbs]

theorem parseDouble_intText (n : Int64) :
    Number.parseDouble (intText n) = .ok (Double.ofInt n.toInt) := by
  have htrim : trim (intText n).toList = (intText n).toList := by
    rw [intText_eq, String.toList_ofList]
    exact trim_signed_toDigits _ _
  rw [Number.parseDouble, htrim, String.ofList_toList, parseInt_intText]

theorem isZero_ofInt (k : Int) : Double.isZero (Double.ofInt k) = (k == 0) := by
  have hden : 0 < (⟨k.natAbs, 1⟩ : Ratio).den := Nat.one_pos
  have hvalue : (⟨k.natAbs, 1⟩ : Ratio).value = k.natAbs := by simp [Ratio.value]
  have hbits := nearest_le (k.natAbs : ℚ)
  rw [Double.isZero, Double.ofInt, ofRatio, Ratio.nearestBits_eq hden, hvalue,
    rank?_ofMagnitudeBits _ hbits]
  by_cases hk : k = 0
  · rw [hk]
    rfl
  · have hone : (1 : ℚ) ≤ k.natAbs := by
      exact_mod_cast Nat.one_le_iff_ne_zero.mpr (Int.natAbs_ne_zero.mpr hk)
    have hne := nearest_ne_zero ((zpow_le_one_of_nonpos₀ (by norm_num) (by norm_num)).trans hone)
    rw [beq_eq_false_iff_ne.mpr hk]
    simp only [beq_eq_false_iff_ne, ne_eq, Option.some.injEq]
    split <;> omega

end TclHost
