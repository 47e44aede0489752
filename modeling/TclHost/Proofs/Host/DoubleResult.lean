import TclHost.Host.Typed
import TclHost.Proofs.Double.ReadBack
import TclHost.Proofs.Template.GeneralForm
import TclHost.Proofs.Template.ShortForm
/-! # Doubles of the host that come back

A double that a template inserts without a directive is read as the same double again.  With an
exponent its text has the fewest digits that read back.  With the point in place it is rounded
afresh to as many places as these digits take, and without any place it is the text of an integer.
-/
namespace TclHost

open Text Double Template

/-! ## Decimals with so many places -/

theorem toInt_signedReading {n : Nat} (h : n < 2 ^ 63) (negative : Bool) :
    (Number.signedReading negative n).toInt = withSign negative (n : Int) := by
  have hread : Number.signedReading negative n = Int64.ofInt (withSign negative (n : Int)) := by
    rw [Number.signedReading, ← Int64.ofInt_eq_ofNat]
    cases negative with
    | false => rfl
    | true => exact (Int64.ofInt_neg _).symm
  have hbounds : -2 ^ 63 ≤ withSign negative (n : Int) ∧ withSign negative (n : Int) < 2 ^ 63 := by
    cases negative
    · simp only [withSign, Bool.false_eq_true, if_false]
      omega
    · simp only [withSign, if_true]
      omega
  rw [hread, Int64.toInt_ofInt_of_le hbounds.1 hbounds.2]

theorem ofInt_withSign {n : Nat} (hn : 0 < n) (negative : Bool) :
    ofInt (withSign negative (n : Int)) = ofMagnitudeBits negative (nearest n) := by
  have hsign : decide (withSign negative (n : Int) < 0) = negative := by
    cases negative <;> simp [withSign, hn]
  have habs : (withSign negative (n : Int)).natAbs = n := by
    cases negative <;> simp [withSign]
  have hvalue : (⟨n, 1⟩ : Ratio).value = n := by simp [Ratio.value]
  rw [ofInt, hsign, habs, ofRatio, Ratio.nearestBits_eq Nat.one_pos, hvalue]

theorem parseDouble_toDigits {n : Nat} (hn : 0 < n) (h : n < 2 ^ 63) (negative : Bool) :
    Number.parseDouble (String.ofList (signed negative (Nat.toDigits 10 n))) =
      .ok (ofMagnitudeBits negative (nearest n)) := by
  rw [Number.parseDouble, String.toList_ofList, trim_signed_toDigits,
    parseInt_toDigits negative (h.trans (by norm_num))]
  dsimp only
  rw [toInt_signedReading h, ofInt_withSign hn]

/-- Digits around a point are a text that no integer has. -/
theorem doubleBody_pointText {whole fraction : List Char} {bits : Nat} (hne : whole ≠ [])
    (hpoint : fraction ≠ []) (hdigits : ∀ c ∈ whole ++ fraction, isAsciiDigit c = true)
    (hread : nearest (numeral 10 (whole ++ fraction) * 10 ^ (-fraction.length : Int)) = bits) :
    DoubleBody (pointText whole fraction) bits := by
  obtain ⟨d, ds, rfl⟩ := List.exists_cons_of_ne_nil hne
  constructor
  · refine ⟨d, ?_, hdigits d List.mem_cons_self⟩
    rw [pointText, if_neg hpoint]
    rfl
  · intro c hc
    rcases mem_pointText hc with rfl | hc
    · rfl
    · exact isDoubleChar_of_isAsciiDigit (hdigits c hc)
  · left
    simp [pointText, hpoint]
  · have hnumeral := readNumeral?_pointText [] hdigits hne (by simp)
    rw [List.append_nil] at hnumeral
    refine ⟨_, hnumeral, hdigits, ?_⟩
    rw [Numeral.value, zero_sub]
    exact hread

/-- Units of a decimal place read as the double nearest to them, with places and without. -/
theorem parseDouble_fixedDigits {units places bits : Nat}
    (hread : nearest (units * 10 ^ (-places : Int)) = bits) (hunits : 0 < units)
    (hsmall : places = 0 → units < 2 ^ 63) (negative : Bool) :
    Number.parseDouble (String.ofList (signed negative (fixedDigits units places))) =
      .ok (ofMagnitudeBits negative bits) := by
  by_cases hplaces : places = 0
  · have htext : fixedDigits units places = Nat.toDigits 10 units := by
      have hlength : 0 < (Nat.toDigits 10 units).length := Nat.length_toDigits_pos
      have hzeros : 0 + 1 - (Nat.toDigits 10 units).length = 0 := by omega
      rw [hplaces, fixedDigits, decimalDigits_eq, hzeros]
      simp
    rw [hplaces] at hread
    simp only [Nat.cast_zero, neg_zero, zpow_zero, mul_one] at hread
    rw [htext, parseDouble_toDigits hunits (hsmall hplaces), hread]
  · obtain ⟨whole, fraction, htext, hne, hlength, hdigits, hnumeral⟩ := fixedDigits_eq units places
    have hpoint : fraction ≠ [] := by
      rw [← List.length_pos_iff]
      omega
    rw [htext]
    exact (doubleBody_pointText hne hpoint hdigits (by rwa [hnumeral, hlength])).parseDouble_eq
      negative

/-! ## The general form without a precision -/

section
variable {m : Nat} {e : Int}

/-- With the point in place, the magnitude is rounded to as many places as its digits take. -/
theorem parseDouble_toFixed (h : Canonical m e) (hm : 0 < m) {s : Scientific} {v : ℚ}
    (hv : 0 < v) (hs : s.Denotes v) (hread : nearest v = finiteBits m e) (hlow : -4 ≤ s.exponent)
    (hhigh : s.exponent < 6) (negative : Bool) :
    Number.parseDouble (String.ofList (signed negative ((magnitude m e).toFixed s.places))) =
      .ok (ofMagnitudeBits negative (finiteBits m e)) := by
  have hunits : v = s.units * 10 ^ (-s.places : Int) := hs.value.symm.trans s.value_eq_units
  have hlower : (10 : ℚ) ^ (-4 : Int) ≤ v :=
    (Int.zpow_le_iff_le_log (b := 10) (by decide) hv).mpr (hs.exponent ▸ hlow)
  have hupper : v < (10 : ℚ) ^ (6 : Int) :=
    (Int.lt_zpow_iff_log_lt (b := 10) (by decide) hv).mpr (hs.exponent ▸ hhigh)
  have hrounded := nearest_rounded h (hunits ▸ hlower) (hunits ▸ hread)
  rw [Ratio.toFixed_eq (den_magnitude_pos m e), value_magnitude]
  generalize halfEven ((m : ℚ) * 2 ^ e / 10 ^ (-s.places : Int)) = units at hrounded
  have hpos : 0 < units := by
    rw [Nat.pos_iff_ne_zero]
    rintro rfl
    rw [Nat.cast_zero, zero_mul, finiteBits] at hrounded
    have hzero : nearest 0 = 0 := rfl
    omega
  refine parseDouble_fixedDigits hrounded hpos (fun hplaces => ?_) negative
  rw [hplaces] at hrounded
  simp only [Nat.cast_zero, neg_zero, zpow_zero, mul_one] at hrounded
  have hle := le_of_nearest h hm hv hread (Nat.cast_pos.mpr hpos) hrounded
  have hlt : (units : ℚ) < (2 ^ 63 : Nat) :=
    calc (units : ℚ) ≤ 3 * v := hle
      _ < 3 * 10 ^ (6 : Int) := mul_lt_mul_of_pos_left hupper (by norm_num)
      _ ≤ (2 ^ 63 : Nat) := by norm_num
  exact_mod_cast hlt

theorem parseDouble_generalMagnitude (h : Canonical m e) (hm : 0 < m) (negative : Bool) :
    Number.parseDouble (String.ofList (signed negative (generalMagnitude m e none false))) =
      .ok (ofMagnitudeBits negative (finiteBits m e)) := by
  have hreads := (shortest_readsBack h hm).trimZeros
  obtain ⟨v, hv, hshortest⟩ := exists_shortest_denotes h hm
  have hdenotes := hshortest.trimZeros
  generalize hs : (shortest m e).trimZeros = s at hreads hdenotes
  have hread : nearest v = finiteBits m e := hdenotes.value ▸ hreads.nearest
  have htext : generalMagnitude m e none false =
      if s.exponent < -4 ∨ 6 ≤ s.exponent then s.mantissa ++ 'e' :: exponentText s.exponent
      else (magnitude m e).toFixed s.places := by
    rw [← hs, generalMagnitude, if_neg hm.ne']
    rfl
  rw [htext]
  split
  · exact (doubleBody_scientific hreads).parseDouble_eq negative
  · next hplain =>
    exact parseDouble_toFixed h hm hv hdenotes hread (by omega) (by omega) negative

end

/-- The default text of a finite double reads as that double; a negative zero has no sign. -/
theorem parseDouble_generalText {x : Float} {q : ℚ} (hx : rational? x = some q) :
    Number.parseDouble (generalText x none false) =
      .ok (if q = 0 then ofMagnitudeBits false 0 else x) := by
  obtain ⟨hdatum, -⟩ | ⟨negative, hdatum, -⟩ | ⟨negative, m, e, hdatum, hcanonical, hvalue⟩ :=
    datum_cases x
  · rw [rational?, hdatum] at hx
    cases hx
  · rw [rational?, hdatum] at hx
    cases hx
  · rw [rational?_of_datum hdatum] at hx
    cases hx
    rw [generalText, hdatum]
    rcases Nat.eq_zero_or_pos m with rfl | hm
    · have hzero : withSign negative (((0 : Nat) : ℚ) * 2 ^ e) = 0 := by
        cases negative <;> simp [withSign]
      have hbody : generalMagnitude 0 e none false = ['0'] := if_pos rfl
      rw [if_pos hzero]
      simp only [hbody, ne_eq, not_true_eq_false, and_false, if_false]
      rfl
    · have hne : withSign negative ((m : ℚ) * 2 ^ e) ≠ 0 := by
        have hpos : (0 : ℚ) < m * 2 ^ e :=
          mul_pos (Nat.cast_pos.mpr hm) (zpow_pos (by norm_num) e)
        cases negative <;> simp [withSign, hpos.ne']
      have hbody : (if negative ∧ m ≠ 0 then '-' :: generalMagnitude m e none false
          else generalMagnitude m e none false) =
            signed negative (generalMagnitude m e none false) := by
        simp [signed, hm.ne']
      dsimp only
      rw [if_neg hne, hbody, parseDouble_generalMagnitude hcanonical hm, ← hvalue]

/-! ## Doubles of the host -/

namespace Host

theorem extract_double {text : String} {x : Float} (hread : Number.parseDouble text = .ok x)
    (engine : Engine) : (engine.extract text .f64).1 = .ok (.double x) := by
  have hkind : HostType.f64.kind = .float := rfl
  have htyped : HostType.f64.ofTyped (.float x) = .ok (.double x) := rfl
  simp only [Engine.extract, Engine.coerce.eq_def, hkind, hread, Engine.reading, htyped]

/-- A finite double that a placeholder without a directive writes is read as the same double again,
by the reader of numbers and as a typed result; only a negative zero loses its sign. -/
theorem double_written_and_read {x : Float} {q : ℚ} (hx : rational? x = some q) :
    ∃ y, (q ≠ 0 → y = x) ∧ (q = 0 → y = ofMagnitudeBits false 0) ∧
      Number.parseDouble (Arg.float x).text = .ok y ∧
      ∃ text, expand "%\x7b\x7d" (.positional [.float x]) = .ok text ∧
        ∀ engine : Engine, (engine.extract text .f64).1 = .ok (.double y) := by
  have hread : Number.parseDouble (Arg.float x).text =
      .ok (if q = 0 then ofMagnitudeBits false 0 else x) := parseDouble_generalText hx
  refine ⟨if q = 0 then ofMagnitudeBits false 0 else x, fun hq => if_neg hq, fun hq => if_pos hq,
    hread, (Arg.float x).text, ?_, extract_double hread⟩
  have hresolve : resolve (String.ofList []) (.positional [.float x]) 0 = .ok (.float x, 1) := rfl
  have hinsertion : insertion (if ([] : List Char) = [] then none else some (String.ofList []))
      (.float x) = .ok (Arg.float x).text := rfl
  have hexpand := expandPieces_placeholder (by simp) (by simp) (by simp) hresolve hinsertion "" []
  have htemplate : "%\x7b\x7d".toList = placeholderWith [] [] ++ [] := rfl
  rw [expand, expandInto, htemplate, hexpand]
  simp [pieces, expandPieces]

/-- The double nearest to minus a tenth, which is no decimal of so few places. -/
def minusTenth : Float :=
  ofMagnitudeBits true (finiteBits 7205759403792794 (-56))

theorem double_written_and_read_minusTenth :
    ∃ q, rational? minusTenth = some q ∧ q ≠ 0 ∧
      Number.parseDouble (Arg.float minusTenth).text = .ok minusTenth ∧
      ∃ text, expand "%\x7b\x7d" (.positional [.float minusTenth]) = .ok text ∧
        ∀ engine : Engine, (engine.extract text .f64).1 = .ok (.double minusTenth) := by
  have hcanonical : Canonical 7205759403792794 (-56) :=
    ⟨by decide, by decide, by decide, .inr (by decide)⟩
  have hx : rational? minusTenth = _ :=
    rational?_of_datum (datum_ofMagnitudeBits true hcanonical)
  have hq : withSign true (((7205759403792794 : Nat) : ℚ) * 2 ^ (-56 : Int)) ≠ 0 := by
    norm_num [withSign]
  obtain ⟨y, hy, -, hread, text, hexpand, hextract⟩ := double_written_and_read hx
  cases hy hq
  exact ⟨_, hx, hq, hread, text, hexpand, hextract⟩

end Host

end TclHost
