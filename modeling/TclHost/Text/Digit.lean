/-! # Digits

The value of an ASCII digit in a radix of at most 16, numerals in such a radix, and the
Unicode decimal digits, which a directive's counts admit by shape.
-/
namespace TclHost.Text

def hexValue? (c : Char) : Option Nat :=
  if '0' ≤ c && c ≤ '9' then some (c.toNat - '0'.toNat)
  else if 'a' ≤ c && c ≤ 'f' then some (c.toNat - 'a'.toNat + 10)
  else if 'A' ≤ c && c ≤ 'F' then some (c.toNat - 'A'.toNat + 10)
  else none

def digitValue? (radix : Nat) (c : Char) : Option Nat :=
  (hexValue? c).filter (· < radix)

def isDigitOf (radix : Nat) (c : Char) : Bool :=
  (digitValue? radix c).isSome

def isAsciiDigit (c : Char) : Bool :=
  '0' ≤ c && c ≤ '9'

def isAsciiLetter (c : Char) : Bool :=
  ('a' ≤ c && c ≤ 'z') || ('A' ≤ c && c ≤ 'Z')

def numeralFrom (radix start : Nat) (ds : List Char) : Nat :=
  ds.foldl (fun n c => n * radix + (hexValue? c).getD 0) start

def numeral (radix : Nat) (ds : List Char) : Nat :=
  numeralFrom radix 0 ds

/-- What is read before the digits counts for as many places as there are digits. -/
theorem numeralFrom_eq (radix start : Nat) (ds : List Char) :
    numeralFrom radix start ds = start * radix ^ ds.length + numeral radix ds := by
  induction ds generalizing start with
  | nil => simp [numeral, numeralFrom]
  | cons c ds ih =>
    have step (n : Nat) : numeralFrom radix n (c :: ds)
        = numeralFrom radix (n * radix + (hexValue? c).getD 0) ds := rfl
    rw [numeral, step, step, ih, ih (0 * radix + _), List.length_cons, Nat.pow_succ']
    simp only [Nat.add_mul, Nat.mul_assoc, Nat.zero_mul, Nat.zero_add, Nat.add_assoc]

theorem numeral_append (radix : Nat) (front back : List Char) :
    numeral radix (front ++ back)
      = numeral radix front * radix ^ back.length + numeral radix back := by
  rw [← numeralFrom_eq]
  simp only [numeral, numeralFrom, List.foldl_append]

theorem hexValue?_digitChar : ∀ n < 16, hexValue? n.digitChar = some n := by
  decide

theorem isDigitOf_digitChar {radix n : Nat} (h : radix ≤ 16) (hn : n < radix) :
    isDigitOf radix n.digitChar = true := by
  simp [isDigitOf, digitValue?, hexValue?_digitChar n (by omega), hn]

theorem isDigitOf_of_mem_toDigits {radix : Nat} (h : 1 < radix) (h' : radix ≤ 16) (n : Nat) :
    ∀ d ∈ Nat.toDigits radix n, isDigitOf radix d = true := by
  induction n using Nat.strongRecOn with
  | ind n ih =>
    intro d hd
    by_cases hn : n < radix
    · rw [Nat.toDigits_of_lt_base hn, List.mem_singleton] at hd
      rw [hd]
      exact isDigitOf_digitChar h' hn
    · have hdiv : n / radix < n := Nat.div_lt_self (by omega) h
      rw [Nat.toDigits_of_base_le h (by omega), List.mem_append, List.mem_singleton] at hd
      rcases hd with hd | rfl
      · exact ih (n / radix) hdiv d hd
      · exact isDigitOf_digitChar h' (Nat.mod_lt n (by omega))

theorem numeral_toDigits {radix : Nat} (h : 1 < radix) (h' : radix ≤ 16) (n : Nat) :
    numeral radix (Nat.toDigits radix n) = n := by
  have hdigit (k : Nat) (hk : k < radix) : numeral radix [k.digitChar] = k := by
    simp [numeral, numeralFrom, hexValue?_digitChar k (by omega)]
  induction n using Nat.strongRecOn with
  | ind n ih =>
    by_cases hn : n < radix
    · rw [Nat.toDigits_of_lt_base hn, hdigit n hn]
    · have hdiv : n / radix < n := Nat.div_lt_self (by omega) h
      rw [Nat.toDigits_of_base_le h (by omega), numeral_append, ih (n / radix) hdiv,
        hdigit _ (Nat.mod_lt n (by omega)), List.length_singleton, Nat.pow_one,
        Nat.div_add_mod']

theorem numeral_replicate_append (radix k : Nat) (ds : List Char) :
    numeral radix (List.replicate k '0' ++ ds) = numeral radix ds := by
  have hzeros : numeral radix (List.replicate k '0') = 0 := by
    induction k with
    | zero => rfl
    | succ k ih =>
      have hzero : hexValue? '0' = some 0 := by decide
      simpa [numeral, numeralFrom, List.replicate_succ, hzero] using ih
  simp [numeral_append, hzeros]

theorem hexValue?_of_isAsciiDigit {c : Char} (h : isAsciiDigit c = true) :
    hexValue? c = some (c.toNat - '0'.toNat) := by
  rw [isAsciiDigit] at h
  rw [hexValue?, if_pos h]

theorem toNat_of_isAsciiDigit {c : Char} (h : isAsciiDigit c = true) :
    48 ≤ c.toNat ∧ c.toNat ≤ 57 := by
  simp only [isAsciiDigit, Bool.and_eq_true, decide_eq_true_eq] at h
  exact h

theorem toNat_of_isAsciiLetter {c : Char} (h : isAsciiLetter c = true) :
    97 ≤ c.toNat ∧ c.toNat ≤ 122 ∨ 65 ≤ c.toNat ∧ c.toNat ≤ 90 := by
  simp only [isAsciiLetter, Bool.or_eq_true, Bool.and_eq_true, decide_eq_true_eq] at h
  exact h

theorem isAsciiDigit_or_isAsciiLetter_of_isDigitOf {radix : Nat} {c : Char}
    (h : isDigitOf radix c = true) : isAsciiDigit c = true ∨ isAsciiLetter c = true := by
  have hvalue : (hexValue? c).isSome = true := by
    cases hc : hexValue? c with
    | none => simp [isDigitOf, digitValue?, hc] at h
    | some n => rfl
  have hf : ('f' : Char) ≤ 'z' ∧ ('F' : Char) ≤ 'Z' := by decide
  unfold hexValue? at hvalue
  split at hvalue
  · next hdigit => exact .inl hdigit
  · right
    simp only [isAsciiLetter, Bool.or_eq_true, Bool.and_eq_true, decide_eq_true_eq]
    split at hvalue
    · next hlower =>
      simp only [Bool.and_eq_true, decide_eq_true_eq] at hlower
      exact .inl ⟨hlower.1, Char.le_trans hlower.2 hf.1⟩
    · split at hvalue
      · next hupper =>
        simp only [Bool.and_eq_true, decide_eq_true_eq] at hupper
        exact .inr ⟨hupper.1, Char.le_trans hupper.2 hf.2⟩
      · cases hvalue

theorem isDigitOf_ten (c : Char) : isDigitOf 10 c = isAsciiDigit c := by
  cases h : isAsciiDigit c with
  | true =>
    obtain ⟨hlower, hupper⟩ := toNat_of_isAsciiDigit h
    have hvalue : c.toNat - 48 < 10 := by omega
    simp [isDigitOf, digitValue?, hexValue?_of_isAsciiDigit h, hvalue]
  | false =>
    rw [isAsciiDigit] at h
    rw [isDigitOf, digitValue?, hexValue?, if_neg (by simp [h])]
    split
    · simp
    · split
      · simp
      · rfl

theorem isAsciiDigit_of_isDigitOf {radix : Nat} (hradix : radix ≤ 10) {c : Char}
    (h : isDigitOf radix c = true) : isAsciiDigit c = true := by
  rw [← isDigitOf_ten]
  cases hc : hexValue? c with
  | none => simp [isDigitOf, digitValue?, hc] at h
  | some n =>
    have hn : n < radix := by simpa [isDigitOf, digitValue?, hc, Option.filter] using h
    simp [isDigitOf, digitValue?, hc, Option.filter, Nat.lt_of_lt_of_le hn hradix]

theorem numeral_cons {c : Char} (h : isAsciiDigit c = true) (radix : Nat) (ds : List Char) :
    numeral radix (c :: ds) = (c.toNat - '0'.toNat) * radix ^ ds.length + numeral radix ds := by
  rw [← List.singleton_append, numeral_append]
  simp [numeral, numeralFrom, hexValue?_of_isAsciiDigit h]

theorem isAsciiDigit_of_mem_toDigits {n : Nat} {d : Char} (h : d ∈ Nat.toDigits 10 n) :
    isAsciiDigit d = true :=
  (isDigitOf_ten d).symm.trans (isDigitOf_of_mem_toDigits (by decide) (by decide) n d h)

/-- A number lies between the powers of ten that its digits count. -/
theorem length_toDigits_bounds {n : Nat} (hn : n ≠ 0) :
    10 ^ ((Nat.toDigits 10 n).length - 1) ≤ n ∧ n < 10 ^ (Nat.toDigits 10 n).length := by
  have hpos : 0 < (Nat.toDigits 10 n).length := Nat.length_toDigits_pos
  constructor
  · by_cases hone : (Nat.toDigits 10 n).length - 1 = 0
    · rw [hone, Nat.pow_zero]
      exact Nat.pos_of_ne_zero hn
    · have hle := Nat.length_toDigits_le_iff (n := n) (b := 10) (by decide)
        (Nat.pos_of_ne_zero hone)
      exact Nat.le_of_not_lt fun hlt => absurd (hle.mpr hlt) (by omega)
  · exact (Nat.length_toDigits_le_iff (by decide) hpos).mp (Nat.le_refl _)

theorem numeral_lt {ds : List Char} (h : ∀ d ∈ ds, isAsciiDigit d = true) :
    numeral 10 ds < 10 ^ ds.length := by
  induction ds with
  | nil => exact Nat.one_pos
  | cons d ds ih =>
    have hd := h d List.mem_cons_self
    obtain ⟨-, hupper⟩ := toNat_of_isAsciiDigit hd
    have hds := ih fun c hc => h c (List.mem_cons_of_mem d hc)
    have hvalue : d.toNat - '0'.toNat ≤ 9 := Nat.sub_le_of_le_add hupper
    calc numeral 10 (d :: ds)
        = (d.toNat - '0'.toNat) * 10 ^ ds.length + numeral 10 ds := numeral_cons hd 10 ds
      _ < 9 * 10 ^ ds.length + 10 ^ ds.length :=
        Nat.add_lt_add_of_le_of_lt (Nat.mul_le_mul_right _ hvalue) hds
      _ = 10 ^ (d :: ds).length := by
        rw [List.length_cons, Nat.pow_succ]
        omega

/-- A numeral that does not start with a zero denotes at least the power of ten with as many zeros
as digits follow. -/
theorem le_numeral {d : Char} {ds : List Char} (hd : isAsciiDigit d = true) (hzero : d ≠ '0') :
    10 ^ ds.length ≤ numeral 10 (d :: ds) := by
  obtain ⟨hlower, -⟩ := toNat_of_isAsciiDigit hd
  have hne : d.toNat ≠ '0'.toNat := fun h => hzero (Char.toNat_inj.mp h)
  have hvalue : 1 ≤ d.toNat - '0'.toNat := by
    have hnat : '0'.toNat = 48 := rfl
    omega
  rw [numeral_cons hd]
  exact Nat.le_add_right_of_le (Nat.le_mul_of_pos_left _ hvalue)

theorem numeral_append_replicate (radix k : Nat) (ds : List Char) :
    numeral radix (ds ++ List.replicate k '0') = numeral radix ds * radix ^ k := by
  have hzeros := numeral_replicate_append radix k []
  rw [List.append_nil] at hzeros
  rw [numeral_append, hzeros, List.length_replicate]
  rfl

theorem numeral_dropWhile (radix : Nat) (ds : List Char) :
    numeral radix (ds.dropWhile (· == '0')) = numeral radix ds := by
  induction ds with
  | nil => rfl
  | cons d ds ih =>
    rw [List.dropWhile_cons]
    split
    · next h =>
      rw [ih, beq_iff_eq.mp h, numeral_cons (by decide)]
      simp
    · rfl

theorem isAsciiDigit_zeros (k : Nat) : ∀ d ∈ List.replicate k '0', isAsciiDigit d = true := by
  intro d hd
  rw [List.eq_of_mem_replicate hd]
  rfl

/-- The number a string of digits denotes in a radix, read in halves as often as the depth
says.  On long strings this saves most of the work of reading digit by digit. -/
def numeralByHalves (radix : Nat) : Nat → List Char → Nat
  | 0, ds => numeral radix ds
  | depth + 1, ds =>
    let (front, back) := ds.splitAt (ds.length / 2)
    numeralByHalves radix depth front * radix ^ back.length + numeralByHalves radix depth back

theorem numeralByHalves_eq (radix depth : Nat) (ds : List Char) :
    numeralByHalves radix depth ds = numeral radix ds := by
  induction depth generalizing ds with
  | zero => rfl
  | succ depth ih =>
    rw [numeralByHalves, List.splitAt_eq]
    simp only [ih, ← numeral_append, List.take_append_drop]

def longNumeral (radix : Nat) (ds : List Char) : Nat :=
  numeralByHalves radix (ds.length.log2 - 6) ds

@[simp] theorem longNumeral_eq (radix : Nat) (ds : List Char) :
    longNumeral radix ds = numeral radix ds :=
  numeralByHalves_eq radix _ ds

/-- The first digits of the blocks of ten that hold the Unicode decimal digits beyond ASCII. -/
private def decimalZeros : List Nat :=
  [0x660, 0x6F0, 0x7C0, 0x966, 0x9E6, 0xA66, 0xAE6, 0xB66, 0xBE6, 0xC66, 0xCE6, 0xD66, 0xDE6,
   0xE50, 0xED0, 0xF20, 0x1040, 0x1090, 0x17E0, 0x1810, 0x1946, 0x19D0, 0x1A80, 0x1A90, 0x1B50,
   0x1BB0, 0x1C40, 0x1C50, 0xA620, 0xA8D0, 0xA900, 0xA9D0, 0xA9F0, 0xAA50, 0xABF0, 0xFF10,
   0x104A0, 0x10D30, 0x10D40, 0x11066, 0x110F0, 0x11136, 0x111D0, 0x112F0, 0x11450, 0x114D0,
   0x11650, 0x116C0, 0x116D0, 0x116DA, 0x11730, 0x118E0, 0x11950, 0x11BF0, 0x11C50, 0x11D50,
   0x11DA0, 0x11F50, 0x16130, 0x16A60, 0x16AC0, 0x16B50, 0x16D70, 0x1CCF0, 0x1D7CE, 0x1D7D8,
   0x1D7E2, 0x1D7EC, 0x1D7F6, 0x1E140, 0x1E2F0, 0x1E4F0, 0x1E5F1, 0x1E950, 0x1FBF0]

def isDecimalDigit (c : Char) : Bool :=
  isAsciiDigit c || (0x80 ≤ c.toNat && decimalZeros.any fun z => z ≤ c.toNat && c.toNat ≤ z + 9)

theorem isDecimalDigit_of_isAsciiDigit {c : Char} (h : isAsciiDigit c = true) :
    isDecimalDigit c = true := by
  simp [isDecimalDigit, h]

end TclHost.Text
