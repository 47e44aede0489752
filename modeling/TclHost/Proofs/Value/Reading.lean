import TclHost.Proofs.Double.Numeral
import TclHost.Proofs.Double.Shortest
/-! # Reading the texts of numbers

A text of a number is a body with a minus sign in front or none.  The body of a double starts with
a digit and has a point or an exponent, so that the reader of integers refuses it, in whichever
radix, and the reader of doubles takes it for the decimal numeral that it is.
-/
namespace TclHost

open Text Double

def signed (negative : Bool) (body : List Char) : List Char :=
  if negative then '-' :: body else body

theorem ne_sign_of_isAsciiDigit {c : Char} (h : isAsciiDigit c = true) :
    (c == '+' || c == '-') = false := by
  simp only [Bool.or_eq_false_iff, beq_eq_false_iff_ne]
  constructor <;>
  · rintro rfl
    cases h

theorem splitSign_of_ne {c : Char} (hsign : (c == '+' || c == '-') = false) (cs : List Char) :
    splitSign (c :: cs) = (false, c :: cs) := by
  unfold splitSign
  split
  · next heq =>
    cases heq
    cases hsign
  · next heq =>
    cases heq
    cases hsign
  · rfl

/-- No integer starts with a character that is no digit, no sign and no white space. -/
theorem parseInt_of_head {c : Char} (hblank : isBlank c = false) (hdigit : isAsciiDigit c = false)
    (hsign : (c == '+' || c == '-') = false) (cs : List Char) :
    ∃ e, Number.parseInt (String.ofList (c :: cs)) = .error e := by
  have htrim : ∃ ds, trim (c :: cs) = c :: ds := by
    rw [trim, trimWhile, List.dropWhile_cons_of_neg (by simp [hblank]), dropEndWhile,
      List.reverse_cons, dropWhile_append_cons hblank]
    exact ⟨(cs.reverse.dropWhile isBlank).reverse, by simp⟩
  obtain ⟨ds, htrim⟩ := htrim
  have hzero : c ≠ '0' := by
    rintro rfl
    cases hdigit
  have hradix : Number.splitRadix (c :: ds) = (10, c :: ds) := by
    simp [Number.splitRadix, Number.isLegacyOctal, hzero]
  have hnot : isDigitOf 10 c = false := by
    cases h : isDigitOf 10 c with
    | false => rfl
    | true => exact (isAsciiDigit_of_isDigitOf (Nat.le_refl 10) h).symm.trans hdigit
  refine ⟨.notInteger (String.ofList (c :: cs)) false, ?_⟩
  rw [Number.parseInt, String.toList_ofList, htrim, splitSign_of_ne hsign]
  dsimp only
  rw [hradix]
  simp [hnot]

def StartsWithDigit (body : List Char) : Prop :=
  ∃ d ∈ body.head?, isAsciiDigit d = true

section
variable {body : List Char}

theorem isBlank_of_mem_signed (h : ∀ c ∈ body, isBlank c = false) (negative : Bool) :
    ∀ c ∈ signed negative body, isBlank c = false := by
  intro c hc
  cases negative with
  | false => exact h c hc
  | true =>
    rcases List.mem_cons.mp hc with rfl | hc
    · rfl
    · exact h c hc

theorem trim_signed (h : ∀ c ∈ body, isBlank c = false) (negative : Bool) :
    trim (signed negative body) = signed negative body :=
  trim_eq (isBlank_of_mem_signed h negative)

theorem splitSign_signed (h : StartsWithDigit body) (negative : Bool) :
    splitSign (signed negative body) = (negative, body) := by
  cases negative with
  | true => rfl
  | false =>
    obtain ⟨d, hd, hdigit⟩ := h
    obtain ⟨cs, rfl⟩ := List.head?_eq_some_iff.mp hd
    exact splitSign_of_ne (ne_sign_of_isAsciiDigit hdigit) cs

theorem dropWhile_signed (h : StartsWithDigit body) (negative : Bool) :
    (signed negative body).dropWhile (fun c => c == '+' || c == '-') = body := by
  obtain ⟨d, hd, hdigit⟩ := h
  have hbody : body.dropWhile (fun c => c == '+' || c == '-') = body := by
    obtain ⟨cs, rfl⟩ := List.head?_eq_some_iff.mp hd
    exact List.dropWhile_cons_of_neg (by simp [ne_sign_of_isAsciiDigit hdigit])
  cases negative with
  | false => exact hbody
  | true => exact (List.dropWhile_cons_of_pos (by decide)).trans hbody

end

/-! ## Doubles -/

def isDoubleChar (c : Char) : Bool :=
  isAsciiDigit c || c == '.' || c == 'e' || c == '+' || c == '-'

theorem isDoubleChar_of_isAsciiDigit {c : Char} (h : isAsciiDigit c = true) :
    isDoubleChar c = true := by
  simp [isDoubleChar, h]

theorem isBlank_of_isDoubleChar {c : Char} (h : isDoubleChar c = true) : isBlank c = false := by
  simp only [isDoubleChar, Bool.or_eq_true, beq_iff_eq] at h
  rcases h with (((h | rfl) | rfl) | rfl) | rfl
  · obtain ⟨hlower, hupper⟩ := toNat_of_isAsciiDigit h
    exact isBlank_of_visible (by omega) (by omega)
  all_goals rfl

def ReadsNearest (body : List Char) (bits : Nat) : Prop :=
  ∃ n, readNumeral? body = some n ∧ (∀ d ∈ n.digits, isAsciiDigit d = true) ∧
    nearest n.value = bits

/-- A text that no integer has, and that reads as the double with these bits. -/
structure DoubleBody (body : List Char) (bits : Nat) : Prop where
  head : StartsWithDigit body
  chars : ∀ c ∈ body, isDoubleChar c = true
  marked : '.' ∈ body ∨ 'e' ∈ body
  reads : ReadsNearest body bits

namespace DoubleBody

variable {body : List Char} {bits : Nat} (h : DoubleBody body bits)
include h

theorem trim_signed (negative : Bool) :
    trim (signed negative body) = signed negative body :=
  TclHost.trim_signed (fun c hc => isBlank_of_isDoubleChar (h.chars c hc)) negative

theorem all_isAsciiDigit : body.all isAsciiDigit = false := by
  rw [List.all_eq_false]
  rcases h.marked with hc | hc
  · exact ⟨_, hc, by decide⟩
  · exact ⟨_, hc, by decide⟩

theorem isLegacyOctal : Number.isLegacyOctal body = false := by
  unfold Number.isLegacyOctal
  split
  · exact h.all_isAsciiDigit
  · rfl

theorem splitRadix : Number.splitRadix body = (10, body) := by
  have hsecond {c d : Char} {cs : List Char} (hbody : body = c :: d :: cs) :
      isDoubleChar d = true :=
    h.chars d (hbody ▸ List.mem_cons_of_mem c List.mem_cons_self)
  have hlegacy := h.isLegacyOctal
  unfold Number.splitRadix
  split
  -- no letter that names a radix stands in the text of a double
  case h_7 => simp [hlegacy]
  all_goals exact absurd (hsecond rfl) (by decide)

theorem parseInt_eq_error (negative : Bool) :
    ∃ error, Number.parseInt (String.ofList (signed negative body)) = .error error := by
  have hdigits : body.all (isDigitOf 10) = false := by
    rw [funext isDigitOf_ten]
    exact h.all_isAsciiDigit
  rw [Number.parseInt, String.toList_ofList, h.trim_signed, splitSign_signed h.head]
  dsimp only
  rw [h.splitRadix]
  exact ⟨_, if_pos (by simp [hdigits])⟩

theorem parseDouble_eq (negative : Bool) :
    Number.parseDouble (String.ofList (signed negative body)) =
      .ok (ofMagnitudeBits negative bits) := by
  obtain ⟨error, herror⟩ := h.parseInt_eq_error negative
  obtain ⟨n, hn, hdigits, hbits⟩ := h.reads
  have hlegacy : Number.isLegacyOctal
      ((signed negative body).dropWhile fun c => c == '+' || c == '-') = false := by
    rw [dropWhile_signed h.head]
    exact h.isLegacyOctal
  have hread : read? (signed negative body) = some (ofMagnitudeBits negative bits) := by
    rw [read?, splitSign_signed h.head]
    dsimp only
    rw [hn, ← hbits, ← Numeral.toFloat_eq hdigits]
  rw [Number.parseDouble, String.toList_ofList, h.trim_signed, herror]
  dsimp only
  rw [hlegacy, hread]
  rfl

end DoubleBody

/-! ## Integers -/

theorem head_toDigits {n : Nat} (hn : 0 < n) : ∀ d ∈ (Nat.toDigits 10 n).head?, d ≠ '0' := by
  have hdrop : (lastDigits n n).dropWhile (· == '0') = Nat.toDigits 10 n :=
    dropWhile_lastDigits hn (Nat.lt_pow_self (by decide))
  have hhead := List.head?_dropWhile_not (· == '0') (lastDigits n n)
  rw [hdrop] at hhead
  intro d hd
  rw [hd] at hhead
  simpa using hhead

theorem splitRadix_toDigits (n : Nat) :
    Number.splitRadix (Nat.toDigits 10 n) = (10, Nat.toDigits 10 n) := by
  rcases Nat.eq_zero_or_pos n with rfl | hn
  · rfl
  · have hne {cs : List Char} (hdigits : Nat.toDigits 10 n = '0' :: cs) : False :=
      head_toDigits hn '0' (by rw [hdigits]; rfl) rfl
    have hlegacy : Number.isLegacyOctal (Nat.toDigits 10 n) = false := by
      unfold Number.isLegacyOctal
      split
      · next hdigits => exact (hne hdigits).elim
      · rfl
    unfold Number.splitRadix
    split
    case h_7 => simp [hlegacy]
    all_goals next hdigits => exact (hne hdigits).elim

theorem startsWithDigit_toDigits (n : Nat) : StartsWithDigit (Nat.toDigits 10 n) := by
  cases hd : Nat.toDigits 10 n with
  | nil => exact absurd hd Nat.toDigits_ne_nil
  | cons d ds => exact ⟨d, rfl, isAsciiDigit_of_mem_toDigits (hd ▸ List.mem_cons_self)⟩

theorem isBlank_signed_toDigits (negative : Bool) (n : Nat) :
    ∀ c ∈ signed negative (Nat.toDigits 10 n), isBlank c = false :=
  isBlank_of_mem_signed (fun _ hc => isBlank_of_isDoubleChar <| isDoubleChar_of_isAsciiDigit <|
    isAsciiDigit_of_mem_toDigits hc) negative

theorem trim_signed_toDigits (negative : Bool) (n : Nat) :
    trim (signed negative (Nat.toDigits 10 n)) = signed negative (Nat.toDigits 10 n) :=
  trim_eq (isBlank_signed_toDigits negative n)

/-- A text is read as the integer that its sign and its digits denote, in the radix that stands in
front of them, and refused if they are no digits of that radix or denote too much. -/
theorem parseInt_eq_ok_iff_of_split {s : String} {body ds : List Char} {negative : Bool}
    {radix : Nat} {n : Int64} (hsign : splitSign (trim s.toList) = (negative, body))
    (hradix : Number.splitRadix body = (radix, ds)) :
    Number.parseInt s = .ok n ↔ ds ≠ [] ∧ (∀ d ∈ ds, isDigitOf radix d = true) ∧
      numeral radix ds < 2 ^ 64 ∧ n = Number.signedReading negative (numeral radix ds) := by
  have hdigits : (ds.isEmpty || !ds.all (isDigitOf radix)) = true ↔
      ¬(ds ≠ [] ∧ ∀ d ∈ ds, isDigitOf radix d = true) := by
    rw [Bool.or_eq_true, Bool.not_eq_true', ← Bool.not_eq_true, List.all_eq_true,
      List.isEmpty_iff, not_and_or, not_not]
  rw [Number.parseInt, hsign]
  dsimp only
  rw [hradix]
  dsimp only
  rw [longNumeral_eq, ← and_assoc]
  split
  · next h => exact iff_of_false nofun fun hall => hdigits.mp h hall.1
  · next h =>
    have hall := not_not.mp fun hnot => h (hdigits.mpr hnot)
    split
    · next hlt =>
      constructor
      · intro hok
        cases hok
        exact ⟨hall, hlt, rfl⟩
      · rintro ⟨-, -, rfl⟩
        rfl
    · next hlt => exact iff_of_false nofun fun hsmall => hlt hsmall.2.1

theorem parseInt_of_digits {text body ds : List Char} {negative : Bool} {radix : Nat}
    (hblank : ∀ c ∈ text, isBlank c = false) (hsign : splitSign text = (negative, body))
    (hradix : Number.splitRadix body = (radix, ds)) (hne : ds ≠ [])
    (hdigits : ∀ d ∈ ds, isDigitOf radix d = true) (hlt : numeral radix ds < 2 ^ 64) :
    Number.parseInt (String.ofList text) =
      .ok (Number.signedReading negative (numeral radix ds)) := by
  have htrim : splitSign (trim (String.ofList text).toList) = (negative, body) := by
    rw [String.toList_ofList, trim_eq hblank, hsign]
  exact (parseInt_eq_ok_iff_of_split htrim hradix).mpr ⟨hne, hdigits, hlt, rfl⟩

theorem parseInt_toDigits (negative : Bool) {n : Nat} (h : n < 2 ^ 64) :
    Number.parseInt (String.ofList (signed negative (Nat.toDigits 10 n))) =
      .ok (Number.signedReading negative n) := by
  have hnumeral : numeral 10 (Nat.toDigits 10 n) = n := numeral_toDigits (by decide) (by decide) n
  have hread := parseInt_of_digits (isBlank_signed_toDigits negative n)
    (splitSign_signed (startsWithDigit_toDigits n) negative) (splitRadix_toDigits n)
    Nat.toDigits_ne_nil
    (isDigitOf_of_mem_toDigits (by decide) (by decide) n) (by rwa [hnumeral])
  rwa [hnumeral] at hread

end TclHost
