import TclHost.Proofs.Text.Trim
import TclHost.Proofs.Value.Reading
/-! # The form of an integer

Between white space stand a sign or none, the mark of a radix and at least one digit of that radix.
A zero in front of further digits is the mark of radix eight, so that decimal digits start with a
zero only if there is nothing behind it.  A text of this form is an integer if its magnitude fits
into 64 bits, and no other text is one.
-/
namespace TclHost.Number

open Text Double

inductive Sign : List Char → Bool → Prop
  | absent : Sign [] false
  | plus : Sign ['+'] false
  | minus : Sign ['-'] true

/-- The digits of an unsigned integer, and the radix that is marked in front of them. -/
inductive Marked : List Char → Nat → List Char → Prop
  | hexadecimal {x : Char} {ds : List Char} (hx : x = 'x' ∨ x = 'X') : Marked ('0' :: x :: ds) 16 ds
  | octal {o : Char} {ds : List Char} (ho : o = 'o' ∨ o = 'O') : Marked ('0' :: o :: ds) 8 ds
  | binary {b : Char} {ds : List Char} (hb : b = 'b' ∨ b = 'B') : Marked ('0' :: b :: ds) 2 ds
  | leadingZero {ds : List Char} : Marked ('0' :: ds) 8 ds
  | zero : Marked ['0'] 10 ['0']
  | decimal {d : Char} {ds : List Char} (hd : d ≠ '0') : Marked (d :: ds) 10 (d :: ds)

def Unsigned (body : List Char) (magnitude : Nat) : Prop :=
  ∃ radix ds, Marked body radix ds ∧ ds ≠ [] ∧ (∀ d ∈ ds, isDigitOf radix d = true) ∧
    numeral radix ds = magnitude

/-- A text is an integer of a sign and a magnitude, with white space around it or none. -/
def IntegerForm (cs : List Char) (negative : Bool) (magnitude : Nat) : Prop :=
  ∃ front sign body back, cs = front ++ (sign ++ body) ++ back ∧
    (∀ c ∈ front, isBlank c = true) ∧ (∀ c ∈ back, isBlank c = true) ∧
    Sign sign negative ∧ Unsigned body magnitude

/-! ### Radix marks -/

theorem isLegacyOctal_cons_cons {d : Char} {ds : List Char}
    (h : ∀ c ∈ d :: ds, isAsciiDigit c = true) : isLegacyOctal ('0' :: d :: ds) = true :=
  List.all_eq_true.mpr (List.forall_mem_cons.mpr ⟨rfl, h⟩)

theorem splitRadix_octal {ds : List Char} (hne : ds ≠ [])
    (hdigits : ∀ d ∈ ds, isDigitOf 8 d = true) : splitRadix ('0' :: ds) = (8, ds) := by
  obtain ⟨d, ds, rfl⟩ := List.exists_cons_of_ne_nil hne
  have hall : ∀ c ∈ d :: ds, isAsciiDigit c = true := fun c hc =>
    isAsciiDigit_of_isDigitOf (by decide) (hdigits c hc)
  have hd : isAsciiDigit d = true := hall d List.mem_cons_self
  unfold splitRadix
  split
  case h_7 =>
    rw [if_pos (isLegacyOctal_cons_cons hall)]
    rfl
  -- no letter that names a radix is a digit
  all_goals
    next heq =>
    cases heq
    cases hd

theorem splitRadix_decimal {d : Char} (hd : d ≠ '0') (ds : List Char) :
    splitRadix (d :: ds) = (10, d :: ds) := by
  have hlegacy : isLegacyOctal (d :: ds) = false := by
    unfold isLegacyOctal
    split
    · next heq => exact absurd (List.cons.inj heq).1 hd
    · rfl
  unfold splitRadix
  split
  case h_7 => simp [hlegacy]
  all_goals next heq => exact absurd (List.cons.inj heq).1 hd

/-- Where there are digits of a radix, that radix is the one which is marked. -/
theorem marked_iff {body ds : List Char} {radix : Nat} (hne : ds ≠ [])
    (hdigits : ∀ d ∈ ds, isDigitOf radix d = true) :
    Marked body radix ds ↔ splitRadix body = (radix, ds) := by
  constructor
  · intro h
    cases h with
    | hexadecimal hx => rcases hx with rfl | rfl <;> rfl
    | octal ho => rcases ho with rfl | rfl <;> rfl
    | binary hb => rcases hb with rfl | rfl <;> rfl
    | leadingZero => exact splitRadix_octal hne hdigits
    | zero => rfl
    | decimal hd => exact splitRadix_decimal hd _
  · intro h
    unfold splitRadix at h
    split at h
    case h_7 =>
      split at h
      · next hlegacy =>
        cases h
        unfold isLegacyOctal at hlegacy
        split at hlegacy
        · exact .leadingZero
        · cases hlegacy
      · next hlegacy =>
        cases h
        obtain ⟨d, ds, rfl⟩ := List.exists_cons_of_ne_nil hne
        by_cases hd : d = '0'
        · subst hd
          -- behind a zero further digits would be octal
          cases ds with
          | nil => exact .zero
          | cons c cs =>
            refine absurd (isLegacyOctal_cons_cons fun x hx => ?_) hlegacy
            rw [← isDigitOf_ten]
            exact hdigits x (List.mem_cons_of_mem _ hx)
        · exact .decimal hd
    all_goals cases h
    · exact .hexadecimal (.inl rfl)
    · exact .hexadecimal (.inr rfl)
    · exact .octal (.inl rfl)
    · exact .octal (.inr rfl)
    · exact .binary (.inl rfl)
    · exact .binary (.inr rfl)

/-! ### White space and sign -/

theorem Marked.head {body ds : List Char} {radix : Nat} (h : Marked body radix ds)
    (hdigits : ∀ d ∈ ds, isDigitOf radix d = true) : StartsWithDigit body := by
  cases h with
  | @decimal d ds _ =>
    exact ⟨d, rfl, (isDigitOf_ten d).symm.trans (hdigits d List.mem_cons_self)⟩
  | _ => exact ⟨'0', rfl, rfl⟩

theorem isBlank_of_isDigitOf {radix : Nat} {c : Char} (h : isDigitOf radix c = true) :
    isBlank c = false := by
  rcases isAsciiDigit_or_isAsciiLetter_of_isDigitOf h with hc | hc
  · have hrange := toNat_of_isAsciiDigit hc
    exact isBlank_of_visible (by omega) (by omega)
  · have hrange := toNat_of_isAsciiLetter hc
    exact isBlank_of_visible (by omega) (by omega)

theorem Marked.not_blank {body ds : List Char} {radix : Nat} (h : Marked body radix ds)
    (hdigits : ∀ d ∈ ds, isDigitOf radix d = true) : ∀ c ∈ body, isBlank c = false := by
  have hblank : ∀ d ∈ ds, isBlank d = false := fun d hd => isBlank_of_isDigitOf (hdigits d hd)
  cases h with
  | zero | decimal => exact hblank
  | leadingZero => exact List.forall_mem_cons.mpr ⟨rfl, hblank⟩
  | hexadecimal hx | octal hx | binary hx =>
    refine List.forall_mem_cons.mpr ⟨rfl, List.forall_mem_cons.mpr ⟨?_, hblank⟩⟩
    rcases hx with rfl | rfl <;> rfl

theorem Sign.not_blank {sign : List Char} {negative : Bool} (h : Sign sign negative) :
    ∀ c ∈ sign, isBlank c = false := by
  cases h with
  | absent => exact List.forall_mem_nil _
  | plus | minus => exact List.forall_mem_singleton.mpr rfl

theorem splitSign_append {sign body : List Char} {negative : Bool} (hsign : Sign sign negative)
    (hbody : StartsWithDigit body) : splitSign (sign ++ body) = (negative, body) := by
  cases hsign with
  | absent => exact splitSign_signed hbody false
  | plus => rfl
  | minus => rfl

theorem exists_sign {cs body : List Char} {negative : Bool}
    (h : splitSign cs = (negative, body)) : ∃ sign, cs = sign ++ body ∧ Sign sign negative := by
  unfold splitSign at h
  split at h <;> cases h
  · exact ⟨_, rfl, .minus⟩
  · exact ⟨_, rfl, .plus⟩
  · exact ⟨_, rfl, .absent⟩

theorem signedReading_eq_ofInt (negative : Bool) (magnitude : Nat) :
    signedReading negative magnitude =
      Int64.ofInt (if negative then -magnitude else magnitude) := by
  cases negative with
  | false => exact Int64.ofInt_eq_ofNat.symm
  | true => rw [if_pos rfl, Int64.ofInt_neg, Int64.ofInt_eq_ofNat]; rfl

/-- A text is an integer exactly if it has the form of one and its magnitude is at most 2^64 - 1.
The integer is the signed 64-bit one with the bits of the magnitude, or of its negation. -/
theorem parseInt_eq_ok_iff (s : String) (n : Int64) :
    parseInt s = .ok n ↔ ∃ negative magnitude, IntegerForm s.toList negative magnitude ∧
      magnitude ≤ 2 ^ 64 - 1 ∧ n = Int64.ofInt (if negative then -magnitude else magnitude) := by
  simp only [← signedReading_eq_ofInt]
  constructor
  · intro h
    obtain ⟨front, back, hs, hfront, hback⟩ := exists_eq_trim_append s.toList
    rcases hsplit : splitSign (trim s.toList) with ⟨negative, body⟩
    rcases hradix : splitRadix body with ⟨radix, ds⟩
    obtain ⟨sign, htrim, hsign⟩ := exists_sign hsplit
    obtain ⟨hne, hdigits, hlt, rfl⟩ := (parseInt_eq_ok_iff_of_split hsplit hradix).mp h
    rw [htrim] at hs
    exact ⟨negative, _, ⟨front, sign, body, back, hs, hfront, hback, hsign, radix, ds,
      (marked_iff hne hdigits).mpr hradix, hne, hdigits, rfl⟩, Nat.le_sub_one_of_lt hlt, rfl⟩
  · rintro ⟨negative, magnitude, ⟨front, sign, body, back, hs, hfront, hback, hsign, radix, ds,
      hmarked, hne, hdigits, rfl⟩, hle, rfl⟩
    have hblank : ∀ c ∈ sign ++ body, isBlank c = false := fun c hc =>
      (List.mem_append.mp hc).elim (hsign.not_blank c) (hmarked.not_blank hdigits c)
    have hsplit : splitSign (trim s.toList) = (negative, body) := by
      rw [hs, trim_append hfront hblank hback, splitSign_append hsign (hmarked.head hdigits)]
    exact (parseInt_eq_ok_iff_of_split hsplit ((marked_iff hne hdigits).mp hmarked)).mpr
      ⟨hne, hdigits, Nat.lt_of_le_sub_one (by decide) hle, rfl⟩

end TclHost.Number
