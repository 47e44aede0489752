import TclHost.Proofs.Value.IntegerForm
import TclHost.Proofs.Value.NumberText
import TclHost.Template.Expansion
/-! # Integers written by directives

A directive writes an integer as a sign, a radix mark, zeros and digits, with spaces in front or
behind.  The reader of integers finds sign, radix and magnitude again, unless zeros stand in front
of decimal digits, which would then count as octal ones.
-/
namespace TclHost.Template

open Text Double

/-! ## Numerals of integers -/

def isNumeralChar (c : Char) : Bool :=
  isAsciiDigit c || isAsciiLetter c || c == '+' || c == '-'

theorem isBlank_of_isNumeralChar {c : Char} (h : isNumeralChar c = true) : isBlank c = false := by
  simp only [isNumeralChar, Bool.or_eq_true, beq_iff_eq] at h
  rcases h with ((h | h) | rfl) | rfl
  · obtain ⟨hlower, hupper⟩ := toNat_of_isAsciiDigit h
    exact isBlank_of_visible (by omega) (by omega)
  · have hrange := toNat_of_isAsciiLetter h
    exact isBlank_of_visible (by omega) (by omega)
  all_goals rfl

structure UnsignedNumeral (body : List Char) (magnitude : Nat) : Prop where
  head : StartsWithDigit body
  chars : ∀ c ∈ body, isNumeralChar c = true
  digits : ∃ radix ds, Number.splitRadix body = (radix, ds) ∧ ds ≠ [] ∧
    (∀ d ∈ ds, isDigitOf radix d = true) ∧ numeral radix ds = magnitude

/-- A text without blanks that reads as the integer of a sign and a magnitude. -/
structure IntegerNumeral (text : List Char) (negative : Bool) (magnitude : Nat) : Prop where
  ne_nil : text ≠ []
  chars : ∀ c ∈ text, isNumeralChar c = true
  reads : magnitude < 2 ^ 64 → Number.parseInt (String.ofList text) =
    .ok (Number.signedReading negative magnitude)

def WritesInteger (text : List Char) (negative : Bool) (magnitude : Nat) : Prop :=
  ∃ front core back, text = List.replicate front ' ' ++ (core ++ List.replicate back ' ') ∧
    IntegerNumeral core negative magnitude

section
variable {body text : List Char} {negative : Bool} {magnitude : Nat}

/-- The sign in front of an unsigned numeral may be a minus, a plus or nothing. -/
theorem UnsignedNumeral.signed (h : UnsignedNumeral body magnitude)
    (hsign : splitSign text = (negative, body))
    (htext : text = '-' :: body ∨ text = '+' :: body ∨ text = body) :
    IntegerNumeral text negative magnitude := by
  obtain ⟨radix, ds, hradix, hne, hdigits, rfl⟩ := h.digits
  have hchars : ∀ c ∈ text, isNumeralChar c = true := by
    intro c hc
    rcases htext with rfl | rfl | rfl
    · rcases List.mem_cons.mp hc with rfl | hc
      · rfl
      · exact h.chars c hc
    · rcases List.mem_cons.mp hc with rfl | hc
      · rfl
      · exact h.chars c hc
    · exact h.chars c hc
  constructor
  · obtain ⟨d, hd, -⟩ := h.head
    rcases htext with rfl | rfl | rfl
    · simp
    · simp
    · rintro rfl
      cases hd
  · exact hchars
  · exact parseInt_of_digits (fun c hc => isBlank_of_isNumeralChar (hchars c hc)) hsign hradix hne
      hdigits

theorem UnsignedNumeral.writes (h : UnsignedNumeral body magnitude) (d : Directive)
    (negative : Bool) : WritesInteger (d.sign negative ++ body) negative magnitude := by
  have hplain : IntegerNumeral body false magnitude :=
    h.signed (splitSign_signed h.head false) (.inr (.inr rfl))
  rw [Directive.sign]
  split
  · next hn =>
    subst hn
    exact ⟨0, '-' :: body, 0, by simp, h.signed rfl (.inl rfl)⟩
  · next hn =>
    obtain rfl : negative = false := by simpa using hn
    split
    · exact ⟨0, '+' :: body, 0, by simp, h.signed rfl (.inr (.inl rfl))⟩
    · split
      · exact ⟨1, body, 0, by simp, hplain⟩
      · exact ⟨0, body, 0, by simp, hplain⟩

theorem WritesInteger.append_spaces (h : WritesInteger text negative magnitude) (k : Nat) :
    WritesInteger (text ++ List.replicate k ' ') negative magnitude := by
  obtain ⟨front, core, back, rfl, hcore⟩ := h
  exact ⟨front, core, back + k, by simp [List.replicate_append_replicate], hcore⟩

theorem WritesInteger.spaces_append (h : WritesInteger text negative magnitude) (k : Nat) :
    WritesInteger (List.replicate k ' ' ++ text) negative magnitude := by
  obtain ⟨front, core, back, rfl, hcore⟩ := h
  refine ⟨k + front, core, back, ?_, hcore⟩
  rw [← List.append_assoc, List.replicate_append_replicate]

end

/-! ## Radix marks -/

def marked? (verb : Char) : Option (Nat × List Char) :=
  match verb with
  | 'x' => some (16, ['0', 'x'])
  | 'X' => some (16, ['0', 'X'])
  | 'o' => some (8, ['0'])
  | 'b' => some (2, ['0', 'b'])
  | _ => none

/-- The verbs that write integers as numbers, with the radix and the mark of each; decimal numbers
have no mark. -/
def radixes : List (Char × Nat × List Char) :=
  [('v', 10, []), ('d', 10, []), ('x', 16, ['0', 'x']), ('X', 16, ['0', 'X']), ('o', 8, ['0']),
    ('b', 2, ['0', 'b'])]

def radixOf? (verb : Char) : Option (Nat × List Char) :=
  radixes.lookup verb

section
variable {verb : Char} {radix : Nat} {mark : List Char}

theorem radixOf?_of_marked (hmark : marked? verb = some (radix, mark)) :
    radixOf? verb = some (radix, mark) := by
  unfold marked? at hmark
  split at hmark <;> cases hmark <;> rfl

theorem mem_radixes (h : radixOf? verb = some (radix, mark)) : (verb, radix, mark) ∈ radixes := by
  obtain ⟨front, back, hradixes, -⟩ := List.lookup_eq_some_iff.mp h
  simp [hradixes]

theorem isDigitOf_zero_of_radixOf? (h : radixOf? verb = some (radix, mark)) :
    isDigitOf radix '0' = true := by
  have hall : ∀ entry ∈ radixes, isDigitOf entry.2.1 '0' = true := by decide
  exact hall _ (mem_radixes h)

/-- A mark starts with a zero, if there is one, and has none of the letters `n` and `N`. -/
theorem mark_chars (h : radixOf? verb = some (radix, mark)) :
    (∀ c ∈ mark.head?, c = '0') ∧ 'n' ∉ mark ∧ 'N' ∉ mark := by
  have hall : ∀ entry ∈ radixes, (∀ c ∈ entry.2.2.head?, c = '0') ∧ 'n' ∉ entry.2.2 ∧
      'N' ∉ entry.2.2 := by
    simp [radixes]
  exact hall _ (mem_radixes h)

end

theorem unsignedNumeral_toDigits (n : Nat) : UnsignedNumeral (Nat.toDigits 10 n) n where
  head := startsWithDigit_toDigits n
  chars c hc := by simp [isNumeralChar, isAsciiDigit_of_mem_toDigits hc]
  digits := ⟨10, _, splitRadix_toDigits n, Nat.toDigits_ne_nil,
    isDigitOf_of_mem_toDigits (by decide) (by decide) n, numeral_toDigits (by decide) (by decide) n⟩

theorem isNumeralChar_of_isDigitOf {radix : Nat} {c : Char} (h : isDigitOf radix c = true) :
    isNumeralChar c = true := by
  rcases isAsciiDigit_or_isAsciiLetter_of_isDigitOf h with hc | hc <;> simp [isNumeralChar, hc]

theorem splitRadix_marked {verb : Char} {radix : Nat} {mark ds : List Char}
    (hmark : marked? verb = some (radix, mark)) (hne : ds ≠ [])
    (hdigits : ∀ d ∈ ds, isDigitOf radix d = true) :
    Number.splitRadix (mark ++ ds) = (radix, ds) := by
  unfold marked? at hmark
  split at hmark <;> cases hmark
  · rfl
  · rfl
  · exact Number.splitRadix_octal hne hdigits
  · rfl

theorem exists_mark {verb : Char} (h : verb ∈ ['x', 'X', 'o', 'b']) :
    ∃ radix mark, marked? verb = some (radix, mark) := by
  simp only [List.mem_cons, List.not_mem_nil, or_false] at h
  rcases h with rfl | rfl | rfl | rfl <;> exact ⟨_, _, rfl⟩

/-- Digits with the mark of their radix in front are a numeral, whatever zeros they start with. -/
theorem unsignedNumeral_marked {verb : Char} {radix : Nat} {mark ds : List Char}
    (hmark : marked? verb = some (radix, mark)) (hne : ds ≠ [])
    (hdigits : ∀ d ∈ ds, isDigitOf radix d = true) :
    UnsignedNumeral (mark ++ ds) (numeral radix ds) := by
  have hshape : mark.head? = some '0' ∧ mark.all isNumeralChar = true := by
    unfold marked? at hmark
    split at hmark <;> cases hmark <;> decide
  constructor
  · obtain ⟨cs, rfl⟩ := List.head?_eq_some_iff.mp hshape.1
    exact ⟨'0', rfl, rfl⟩
  · intro c hc
    rcases List.mem_append.mp hc with hc | hc
    · exact List.all_eq_true.mp hshape.2 c hc
    · exact isNumeralChar_of_isDigitOf (hdigits c hc)
  · exact ⟨radix, ds, splitRadix_marked hmark hne hdigits, hne, hdigits, rfl⟩

/-! ## Upper case -/

theorem hexValue?_toUpper {c : Char} (h : isDigitOf 16 c = true) :
    hexValue? c.toUpper = hexValue? c := by
  have hascii : c.toNat < 128 := by
    rcases isAsciiDigit_or_isAsciiLetter_of_isDigitOf h with hc | hc
    · have := toNat_of_isAsciiDigit hc
      omega
    · have := toNat_of_isAsciiLetter hc
      omega
  have hall : ∀ n < 128, isDigitOf 16 (Char.ofNat n) = true →
      hexValue? (Char.ofNat n).toUpper = hexValue? (Char.ofNat n) := by
    decide
  have hc := hall c.toNat hascii
  rw [Char.ofNat_toNat] at hc
  exact hc h

theorem numeral_map_toUpper {ds : List Char} (h : ∀ d ∈ ds, isDigitOf 16 d = true) :
    numeral 16 (ds.map Char.toUpper) = numeral 16 ds := by
  rw [numeral, numeralFrom, List.foldl_map]
  exact List.foldl_ext _ _ _ fun n d hd => by rw [hexValue?_toUpper (h d hd)]

/-! ## Directives -/

/-- The directives whose integers read back: without a mark, decimal verbs that put no zeros in
front of the digits; with a mark, any verb that has one. -/
def Directive.KeepsInteger (d : Directive) : Prop :=
  (d.verb = 'v' ∨ d.verb = 'd') ∧ d.precision = none ∧
      (d.zero = true → d.minus = true ∨ d.width = none) ∨
    d.sharp = true ∧ d.verb ∈ ['x', 'X', 'o', 'b']

namespace Directive
variable {d : Directive} {arg : Arg} {negative : Bool} {magnitude : Nat}

theorem pad_of_width_eq_none (h : d.width = none) (body : List Char) (arg : Arg) :
    d.pad body arg = body := by
  simp [pad, h]

theorem pad_of_le {body : List Char} {width : Nat} (hwidth : d.width = some width)
    (hle : width ≤ body.length) (arg : Arg) : d.pad body arg = body := by
  have hfill : d.width.getD 0 - body.length = 0 := by
    rw [hwidth, Option.getD_some]
    omega
  rw [pad, if_pos hfill]

theorem pad_of_lt {body : List Char} {width : Nat} (hwidth : d.width = some width)
    (hlt : body.length < width) (arg : Arg) :
    d.pad body arg =
      if d.minus then body ++ List.replicate (width - body.length) ' '
      else if d.padsWithZeros body arg then
        body.take (d.headLength body) ++
          (List.replicate (width - body.length) '0' ++ body.drop (d.headLength body))
      else List.replicate (width - body.length) ' ' ++ body := by
  have hfill : d.width.getD 0 - body.length ≠ 0 := by
    rw [hwidth, Option.getD_some]
    omega
  rw [pad, if_neg hfill, hwidth, ← List.append_assoc (body.take _)]
  rfl

/-- The width adds spaces, or zeros behind sign and mark. -/
theorem pad_cases (d : Directive) (body : List Char) (arg : Arg) :
    (∃ k, d.pad body arg = body ++ List.replicate k ' ') ∨
    (∃ k, d.pad body arg = List.replicate k ' ' ++ body) ∨
    (d.zero = true ∧ d.minus = false ∧ d.width ≠ none ∧
      ∃ k, d.pad body arg = body.take (d.headLength body) ++
        (List.replicate k '0' ++ body.drop (d.headLength body))) := by
  cases hwidth : d.width with
  | none => exact .inl ⟨0, by simp [pad_of_width_eq_none hwidth]⟩
  | some width =>
    rcases Nat.lt_or_ge body.length width with hlt | hle
    · rw [pad_of_lt hwidth hlt]
      split
      · exact .inl ⟨_, rfl⟩
      · next hminus =>
        split
        · next hzeros =>
          have hzero : d.zero = true := by
            simp only [padsWithZeros, Bool.and_eq_true] at hzeros
            exact hzeros.1.1.1.1.1.1
          exact .inr (.inr ⟨hzero, by simpa using hminus, by simp, _, rfl⟩)
        · exact .inr (.inl ⟨_, rfl⟩)
    · exact .inl ⟨0, by simp [pad_of_le hwidth hle]⟩

theorem body_decimal (source : String) (harg : arg.integer? = some (negative, magnitude))
    (hverb : d.verb = 'v' ∨ d.verb = 'd') (hprecision : d.precision = none) :
    d.body source arg = .ok (d.sign negative ++ Nat.toDigits 10 magnitude) := by
  have hinteger : d.integer negative magnitude 10 [] =
      d.sign negative ++ Nat.toDigits 10 magnitude := by
    simp [integer, hprecision]
  rcases hverb with hverb | hverb
  · cases arg <;> simp_all [body, Arg.integer?]
  · simp [body, hverb, harg, hinteger]

/-- At least as many digits as the precision says are digits of the same number. -/
theorem exists_digits (d : Directive) (radix : Nat) (hone : 1 < radix) (hle : radix ≤ 16)
    (mark : List Char) (negative : Bool) (magnitude : Nat) :
    ∃ ds, ds ≠ [] ∧ (∀ c ∈ ds, isDigitOf radix c = true) ∧ numeral radix ds = magnitude ∧
      d.integer negative magnitude radix mark =
        d.sign negative ++ ((if d.sharp then mark else []) ++ ds) := by
  refine ⟨_, ?_, ?_, ?_, by rw [integer, List.append_assoc]⟩
  · simp [Nat.toDigits_ne_nil]
  · intro c hc
    rcases List.mem_append.mp hc with hc | hc
    · rw [List.eq_of_mem_replicate hc]
      exact isDigitOf_digitChar (n := 0) hle (by omega)
    · exact isDigitOf_of_mem_toDigits hone hle magnitude c hc
  · rw [numeral_replicate_append, numeral_toDigits hone hle]

theorem sign_mem (d : Directive) (negative : Bool) :
    d.sign negative ∈ [['-'], ['+'], [' '], []] := by
  unfold sign
  split
  · simp
  · split
    · simp
    · split <;> simp

theorem map_toUpper_sign (d : Directive) (negative : Bool) :
    (d.sign negative).map Char.toUpper = d.sign negative := by
  have hsigns : ∀ s ∈ [['-'], ['+'], [' '], []], s.map Char.toUpper = s := by
    decide
  exact hsigns _ (d.sign_mem negative)

/-- What a verb writes for an integer: sign, mark and digits. -/
theorem body_integer (source : String) (harg : arg.integer? = some (negative, magnitude))
    {radix : Nat} {mark : List Char} (hradix : radixOf? d.verb = some (radix, mark)) :
    ∃ ds, ds ≠ [] ∧ (∀ c ∈ ds, isDigitOf radix c = true) ∧ numeral radix ds = magnitude ∧
      d.body source arg =
        .ok (d.sign negative ++ ((if d.sharp then mark else []) ++ ds)) := by
  have hentry := mem_radixes hradix
  simp only [radixes, List.mem_cons, List.not_mem_nil, or_false, Prod.mk.injEq] at hentry
  rcases hentry with ⟨hverb, rfl, rfl⟩ | ⟨hverb, rfl, rfl⟩ | ⟨hverb, rfl, rfl⟩ |
    ⟨hverb, rfl, rfl⟩ | ⟨hverb, rfl, rfl⟩ | ⟨hverb, rfl, rfl⟩
  · obtain ⟨ds, hne, hdigits, hvalue, hds⟩ :=
      d.exists_digits 10 (by decide) (by decide) [] negative magnitude
    refine ⟨ds, hne, hdigits, hvalue, ?_⟩
    cases arg <;> simp_all [body, Arg.integer?]
  · obtain ⟨ds, hne, hdigits, hvalue, hds⟩ :=
      d.exists_digits 10 (by decide) (by decide) [] negative magnitude
    exact ⟨ds, hne, hdigits, hvalue, by simp [body, hverb, harg, hds]⟩
  · obtain ⟨ds, hne, hdigits, hvalue, hds⟩ :=
      d.exists_digits 16 (by decide) (by decide) ['0', 'x'] negative magnitude
    refine ⟨ds, hne, hdigits, hvalue, ?_⟩
    cases arg <;> simp_all [body, Arg.integer?]
  · obtain ⟨ds, hne, hdigits, hvalue, hds⟩ :=
      d.exists_digits 16 (by decide) (by decide) ['0', 'X'] negative magnitude
    refine ⟨ds.map Char.toUpper, by simpa using hne, ?_,
      (numeral_map_toUpper hdigits).trans hvalue, ?_⟩
    · intro c hc
      obtain ⟨c', hc', rfl⟩ := List.mem_map.mp hc
      rw [isDigitOf, digitValue?, hexValue?_toUpper (hdigits c' hc')]
      exact hdigits c' hc'
    · have hmark : (if d.sharp then ['0', 'X'] else []).map Char.toUpper =
          if d.sharp then ['0', 'X'] else [] := by
        split <;> rfl
      have hupper : (d.sign negative ++ ((if d.sharp then ['0', 'X'] else []) ++ ds)).map
          Char.toUpper =
            d.sign negative ++ ((if d.sharp then ['0', 'X'] else []) ++ ds.map Char.toUpper) := by
        rw [List.map_append, List.map_append, map_toUpper_sign, hmark]
      rw [← hupper, ← hds]
      cases arg <;> simp_all [body, Arg.integer?, Except.map]
  · obtain ⟨ds, hne, hdigits, hvalue, hds⟩ :=
      d.exists_digits 8 (by decide) (by decide) ['0'] negative magnitude
    exact ⟨ds, hne, hdigits, hvalue, by simp [body, hverb, harg, hds]⟩
  · obtain ⟨ds, hne, hdigits, hvalue, hds⟩ :=
      d.exists_digits 2 (by decide) (by decide) ['0', 'b'] negative magnitude
    exact ⟨ds, hne, hdigits, hvalue, by simp [body, hverb, harg, hds]⟩

/-! ### Sign and mark -/

def markLength (d : Directive) (body : List Char) : Nat :=
  if d.sharp then
    match body with
    | '0' :: 'x' :: _ | '0' :: 'X' :: _ | '0' :: 'b' :: _ => 2
    | '0' :: _ => if d.verb = 'o' then 1 else 0
    | _ => 0
  else 0

theorem add_markLength (d : Directive) (n : Nat) (body : List Char) :
    (if d.sharp then
      match body with
      | '0' :: 'x' :: _ | '0' :: 'X' :: _ | '0' :: 'b' :: _ => n + 2
      | '0' :: _ => if d.verb = 'o' then n + 1 else n
      | _ => n
    else n) = n + d.markLength body := by
  unfold markLength
  split
  · split
    · rfl
    · rfl
    · rfl
    · split <;> rfl
    · rfl
  · rfl

theorem headLength_sign {body : List Char}
    (hbody : ∀ c ∈ body.head?, c ≠ '-' ∧ c ≠ '+' ∧ c ≠ ' ') :
    d.headLength (d.sign negative ++ body) = (d.sign negative).length + d.markLength body := by
  have hsign := d.sign_mem negative
  simp only [List.mem_cons, List.not_mem_nil, or_false] at hsign
  rcases hsign with hs | hs | hs | hs <;> rw [hs]
  · exact d.add_markLength 1 body
  · exact d.add_markLength 1 body
  · exact d.add_markLength 1 body
  · rw [← d.add_markLength, List.nil_append, headLength]
    · rfl
    · rintro tail rfl
      exact (hbody '-' rfl).1 rfl
    · rintro tail rfl
      exact (hbody '+' rfl).2.1 rfl
    · rintro tail rfl
      exact (hbody ' ' rfl).2.2 rfl

/-- Without a letter behind a zero there is no mark but that of octal digits. -/
theorem markLength_of_tail {body : List Char}
    (htail : ∀ c ∈ body.tail.head?, c ≠ 'x' ∧ c ≠ 'X' ∧ c ≠ 'b') :
    d.markLength body = if d.sharp ∧ d.verb = 'o' ∧ body.head? = some '0' then 1 else 0 := by
  unfold markLength
  split
  · split
    · exact absurd rfl (htail 'x' rfl).1
    · exact absurd rfl (htail 'X' rfl).2.1
    · exact absurd rfl (htail 'b' rfl).2.2
    · simp_all
    · next hzero =>
      rw [if_neg]
      rintro ⟨-, -, hhead⟩
      obtain ⟨cs, rfl⟩ := List.head?_eq_some_iff.mp hhead
      exact hzero cs rfl
  · simp_all

theorem ne_of_isDigitOf {radix : Nat} {c : Char} (h : isDigitOf radix c = true) :
    c ≠ '-' ∧ c ≠ '+' ∧ c ≠ ' ' ∧ c ≠ 'x' ∧ c ≠ 'X' ∧ c ≠ 'n' ∧ c ≠ 'N' := by
  have hvalue : hexValue? c ≠ none := fun hnone => by
    simp [isDigitOf, digitValue?, hnone] at h
  refine ⟨?_, ?_, ?_, ?_, ?_, ?_, ?_⟩ <;>
  · rintro rfl
    exact hvalue rfl

theorem markLength_integer {radix : Nat} {mark ds : List Char}
    (hradix : radixOf? d.verb = some (radix, mark)) (hdigits : ∀ c ∈ ds, isDigitOf radix c = true) :
    d.markLength ((if d.sharp then mark else []) ++ ds) =
      (if d.sharp then mark else []).length := by
  cases hsharp : d.sharp with
  | false => simp [markLength, hsharp]
  | true =>
    -- a hexadecimal digit may be the letter of a mark, but stands behind a mark of its own
    have htail (hle : radix ≤ 10) : ∀ c ∈ ds, c ≠ 'x' ∧ c ≠ 'X' ∧ c ≠ 'b' := by
      intro c hc
      have hdigit := isAsciiDigit_of_isDigitOf hle (hdigits c hc)
      refine ⟨?_, ?_, ?_⟩ <;>
      · rintro rfl
        cases hdigit
    have hplain (hle : radix ≤ 10) : d.markLength ds = _ := markLength_of_tail fun c hc =>
      htail hle c (List.mem_of_mem_tail (List.mem_of_mem_head? hc))
    have hentry := mem_radixes hradix
    simp only [radixes, List.mem_cons, List.not_mem_nil, or_false, Prod.mk.injEq] at hentry
    rcases hentry with ⟨hverb, rfl, rfl⟩ | ⟨hverb, rfl, rfl⟩ | ⟨-, rfl, rfl⟩ | ⟨-, rfl, rfl⟩ |
      ⟨hverb, rfl, rfl⟩ | ⟨-, rfl, rfl⟩
    · simpa [hverb] using hplain (by decide)
    · simpa [hverb] using hplain (by decide)
    · simp [markLength, hsharp]
    · simp [markLength, hsharp]
    · have hlength : d.markLength ('0' :: ds) = _ := markLength_of_tail fun c hc =>
        htail (by decide) c (List.mem_of_mem_head? hc)
      simpa [hsharp, hverb] using hlength
    · simp [markLength, hsharp]

theorem headLength_integer {radix : Nat} {mark ds : List Char}
    (hradix : radixOf? d.verb = some (radix, mark)) (hdigits : ∀ c ∈ ds, isDigitOf radix c = true) :
    d.headLength (d.sign negative ++ ((if d.sharp then mark else []) ++ ds)) =
      (d.sign negative ++ if d.sharp then mark else []).length := by
  rw [headLength_sign, List.length_append, markLength_integer hradix hdigits]
  intro c hc
  have hcases : c = '0' ∨ c ∈ ds := by
    rw [List.head?_append] at hc
    split at hc
    · cases mark with
      | nil => exact .inr (List.mem_of_mem_head? hc)
      | cons c' cs => exact .inl ((mark_chars hradix).1 c hc)
    · exact .inr (List.mem_of_mem_head? hc)
  rcases hcases with rfl | hc
  · decide
  · obtain ⟨hminus, hplus, hspace, -⟩ := ne_of_isDigitOf (hdigits c hc)
    exact ⟨hminus, hplus, hspace⟩

/-- Padding leaves an integer what it is. -/
theorem writes_pad (source : String) (h : d.KeepsInteger)
    (harg : arg.integer? = some (negative, magnitude)) :
    ∃ body, d.body source arg = .ok body ∧
      WritesInteger (d.pad body arg) negative magnitude := by
  obtain ⟨hverb, hprecision, hzero⟩ | ⟨hsharp, hverb⟩ := h
  · refine ⟨_, body_decimal source harg hverb hprecision, ?_⟩
    have hwrites := (unsignedNumeral_toDigits magnitude).writes d negative
    obtain ⟨k, hk⟩ | ⟨k, hk⟩ | ⟨hz, hminus, hwidth, -⟩ :=
      d.pad_cases (d.sign negative ++ Nat.toDigits 10 magnitude) arg
    · rw [hk]
      exact hwrites.append_spaces k
    · rw [hk]
      exact hwrites.spaces_append k
    · simp_all
  · obtain ⟨radix, mark, hmark⟩ := exists_mark hverb
    obtain ⟨ds, hne, hdigits, rfl, hbody⟩ := body_integer source harg (radixOf?_of_marked hmark)
    have hhead : d.headLength (d.sign negative ++ ((if d.sharp then mark else []) ++ ds)) = _ :=
      headLength_integer (radixOf?_of_marked hmark) hdigits
    rw [if_pos hsharp] at hbody hhead
    refine ⟨_, hbody, ?_⟩
    have hwrites := (unsignedNumeral_marked hmark hne hdigits).writes d negative
    obtain ⟨k, hk⟩ | ⟨k, hk⟩ | ⟨-, -, -, k, hk⟩ :=
      d.pad_cases (d.sign negative ++ (mark ++ ds)) arg
    · rw [hk]
      exact hwrites.append_spaces k
    · rw [hk]
      exact hwrites.spaces_append k
    · have hzeros : ∀ c ∈ List.replicate k '0' ++ ds, isDigitOf radix c = true := by
        intro c hc
        rcases List.mem_append.mp hc with hc | hc
        · rw [List.eq_of_mem_replicate hc]
          exact isDigitOf_zero_of_radixOf? (radixOf?_of_marked hmark)
        · exact hdigits c hc
      have hpadded := (unsignedNumeral_marked hmark (by simp [hne]) hzeros).writes d negative
      rw [numeral_replicate_append] at hpadded
      rw [hk, hhead, ← List.append_assoc (d.sign negative) mark ds,
        List.take_left, List.drop_left, List.append_assoc]
      exact hpadded

end Directive

/-! ## Placeholders -/

theorem mem_dropWhile_of_mem {p : Char → Bool} {c : Char} {cs : List Char} (hc : c ∈ cs)
    (hp : p c = false) : c ∈ cs.dropWhile p := by
  rw [← List.takeWhile_append_dropWhile (p := p) (l := cs), List.mem_append] at hc
  rcases hc with hc | hc
  · have := List.all_eq_true.mp List.all_takeWhile c hc
    simp [hp] at this
  · exact hc

theorem source_of_parse {source : String} {d : Directive} (h : Directive.parse source = .ok d) :
    (∃ cs, source.toList = '%' :: cs) ∧ '}' ∉ source.toList := by
  cases hparts : splitDirective? source.toList with
  | none => simp [Directive.parse, hparts] at h
  | some parts =>
    unfold splitDirective? at hparts
    split at hparts
    · next cs hcs =>
      rw [hcs]
      refine ⟨⟨cs, rfl⟩, fun hbrace => ?_⟩
      have htail : '}' ∈ (cs.dropWhile isFlag).dropWhile isDecimalDigit :=
        mem_dropWhile_of_mem (mem_dropWhile_of_mem (List.mem_of_ne_of_mem (by decide) hbrace) rfl)
          (by decide)
      dsimp only at hparts
      generalize (cs.dropWhile isFlag).dropWhile isDecimalDigit = ds at hparts htail
      split at hparts
      · next verb hverb =>
        -- what stands behind the width is a precision, if there is one, and the verb
        have hmem : '}' ∈ [verb] := by
          rw [← hverb]
          split
          · exact mem_dropWhile_of_mem (List.mem_of_ne_of_mem (by decide) htail) (by decide)
          · exact htail
        split at hparts
        · next hletter =>
          rw [← List.mem_singleton.mp hmem] at hletter
          cases hletter
        · cases hparts
      · cases hparts
    · cases hparts

theorem decide_lt_zero (n : Int64) : decide (n < 0) = decide (n.toInt < 0) :=
  decide_eq_decide.mpr (by rw [Int64.lt_iff_toInt_lt]; rfl)

theorem Arg.toList_text {arg : Arg} {negative : Bool} {magnitude : Nat}
    (harg : arg.integer? = some (negative, magnitude)) :
    arg.text.toList = signed negative (Nat.toDigits 10 magnitude) := by
  cases arg with
  | int n =>
    cases harg
    rw [text, intText_eq, String.toList_ofList, decide_lt_zero]
  | uint n =>
    cases harg
    rw [text, Nat.toString_eq_ofList_toDigits, String.toList_ofList]
    rfl
  | _ => cases harg

theorem Arg.writes_text {arg : Arg} {negative : Bool} {magnitude : Nat}
    (harg : arg.integer? = some (negative, magnitude)) :
    WritesInteger arg.text.toList negative magnitude := by
  have hdigits := unsignedNumeral_toDigits magnitude
  refine ⟨0, arg.text.toList, 0, by simp, ?_⟩
  rw [Arg.toList_text harg]
  refine hdigits.signed (splitSign_signed hdigits.head negative) ?_
  cases negative with
  | true => exact .inl rfl
  | false => exact .inr (.inr rfl)

/-- A placeholder with a directive that keeps integers writes an integer. -/
theorem insertion_integer {directive? : Option String} {arg : Arg} {negative : Bool}
    {magnitude : Nat} (harg : arg.integer? = some (negative, magnitude))
    (h : ∀ source ∈ directive?, ∃ d, Directive.parse source = .ok d ∧ d.KeepsInteger) :
    ∃ text, insertion directive? arg = .ok text ∧
      WritesInteger text.toList negative magnitude := by
  unfold insertion
  split
  · exact ⟨_, rfl, Arg.writes_text harg⟩
  · exact ⟨_, rfl, Arg.writes_text harg⟩
  · obtain ⟨d, hd, hkeeps⟩ := h "%q" rfl
    have hquoted : Directive.parse "%q" =
      .ok ⟨false, false, false, false, false, none, none, 'q'⟩ := rfl
    cases hd.symm.trans hquoted
    rcases hkeeps with ⟨hverb | hverb, -⟩ | ⟨hsharp, -⟩
    · cases hverb
    · cases hverb
    · cases hsharp
  · next source _ _ =>
    obtain ⟨d, hd, hkeeps⟩ := h source rfl
    obtain ⟨body, hbody, hwrites⟩ := Directive.writes_pad source hkeeps harg
    refine ⟨String.ofList (d.pad body arg), ?_, by simpa using hwrites⟩
    rw [applyDirective, hd]
    dsimp only
    rw [hbody]
    rfl

end TclHost.Template
