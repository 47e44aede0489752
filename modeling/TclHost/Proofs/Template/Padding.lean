import TclHost.Proofs.Double.Integral
import TclHost.Proofs.Double.Rounded
import TclHost.Proofs.Template.Integer
/-! # Padding to a width

A directive with a width writes what it writes without one, and fill characters at one place.  The
place of zeros is found in the text itself, behind what looks like a sign and a radix mark, and it
is the right one because no digits look like a mark.  Whether there are zeros depends on the text
too, which must not be a word for a double that is not finite.
-/
namespace TclHost.Template

open Text Double

/-! ## Directives without their width -/

def widthless (cs : List Char) : List Char :=
  cs.takeWhile isFlag ++ (cs.dropWhile isFlag).dropWhile isDecimalDigit

theorem not_flag_nor_digit_of_letter {c : Char} (h : isAsciiLetter c = true) :
    isFlag c = false ∧ isDecimalDigit c = false := by
  have hletter := toNat_of_isAsciiLetter h
  constructor
  · simp only [isFlag, Bool.or_eq_false_iff, beq_eq_false_iff_ne]
    refine ⟨⟨⟨⟨?_, ?_⟩, ?_⟩, ?_⟩, ?_⟩ <;>
    · rintro rfl
      cases h
  · have hdigit : isAsciiDigit c = false := by
      cases hc : isAsciiDigit c with
      | false => rfl
      | true =>
        have := toNat_of_isAsciiDigit hc
        omega
    have hascii : decide (0x80 ≤ c.toNat) = false := decide_eq_false (by omega)
    rw [isDecimalDigit, hdigit, hascii]
    rfl

theorem splitDirective?_widthless {cs : List Char} {p : DirectiveParts}
    (h : splitDirective? ('%' :: cs) = some p) :
    splitDirective? ('%' :: widthless cs) = some { p with width := [] } := by
  rw [widthless]
  rw [splitDirective?] at h ⊢
  dsimp only at h ⊢
  generalize hrest : (cs.dropWhile isFlag).dropWhile isDecimalDigit = rest at h ⊢
  have hhead : ∀ c ∈ rest.head?, isFlag c = false ∧ isDecimalDigit c = false := by
    intro c hc
    obtain ⟨cs', rfl⟩ := List.head?_eq_some_iff.mp hc
    by_cases hpoint : c = '.'
    · rw [hpoint]
      decide
    · split at h
      · next verb hverb =>
        split at hverb
        · next heq =>
          cases heq
          exact absurd rfl hpoint
        · cases hverb
          split at h
          · next hletter => exact not_flag_nor_digit_of_letter hletter
          · cases h
      · cases h
  have hflags : ∀ c ∈ cs.takeWhile isFlag, isFlag c = true :=
    List.all_eq_true.mp List.all_takeWhile
  obtain ⟨htake, hdrop⟩ := Text.span_append hflags fun c hc => (hhead c hc).1
  have hnone : ([] ++ rest).takeWhile isDecimalDigit = [] ∧
      ([] ++ rest).dropWhile isDecimalDigit = rest :=
    Text.span_append (by simp) fun c hc => (hhead c hc).2
  rw [List.nil_append] at hnone
  rw [htake, hdrop, hnone.1, hnone.2]
  split at h
  · next verb hverb =>
    split at h
    · next hletter =>
      cases h
      rw [if_pos hletter]
    · cases h
  · cases h

theorem counts?_eq (p : DirectiveParts) :
    p.counts? = (if p.width.isEmpty then some none else (count? p.width).map some).bind fun width =>
      (p.precision.elim (some none) fun ds => (count? ds).map some).map fun precision =>
        (width, precision) := by
  obtain ⟨flags, digits, places, verb⟩ := p
  cases places with
  | none => cases digits <;> rfl
  | some ds => cases digits <;> cases hds : count? ds <;> simp [DirectiveParts.counts?, hds]

theorem counts?_widthless {p : DirectiveParts} {width precision : Option Nat}
    (h : p.counts? = some (width, precision)) :
    DirectiveParts.counts? { p with width := [] } = some (none, precision) := by
  rw [counts?_eq] at h ⊢
  obtain ⟨w, -, hprecision⟩ := Option.bind_eq_some_iff.mp h
  obtain ⟨n, hn, hpair⟩ := Option.map_eq_some_iff.mp hprecision
  cases hpair
  exact congrArg (Option.map fun n => (none, n)) hn

def withoutWidth (source : String) : String :=
  String.ofList ('%' :: widthless source.toList.tail)

theorem parse_withoutWidth {source : String} {d : Directive} (h : Directive.parse source = .ok d) :
    Directive.parse (withoutWidth source) = .ok { d with width := none } := by
  obtain ⟨⟨cs, hcs⟩, -⟩ := source_of_parse h
  rw [Directive.parse, hcs] at h
  cases hparts : splitDirective? ('%' :: cs) with
  | none => simp [hparts] at h
  | some p =>
    cases hcounts : p.counts? with
    | none => simp [hparts, hcounts] at h
    | some counts =>
      obtain ⟨width, precision⟩ := counts
      simp only [hparts, hcounts] at h
      cases h
      rw [Directive.parse, withoutWidth, hcs, String.toList_ofList, List.tail_cons,
        splitDirective?_widthless hparts]
      simp only [counts?_widthless hcounts]

/-- The width has no part in the form of an argument, and the source only in that of an error. -/
theorem Directive.toOption_body (d : Directive) (source source' : String) (arg : Arg) :
    (Directive.body { d with width := none } source arg).toOption =
      (d.body source' arg).toOption := by
  unfold body
  dsimp only
  split <;> rfl

/-! ## Zeros -/

def Arg.isFiniteNumber : Arg → Bool
  | .int _ | .uint _ => true
  | .float x => (rational? x).isSome
  | _ => false

def Directive.zeroFills (d : Directive) (arg : Arg) : Bool :=
  d.zero && arg.isFiniteNumber && d.verb != 'c' && d.verb != 'q' &&
    !(arg.isInteger && d.precision.isSome)

/-- A text of a number in two parts: its sign and, if there is one, the mark of its radix, and the
digits behind them.  Those of an integer denote its magnitude. -/
inductive Directive.Splits (d : Directive) : Arg → (head digits : List Char) → Prop
  | integer {arg : Arg} {negative : Bool} {magnitude radix : Nat} {mark digits : List Char}
      (harg : arg.integer? = some (negative, magnitude))
      (hradix : radixOf? d.verb = some (radix, mark)) (hne : digits ≠ [])
      (hdigits : ∀ c ∈ digits, isDigitOf radix c = true)
      (hvalue : numeral radix digits = magnitude) :
      d.Splits arg (d.sign negative ++ if d.sharp then mark else []) digits
  | double {x : Float} {negative : Bool} {m : Nat} {e : Int} {digits : List Char}
      (hdatum : datum x = .finite negative m e) (hdigits : StartsWithDigit digits) :
      d.Splits (.float x) (d.sign (negative && m != 0)) digits

/-- Zeros in front of the digits leave the number as it is. -/
theorem Directive.Splits.zeros {d : Directive} {arg : Arg} {head digits : List Char}
    (h : d.Splits arg head digits) {k : Nat} (hk : 0 < k) :
    d.Splits arg head (List.replicate k '0' ++ digits) := by
  cases h with
  | integer harg hradix hne hdigits hvalue =>
    apply Splits.integer harg hradix
    · simp [hne]
    · intro c hc
      rcases List.mem_append.mp hc with hc | hc
      · rw [List.eq_of_mem_replicate hc]
        exact isDigitOf_zero_of_radixOf? hradix
      · exact hdigits c hc
    · rw [numeral_replicate_append, hvalue]
  | double hdatum hdigits =>
    apply Splits.double hdatum
    obtain ⟨k, rfl⟩ := Nat.exists_eq_succ_of_ne_zero (Nat.ne_of_gt hk)
    exact ⟨'0', rfl, rfl⟩

/-! ### Magnitudes of doubles -/

/-- The text of a finite magnitude: it starts with a digit, and its only letter is that of an
exponent. -/
structure IsMagnitudeText (text : List Char) : Prop where
  head : StartsWithDigit text
  chars : ∀ c ∈ text, isDoubleChar c = true ∨ c = 'E'

theorem isMagnitudeText_pointText {whole fraction : List Char} (hne : whole ≠ [])
    (hdigits : ∀ c ∈ whole ++ fraction, isAsciiDigit c = true) :
    IsMagnitudeText (pointText whole fraction) := by
  obtain ⟨d, ds, rfl⟩ := List.exists_cons_of_ne_nil hne
  constructor
  · refine ⟨d, ?_, hdigits d (by simp)⟩
    rw [pointText]
    split <;> rfl
  · intro c hc
    rcases mem_pointText hc with rfl | hc
    · exact .inl rfl
    · exact .inl (isDoubleChar_of_isAsciiDigit (hdigits c hc))

theorem isMagnitudeText_fixedDigits (units places : Nat) :
    IsMagnitudeText (fixedDigits units places) := by
  obtain ⟨whole, fraction, htext, hne, -, hdigits, -⟩ := fixedDigits_eq units places
  rw [htext]
  exact isMagnitudeText_pointText hne hdigits

theorem isMagnitudeText_scientificText {s : Scientific} (h : s.HasDigits) (upper : Bool) :
    IsMagnitudeText (scientificText s upper) := by
  obtain ⟨d, ds, hds⟩ := List.exists_cons_of_ne_nil h.ne_nil
  have hdigits := h.digits
  rw [hds] at hdigits
  have hmantissa := isMagnitudeText_pointText (List.cons_ne_nil d []) hdigits
  rw [scientificText, mantissa_eq_pointText hds]
  constructor
  · obtain ⟨c, hc, hdigit⟩ := hmantissa.head
    exact ⟨c, by simp [List.head?_append, Option.mem_def.mp hc], hdigit⟩
  · intro c hc
    rcases List.mem_append.mp hc with hc | hc
    · exact hmantissa.chars c hc
    · rcases List.mem_cons.mp hc with rfl | hc
      · cases upper
        · exact .inl rfl
        · exact .inr rfl
      · exact .inl (isDoubleChar_exponentText c hc)

theorem isMagnitudeText_generalMagnitude {m : Nat} {e : Int} (h : Canonical m e)
    (precision : Option Nat) (upper : Bool) :
    IsMagnitudeText (generalMagnitude m e precision upper) := by
  by_cases hm : m = 0
  · rw [generalMagnitude, if_pos hm]
    exact ⟨⟨'0', rfl, rfl⟩, by simp [isDoubleChar, isAsciiDigit]⟩
  · have hchoice {s : Scientific} (hs : s.HasDigits) (threshold : Int) (places : Nat) :
        IsMagnitudeText (if s.exponent < -4 ∨ threshold ≤ s.exponent then scientificText s upper
          else (magnitude m e).toFixed places) := by
      split
      · exact isMagnitudeText_scientificText hs upper
      · exact isMagnitudeText_fixedDigits _ places
    rw [generalMagnitude, if_neg hm]
    cases precision with
    | none =>
      have hreads := shortest_readsBack h (Nat.pos_of_ne_zero hm)
      exact hchoice (Scientific.HasDigits.trimZeros ⟨hreads.digits, hreads.ne_nil⟩) _ _
    | some p => exact hchoice (Ratio.hasDigits_toScientific _ _).trimZeros _ _

theorem isMagnitudeText_magnitude {m : Nat} {e : Int} (h : Canonical m e) (d : Directive) :
    IsMagnitudeText (d.magnitude m e) := by
  rw [Directive.magnitude]
  split
  · exact isMagnitudeText_scientificText (Ratio.hasDigits_toScientific _ _) _
  · exact isMagnitudeText_fixedDigits _ _
  · exact isMagnitudeText_generalMagnitude h _ _

/-! ### The place of the zeros -/

namespace Directive
variable {d : Directive} {source : String} {arg : Arg} {body : List Char}

/-- Without the letters of the words for what is not finite, a text is filled up with zeros if the
directive asks for it. -/
theorem padsWithZeros_eq (hn : 'n' ∉ body) (hN : 'N' ∉ body) :
    d.padsWithZeros body arg = (d.zero && arg.isNumber && d.verb != 'c' && d.verb != 'q' &&
      !(arg.isInteger && d.precision.isSome)) := by
  have hinf : ['I', 'n', 'f'].isSuffixOf body = false := by
    by_contra hsuffix
    rw [Bool.not_eq_false, List.isSuffixOf_iff_suffix] at hsuffix
    exact hn (hsuffix.subset (by simp))
  have hnan : (body != ['N', 'a', 'N']) = true := by
    rw [bne_iff_ne]
    rintro rfl
    exact hN (by simp)
  rw [padsWithZeros, hinf, hnan]
  simp

theorem exists_radix {negative : Bool} {magnitude : Nat} (hbody : d.body source arg = .ok body)
    (harg : arg.integer? = some (negative, magnitude)) (hc : d.verb ≠ 'c') (hq : d.verb ≠ 'q') :
    ∃ radix mark, radixOf? d.verb = some (radix, mark) := by
  -- without the verbs that have a radix, only those are left that refuse integers
  by_contra hnone
  have hverb (verb : Char) (hradix : (radixOf? verb).isSome = true) : d.verb ≠ verb := by
    rintro rfl
    obtain ⟨⟨radix, mark⟩, hsome⟩ := Option.isSome_iff_exists.mp hradix
    exact hnone ⟨radix, mark, hsome⟩
  have hv := hverb 'v' rfl
  have hd := hverb 'd' rfl
  have hx := hverb 'x' rfl
  have hX := hverb 'X' rfl
  have ho := hverb 'o' rfl
  have hb := hverb 'b' rfl
  unfold Directive.body at hbody
  simp only [harg] at hbody
  split at hbody <;> first
    | contradiction
    | (cases arg <;> simp_all [Arg.integer?])

theorem body_float {x : Float} (hbody : d.body source (.float x) = .ok body) (hq : d.verb ≠ 'q') :
    body = d.double x ∧ d.verb ≠ 'o' := by
  have hinteger : (Arg.float x).integer? = none := rfl
  unfold Directive.body at hbody
  simp only [hinteger] at hbody
  split at hbody <;> simp_all [Except.map]

/-- A finite number falls into two parts, the second of which the zeros are put in front of, and it
has no letter of the words for what is not finite. -/
structure FallsApart (d : Directive) (arg : Arg) (body : List Char) : Prop where
  splits : ∃ head digits, body = head ++ digits ∧ d.headLength body = head.length ∧
    d.Splits arg head digits
  wordless : 'n' ∉ body ∧ 'N' ∉ body

theorem wordless_sign (negative : Bool) : 'n' ∉ d.sign negative ∧ 'N' ∉ d.sign negative := by
  have hsigns : ∀ s ∈ [['-'], ['+'], [' '], []], 'n' ∉ s ∧ 'N' ∉ s := by
    decide
  exact hsigns _ (d.sign_mem negative)

theorem fallsApart_integer {negative : Bool} {magnitude : Nat}
    (hbody : d.body source arg = .ok body) (harg : arg.integer? = some (negative, magnitude))
    (hc : d.verb ≠ 'c') (hq : d.verb ≠ 'q') : d.FallsApart arg body := by
  obtain ⟨radix, mark, hradix⟩ := exists_radix hbody harg hc hq
  obtain ⟨ds, hne, hdigits, hvalue, hds⟩ := body_integer source harg hradix
  obtain rfl := Except.ok.inj (hbody.symm.trans hds)
  have hmark : 'n' ∉ (if d.sharp then mark else []) ∧ 'N' ∉ if d.sharp then mark else [] := by
    split
    · exact (mark_chars hradix).2
    · simp
  have hn : 'n' ∉ ds := fun hmem => (ne_of_isDigitOf (hdigits _ hmem)).2.2.2.2.2.1 rfl
  have hN : 'N' ∉ ds := fun hmem => (ne_of_isDigitOf (hdigits _ hmem)).2.2.2.2.2.2 rfl
  have hsign := wordless_sign (d := d) negative
  constructor
  · exact ⟨_, ds, (List.append_assoc _ _ _).symm, headLength_integer hradix hdigits,
      .integer harg hradix hne hdigits hvalue⟩
  · simp only [List.mem_append, not_or]
    exact ⟨⟨hsign.1, hmark.1, hn⟩, hsign.2, hmark.2, hN⟩

theorem fallsApart_double {x : Float} {q : ℚ} (hbody : d.body source (.float x) = .ok body)
    (hx : rational? x = some q) (hq : d.verb ≠ 'q') : d.FallsApart (.float x) body := by
  obtain ⟨negative, m, e, hdatum, hcanonical, -⟩ := exists_datum_of_rational? hx
  obtain ⟨rfl, hverb⟩ := body_float hbody hq
  have htext := isMagnitudeText_magnitude hcanonical d
  have hdouble : d.double x = d.sign (negative && m != 0) ++ d.magnitude m e := by
    rw [double, hdatum]
  have hletter {c : Char} (hc : isDoubleChar c = false ∧ c ≠ 'E') : c ∉ d.magnitude m e := by
    intro hmem
    rcases htext.chars c hmem with hchar | hE
    · exact absurd hchar (by simp [hc.1])
    · exact hc.2 hE
  have hsign := wordless_sign (d := d) (negative && m != 0)
  rw [hdouble]
  constructor
  · refine ⟨_, _, rfl, ?_, .double hdatum htext.head⟩
    rw [headLength_sign, markLength_of_tail, if_neg (by simp [hverb]), Nat.add_zero]
    · intro c hc
      have hmem := List.mem_of_mem_tail (List.mem_of_mem_head? hc)
      refine ⟨?_, ?_, ?_⟩ <;>
      · rintro rfl
        exact hletter (by decide) hmem
    · intro c hc
      obtain ⟨c', hc', hdigit⟩ := htext.head
      obtain rfl := Option.mem_unique hc hc'
      refine ⟨?_, ?_, ?_⟩ <;>
      · rintro rfl
        cases hdigit
  · simp only [List.mem_append, not_or]
    exact ⟨⟨hsign.1, hletter (by decide)⟩, hsign.2, hletter (by decide)⟩

theorem fallsApart_body (hbody : d.body source arg = .ok body) (hfinite : arg.isFiniteNumber = true)
    (hc : d.verb ≠ 'c') (hq : d.verb ≠ 'q') : d.FallsApart arg body := by
  cases arg with
  | int n => exact fallsApart_integer hbody rfl hc hq
  | uint n => exact fallsApart_integer hbody rfl hc hq
  | float x =>
    obtain ⟨q, hx⟩ := Option.isSome_iff_exists.mp hfinite
    exact fallsApart_double hbody hx hq
  | str s => cases hfinite
  | bool b => cases hfinite

theorem padsWithZeros_word {x : Float} (hx : rational? x = none) :
    d.padsWithZeros (d.double x) (.float x) = false := by
  rw [rational?] at hx
  unfold double
  cases hdatum : datum x with
  | nan => simp [padsWithZeros]
  | infinite negative =>
    have hsuffix : ['I', 'n', 'f'].isSuffixOf ((if negative then '-' else '+') :: ['I', 'n', 'f']) =
        true := by
      cases negative <;> decide
    simp only [padsWithZeros, hsuffix]
    simp
  | finite negative m e => simp [hdatum] at hx

/-- What the text looks like and what the argument is say the same about the zeros. -/
theorem padsWithZeros_body (hbody : d.body source arg = .ok body) :
    d.padsWithZeros body arg = d.zeroFills arg := by
  -- a character or a quoted word may hold any letters, but its verb settles the matter
  by_cases hverb : d.verb = 'c' ∨ d.verb = 'q'
  · rcases hverb with hverb | hverb <;> simp [padsWithZeros, zeroFills, hverb]
  obtain ⟨hc, hq⟩ := not_or.mp hverb
  cases hfinite : arg.isFiniteNumber with
  | true =>
    have hnumber : arg.isNumber = true := by
      cases arg <;> first | rfl | cases hfinite
    obtain ⟨-, hn, hN⟩ := fallsApart_body hbody hfinite hc hq
    rw [padsWithZeros_eq hn hN, zeroFills, hfinite, hnumber]
  | false =>
    have hfills : d.zeroFills arg = false := by simp [zeroFills, hfinite]
    rw [hfills]
    cases arg with
    | int n => cases hfinite
    | uint n => cases hfinite
    | float x =>
      rw [(body_float hbody hq).1]
      exact padsWithZeros_word (by simpa [Arg.isFiniteNumber] using hfinite)
    | str s => simp [padsWithZeros, Arg.isNumber]
    | bool b => simp [padsWithZeros, Arg.isNumber]

/-! ## The width -/

section
variable {width : Nat} (hwidth : d.width = some width)
include hwidth

theorem length_pad (hlt : body.length < width) (arg : Arg) : (d.pad body arg).length = width := by
  have hsplit := congrArg List.length (List.take_append_drop (d.headLength body) body)
  rw [List.length_append] at hsplit
  rw [pad_of_lt hwidth hlt]
  split
  · simp only [List.length_append, List.length_replicate]
    omega
  · split
    · simp only [List.length_append, List.length_replicate]
      omega
    · simp only [List.length_append, List.length_replicate]
      omega

theorem pad_zeros (hlt : body.length < width) (hbody : d.body source arg = .ok body)
    (hminus : d.minus = false) (hfills : d.zeroFills arg = true) :
    ∃ head digits, body = head ++ digits ∧
      d.pad body arg = head ++ (List.replicate (width - body.length) '0' ++ digits) ∧
      d.Splits arg head digits := by
  have hparts := hfills
  simp only [zeroFills, Bool.and_eq_true, bne_iff_ne] at hparts
  obtain ⟨⟨⟨⟨-, hfinite⟩, hc⟩, hq⟩, -⟩ := hparts
  obtain ⟨head, digits, hsplit, hlength, hsplits⟩ := (fallsApart_body hbody hfinite hc hq).splits
  refine ⟨head, digits, hsplit, ?_, hsplits⟩
  rw [pad_of_lt hwidth hlt, hminus, padsWithZeros_body hbody, hfills, hlength]
  simp [hsplit]

end

end Directive

/-- What a width adds to a text: nothing to one that is wide enough, and else as many fill
characters as are missing, spaces behind it, spaces in front of it or zeros in front of the digits
of a number. -/
structure Padded (d : Directive) (width : Nat) (arg : Arg) (bare padded : List Char) : Prop where
  wide : width ≤ bare.length → padded = bare
  length : bare.length < width → padded.length = width
  back : bare.length < width → d.minus = true →
    padded = bare ++ List.replicate (width - bare.length) ' '
  middle : bare.length < width → d.minus = false → d.zeroFills arg = true →
    ∃ head digits, bare = head ++ digits ∧
      padded = head ++ (List.replicate (width - bare.length) '0' ++ digits) ∧
      d.Splits arg head digits ∧
      d.Splits arg head (List.replicate (width - bare.length) '0' ++ digits)
  front : bare.length < width → d.minus = false → d.zeroFills arg = false →
    padded = List.replicate (width - bare.length) ' ' ++ bare

theorem padded_pad {d : Directive} {width : Nat} {source : String} {arg : Arg} {body : List Char}
    (hwidth : d.width = some width) (hbody : d.body source arg = .ok body) :
    Padded d width arg body (d.pad body arg) where
  wide hle := Directive.pad_of_le hwidth hle arg
  length hlt := Directive.length_pad hwidth hlt arg
  back hlt hminus := by
    rw [Directive.pad_of_lt hwidth hlt, if_pos hminus]
  middle hlt hminus hfills := by
    obtain ⟨head, digits, hsplit, hpadded, hsplits⟩ :=
      Directive.pad_zeros hwidth hlt hbody hminus hfills
    exact ⟨head, digits, hsplit, hpadded, hsplits, hsplits.zeros (Nat.sub_pos_of_lt hlt)⟩
  front hlt hminus hfills := by
    rw [Directive.pad_of_lt hwidth hlt, hminus, Directive.padsWithZeros_body hbody, hfills]
    rfl

/-- A width only pads: the directive without its width is a directive that fails for the same
arguments, and for the others writes what is padded.  Zeros in front of the digits of an integer
leave the number that they denote in the radix of the verb. -/
theorem width_only_pads {source : String} {d : Directive} {width : Nat}
    (hparse : Directive.parse source = .ok d) (hwidth : d.width = some width) (arg : Arg) :
    Directive.parse (withoutWidth source) = .ok { d with width := none } ∧
      ((∃ e e', applyDirective (withoutWidth source) arg = .error e ∧
          applyDirective source arg = .error e') ∨
        ∃ bare padded, applyDirective (withoutWidth source) arg = .ok bare ∧
          applyDirective source arg = .ok padded ∧
          Padded d width arg bare.toList padded.toList) := by
  have hbare := parse_withoutWidth hparse
  refine ⟨hbare, ?_⟩
  have hoption := d.toOption_body (withoutWidth source) source arg
  rw [applyDirective, applyDirective, hparse, hbare]
  dsimp only
  cases hbody : d.body source arg with
  | error e =>
    rw [hbody] at hoption
    cases hbody' : Directive.body { d with width := none } (withoutWidth source) arg with
    | error e' => exact .inl ⟨e', e, rfl, rfl⟩
    | ok body' => simp [hbody', Except.toOption] at hoption
  | ok body =>
    rw [hbody] at hoption
    cases hbody' : Directive.body { d with width := none } (withoutWidth source) arg with
    | error e' => simp [hbody', Except.toOption] at hoption
    | ok body' =>
      obtain rfl : body' = body := by simpa [hbody', Except.toOption] using hoption
      refine .inr ⟨_, _, rfl, rfl, ?_⟩
      rw [String.toList_ofList, String.toList_ofList, Directive.pad_of_width_eq_none rfl]
      exact padded_pad hwidth hbody

theorem width_only_pads_hexadecimal :
    Directive.parse (withoutWidth "%#08x") =
        .ok ⟨false, false, false, true, true, none, none, 'x'⟩ ∧
      ((∃ e e', applyDirective (withoutWidth "%#08x") (.int (-255)) = .error e ∧
          applyDirective "%#08x" (.int (-255)) = .error e') ∨
        ∃ bare padded, applyDirective (withoutWidth "%#08x") (.int (-255)) = .ok bare ∧
          applyDirective "%#08x" (.int (-255)) = .ok padded ∧
          Padded ⟨false, false, false, true, true, some 8, none, 'x'⟩ 8 (.int (-255)) bare.toList
            padded.toList) :=
  width_only_pads (d := ⟨false, false, false, true, true, some 8, none, 'x'⟩) rfl rfl (.int (-255))

end TclHost.Template
