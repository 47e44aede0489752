import TclHost.Proofs.Expr.NumberToken
import TclHost.Proofs.Expr.Printed
import TclHost.Proofs.Expr.Spaced
/-! # Where one token ends and the next begins

Each kind of token is read as far as it goes, so a text that is one token is read as that token in
front of another text too if it does not go on there: a number in front of what is no part of
numbers, a reference where no name and no index follows, a word in front of what is no part of
words, and a mark in front of what makes no longer mark with it.
-/
namespace TclHost.Expr

open Text

/-! ## Where tokens end -/

def Mark.isWord : Mark → Bool
  | .strEq | .strNe | .isIn | .notIn => true
  | _ => false

/-- The characters that make a longer mark behind one. -/
def Mark.extensions : Mark → List Char
  | .star => ['*']
  | .bang => ['=']
  | .ampersand => ['&']
  | .pipe => ['|']
  | .lt => ['<', '=']
  | .gt => ['>', '=']
  | _ => []

def Mark.joins (m : Mark) (d : Char) : Bool :=
  m.extensions.contains d || m.isWord && isWordChar d

/-- A token ends in front of a text that follows it without white space. -/
def Token.EndsBefore (rest : List Char) : Token → Prop
  | .number _ => ∀ d ∈ rest.head?, isNumberChar d = false
  | .variable _ => splitName rest = ([], rest) ∧ rest.head? ≠ some '('
  | .word _ => ∀ d ∈ rest.head?, isWordChar d = false
  | .mark m => ∀ d ∈ rest.head?, m.joins d = false
  | .unknown _ => False
  | _ => True

def isWordStart (c : Char) : Bool :=
  isAsciiLetter c || c == '_'

/-- How a token is read, by the character that it starts with. -/
inductive Lexes (c : Char) (cs : List Char) : Token → List Char → Prop
  | number {n : Num} {rest : List Char} (hc : isAsciiDigit c = true ∨ c = '.')
    (hdigit : (isAsciiDigit c || (c == '.' && cs.head?.any isAsciiDigit)) = true)
    (h : readNumber c cs = .ok (.number n, rest)) : Lexes c cs (.number n) rest
  | reference {name : String} {rest : List Char} (hc : c = '$')
    (h : readVariable cs = .ok (.variable name, rest)) : Lexes c cs (.variable name) rest
  | command {script : String} {rest : List Char} (hc : c = '[')
    (h : readDelimited '[' ']' .unclosedBracket .command cs = .ok (.command script, rest)) :
    Lexes c cs (.command script) rest
  | quoted {text : String} {rest : List Char} (hc : c = '"')
    (h : readDelimited '"' '"' .unclosedQuote .quoted cs = .ok (.quoted text, rest)) :
    Lexes c cs (.quoted text) rest
  | braced {text : String} {rest : List Char} (hc : c = '{')
    (h : readDelimited '{' '}' .unclosedBrace .braced cs = .ok (.braced text, rest)) :
    Lexes c cs (.braced text) rest
  | word (hc : isWordStart c = true) :
    Lexes c cs (wordToken (String.ofList (c :: cs.takeWhile isWordChar))) (cs.dropWhile isWordChar)
  | mark {m : Mark} {rest : List Char} (hc : isNameChar c = false)
    (h : readMark? c cs = some (m, rest)) : Lexes c cs (.mark m) rest
  | unknown (hc : isNameChar c = false) (h : readMark? c cs = none) : Lexes c cs (.unknown c) cs

section
variable {c : Char} {cs rest : List Char} {token : Token}

theorem lexes_of_readToken (h : readToken c cs = .ok (token, rest)) : Lexes c cs token rest := by
  unfold readToken at h
  split at h
  · next hdigit =>
    have hc : isAsciiDigit c = true ∨ c = '.' := by
      simp only [Bool.or_eq_true, Bool.and_eq_true, beq_iff_eq] at hdigit
      exact hdigit.imp_right And.left
    obtain ⟨-, n, rfl, -⟩ := ((readNumber_iff hc cs).1 _ _).mp h
    exact .number hc hdigit h
  next hnumber =>
  split at h
  · next hc =>
    obtain ⟨name, rfl, -, -⟩ := isReference_of_readVariable h
    exact .reference hc h
  split at h
  · next hc =>
    obtain ⟨script, rfl, -⟩ := readDelimited_eq_ok_iff.mp h
    exact .command hc h
  split at h
  · next hc =>
    obtain ⟨text, rfl, -⟩ := readDelimited_eq_ok_iff.mp h
    exact .quoted hc h
  split at h
  · next hc =>
    obtain ⟨text, rfl, -⟩ := readDelimited_eq_ok_iff.mp h
    exact .braced hc h
  split at h
  · next hc =>
    cases h
    exact .word hc
  · next hword =>
    have hname : isNameChar c = false := by
      simp only [Bool.or_eq_true, not_or, Bool.not_eq_true] at hnumber hword
      simp [isNameChar, hnumber.1, hword.1, hword.2]
    split at h
    · next hmark =>
      cases h
      exact .mark hname hmark
    · next hmark =>
      cases h
      exact .unknown hname hmark

end

/-! ## Numbers -/

def isExponentLetter (c : Char) : Bool :=
  c == 'e' || c == 'E'

/-- A number that ends with its text ends in front of what is no part of numbers, unless its last
letter could be that of an exponent. -/
theorem numberTail_append_of_stop {hex : Bool} {cs more : List Char}
    (hend : (numberTail hex cs).2 = []) (hstop : ∀ d ∈ more.head?, isNumberChar d = false)
    (hlast : hex = false → ∀ d ∈ cs.getLast?, isExponentLetter d = false) :
    numberTail hex (cs ++ more) = (cs, more) := by
  have hdigit : ∀ d ∈ more.head?, isAsciiDigit d = false := by
    intro d hd
    have hnot := hstop d hd
    simp only [isNumberChar, Bool.or_eq_false_iff] at hnot
    exact hnot.1.1
  fun_induction numberTail hex cs with
  | case1 =>
    cases more with
    | nil => rfl
    | cons d ds => exact numberTail_stop hex (hstop d rfl) ds
  | case2 c hc h => simp [signedExponentFollows] at h
  | case3 c hc e ds r hsign ih =>
    have hfollows : signedExponentFollows (e :: ds ++ more) = signedExponentFollows (e :: ds) := by
      cases ds with
      | nil => simp [signedExponentFollows] at hsign
      | cons d ds => rfl
    have hlast' : hex = false → ∀ d ∈ ds.getLast?, isExponentLetter d = false := by
      intro hhex d hd
      refine hlast hhex d ?_
      rw [List.getLast?_cons_cons, List.getLast?_cons, hd]
      rfl
    rw [← hfollows, List.cons_append] at hsign
    rw [List.cons_append, List.cons_append, numberTail_sign hc hsign, ih hend hlast']
  | case4 c cs hc hsign r ih =>
    have hlast' : hex = false → ∀ d ∈ cs.getLast?, isExponentLetter d = false := by
      intro hhex d hd
      refine hlast hhex d ?_
      rw [List.getLast?_cons, hd]
      rfl
    have hsign' :
        (!hex && (c == 'e' || c == 'E') && signedExponentFollows (cs ++ more)) = false := by
      cases cs with
      | nil =>
        cases hhex : hex with
        | true => rfl
        | false =>
          have hletter : isExponentLetter c = false := hlast hhex c rfl
          rw [isExponentLetter] at hletter
          simp [hletter]
      | cons d cs =>
        cases cs with
        | nil =>
          have hfollows : signedExponentFollows (d :: more) = false := by
            cases more with
            | nil => rfl
            | cons d' ds => simp [signedExponentFollows, hdigit d' rfl]
          simp [hfollows]
        | cons d' cs =>
          exact Bool.not_eq_true _ ▸ hsign
    rw [List.cons_append, numberTail_next hc hsign', ih hend hlast']
  | case5 => cases hend

/-- The digits of a numeral are the end of it, and those of a radix above ten stand behind its
mark. -/
theorem splitRadix_cases (cs : List Char) :
    (Number.splitRadix cs).2 <:+ cs ∧ ((Number.splitRadix cs).1 ≤ 10 ∨
      ∃ x ds, cs = '0' :: x :: ds ∧ (x = 'x' ∨ x = 'X')) := by
  have hmark {x : Char} {ds : List Char} : ds <:+ '0' :: x :: ds := ⟨['0', x], rfl⟩
  have htwo : 2 ≤ 10 := by decide
  have height : 8 ≤ 10 := by decide
  unfold Number.splitRadix
  split
  · exact ⟨hmark, .inr ⟨'x', _, rfl, .inl rfl⟩⟩
  · exact ⟨hmark, .inr ⟨'X', _, rfl, .inr rfl⟩⟩
  · exact ⟨hmark, .inl height⟩
  · exact ⟨hmark, .inl height⟩
  · exact ⟨hmark, .inl htwo⟩
  · exact ⟨hmark, .inl htwo⟩
  · split
    · exact ⟨List.drop_suffix 1 cs, .inl height⟩
    · exact ⟨List.suffix_rfl, .inl (Nat.le_refl 10)⟩

theorem getLast?_of_suffix {cs ds : List Char} (h : ds <:+ cs) (hne : ds ≠ []) :
    cs.getLast? = ds.getLast? := by
  obtain ⟨front, rfl⟩ := h
  exact List.getLast?_append_of_ne_nil front hne

theorem isExponentLetter_of_isAsciiDigit {c : Char} (h : isAsciiDigit c = true) :
    isExponentLetter c = false := by
  simp only [isExponentLetter, Bool.or_eq_false_iff, beq_eq_false_iff_ne]
  constructor <;>
  · rintro rfl
    cases h

theorem getLast?_of_readExponent? {cs : List Char} {e : Int}
    (h : Double.readExponent? cs = some e) : ∀ d ∈ cs.getLast?, isAsciiDigit d = true := by
  cases cs with
  | nil => simp
  | cons c cs =>
    rw [Double.readExponent?] at h
    split at h
    · dsimp only at h
      split at h
      · cases h
      · next hdigits =>
        simp only [Bool.or_eq_true, List.isEmpty_iff, Bool.not_eq_true', not_or,
          Bool.not_eq_false] at hdigits
        have hsuffix : (Double.splitSign cs).2 <:+ c :: cs := by
          refine List.IsSuffix.trans ?_ (List.suffix_cons c cs)
          unfold Double.splitSign
          split
          · exact List.suffix_cons _ _
          · exact List.suffix_cons _ _
          · exact List.suffix_rfl
        intro d hd
        rw [getLast?_of_suffix hsuffix hdigits.1] at hd
        exact List.all_eq_true.mp hdigits.2 d (List.mem_of_getLast? hd)
    · cases h

theorem getLast?_of_readNumeral? {cs : List Char} {n : Double.Numeral}
    (h : Double.readNumeral? cs = some n) : ∀ d ∈ cs.getLast?, isExponentLetter d = false := by
  have hwhole : ∀ d ∈ cs.takeWhile isAsciiDigit, isAsciiDigit d = true :=
    fun d hd => List.mem_takeWhile_imp hd
  have hparts := List.takeWhile_append_dropWhile (p := isAsciiDigit) (l := cs)
  -- What the exponent is read from is an end of the text, behind digits and perhaps a point.
  obtain ⟨front, rest, e, hcs, hfront, hrest⟩ : ∃ front rest e, cs = front ++ rest ∧
      (∀ d ∈ front, isAsciiDigit d = true ∨ d = '.') ∧ Double.readExponent? rest = some e := by
    unfold Double.readNumeral? at h
    dsimp only at h
    split at h
    · next ds hafter =>
      dsimp only at h
      rw [hafter] at hparts
      split at h
      · cases h
      · obtain ⟨e, he, -⟩ := Option.map_eq_some_iff.mp h
        refine ⟨cs.takeWhile isAsciiDigit ++ '.' :: ds.takeWhile isAsciiDigit, _, e, ?_, ?_, he⟩
        · rw [List.append_assoc, List.cons_append, List.takeWhile_append_dropWhile]
          exact hparts.symm
        · intro d hd
          rcases List.mem_append.mp hd with hd | hd
          · exact .inl (hwhole d hd)
          · rcases List.mem_cons.mp hd with rfl | hd
            · exact .inr rfl
            · exact .inl (List.mem_takeWhile_imp hd)
    · dsimp only at h
      split at h
      · cases h
      · obtain ⟨e, he, -⟩ := Option.map_eq_some_iff.mp h
        exact ⟨_, _, e, hparts.symm, fun d hd => .inl (hwhole d hd), he⟩
  intro d hd
  by_cases hnil : rest = []
  · subst hnil
    rw [List.append_nil] at hcs
    subst hcs
    rcases hfront d (List.mem_of_getLast? hd) with hdigit | rfl
    · exact isExponentLetter_of_isAsciiDigit hdigit
    · rfl
  · rw [hcs, List.getLast?_append_of_ne_nil _ hnil] at hd
    exact isExponentLetter_of_isAsciiDigit (getLast?_of_readExponent? hrest d hd)

section
variable {c : Char} {cs : List Char} (hc : isAsciiDigit c = true ∨ c = '.')
include hc

theorem splitSign_of_number : Double.splitSign (c :: cs) = (false, c :: cs) := by
  refine splitSign_of_ne ?_ cs
  rcases hc with hc | rfl
  · exact ne_sign_of_isAsciiDigit hc
  · rfl

theorem getLast?_of_parseInt (hblank : ∀ d ∈ c :: cs, isBlank d = false) {n : Int64}
    (hhex : ∀ x ds, c :: cs = '0' :: x :: ds → x ≠ 'x' ∧ x ≠ 'X')
    (h : Number.parseInt (String.ofList (c :: cs)) = .ok n) :
    ∀ d ∈ (c :: cs).getLast?, isExponentLetter d = false := by
  obtain ⟨hsuffix, hradix⟩ := splitRadix_cases (c :: cs)
  have hle : (Number.splitRadix (c :: cs)).1 ≤ 10 := by
    rcases hradix with hle | ⟨x, ds, heq, hx⟩
    · exact hle
    · rcases hx with hx | hx
      · exact absurd hx (hhex x ds heq).1
      · exact absurd hx (hhex x ds heq).2
  rw [Number.parseInt, String.toList_ofList, trim_eq hblank, splitSign_of_number hc] at h
  dsimp only at h
  split at h
  · cases h
  · next hdigits =>
    simp only [Bool.or_eq_true, List.isEmpty_iff, Bool.not_eq_true', not_or,
      Bool.not_eq_false] at hdigits
    intro d hd
    rw [getLast?_of_suffix hsuffix hdigits.1] at hd
    have hdigit := List.all_eq_true.mp hdigits.2 d (List.mem_of_getLast? hd)
    exact isExponentLetter_of_isAsciiDigit (isAsciiDigit_of_isDigitOf hle hdigit)

omit hc in
theorem getLast?_of_word? {negative : Bool} {cs : List Char} {x : Float}
    (h : Double.word? negative (cs.map Char.toLower) = some x) :
    ∀ d ∈ cs.getLast?, isExponentLetter d = false := by
  have hlast {w : List Char} (hw : cs.map Char.toLower = w) (hends : w.getLast? ≠ some 'e') :
      ∀ d ∈ cs.getLast?, isExponentLetter d = false := by
    intro d hd
    have hlower : w.getLast? = some d.toLower := by
      rw [← hw, List.getLast?_map, hd]
      rfl
    simp only [isExponentLetter, Bool.or_eq_false_iff, beq_eq_false_iff_ne]
    constructor <;>
    · rintro rfl
      exact hends hlower
  unfold Double.word? at h
  split at h
  · next hword =>
    rcases hword with hword | hword
    · exact hlast hword (by decide)
    · exact hlast hword (by decide)
  · split at h
    · next hword => exact hlast hword (by decide)
    · cases h

/-- The text of a number token ends with the letter of an exponent only if it is hexadecimal. -/
theorem getLast?_of_numberToken (hblank : ∀ d ∈ c :: cs, isBlank d = false) {token : Token}
    (hhex : ∀ x ds, c :: cs = '0' :: x :: ds → x ≠ 'x' ∧ x ≠ 'X')
    (h : numberToken (c :: cs) = .ok token) :
    ∀ d ∈ (c :: cs).getLast?, isExponentLetter d = false := by
  unfold numberToken at h
  split at h
  · next hread => exact getLast?_of_parseInt hc hblank hhex hread
  · split at h
    · cases h
    · split at h
      · next hread =>
        rw [Double.read?, splitSign_of_number hc] at hread
        dsimp only at hread
        split at hread
        · next hnumeral => exact getLast?_of_readNumeral? hnumeral
        · exact getLast?_of_word? hread
      · cases h

/-- A number that ends with its text ends in front of what is no part of numbers. -/
theorem readNumber_append_of_stop {token : Token} {more : List Char}
    (h : readNumber c cs = .ok (token, [])) (hstop : ∀ d ∈ more.head?, isNumberChar d = false) :
    readNumber c (cs ++ more) = .ok (token, more) := by
  have hhex : ((cs ++ more).head? == some 'x' || (cs ++ more).head? == some 'X') =
      (cs.head? == some 'x' || cs.head? == some 'X') := by
    cases cs with
    | nil =>
      cases more with
      | nil => rfl
      | cons d ds =>
        have hd := hstop d rfl
        have hx : d ≠ 'x' ∧ d ≠ 'X' := by
          constructor <;>
          · rintro rfl
            cases hd
        simp [hx]
    | cons d ds => rfl
  have hnumber := readNumber_eq c cs
  rw [h, numberText] at hnumber
  cases htoken : numberToken (c :: (numberTail (c == '0' && (cs.head? == some 'x' ||
    cs.head? == some 'X')) cs).1) with
  | error e =>
    rw [htoken] at hnumber
    cases hnumber
  | ok token' =>
    rw [htoken] at hnumber
    obtain ⟨rfl, hend⟩ := Prod.mk.inj (Except.ok.inj hnumber)
    have htext := numberTail_fst_append_snd (c == '0' && (cs.head? == some 'x' ||
      cs.head? == some 'X')) cs
    rw [← hend, List.append_nil] at htext
    have hblank := isBlank_of_mem_numberText hc cs
    rw [numberText] at hblank
    rw [htext] at htoken hblank
    have htail : numberTail (c == '0' && (cs.head? == some 'x' || cs.head? == some 'X'))
        (cs ++ more) = (cs, more) := by
      refine numberTail_append_of_stop hend.symm hstop ?_
      intro hnothex d hd
      refine getLast?_of_numberToken hc hblank ?_ htoken d ?_
      · intro x ds heq
        cases heq
        simpa using hnothex
      · rw [List.getLast?_cons, hd]
        rfl
    rw [readNumber, hhex, htail, htoken]
    rfl

end

/-! ## References, words and marks -/

theorem splitName_append_of_stop {cs more : List Char} (hend : (splitName cs).2 = [])
    (hstop : splitName more = ([], more)) : splitName (cs ++ more) = (cs, more) := by
  fun_induction splitName cs with
  | case1 => exact hstop
  | case2 c cs hc r ih => rw [List.cons_append, splitName_nameChar hc, ih hend]
  | case3 cs hc r ih => rw [List.cons_append, List.cons_append, splitName_colons, ih hend]
  | case4 => cases hend
  | case5 => cases hend

theorem readVariable_append_of_stop {cs more : List Char} {token : Token}
    (h : readVariable cs = .ok (token, [])) (hname : splitName more = ([], more))
    (hindex : more.head? ≠ some '(') : readVariable (cs ++ more) = .ok (token, more) := by
  obtain ⟨name, rfl, rfl, href⟩ := isReference_of_readVariable h
  rw [List.append_nil]
  apply readVariable_of_isReference
  cases href with
  | braced hbrace => exact .braced hbrace
  | plain hne hwhole _ =>
    rw [List.append_nil] at hwhole
    exact .plain hne (splitName_append_of_stop (by rw [hwhole]) hname) hindex
  | element hne hwhole hparen => exact .element hne hwhole hparen

theorem readMark?_append_of_stop {c : Char} {cs more : List Char} {m : Mark}
    (h : readMark? c cs = some (m, [])) (hstop : ∀ d ∈ more.head?, m.joins d = false) :
    readMark? c (cs ++ more) = some (m, more) := by
  cases more with
  | nil => rwa [List.append_nil]
  | cons d ds =>
    have hd := hstop d rfl
    simp only [Mark.joins, Bool.or_eq_false_iff] at hd
    replace hd := hd.1
    unfold readMark? at h
    split at h <;> cases h <;> simp_all [readMark?, Mark.extensions]

/-! ## How tokens start -/

/-- A character that an operand, an operator in front of one, or a parenthesis starts with. -/
def opensOperand (c : Char) : Bool :=
  isNameChar c || ['.', '$', '[', '"', '{', '(', '-', '+', '!', '~'].contains c

structure Mark.StartsWith (m : Mark) (c : Char) : Prop where
  special : c ∉ ['.', '$', '[', '"', '{']
  colon : c = ':' → m = .colon
  paren : c = '(' → m = .leftParen
  opens : m = .leftParen ∨ (UnaryOp.ofMark? m).isSome → opensOperand c = true

theorem Mark.startsWith_of_readMark? {c : Char} {cs rest : List Char} {m : Mark}
    (h : readMark? c cs = some (m, rest)) : m.StartsWith c := by
  unfold readMark? at h
  split at h <;> cases h <;> exact ⟨by decide, by decide, by decide, by decide⟩

theorem Mark.joins_of_opensOperand {m : Mark} (hword : m.isWord = false) {d : Char}
    (hd : opensOperand d = true) : m.joins d = false := by
  have hnot : m.extensions.all (fun d => !opensOperand d) = true := by
    cases m <;> rfl
  have hmem : d ∉ m.extensions := fun h => by simpa [hd] using List.all_eq_true.mp hnot d h
  simp [joins, hword, hmem]

theorem isNameChar_of_isWordStart {c : Char} (hc : isWordStart c = true) :
    isNameChar c = true := by
  simp only [isWordStart, Bool.or_eq_true] at hc
  rcases hc with hc | hc <;> simp [isNameChar, hc]

theorem isAsciiDigit_of_isWordStart {c : Char} (hc : isWordStart c = true) :
    isAsciiDigit c = false := by
  cases h : isAsciiDigit c with
  | false => rfl
  | true =>
    have hdigit := toNat_of_isAsciiDigit h
    simp only [isWordStart, Bool.or_eq_true, beq_iff_eq] at hc
    rcases hc with hc | rfl
    · have hletter := toNat_of_isAsciiLetter hc
      omega
    · cases h

theorem ne_sign_of_isWordStart {c : Char} (hc : isWordStart c = true) :
    (c == '+' || c == '-') = false := by
  simp only [Bool.or_eq_false_iff, beq_eq_false_iff_ne]
  constructor <;>
  · rintro rfl
    cases hc

theorem wordToken_cases (name : String) :
    (∃ m, wordToken name = .mark m ∧ m.isWord = true) ∨ wordToken name = .word name := by
  unfold wordToken
  split
  · exact .inl ⟨_, rfl, rfl⟩
  · exact .inl ⟨_, rfl, rfl⟩
  · exact .inl ⟨_, rfl, rfl⟩
  · exact .inl ⟨_, rfl, rfl⟩
  · exact .inr rfl

section
variable {c : Char} {cs rest more : List Char} {token : Token} {symbol : Symbol}

theorem opensOperand_of_starts (hs : symbol.Starts) (hspells : token.Spells symbol)
    (h : readToken c cs = .ok (token, rest)) : opensOperand c = true := by
  cases lexes_of_readToken h with
  | number hc _ _ =>
    rcases hc with hc | rfl
    · simp [opensOperand, isNameChar, hc]
    · decide
  | reference hc _ => subst hc; decide
  | command hc _ => subst hc; decide
  | quoted hc _ => subst hc; decide
  | braced hc _ => subst hc; decide
  | word hc => simp [opensOperand, isNameChar_of_isWordStart hc]
  | mark _ hmark =>
    cases symbol with
    | leaf => cases hspells
    | name => cases hspells
    | mark m =>
      cases hspells
      exact (Mark.startsWith_of_readMark? hmark).opens hs
  | unknown _ _ => cases symbol <;> cases hspells

/-- A mark that is no word starts with a character that is part of no name. -/
theorem readMark?_of_readToken {m : Mark} (hword : m.isWord = false)
    (h : readToken c cs = .ok (.mark m, rest)) :
    isNameChar c = false ∧ readMark? c cs = some (m, rest) := by
  generalize htoken : Token.mark m = token at h
  cases lexes_of_readToken h with
  | word hc =>
    rcases wordToken_cases (String.ofList (c :: cs.takeWhile isWordChar)) with
      ⟨m', hm', hword'⟩ | hm'
    · rw [hm'] at htoken
      cases htoken
      rw [hword] at hword'
      cases hword'
    · rw [hm'] at htoken
      cases htoken
  | mark hname hmark =>
    cases htoken
    exact ⟨hname, hmark⟩
  | _ => cases htoken

theorem readToken_word (hc : isWordStart c = true) (cs : List Char) :
    readToken c cs =
      .ok (wordToken (String.ofList (c :: cs.takeWhile isWordChar)), cs.dropWhile isWordChar) := by
  have hne {d : Char} (hd : isWordStart d = false) : c ≠ d := by
    rintro rfl
    rw [hc] at hd
    cases hd
  have hdot : (c == '.') = false := beq_eq_false_iff_ne.mpr (hne rfl)
  have hdigit := isAsciiDigit_of_isWordStart hc
  rw [isWordStart] at hc
  simp [readToken, hdigit, hdot, hc, hne (d := '$') rfl, hne (d := '[') rfl, hne (d := '"') rfl,
    hne (d := '{') rfl]

theorem readToken_mark {m : Mark} (hname : isNameChar c = false)
    (h : readMark? c cs = some (m, rest)) : readToken c cs = .ok (.mark m, rest) := by
  have hspecial := (Mark.startsWith_of_readMark? h).special
  simp only [isNameChar, Bool.or_eq_false_iff] at hname
  simp only [List.mem_cons, List.not_mem_nil, or_false, not_or] at hspecial
  simp [readToken, hname, hspecial, h]

/-- A text that is one token is read as that token in front of a text that it ends before. -/
theorem readToken_append_of_stop (h : readToken c cs = .ok (token, []))
    (hends : token.EndsBefore more) : readToken c (cs ++ more) = .ok (token, more) := by
  generalize hrest : ([] : List Char) = rest at h
  cases lexes_of_readToken h with
  | number hc hdigit hread =>
    cases hrest
    have hdigit' :
        (isAsciiDigit c || (c == '.' && (cs ++ more).head?.any isAsciiDigit)) = true := by
      cases cs with
      | nil =>
        have hc : isAsciiDigit c = true := by simpa using hdigit
        simp [hc]
      | cons d cs => exact hdigit
    rw [readToken, if_pos hdigit']
    exact readNumber_append_of_stop hc hread hends
  | reference hc hread =>
    cases hrest
    subst hc
    exact readVariable_append_of_stop hread hends.1 hends.2
  | command hc hread =>
    cases hrest
    subst hc
    exact readDelimited_append hread more
  | quoted hc hread =>
    cases hrest
    subst hc
    exact readDelimited_append hread more
  | braced hc hread =>
    cases hrest
    subst hc
    exact readDelimited_append hread more
  | word hc =>
    have hall : ∀ d ∈ cs, isWordChar d = true := List.dropWhile_eq_nil_iff.mp hrest.symm
    have hstop : ∀ d ∈ more.head?, isWordChar d = false := by
      rcases wordToken_cases (String.ofList (c :: cs.takeWhile isWordChar)) with
        ⟨m, hm, hword⟩ | hm
      · rw [hm] at hends
        intro d hd
        have hjoins := hends d hd
        rw [Mark.joins, hword, Bool.true_and, Bool.or_eq_false_iff] at hjoins
        exact hjoins.2
      · rw [hm] at hends
        exact hends
    have hmore : more.takeWhile isWordChar = [] ∧ more.dropWhile isWordChar = more := by
      cases more with
      | nil => exact ⟨rfl, rfl⟩
      | cons d ds => simp [hstop d rfl]
    rw [readToken_word hc, List.takeWhile_append_of_pos hall, List.dropWhile_append_of_pos hall,
      hmore.1, hmore.2, List.append_nil, List.takeWhile_eq_self_iff.mpr hall]
  | mark hname hmark =>
    cases hrest
    exact readToken_mark hname (readMark?_append_of_stop hmark hends)
  | unknown => exact absurd hends id

end

/-! ## Words that are values -/

theorem isBlank_of_isWordChar {c : Char} (h : isWordChar c = true) : isBlank c = false := by
  simp only [isWordChar, isNameChar, Bool.or_eq_true, beq_iff_eq] at h
  rcases h with ((h | h) | rfl) | rfl
  · exact isBlank_of_isNumberChar (by simp [isNumberChar, h])
  · exact isBlank_of_isNumberChar (by simp [isNumberChar, h])
  · rfl
  · rfl

theorem colon_not_mem_of_word? {negative : Bool} {w : List Char} {x : Float}
    (h : Double.word? negative w = some x) : ':' ∉ w := by
  unfold Double.word? at h
  split at h
  · next hw => rcases hw with rfl | rfl <;> decide
  · split at h
    · next hw => subst hw; decide
    · cases h

theorem colon_not_mem_of_wordTruth? {w : List Char} {b : Bool}
    (h : Number.wordTruth? w = some b) : ':' ∉ w := by
  have hfront {v : String} (hv : ':' ∉ v.toList) (hw : w <+: v.toList) : ':' ∉ w :=
    fun hmem => hv (hw.subset hmem)
  unfold Number.wordTruth? at h
  split at h
  · next hw => subst hw; decide
  split at h
  · next hw => exact hfront (by decide) hw.2
  split at h
  · cases h
  split at h
  · next hw => exact hw.elim (hfront (by decide)) (hfront (by decide))
  split at h
  · next hw => exact hw.elim (hfront (by decide)) (hfront (by decide))
  · cases h

section
variable {c : Char} {cs : List Char} (hc : isWordStart c = true) (hcolon : ':' ∈ c :: cs)
include hc hcolon

theorem read?_of_colon : Double.read? (c :: cs) = none := by
  have hlower : ':' ∈ (c :: cs).map Char.toLower := List.mem_map.mpr ⟨':', hcolon, rfl⟩
  have hpoint : c ≠ '.' := by
    rintro rfl
    cases hc
  have hnumeral : Double.readNumeral? (c :: cs) = none := by
    simp [Double.readNumeral?, isAsciiDigit_of_isWordStart hc, hpoint]
  rw [Double.read?, splitSign_of_ne (ne_sign_of_isWordStart hc)]
  dsimp only
  rw [hnumeral]
  cases hword : Double.word? false ((c :: cs).map Char.toLower) with
  | none => rfl
  | some x => exact absurd hlower (colon_not_mem_of_word? hword)

variable (hblank : ∀ d ∈ c :: cs, isBlank d = false)
include hblank

theorem parseDouble_of_colon :
    ∃ e, Number.parseDouble (String.ofList (c :: cs)) = .error e := by
  obtain ⟨e, he⟩ := parseInt_of_head (hblank c List.mem_cons_self)
    (isAsciiDigit_of_isWordStart hc) (ne_sign_of_isWordStart hc) cs
  rw [Number.parseDouble, String.toList_ofList, trim_eq hblank]
  split
  · next hok =>
    rw [he] at hok
    cases hok
  · rw [read?_of_colon hc hcolon]
    split <;> exact ⟨_, rfl⟩

/-- No word with a colon is a value. -/
theorem bareword?_of_colon : bareword? (String.ofList (c :: cs)) = none := by
  have hne {v : String} (hv : ':' ∉ v.toList) : String.ofList (c :: cs) ≠ v := by
    rintro rfl
    exact hv (by rwa [String.toList_ofList])
  have hbool : (Number.parseBool (String.ofList (c :: cs))).isOk = false := by
    obtain ⟨e, he⟩ := parseDouble_of_colon hc hcolon hblank
    rw [Number.parseBool, he, String.toList_ofList, trim_eq hblank]
    dsimp only
    cases htruth : Number.wordTruth? ((c :: cs).map Char.toLower) with
    | none => rfl
    | some b =>
      have hlower : ':' ∈ (c :: cs).map Char.toLower := List.mem_map.mpr ⟨':', hcolon, rfl⟩
      exact absurd hlower (colon_not_mem_of_wordTruth? htruth)
  rw [bareword?, if_neg (hne (by decide)), if_neg (hne (by decide)), hbool, if_neg (by decide)]

end

end TclHost.Expr
