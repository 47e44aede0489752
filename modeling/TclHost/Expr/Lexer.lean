import TclHost.Expr.Token
import TclHost.Text.Delimited
import TclHost.Text.VariableName
/-! # Splitting expressions into tokens

Every function reads one token from the front of a text and returns what follows it, which is
shorter than the text.  The whole text is split before any of it is interpreted.
-/
namespace TclHost.Expr

open Text

inductive LexicalError where
  | invalidNumber (text : String)
  /-- A zero before digits that are not all octal. -/
  | invalidOctal (error : Number.Error)
  | unclosedVariableName
  | loneDollar
  | unclosedIndex
  | unclosedBracket
  | unclosedQuote
  | unclosedBrace
  deriving DecidableEq, Repr

def LexicalError.message : LexicalError → String
  | .invalidNumber text => "invalid number \"" ++ text ++ "\" in expression"
  | .invalidOctal error => error.message
  | .unclosedVariableName => "missing close-brace for variable name"
  | .loneDollar => "invalid character \"$\" in expression"
  | .unclosedIndex => "missing )"
  | .unclosedBracket => "missing close-bracket"
  | .unclosedQuote => "missing \""
  | .unclosedBrace => "missing close-brace"

def isSpace (c : Char) : Bool :=
  c == ' ' || c == '\t' || c == '\n' || c == '\r'

def isNumberChar (c : Char) : Bool :=
  isAsciiDigit c || isAsciiLetter c || c == '.'

/-- An exponent with a sign starts after its letter: a sign and then a digit. -/
def signedExponentFollows : List Char → Bool
  | s :: d :: _ => (s == '+' || s == '-') && isAsciiDigit d
  | _ => false

/-- The characters that continue a number; a sign belongs to it after the letter of an
exponent, which hexadecimal numbers do not have. -/
def numberTail (hex : Bool) : List Char → List Char × List Char
  | [] => ([], [])
  | c :: cs =>
    if isNumberChar c then
      if !hex && (c == 'e' || c == 'E') && signedExponentFollows cs then
        match cs with
        | [] => ([c], [])
        | s :: ds =>
          let r := numberTail hex ds
          (c :: s :: r.1, r.2)
      else
        let r := numberTail hex cs
        (c :: r.1, r.2)
    else ([], c :: cs)

def numberToken (text : List Char) : Except LexicalError Token :=
  match Number.parseInt (String.ofList text) with
  | .ok n => .ok (.number (.int n))
  | .error e =>
    if Number.isLegacyOctal text then .error (.invalidOctal e)
    else match Double.read? text with
      | some x => .ok (.number (.float x))
      | none => .error (.invalidNumber (String.ofList text))

def readNumber (c : Char) (cs : List Char) : Except LexicalError (Token × List Char) :=
  let hex := c == '0' && (cs.head? == some 'x' || cs.head? == some 'X')
  let r := numberTail hex cs
  (numberToken (c :: r.1)).map fun t => (t, r.2)

def splitAfter? (closing : Char) (cs : List Char) : Option (List Char × List Char) :=
  match cs.dropWhile (· != closing) with
  | [] => none
  | c :: rest => some (cs.takeWhile (· != closing) ++ [c], rest)

def readVariable (cs : List Char) : Except LexicalError (Token × List Char) :=
  let reference (name : List Char) : Token := .variable (String.ofList ('$' :: name))
  match cs with
  | '{' :: ds =>
    match splitAfter? '}' ds with
    | none => .error .unclosedVariableName
    | some (name, rest) => .ok (reference ('{' :: name), rest)
  | _ =>
    let r := splitName cs
    if r.1.isEmpty then .error .loneDollar
    else match r.2 with
      | '(' :: ds =>
        match splitAfter? ')' ds with
        | none => .error .unclosedIndex
        | some (index, rest) => .ok (reference (r.1 ++ '(' :: index), rest)
      | rest => .ok (reference r.1, rest)

def readDelimited (opening closing : Char) (error : LexicalError) (token : String → Token)
    (cs : List Char) : Except LexicalError (Token × List Char) :=
  match delimited? opening closing cs with
  | none => .error error
  | some (text, rest) => .ok (token (String.ofList text), rest)

def isWordChar (c : Char) : Bool :=
  isNameChar c || c == ':'

def wordToken (name : String) : Token :=
  match name with
  | "eq" => .mark .strEq
  | "ne" => .mark .strNe
  | "in" => .mark .isIn
  | "ni" => .mark .notIn
  | name => .word name

def readMark? (c : Char) (cs : List Char) : Option (Mark × List Char) :=
  match c, cs with
  | '*', '*' :: rest => some (.power, rest)
  | '!', '=' :: rest => some (.ne, rest)
  | '&', '&' :: rest => some (.and, rest)
  | '|', '|' :: rest => some (.or, rest)
  | '<', '<' :: rest => some (.shiftLeft, rest)
  | '<', '=' :: rest => some (.le, rest)
  | '>', '>' :: rest => some (.shiftRight, rest)
  | '>', '=' :: rest => some (.ge, rest)
  | '=', '=' :: rest => some (.eq, rest)
  | '+', rest => some (.plus, rest)
  | '-', rest => some (.minus, rest)
  | '*', rest => some (.star, rest)
  | '/', rest => some (.slash, rest)
  | '%', rest => some (.percent, rest)
  | '!', rest => some (.bang, rest)
  | '~', rest => some (.tilde, rest)
  | '^', rest => some (.caret, rest)
  | '&', rest => some (.ampersand, rest)
  | '|', rest => some (.pipe, rest)
  | '<', rest => some (.lt, rest)
  | '>', rest => some (.gt, rest)
  | '?', rest => some (.question, rest)
  | ':', rest => some (.colon, rest)
  | ',', rest => some (.comma, rest)
  | '(', rest => some (.leftParen, rest)
  | ')', rest => some (.rightParen, rest)
  | _, _ => none

def readToken (c : Char) (cs : List Char) : Except LexicalError (Token × List Char) :=
  if isAsciiDigit c || (c == '.' && cs.head?.any isAsciiDigit) then readNumber c cs
  else if c = '$' then readVariable cs
  else if c = '[' then readDelimited '[' ']' .unclosedBracket .command cs
  else if c = '"' then readDelimited '"' '"' .unclosedQuote .quoted cs
  else if c = '{' then readDelimited '{' '}' .unclosedBrace .braced cs
  else if isAsciiLetter c || c == '_' then
    .ok (wordToken (String.ofList (c :: cs.takeWhile isWordChar)), cs.dropWhile isWordChar)
  else match readMark? c cs with
    | some (m, rest) => .ok (.mark m, rest)
    | none => .ok (.unknown c, cs)

theorem numberTail_stop (hex : Bool) {c : Char} (h : isNumberChar c = false) (cs : List Char) :
    numberTail hex (c :: cs) = ([], c :: cs) := by
  rw [numberTail.eq_def]
  simp [h]

theorem numberTail_sign {hex : Bool} {c s : Char} {ds : List Char} (h : isNumberChar c = true)
    (hsign : (!hex && (c == 'e' || c == 'E') && signedExponentFollows (s :: ds)) = true) :
    numberTail hex (c :: s :: ds) =
      (c :: s :: (numberTail hex ds).1, (numberTail hex ds).2) := by
  rw [numberTail.eq_def]
  simp only [h, hsign, if_true]

/-- A number goes on by one character where no signed exponent starts. -/
theorem numberTail_next {hex : Bool} {c : Char} {cs : List Char} (h : isNumberChar c = true)
    (hsign : (!hex && (c == 'e' || c == 'E') && signedExponentFollows cs) = false) :
    numberTail hex (c :: cs) = (c :: (numberTail hex cs).1, (numberTail hex cs).2) := by
  rw [numberTail.eq_def]
  simp only [h, hsign, if_true, Bool.false_eq_true, if_false]

theorem numberTail_snd_length_le (hex : Bool) (cs : List Char) :
    (numberTail hex cs).2.length ≤ cs.length := by
  fun_induction numberTail hex cs with
  | case1 => simp
  | case2 => simp
  | case3 _ _ _ _ _ _ ih => exact Nat.le_succ_of_le (Nat.le_succ_of_le ih)
  | case4 _ _ _ _ _ ih => exact Nat.le_succ_of_le ih
  | case5 => simp

theorem splitAfter?_eq_some_iff {closing : Char} {cs upTo rest : List Char} :
    splitAfter? closing cs = some (upTo, rest) ↔
      ∃ inner, closing ∉ inner ∧ upTo = inner ++ [closing] ∧ cs = inner ++ closing :: rest := by
  constructor
  · intro h
    unfold splitAfter? at h
    split at h
    · cases h
    · next hdrop =>
      cases h
      obtain rfl := eq_of_dropWhile_bne hdrop
      refine ⟨_, not_mem_takeWhile_bne _ cs, rfl, ?_⟩
      rw [← hdrop, List.takeWhile_append_dropWhile]
  · rintro ⟨inner, hinner, rfl, rfl⟩
    obtain ⟨htake, hdrop⟩ := span_bne hinner rest
    rw [splitAfter?, hdrop, htake]

/-- The texts of references behind their dollar sign, in front of what follows them: a name in
braces goes on up to the first one that closes, and an index up to the first closing parenthesis. -/
inductive IsReference : List Char → List Char → Prop
  | braced {name rest : List Char} (h : '}' ∉ name) : IsReference ('{' :: (name ++ ['}'])) rest
  | plain {name rest : List Char} (hne : name ≠ []) (h : splitName (name ++ rest) = (name, rest))
    (hindex : rest.head? ≠ some '(') : IsReference name rest
  | element {name index rest : List Char} (hne : name ≠ []) (h : splitName name = (name, []))
    (hindex : ')' ∉ index) : IsReference (name ++ '(' :: (index ++ [')'])) rest

theorem isReference_of_readVariable {cs rest : List Char} {token : Token}
    (h : readVariable cs = .ok (token, rest)) :
    ∃ name, token = .variable (String.ofList ('$' :: name)) ∧ cs = name ++ rest ∧
      IsReference name rest := by
  unfold readVariable at h
  dsimp only at h
  split at h
  · split at h
    · cases h
    · next hsplit =>
      cases h
      obtain ⟨name, hname, rfl, rfl⟩ := splitAfter?_eq_some_iff.mp hsplit
      exact ⟨_, rfl, by simp, .braced hname⟩
  · have hwhole := splitName_append cs
    split at h
    · cases h
    next hempty =>
    have hne : (splitName cs).1 ≠ [] := by simpa using hempty
    split at h
    · next hrest =>
      split at h
      · cases h
      · next hsplit =>
        cases h
        obtain ⟨index, hindex, rfl, rfl⟩ := splitAfter?_eq_some_iff.mp hsplit
        rw [hrest] at hwhole
        exact ⟨_, rfl, by simpa using hwhole.symm, .element hne (splitName_fst cs) hindex⟩
    · next hindex =>
      cases h
      refine ⟨_, rfl, hwhole.symm, .plain hne (by rw [hwhole]) fun hhead => ?_⟩
      obtain ⟨ds, hds⟩ := List.head?_eq_some_iff.mp hhead
      exact hindex ds hds

theorem readVariable_of_isReference {name rest : List Char} (h : IsReference name rest) :
    readVariable (name ++ rest) = .ok (.variable (String.ofList ('$' :: name)), rest) := by
  cases h with
  | @braced name _ hname =>
    have hsplit : splitAfter? '}' (name ++ '}' :: rest) = some (name ++ ['}'], rest) :=
      splitAfter?_eq_some_iff.mpr ⟨name, hname, rfl, rfl⟩
    simp [readVariable, hsplit]
  | plain hne hname hindex =>
    have hbrace := ne_brace_of_splitName (by rw [hname]; exact hne)
    unfold readVariable
    split
    · next heq => exact absurd heq (hbrace _)
    · dsimp only
      rw [hname, if_neg (by simpa using hne)]
      split
      · next heq => exact absurd (congrArg List.head? heq) hindex
      · rfl
  | @element name index _ hne hname hindex =>
    have hread : splitName (name ++ '(' :: (index ++ [')']) ++ rest) =
        (name, '(' :: (index ++ ')' :: rest)) := by
      rw [List.append_assoc, List.cons_append, splitName_append_cons rfl (by decide), hname]
      simp
    have hsplit : splitAfter? ')' (index ++ ')' :: rest) = some (index ++ [')'], rest) :=
      splitAfter?_eq_some_iff.mpr ⟨index, hindex, rfl, rfl⟩
    have hbrace := ne_brace_of_splitName (by rw [hread]; exact hne)
    unfold readVariable
    split
    · next heq => exact absurd heq (hbrace _)
    · dsimp only
      rw [hread, if_neg (by simpa using hne)]
      simp [hsplit]

theorem readDelimited_eq_ok_iff {opening closing : Char} {error : LexicalError}
    {make : String → Token} {cs rest : List Char} {token : Token} :
    readDelimited opening closing error make cs = .ok (token, rest) ↔
      ∃ inner, token = make (String.ofList inner) ∧
        closeAt? opening closing 0 cs = some (inner, rest) := by
  rw [← delimited?_eq]
  constructor
  · intro h
    unfold readDelimited at h
    split at h
    · cases h
    · next hclose =>
      cases h
      exact ⟨_, rfl, hclose⟩
  · rintro ⟨inner, rfl, hclose⟩
    rw [readDelimited, hclose]

theorem readMark?_length_le {c : Char} {cs rest : List Char} {m : Mark}
    (h : readMark? c cs = some (m, rest)) : rest.length ≤ cs.length := by
  unfold readMark? at h
  split at h <;> cases h <;> simp

/-- What follows a token is no longer than what follows its first character. -/
theorem readToken_length_le {c : Char} {cs rest : List Char} {t : Token}
    (h : readToken c cs = .ok (t, rest)) : rest.length ≤ cs.length := by
  have hdelimited {opening closing : Char} {error : LexicalError} {token : String → Token}
      (h : readDelimited opening closing error token cs = .ok (t, rest)) :
      rest.length ≤ cs.length := by
    obtain ⟨inner, -, hclose⟩ := readDelimited_eq_ok_iff.mp h
    exact Nat.le_of_lt (closeAt?_length_lt hclose)
  unfold readToken at h
  split at h
  · unfold readNumber at h
    simp only [Except.map] at h
    split at h
    · cases h
    · cases h
      exact numberTail_snd_length_le _ cs
  split at h
  · obtain ⟨name, -, rfl, -⟩ := isReference_of_readVariable h
    rw [List.length_append]
    exact Nat.le_add_left ..
  split at h
  · exact hdelimited h
  split at h
  · exact hdelimited h
  split at h
  · exact hdelimited h
  split at h
  · cases h
    exact (List.dropWhile_sublist isWordChar).length_le
  split at h
  · next hm =>
    cases h
    exact readMark?_length_le hm
  · cases h
    exact Nat.le_refl _

def tokenize (cs : List Char) : Except LexicalError (List Token) :=
  match cs with
  | [] => .ok []
  | c :: cs =>
    if isSpace c then tokenize cs
    else
      match _h : readToken c cs with
      | .error e => .error e
      | .ok (t, rest) => (tokenize rest).map (t :: ·)
termination_by cs.length
decreasing_by
  · simp
  · have := readToken_length_le _h
    simp only [List.length_cons]
    omega

theorem tokenize_of_readToken {c : Char} {cs rest : List Char} {t : Token}
    (hc : isSpace c = false) (h : readToken c cs = .ok (t, rest)) :
    tokenize (c :: cs) = (tokenize rest).map (t :: ·) := by
  rw [tokenize]
  simp only [hc, Bool.false_eq_true, if_false]
  split
  · next hr => simp [h] at hr
  · next hr =>
    rw [h] at hr
    cases hr
    rfl

theorem tokenize_single {c : Char} {cs : List Char} {token : Token} (hc : isSpace c = false)
    (h : readToken c cs = .ok (token, [])) : tokenize (c :: cs) = .ok [token] := by
  rw [tokenize_of_readToken hc h, tokenize]
  rfl

theorem tokenize_of_readToken_error {c : Char} {cs : List Char} {e : LexicalError}
    (hc : isSpace c = false) (h : readToken c cs = .error e) :
    tokenize (c :: cs) = .error e := by
  rw [tokenize]
  simp only [hc, Bool.false_eq_true, if_false]
  split
  · next hr =>
    rw [h] at hr
    cases hr
    rfl
  · next hr => simp [h] at hr

end TclHost.Expr
