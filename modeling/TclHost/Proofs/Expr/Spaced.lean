import TclHost.Expr.Lexer
/-! # Tokens with white space between them

A token that ends with its text still ends there if white space follows, so that words which are
one token each can be joined by spaces and are split into the same tokens again.
-/
namespace TclHost.Expr

open Text

section
variable {s : Char} (hs : isSpace s) (more : List Char)
include hs

theorem isSpace_cases : s = ' ' ∨ s = '\t' ∨ s = '\n' ∨ s = '\r' := by
  simpa [isSpace, or_assoc] using hs

theorem isNumberChar_of_isSpace : isNumberChar s = false := by
  rcases isSpace_cases hs with rfl | rfl | rfl | rfl <;> decide

theorem isWordChar_of_isSpace : isWordChar s = false := by
  rcases isSpace_cases hs with rfl | rfl | rfl | rfl <;> decide

theorem isAsciiDigit_of_isSpace : isAsciiDigit s = false := by
  rcases isSpace_cases hs with rfl | rfl | rfl | rfl <;> decide

theorem signedExponentFollows_append (cs : List Char) :
    signedExponentFollows (cs ++ s :: more) = signedExponentFollows cs := by
  match cs with
  | [] =>
    have hsign : (s == '+' || s == '-') = false := by
      rcases isSpace_cases hs with rfl | rfl | rfl | rfl <;> decide
    cases more <;> simp [signedExponentFollows, hsign]
  | [c] => simp [signedExponentFollows, isAsciiDigit_of_isSpace hs]
  | _ :: _ :: _ => rfl

theorem numberTail_append (hex : Bool) (cs : List Char) :
    numberTail hex (cs ++ s :: more) =
      ((numberTail hex cs).1, (numberTail hex cs).2 ++ s :: more) := by
  fun_induction numberTail hex cs with
  | case1 => exact numberTail_stop hex (isNumberChar_of_isSpace hs) more
  | case2 c hc h => simp [signedExponentFollows] at h
  | case3 c hc e ds r hsign ih =>
    rw [← signedExponentFollows_append hs more, List.cons_append] at hsign
    rw [List.cons_append, List.cons_append, numberTail_sign hc hsign, ih]
  | case4 c cs hc hsign r ih =>
    rw [← signedExponentFollows_append hs more, Bool.not_eq_true] at hsign
    rw [List.cons_append, numberTail_next hc hsign, ih]
  | case5 c cs hc => exact numberTail_stop hex (by simpa using hc) _

theorem splitName_append_space (cs : List Char) :
    splitName (cs ++ s :: more) = ((splitName cs).1, (splitName cs).2 ++ s :: more) := by
  have hname : isNameChar s = false ∧ s ≠ ':' := by
    rcases isSpace_cases hs with rfl | rfl | rfl | rfl <;> decide
  exact splitName_append_cons hname.1 hname.2 cs more

theorem readMark?_append (c : Char) (cs : List Char) :
    readMark? c (cs ++ s :: more) = (readMark? c cs).map fun r => (r.1, r.2 ++ s :: more) := by
  have hne : s ≠ '*' ∧ s ≠ '=' ∧ s ≠ '&' ∧ s ≠ '|' ∧ s ≠ '<' ∧ s ≠ '>' := by
    rcases isSpace_cases hs with rfl | rfl | rfl | rfl <;> decide
  cases cs with
  | nil =>
    generalize hcs : ([] : List Char) = xs
    fun_cases readMark? c xs <;> cases hcs <;> simp_all [readMark?]
  | cons d cs =>
    generalize hcs : d :: cs = xs
    fun_cases readMark? c xs <;> cases hcs <;> simp_all [readMark?]

theorem readVariable_append {cs rest : List Char} {t : Token}
    (h : readVariable cs = .ok (t, rest)) :
    readVariable (cs ++ s :: more) = .ok (t, rest ++ s :: more) := by
  have hparen : s ≠ '(' := by
    rcases isSpace_cases hs with rfl | rfl | rfl | rfl <;> decide
  obtain ⟨name, rfl, rfl, hname⟩ := isReference_of_readVariable h
  have hmore : IsReference name (rest ++ s :: more) := by
    cases hname with
    | braced hbrace => exact .braced hbrace
    | plain hne hname hindex =>
      refine .plain hne ?_ ?_
      · rw [← List.append_assoc, splitName_append_space hs, hname]
      · cases rest <;> simp_all
    | element hne hname hindex => exact .element hne hname hindex
  rw [List.append_assoc]
  exact readVariable_of_isReference hmore

omit hs in
theorem readDelimited_append {opening closing : Char} {error : LexicalError}
    {token : String → Token} {cs rest : List Char} {t : Token}
    (h : readDelimited opening closing error token cs = .ok (t, rest)) (more : List Char) :
    readDelimited opening closing error token (cs ++ more) = .ok (t, rest ++ more) := by
  obtain ⟨inner, hmake, hclose⟩ := readDelimited_eq_ok_iff.mp h
  exact readDelimited_eq_ok_iff.mpr ⟨inner, hmake, closeAt?_append_of_eq_some hclose more⟩

/-- A token is read alike where white space follows its text. -/
theorem readToken_append {c : Char} {cs rest : List Char} {t : Token}
    (h : readToken c cs = .ok (t, rest)) :
    readToken c (cs ++ s :: more) = .ok (t, rest ++ s :: more) := by
  have hdigit := isAsciiDigit_of_isSpace hs
  have hx : s ≠ 'x' ∧ s ≠ 'X' := by
    rcases isSpace_cases hs with rfl | rfl | rfl | rfl <;> decide
  have hhead : (cs ++ s :: more).head?.any isAsciiDigit = cs.head?.any isAsciiDigit := by
    cases cs <;> simp [hdigit]
  have hhex : ((cs ++ s :: more).head? == some 'x' || (cs ++ s :: more).head? == some 'X')
      = (cs.head? == some 'x' || cs.head? == some 'X') := by
    cases cs <;> simp [hx]
  unfold readToken at h ⊢
  rw [hhead]
  by_cases hnumber : (isAsciiDigit c || (c == '.' && cs.head?.any isAsciiDigit)) = true
  · rw [if_pos hnumber] at h ⊢
    unfold readNumber at h ⊢
    rw [hhex]
    dsimp only at h ⊢
    rw [numberTail_append hs]
    cases hnum : numberToken (c :: (numberTail (c == '0' && (cs.head? == some 'x' ||
      cs.head? == some 'X')) cs).1) with
    | error e => simp [hnum, Except.map] at h
    | ok t' => simp_all [Except.map]
  rw [if_neg hnumber] at h ⊢
  by_cases hvariable : c = '$'
  · rw [if_pos hvariable] at h ⊢
    exact readVariable_append hs more h
  rw [if_neg hvariable] at h ⊢
  by_cases hcommand : c = '['
  · rw [if_pos hcommand] at h ⊢
    exact readDelimited_append h _
  rw [if_neg hcommand] at h ⊢
  by_cases hquoted : c = '"'
  · rw [if_pos hquoted] at h ⊢
    exact readDelimited_append h _
  rw [if_neg hquoted] at h ⊢
  by_cases hbraced : c = '{'
  · rw [if_pos hbraced] at h ⊢
    exact readDelimited_append h _
  rw [if_neg hbraced] at h ⊢
  by_cases hword : (isAsciiLetter c || c == '_') = true
  · rw [if_pos hword] at h ⊢
    cases h
    rw [takeWhile_append_cons (isWordChar_of_isSpace hs),
      dropWhile_append_cons (isWordChar_of_isSpace hs)]
  rw [if_neg hword] at h ⊢
  rw [readMark?_append hs]
  cases hmark : readMark? c cs <;> (rw [hmark] at h; cases h; rfl)

/-- The tokens of a text come first where white space and more text follow. -/
theorem tokenize_append {cs : List Char} {ts : List Token} (h : tokenize cs = .ok ts) :
    tokenize (cs ++ s :: more) = (tokenize more).map (ts ++ ·) := by
  fun_induction tokenize cs generalizing ts with
  | case1 =>
    cases h
    rw [List.nil_append, tokenize, if_pos hs]
    cases tokenize more <;> rfl
  | case2 c cs hc ih =>
    rw [List.cons_append, tokenize, if_pos hc]
    exact ih h
  | case3 c cs hc e hread => cases h
  | case4 c cs hc t rest hread ih =>
    cases hrest : tokenize rest with
    | error e => simp [hrest, Except.map] at h
    | ok us =>
      rw [hrest] at h
      cases h
      rw [List.cons_append, tokenize_of_readToken (by simpa using hc)
        (readToken_append hs more hread), ih hrest]
      cases tokenize more <;> rfl

end

end TclHost.Expr
