import TclHost.Expr.Lexer
import TclHost.Proofs.Value.Reading
/-! # Number tokens

A number token is read from as many characters as can belong to a number.  It holds the number that
those characters read as when they are an operand, and it is an error where they read as none.
-/
namespace TclHost.Expr

open Value Text

/-- The text that a number token is read from, and what follows it. -/
def numberText (c : Char) (cs : List Char) : List Char × List Char :=
  let r := numberTail (c == '0' && (cs.head? == some 'x' || cs.head? == some 'X')) cs
  (c :: r.1, r.2)

theorem readNumber_eq (c : Char) (cs : List Char) :
    readNumber c cs = (numberToken (numberText c cs).1).map fun t => (t, (numberText c cs).2) :=
  rfl

theorem numberTail_fst_append_snd (hex : Bool) (cs : List Char) :
    (numberTail hex cs).1 ++ (numberTail hex cs).2 = cs := by
  fun_induction numberTail hex cs with
  | case1 => rfl
  | case2 c => rfl
  | case3 c _ s ds r _ ih => exact congrArg (c :: s :: ·) ih
  | case4 c cs _ _ r ih => exact congrArg (c :: ·) ih
  | case5 => rfl

theorem numberText_append (c : Char) (cs : List Char) :
    (numberText c cs).1 ++ (numberText c cs).2 = c :: cs :=
  congrArg (c :: ·) (numberTail_fst_append_snd _ cs)

theorem isBlank_of_isNumberChar {c : Char} (h : isNumberChar c = true) : isBlank c = false := by
  simp only [isNumberChar, isAsciiDigit, isAsciiLetter, Bool.or_eq_true, Bool.and_eq_true,
    decide_eq_true_eq, beq_iff_eq] at h
  rcases h with (⟨hlower, hupper⟩ | ⟨hlower, hupper⟩ | ⟨hlower, hupper⟩) | rfl
  · exact isBlank_of_visible (Nat.le_trans (by decide) hlower) (Nat.le_trans hupper (by decide))
  · exact isBlank_of_visible (Nat.le_trans (by decide) hlower) (Nat.le_trans hupper (by decide))
  · exact isBlank_of_visible (Nat.le_trans (by decide) hlower) (Nat.le_trans hupper (by decide))
  · rfl

theorem sign_of_signedExponentFollows {s : Char} {ds : List Char}
    (h : signedExponentFollows (s :: ds) = true) : s = '+' ∨ s = '-' := by
  cases ds with
  | nil => cases h
  | cons d ds =>
    obtain ⟨hsign, -⟩ := Bool.and_eq_true_iff.mp h
    simpa using hsign

theorem isBlank_of_mem_numberTail (hex : Bool) (cs : List Char) :
    ∀ d ∈ (numberTail hex cs).1, isBlank d = false := by
  fun_induction numberTail hex cs with
  | case1 => exact fun d hd => absurd hd List.not_mem_nil
  | case2 c hc =>
    rintro d (_ | ⟨_, hd⟩)
    · exact isBlank_of_isNumberChar hc
    · exact absurd hd List.not_mem_nil
  | case3 c hc s ds r hsign ih =>
    have hs : isBlank s = false := by
      obtain ⟨-, hfollows⟩ := Bool.and_eq_true_iff.mp hsign
      rcases sign_of_signedExponentFollows hfollows with rfl | rfl <;> rfl
    rintro d (_ | ⟨_, _ | ⟨_, hd⟩⟩)
    · exact isBlank_of_isNumberChar hc
    · exact hs
    · exact ih d hd
  | case4 c cs hc hsign r ih =>
    rintro d (_ | ⟨_, hd⟩)
    · exact isBlank_of_isNumberChar hc
    · exact ih d hd
  | case5 => exact fun d hd => absurd hd List.not_mem_nil

/-- A number token holds what its text reads as, and there is none where the text reads as no
number. -/
theorem numberToken_eq {c : Char} {cs : List Char} (hc : isAsciiDigit c = true ∨ c = '.')
    (hblank : ∀ d ∈ c :: cs, isBlank d = false) :
    (numberToken (c :: cs)).toOption = (textNum? (String.ofList (c :: cs))).map Token.number := by
  have hsign : (c == '+' || c == '-') = false := by
    rcases hc with hc | rfl
    · exact ne_sign_of_isAsciiDigit hc
    · rfl
  have hfront : (c :: cs).dropWhile (fun c => c == '+' || c == '-') = c :: cs :=
    List.dropWhile_cons_of_neg (by simp [hsign])
  rw [numberToken, textNum?, Number.parseDouble, String.toList_ofList, trim_eq hblank]
  cases Number.parseInt (String.ofList (c :: cs)) with
  | ok n => rfl
  | error e =>
    dsimp only
    rw [hfront]
    split
    · rfl
    · cases Double.read? (c :: cs) <;> rfl

theorem isBlank_of_mem_numberText {c : Char} (hc : isAsciiDigit c = true ∨ c = '.')
    (cs : List Char) : ∀ d ∈ (numberText c cs).1, isBlank d = false := by
  rintro d (_ | ⟨_, hd⟩)
  · refine isBlank_of_isNumberChar ?_
    rcases hc with hc | rfl
    · simp [isNumberChar, hc]
    · rfl
  · exact isBlank_of_mem_numberTail _ cs d hd

theorem ofText_eq_ofNum_iff {s : String} {n : Num} :
    Value.ofText s = .ofNum n ↔ textNum? s = some n := by
  rw [Value.ofText]
  cases textNum? s with
  | none => cases n <;> simp [Value.ofNum]
  | some k => cases k <;> cases n <;> simp [Value.ofNum]

theorem ofText_eq_str_iff {s : String} : Value.ofText s = .str s ↔ textNum? s = none := by
  rw [Value.ofText]
  cases textNum? s with
  | none => simp
  | some k => cases k <;> simp [Value.ofNum]

theorem readNumber_cases {c : Char} (hc : isAsciiDigit c = true ∨ c = '.') (cs : List Char) :
    (∃ n, textNum? (String.ofList (numberText c cs).1) = some n ∧
      readNumber c cs = .ok (.number n, (numberText c cs).2)) ∨
    (textNum? (String.ofList (numberText c cs).1) = none ∧ ∃ e, readNumber c cs = .error e) := by
  have htoken : (numberToken (numberText c cs).1).toOption =
      (textNum? (String.ofList (numberText c cs).1)).map Token.number :=
    numberToken_eq hc (isBlank_of_mem_numberText hc cs)
  rw [readNumber_eq]
  cases hread : numberToken (numberText c cs).1 with
  | error e =>
    rw [hread] at htoken
    exact .inr ⟨Option.map_eq_none_iff.mp htoken.symm, e, rfl⟩
  | ok token =>
    rw [hread] at htoken
    obtain ⟨n, hn, rfl⟩ := Option.map_eq_some_iff.mp htoken.symm
    exact .inl ⟨n, hn, rfl⟩

/-- Reading a number token is reading its text as an operand. -/
theorem readNumber_iff {c : Char} (hc : isAsciiDigit c = true ∨ c = '.') (cs : List Char) :
    (∀ token rest, readNumber c cs = .ok (token, rest) ↔ rest = (numberText c cs).2 ∧
      ∃ n, token = .number n ∧ Value.ofText (String.ofList (numberText c cs).1) = .ofNum n) ∧
    ((∃ e, readNumber c cs = .error e) ↔
      Value.ofText (String.ofList (numberText c cs).1) =
        .str (String.ofList (numberText c cs).1)) := by
  simp only [ofText_eq_ofNum_iff, ofText_eq_str_iff]
  obtain ⟨n, hn, hread⟩ | ⟨hnone, e, hread⟩ := readNumber_cases hc cs
  · rw [hn, hread]
    refine ⟨fun token rest => ⟨?_, ?_⟩, by simp⟩
    · rintro ⟨rfl, rfl⟩
      exact ⟨rfl, n, rfl, rfl⟩
    · rintro ⟨rfl, k, rfl, hk⟩
      rw [Option.some.inj hk]
  · simp [hnone, hread]

end TclHost.Expr
