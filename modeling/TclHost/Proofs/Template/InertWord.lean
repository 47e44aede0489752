import TclHost.Proofs.Script.WordList
import TclHost.Proofs.TclList.RoundTrip
import TclHost.Template.Quote
/-! # Inert words read back

In an inert word every character that a reader could act on has a backslash in front of it.  So
scripts, lists and expressions all read the quoted text back from it, whatever the state, and the
search for the end of a braced text passes over it.
-/
namespace TclHost.Template

open Text Script

/-! ### Single characters -/

theorem length_fourHexDigits {n : Nat} (h : n < 16 ^ 4) : (fourHexDigits n).length = 4 := by
  have hle : (Nat.toDigits 16 n).length ≤ 4 :=
    (Nat.length_toDigits_le_iff (by decide) (by decide)).mpr h
  simp only [fourHexDigits, List.length_append, List.length_replicate]
  omega

theorem isDigitOf_of_mem_fourHexDigits {n : Nat} :
    ∀ d ∈ fourHexDigits n, isDigitOf 16 d = true := by
  intro d hd
  simp only [fourHexDigits, List.mem_append, List.mem_replicate] at hd
  rcases hd with ⟨-, rfl⟩ | hd
  · decide
  · exact isDigitOf_of_mem_toDigits (by decide) (by decide) n d hd

theorem numeral_fourHexDigits (n : Nat) : numeral 16 (fourHexDigits n) = n := by
  rw [fourHexDigits, numeral_replicate_append, numeral_toDigits (by decide) (by decide)]

theorem isActive_of_isDigitOf {c : Char} (h : isDigitOf 16 c = true) : isActive c = false := by
  cases hc : isActive c with
  | false => rfl
  | true =>
    simp only [isActive, Bool.or_eq_true, beq_iff_eq] at hc
    rcases hc with ((((((rfl | rfl) | rfl) | rfl) | rfl) | rfl) | rfl) | rfl <;>
      exact absurd h (by decide)

/-- A character reads back from the four digits of its code, whatever follows them. -/
theorem read_fourHexDigits {c : Char} (hc : c.toNat < 16 ^ 4) (rest : List Char) :
    Escape.read ('u' :: (fourHexDigits c.toNat ++ rest)) = (c, rest) := by
  have hlength := length_fourHexDigits hc
  have htake : Escape.takeDigits 16 4 (fourHexDigits c.toNat ++ rest) =
      (fourHexDigits c.toNat, rest) := by
    rw [← hlength]
    exact Escape.takeDigits_of_all isDigitOf_of_mem_fourHexDigits rest
  have hread : Escape.read ('u' :: (fourHexDigits c.toNat ++ rest)) =
      Escape.readHex 'u' 4 (fourHexDigits c.toNat ++ rest) := rfl
  have hvalid : c.toNat.isValidChar := c.valid
  rw [hread, Escape.readHex, htake]
  split
  · next hnil =>
    have hempty : fourHexDigits c.toNat = [] := congrArg Prod.fst hnil
    simp [hempty] at hlength
  · next h =>
    cases h
    simp [numeral_fourHexDigits, Escape.charOrReplacement, hvalid]

theorem written_quoteChar (c : Char) : Written (fun x => !isActive x) (quoteChar c) [c] := by
  have hsingle {d : Char} (hd : d ≠ '\n') (hread : ∀ rest, Escape.read (d :: rest) = (c, rest)) :
      Written (fun x => !isActive x) ['\\', d] [c] :=
    .escape hd (List.forall_mem_nil _) hread .nil
  unfold quoteChar
  split
  · next hc =>
    simp only [isActive, Bool.or_eq_true, beq_iff_eq] at hc
    rcases hc with ((((((rfl | rfl) | rfl) | rfl) | rfl) | rfl) | rfl) | rfl <;>
      exact hsingle (by decide) fun rest => rfl
  · next hactive =>
    split
    · next hc => exact hsingle (by decide) fun rest => by rw [hc]; rfl
    split
    · next hc => exact hsingle (by decide) fun rest => by rw [hc]; rfl
    split
    · next hc => exact hsingle (by decide) fun rest => by rw [hc]; rfl
    split
    · next hc =>
      have hlt : c.toNat < 16 ^ 4 := by
        simp only [isControl, Bool.or_eq_true, Bool.and_eq_true, decide_eq_true_eq] at hc
        omega
      have hdigits : ∀ d ∈ fourHexDigits c.toNat, (!isActive d) = true := by
        intro d hd
        simp [isActive_of_isDigitOf (isDigitOf_of_mem_fourHexDigits d hd)]
      simpa using Written.escape (by decide) hdigits (read_fourHexDigits hlt) .nil
    · exact .literal (by simpa using hactive) .nil

theorem written_quote (cs : List Char) :
    Written (fun x => !isActive x) (cs.flatMap quoteChar) cs :=
  .flatMap fun c _ => written_quoteChar c

theorem ne_of_not_isActive {c : Char} (hc : (!isActive c) = true) :
    c ≠ '\\' ∧ c ≠ '"' ∧ c ≠ '$' ∧ c ≠ '[' ∧ c ≠ '{' ∧ c ≠ '}' := by
  simp only [isActive, Bool.not_eq_true', Bool.or_eq_false_iff, beq_eq_false_iff_ne] at hc
  simp [hc]

theorem toList_quote (s : String) :
    (quote s).toList = '"' :: (s.toList.flatMap quoteChar ++ ['"']) := by
  simp [quote]

theorem toList_quote_append (s : String) (rest : List Char) :
    (quote s).toList ++ rest = '"' :: (s.toList.flatMap quoteChar ++ '"' :: rest) := by
  simp [toList_quote]

/-! ### The readers -/

/-- A script reads the word and stops behind it. -/
theorem readsAs_quote (s : String) {nested : Bool} {rest : List Char}
    (h : mayFollow nested rest = true) :
    ReadsAs nested ((quote s).toList ++ rest) s rest := by
  have hplain : ∀ c, (!isActive c) = true → Stop.atQuote.isPlain c = true := by
    intro c hc
    simp [Stop.isPlain, Stop.closes, ne_of_not_isActive hc]
  have hread := readsAs_quoted (written_quote s.toList) hplain h
  rw [toList_quote_append]
  simpa using hread

theorem parse_quote (s : String) : TclList.parse (quote s) = .ok [s] := by
  have huntil : Escape.readUntil (· == '"') (s.toList.flatMap quoteChar ++ ['"']) =
      (s.toList, ['"']) := by
    have hplain : ∀ c, (!isActive c) = true → (c == '"') = false ∧ c ≠ '\\' := by
      intro c hc
      simp [ne_of_not_isActive hc]
    rw [(written_quote s.toList).readUntil (by decide) hplain ['"'], Escape.readUntil]
    simp
  have hread : TclList.readElement '"' (s.toList.flatMap quoteChar ++ ['"']) =
      .ok (s.toList, []) := by
    rw [TclList.readElement, if_neg (by decide), if_pos rfl, huntil]
    rfl
  rw [TclList.parse, toList_quote, TclList.elements_of_readElement (by decide) hread,
    TclList.elements]
  simp [Except.map]

theorem closeAt?_quote (s : String) (depth : Nat) (rest : List Char) :
    closeAt? '{' '}' depth ((quote s).toList ++ rest) =
      (closeAt? '{' '}' depth rest).map fun r => ((quote s).toList ++ r.1, r.2) := by
  have hquote (cs : List Char) : closeAt? '{' '}' depth ('"' :: cs) =
      (closeAt? '{' '}' depth cs).map fun r => ('"' :: r.1, r.2) := by
    rw [closeAt?_other _ _ (by decide) (by decide), if_neg (by decide)]
  have hplain : ∀ c, (!isActive c) = true → c ≠ '{' ∧ c ≠ '}' ∧ c ≠ '\\' := by
    intro c hc
    simp [ne_of_not_isActive hc]
  rw [toList_quote_append, hquote, (written_quote s.toList).closeAt? hplain, hquote]
  simp [toList_quote_append, Function.comp_def]

theorem tokenize_quote_append (s : String) (rest : List Char) :
    Expr.tokenize ((quote s).toList ++ rest) = (Expr.tokenize rest).map
      (.quoted (String.ofList (s.toList.flatMap quoteChar)) :: ·) := by
  have hclose : closeAt? '"' '"' 0 (s.toList.flatMap quoteChar ++ '"' :: rest) =
      some (s.toList.flatMap quoteChar, rest) := by
    have hplain : ∀ c, (!isActive c) = true → c ≠ '"' ∧ c ≠ '"' ∧ c ≠ '\\' := by
      intro c hc
      simp [ne_of_not_isActive hc]
    rw [(written_quote s.toList).closeAt? hplain, closeAt?_closing_zero _ (by decide)]
    simp
  have hread : Expr.readToken '"' (s.toList.flatMap quoteChar ++ '"' :: rest) =
      .ok (.quoted (String.ofList (s.toList.flatMap quoteChar)), rest) := by
    change Expr.readDelimited '"' '"' .unclosedQuote .quoted _ = _
    rw [Expr.readDelimited, delimited?_eq, hclose]
  rw [toList_quote_append, Expr.tokenize_of_readToken (by decide) hread]

theorem subst_flatMap_quoteChar (env : Env) (s : String) :
    env.subst (String.ofList (s.toList.flatMap quoteChar)) = pure s := by
  have hplain : ∀ c, (!isActive c) = true → Stop.atEnd.isPlain c = true := by
    intro c hc
    simp [Stop.isPlain, Stop.closes, ne_of_not_isActive hc]
  obtain ⟨-, hvalue⟩ := readPieces_of_written (written_quote s.toList) hplain (endsAt_nil rfl)
  rw [List.append_nil] at hvalue
  rw [Env.subst, pieces, String.toList_ofList, hvalue]
  simp

/-- As an expression the word is the quoted text. -/
theorem expr_quote (env : Env) (s : String) : env.expr (quote s) = pure (.str s) := by
  have htokens := tokenize_quote_append s []
  rw [List.append_nil, Expr.tokenize] at htokens
  have hparse : Expr.parse (quote s) =
      .ok (.quoted (String.ofList (s.toList.flatMap quoteChar))) := by
    rw [Expr.parse, htokens]
    rfl
  rw [Env.expr, Env.evalParsed, hparse]
  change (do return Value.str (← env.subst _) : Eval Value) = _
  rw [subst_flatMap_quoteChar, pure_bind]

theorem wordForm_quote (s : String) : WordForm (quote s).toList s where
  starts := ⟨'"', _, toList_quote s, fun rest => ⟨rfl, by simp⟩⟩
  reads rest hrest := readsAs_quote s (mayFollow_of_endsWord hrest)

/-- Inert words joined by spaces run as the command of the texts that were quoted. -/
theorem eval_intercalate_quote (rounds : Nat) (words : List String) :
    (Env.top rounds).eval (" ".intercalate (words.map quote)) =
      (invoke (Env.top rounds) words).nest := by
  rw [Env.eval, Env.top_runText]
  cases words with
  | nil => exact congrArg Eval.nest (runText_nil _ _ "")
  | cons w words =>
    have hcomment : (quote w).toList.head? ≠ some '#' := by
      simp [quote]
    rw [List.map_cons, toList_intercalate_space, List.map_map]
    exact congrArg Eval.nest (runText_wordForms (fun v => (quote v).toList) _ _
      (wordForm_quote w) (fun v _ => wordForm_quote v) hcomment)

/-- An inert word reads back as the quoted text as a word of a script, as a list and as an
expression, never depending on a state or changing one, and it neither opens nor closes a brace.
A script of inert words runs as the command of the quoted texts. -/
theorem quote_inert (rounds : Nat) :
    (∀ s : String,
      (∀ nested rest, mayFollow nested rest = true →
        ReadsAs nested ((quote s).toList ++ rest) s rest) ∧
      TclList.parse (quote s) = .ok [s] ∧
      (∀ env : Env, env.expr (quote s) = pure (.str s)) ∧
      ∀ depth rest, closeAt? '{' '}' depth ((quote s).toList ++ rest) =
        (closeAt? '{' '}' depth rest).map fun r => ((quote s).toList ++ r.1, r.2)) ∧
    ∀ words : List String, (Env.top rounds).eval (" ".intercalate (words.map quote)) =
      (invoke (Env.top rounds) words).nest := by
  constructor
  · intro s
    refine ⟨?_, parse_quote s, ?_, closeAt?_quote s⟩
    · intro nested rest h
      exact readsAs_quote s h
    · intro env
      exact expr_quote env s
  · exact eval_intercalate_quote rounds

end TclHost.Template
