import TclHost.Interp.Eval
import TclHost.Interp.Expression
import TclHost.Proofs.Expr.Printed
import TclHost.Proofs.Script.CutOff
import TclHost.Proofs.Text.Balanced
/-! # Operands that a script would read as words

An operand of an expression that starts like a substitution or a quoted word is delimited by the
scan of the lexer and not by the reader of scripts.  Where the scan ends with the text, the operand
means what the text means as a word; the scan stops too early at a closing bracket, parenthesis
or quote that the reader of scripts does not count.
-/
namespace TclHost.Expr

open Text Script

theorem eq_of_finished?_nil {stop : Stop} {cs r : List Char}
    (h : finished? (readPieces stop cs) = some ([], r)) : r = cs := by
  cases cs with
  | nil =>
    rw [finished?_readPieces_nil] at h
    split at h
    · cases h
      rfl
    · cases h
  | cons c cs =>
    cases hstop : stop.stopsAt c cs with
    | true =>
      rw [finished?_readPieces_stop hstop] at h
      cases h
      rfl
    | false =>
      rw [finished?_readPieces_cons hstop] at h
      obtain ⟨⟨p, rest⟩, hp, hrest⟩ := Option.bind_eq_some_iff.mp h
      obtain ⟨⟨qs, r'⟩, hqs, heq⟩ := Option.map_eq_some_iff.mp hrest
      cases heq

/-- A character starts a substitution or a quoted word. -/
def StartsOperand (c : Char) (cs : List Char) : Prop :=
  c = '[' ∨ (c = '$' ∧ ((splitName cs).1 ≠ [] ∨ cs.head? = some '{')) ∨ c = '"'

/-- The reader of scripts reads the whole text as one substitution or one quoted word. -/
structure ReadsOperand (c : Char) (cs : List Char) (ps : List Piece) : Prop where
  starts : StartsOperand c cs
  word : finished? (readWord false c cs) = some (.mk false ps, [])
  single : c ≠ '"' → ps.length = 1

/-- The scan of the lexer ends with the text. -/
def ScansOperand (c : Char) (cs : List Char) : Prop :=
  ∃ token, readToken c cs = .ok (token, [])

/-! ## Which texts the scan takes up -/

/-- The texts that end where the scan of the lexer ends: the brackets in them are balanced, no quote
stands in front of the last one, or they are a reference and nothing else. -/
inductive Delimits : Char → List Char → Prop
  | brackets {inner : List Char} (h : Balanced '[' ']' inner) : Delimits '[' (inner ++ [']'])
  | quotes {inner : List Char} (h : Balanced '"' '"' inner) : Delimits '"' (inner ++ ['"'])
  | reference {name : List Char} (h : IsReference name []) : Delimits '$' name

theorem exists_readDelimited_iff {opening closing : Char} {error : LexicalError}
    {make : String → Token} {cs : List Char} (hopening : opening ≠ '\\')
    (hclosing : closing ≠ '\\') :
    (∃ token, readDelimited opening closing error make cs = .ok (token, [])) ↔
      ∃ inner, Balanced opening closing inner ∧ cs = inner ++ [closing] := by
  simp only [readDelimited_eq_ok_iff, closeAt?_eq_some_iff hopening hclosing]
  constructor
  · rintro ⟨token, inner, -, hinner⟩
    exact ⟨inner, hinner⟩
  · rintro ⟨inner, hinner⟩
    exact ⟨_, inner, rfl, hinner⟩

/-- The scan ends with the text exactly where the raw brackets are balanced, no quote is in front of
the last one, and no closing brace or parenthesis in front of the one that ends the reference. -/
theorem scansOperand_iff {c : Char} {cs : List Char} (h : StartsOperand c cs) :
    ScansOperand c cs ↔ Delimits c cs := by
  obtain rfl | ⟨rfl, -⟩ | rfl := h
  · refine (exists_readDelimited_iff (by decide) (by decide)).trans ⟨?_, ?_⟩
    · rintro ⟨inner, hinner, rfl⟩
      exact .brackets hinner
    · rintro (hinner | _)
      exact ⟨_, hinner, rfl⟩
  · constructor
    · rintro ⟨token, hread⟩
      obtain ⟨name, -, rfl, hname⟩ := isReference_of_readVariable hread
      rw [List.append_nil]
      exact .reference hname
    · rintro (_ | _ | hname)
      have hread := readVariable_of_isReference hname
      rw [List.append_nil] at hread
      exact ⟨_, hread⟩
  · refine (exists_readDelimited_iff (by decide) (by decide)).trans ⟨?_, ?_⟩
    · rintro ⟨inner, hinner, rfl⟩
      exact .quotes hinner
    · rintro (_ | hinner)
      exact ⟨_, hinner, rfl⟩

/-! ## Operands as words -/

theorem readPiece_of_single {c : Char} {cs : List Char} {ps : List Piece} (hbrace : c ≠ '{')
    (hquote : c ≠ '"') (hword : finished? (readWord false c cs) = some (.mk false ps, []))
    (hone : ps.length = 1) :
    ∃ p, ps = [p] ∧ finished? (readPiece (.atWordEnd false) c cs) = some (p, []) := by
  rw [finished?_readWord_plain (expanded?_of_ne hbrace _), wordPieces?, if_neg hbrace,
    if_neg hquote] at hword
  obtain ⟨⟨ps', r⟩, hbare, heq⟩ := Option.map_eq_some_iff.mp hword
  cases heq
  obtain ⟨⟨p, rest⟩, hp, hrest⟩ := Option.bind_eq_some_iff.mp hbare
  obtain ⟨⟨qs, r'⟩, hqs, heq⟩ := Option.map_eq_some_iff.mp hrest
  cases heq
  obtain rfl : qs = [] := by simpa using hone
  obtain rfl : [] = rest := eq_of_finished?_nil hqs
  exact ⟨p, rfl, hp⟩

/-- A text that is one token is the operand which that token is. -/
theorem expr_of_token (env : Env) {c : Char} {cs : List Char} {token : Token} {t : Tree}
    (hc : isSpace c = false) (hread : readToken c cs = .ok (token, []))
    (ht : token.operand? = some t) :
    env.expr (String.ofList (c :: cs)) = env.evalTree t := by
  have hleaf := isLeaf_of_operand? ht
  have htokens : tokenize (c :: cs) = .ok [token] := tokenize_single hc hread
  have hspelled : Spelled [token] (t.symbols 0) := by
    rw [Tree.symbols_of_isLeaf hleaf]
    exact .cons ht .nil
  have hfits : t.Fits 0 maxDescents maxChain := by
    rw [Tree.Fits, Tree.nesting_of_isLeaf hleaf, Tree.chain_of_isLeaf hleaf]
    exact ⟨Nat.zero_le _, Nat.zero_le _⟩
  have hparse : parse (String.ofList (c :: cs)) = .ok t := by
    rw [parse, String.toList_ofList, htokens]
    dsimp only
    rw [parseTokens_of_spelled hspelled, if_pos hfits]
    rfl
  rw [Env.expr, Env.evalParsed, hparse]
  rfl

section
variable {rounds levels : Nat} {cs : List Char} {ps : List Piece}

theorem expr_of_command (hword : finished? (readWord false '[' cs) = some (.mk false ps, []))
    (hone : ps.length = 1) (hscan : ScansOperand '[' cs) :
    (envWith rounds levels).expr (String.ofList ('[' :: cs)) =
      do return .str (← valueAfter (envWith rounds levels).run "" ps) := by
  obtain ⟨p, rfl, hp⟩ := readPiece_of_single (by decide) (by decide) hword hone
  rw [finished?_readPiece_command] at hp
  obtain ⟨⟨script, r⟩, hscript, heq⟩ := Option.map_eq_some_iff.mp hp
  cases heq
  obtain ⟨token, hread⟩ := hscan
  have hread' : readDelimited '[' ']' .unclosedBracket .command cs = .ok (token, []) := hread
  obtain ⟨inner, rfl, hclose⟩ := readDelimited_eq_ok_iff.mp hread'
  obtain rfl := closeAt?_append hclose
  have hrun : Script.read (String.ofList inner) = script := by
    have hinner := finished?_eq_some_iff.mp (readCommands_of_bracket hscript)
    rw [Script.read, String.toList_ofList]
    exact hinner.1
  rw [expr_of_token _ (by decide) hread rfl, Env.evalTree, envWith_eval, hrun, valueAfter,
    Piece.value]
  simp [valueAfter]

theorem expr_of_reference (hword : finished? (readWord false '$' cs) = some (.mk false ps, []))
    (hone : ps.length = 1) (hscan : ScansOperand '$' cs) (env : Env) :
    env.expr (String.ofList ('$' :: cs)) = do return .str (← valueAfter env.run "" ps) := by
  obtain ⟨p, rfl, hp⟩ := readPiece_of_single (by decide) (by decide) hword hone
  obtain ⟨token, hread⟩ := hscan
  have hread' : readVariable cs = .ok (token, []) := hread
  obtain ⟨name, rfl, hcs, -⟩ := isReference_of_readVariable hread'
  rw [List.append_nil] at hcs
  subst hcs
  have hpieces : finished? (readPieces .atEnd ('$' :: cs)) = some ([p], []) := by
    rw [finished?_readPieces_cons (by rfl), finished?_readPiece_reference]
    rw [finished?_readPiece_reference] at hp
    rw [hp, Option.bind_some, finished?_readPieces_nil]
    rfl
  have hvalue : Script.pieces (String.ofList ('$' :: cs)) = [p] := by
    rw [Script.pieces, String.toList_ofList]
    exact (finished?_eq_some_iff.mp hpieces).1
  rw [expr_of_token _ (by decide) hread rfl, Env.evalTree, Env.subst, hvalue]

theorem expr_of_quoted (hword : finished? (readWord false '"' cs) = some (.mk false ps, []))
    (hscan : ScansOperand '"' cs) (env : Env) :
    env.expr (String.ofList ('"' :: cs)) = do return .str (← valueAfter env.run "" ps) := by
  obtain ⟨token, hread⟩ := hscan
  have hread' : readDelimited '"' '"' .unclosedQuote .quoted cs = .ok (token, []) := hread
  obtain ⟨inner, rfl, hclose⟩ := readDelimited_eq_ok_iff.mp hread'
  obtain rfl := closeAt?_append hclose
  have hexpand : expanded? false '"' (inner ++ ['"']) = none := rfl
  rw [finished?_readWord_plain hexpand, wordPieces?, if_neg (by decide), if_pos rfl,
    finished?_closeQuoted] at hword
  obtain ⟨⟨ps', r⟩, hps, heq⟩ := Option.map_eq_some_iff.mp hword
  obtain ⟨⟨qs, r'⟩, hqs, hfollow⟩ := Option.bind_eq_some_iff.mp hps
  cases heq
  dsimp only at hfollow
  split at hfollow
  · obtain ⟨hps', htail⟩ := Prod.mk.inj (Option.some.inj hfollow)
    subst hps'
    obtain ⟨-, hfault⟩ | ⟨c, rest, rfl, hstop⟩ := stopsAt_of_finished? hqs
    · cases hfault
    · obtain rfl : rest = [] := htail
      obtain rfl : c = '"' := by
        rw [Stop.stopsAt_eq] at hstop
        simpa [Stop.closes, Stop.joinsLine] using hstop
      have hinner := readPieces_of_quote hqs
      have hvalue : Script.pieces (String.ofList inner) = qs := by
        rw [Script.pieces, String.toList_ofList]
        exact (finished?_eq_some_iff.mp hinner).1
      rw [expr_of_token _ (by decide) hread rfl, Env.evalTree, Env.subst, hvalue]
  · cases hfollow

end

/-- Where the scan of the lexer ends with the text, an operand means in an expression what it means
as a word, in every state and however its evaluation ends. -/
theorem expr_of_operand (rounds levels : Nat) {c : Char} {cs : List Char} {ps : List Piece}
    (h : ReadsOperand c cs ps) (hscan : ScansOperand c cs) :
    (envWith rounds levels).expr (String.ofList (c :: cs)) =
      do return .str (← valueAfter (envWith rounds levels).run "" ps) := by
  obtain ⟨hstarts, hword, hone⟩ := h
  obtain rfl | ⟨rfl, -⟩ | rfl := hstarts
  · exact expr_of_command hword (hone (by decide)) hscan
  · exact expr_of_reference hword (hone (by decide)) hscan _
  · exact expr_of_quoted hword hscan _

theorem expr_of_quoted_bracket :
    (∃ ps, ReadsOperand '"' ['a', ']', '"'] ps ∧ ScansOperand '"' ['a', ']', '"']) ∧
      (envWith 0 1).expr "\"a]\"" =
        do return .str (← valueAfter (envWith 0 1).run "" [.literal ['a', ']']]) := by
  have hreads : ReadsOperand '"' ['a', ']', '"'] [.literal ['a', ']']] :=
    { starts := .inr (.inr rfl)
      word := finished?_readWord_quoted [']'] rfl rfl
      single := fun h => absurd rfl h }
  have hscan : ScansOperand '"' ['a', ']', '"'] := ⟨.quoted "a]", rfl⟩
  exact ⟨⟨_, hreads, hscan⟩, expr_of_operand 0 1 hreads hscan⟩

/-! ## Brackets in quotes -/

def setBracket : Script :=
  [.words [.mk false [.literal ['s', 'e', 't']], .mk false [.literal ['x']],
    .mk false [.literal [']']]]]

theorem readCommands_setBracket :
    finished? (readCommands true ['s', 'e', 't', ' ', 'x', ' ', '"', ']', '"', ']']) =
      some (setBracket, []) := by
  have hset : finished? (readWord true 's' ['e', 't', ' ', 'x', ' ', '"', ']', '"', ']']) =
      some (.mk false [.literal ['s', 'e', 't']], [' ', 'x', ' ', '"', ']', '"', ']']) :=
    finished?_readWord_bare ['e', 't'] rfl (by decide) (by decide) (by simp [EndsWord, isWordEnd])
  have hx : finished? (readWord true 'x' [' ', '"', ']', '"', ']']) =
      some (.mk false [.literal ['x']], [' ', '"', ']', '"', ']']) :=
    finished?_readWord_bare [] rfl (by decide) (by decide) (by simp [EndsWord, isWordEnd])
  have hquoted : finished? (readWord true '"' [']', '"', ']']) =
      some (.mk false [.literal [']']], [']']) :=
    finished?_readWord_quoted [] rfl rfl
  have hwords : finished? (readWords true [']']) = some ([], [']']) :=
    finished?_readWords_bracket rfl ⟨rfl, rfl⟩
  have hend : finished? (readCommands true [']']) = some ([], []) :=
    finished?_readCommands_bracket rfl ⟨rfl, rfl⟩
  rw [finished?_readCommands_command rfl (by decide) (by decide), finished?_readCommand, hset,
    Option.bind_some, finished?_readWords_word rfl (by decide) (by decide), finished?_readCommand,
    hx, Option.bind_some, finished?_readWords_word rfl (by decide) (by decide),
    finished?_readCommand, hquoted, Option.bind_some, hwords, Option.map_some, Option.map_some,
    Option.map_some, Option.bind_some, hend]
  rfl

theorem readsOperand_setBracket :
    ReadsOperand '[' ['s', 'e', 't', ' ', 'x', ' ', '"', ']', '"', ']'] [.command setBracket] where
  starts := .inl rfl
  word := by
    have hpiece : finished? (readPiece (.atWordEnd false) '['
        ['s', 'e', 't', ' ', 'x', ' ', '"', ']', '"', ']']) = some (.command setBracket, []) := by
      rw [finished?_readPiece_command, readCommands_setBracket]
      rfl
    have hpieces : finished? (readPieces (.atWordEnd false) []) = some ([], []) :=
      finished?_readPieces_nil _
    rw [finished?_readWord_plain rfl, wordPieces?, if_neg (by decide), if_neg (by decide),
      barePieces?, hpiece, Option.bind_some, hpieces]
    rfl
  single _ := rfl

theorem parse_setBracket : parse "[set x \"]\"]" = .error (.lexical .unclosedQuote) := by
  have hread : readToken '[' ['s', 'e', 't', ' ', 'x', ' ', '"', ']', '"', ']'] =
      .ok (.command "set x \"", ['"', ']']) := rfl
  have hquote : tokenize ['"', ']'] = .error .unclosedQuote :=
    tokenize_of_readToken_error rfl rfl
  have htokens : tokenize "[set x \"]\"]".toList = .error .unclosedQuote := by
    refine (tokenize_of_readToken rfl hread).trans ?_
    rw [hquote]
    rfl
  rw [parse, htokens]

/-- The lexer takes the bracket between the quotes for the end of the command: the operand has a
value as a word and is an error in an expression. -/
theorem expr_of_bracket_in_quotes :
    ReadsOperand '[' ['s', 'e', 't', ' ', 'x', ' ', '"', ']', '"', ']'] [.command setBracket] ∧
      (valueAfter (Env.top 0).run "" [.command setBracket] Interp.fresh).1 = .ok "]" ∧
      ((Env.top 0).expr "[set x \"]\"]" Interp.fresh).1 = .error (.error "missing \"") := by
  refine ⟨readsOperand_setBracket, rfl, ?_⟩
  rw [Env.expr, parse_setBracket]
  rfl

end TclHost.Expr
