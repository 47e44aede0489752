import TclHost.Proofs.Evaluation.Sequence
/-! # Where a word ends

A word ends at the end of the text, in front of a character that ends words, or in front of a
joined line.  A bare word goes on until then.  A delimited one is refused if it does not end at its
closing delimiter, except where a backslash follows: the check lets every backslash pass and not
only that of a joined line.  What such a backslash starts is a word of its own, with nothing between
the two.
-/
namespace TclHost.Script

open Text Eval

/-! ## What may follow -/

def endsBefore (nested : Bool) : List Char → Bool
  | [] => true
  | c :: cs => (Stop.atWordEnd nested).stopsAt c cs

/-- A backslash that joins no line. -/
def isStray (rest : List Char) : Bool :=
  rest.head? == some '\\' && rest.tail.head? != some '\n'

theorem endsBefore_of_isStray {nested : Bool} {rest : List Char} (h : isStray rest = true) :
    endsBefore nested rest = false := by
  cases rest with
  | nil => cases h
  | cons c cs =>
    simp only [isStray, List.head?_cons, List.tail_cons, Bool.and_eq_true, beq_iff_eq,
      Option.some.injEq, bne_iff_ne] at h
    obtain ⟨rfl, hline⟩ := h
    simpa [endsBefore, Stop.stopsAt, Stop.closes_backslash] using hline

/-- The check of what follows a delimited word lets pass more than the ends of words. -/
theorem mayFollow_eq (nested : Bool) (rest : List Char) :
    mayFollow nested rest = (endsBefore nested rest || isStray rest) := by
  cases rest with
  | nil => rfl
  | cons c cs =>
    rw [mayFollow, endsBefore, Stop.stopsAt, Stop.closes, isStray, List.head?_cons, List.tail_cons]
    cases isWordEnd nested c <;> cases hline : cs.head? == some '\n' <;> simp [bne, hline]

theorem endsBefore_of_finished? {nested : Bool} {cs rest : List Char} {ps : List Piece}
    (h : finished? (readPieces (.atWordEnd nested) cs) = some (ps, rest)) :
    endsBefore nested rest = true := by
  rcases stopsAt_of_finished? h with ⟨rfl, -⟩ | ⟨c, cs', rfl, hstop⟩
  · rfl
  · exact hstop

/-! ## Delimited words -/

/-- What is between delimiters that open with a character, the text behind the closing one, and the
fault of a word that goes on there. -/
inductive Closes : Char → List Char → List Piece → List Char → Fault → Prop
  | braces {cs inner rest} (h : closeAt? '{' '}' 0 cs = some (inner, rest)) :
    Closes '{' cs [.literal inner] rest .extraAfterBrace
  | quotes {cs ps rest} (h : finished? (readPieces .atQuote cs) = some (ps, '"' :: rest)) :
    Closes '"' cs ps rest .extraAfterQuote

/-- A word that starts with a character is delimited, behind the mark of an expanded word or
without one. -/
inductive Delimited (nested : Bool) : Char → List Char → (expand : Bool) → List Piece →
    List Char → Fault → Prop
  | plain {c cs ps rest f} (hexpand : expanded? nested c cs = none) (h : Closes c cs ps rest f) :
    Delimited nested c cs false ps rest f
  | expanded {c cs d ds ps rest f} (hexpand : expanded? nested c cs = some (d :: ds))
    (h : Closes d ds ps rest f) : Delimited nested c cs true ps rest f

/-- The value of some pieces is found, and then the fault is met. -/
def FailsAfter (ps : List Piece) (f : Fault) (w : Word) : Prop :=
  ∀ run, w.values run = valueAfter run "" ps >>= fun _ => fail (.fault f)

theorem failsAfter_of_valueAfter {expand : Bool} {ps qs : List Piece} {f : Fault}
    (h : ∀ run, valueAfter run "" qs = valueAfter run "" ps >>= fun _ => fail (.fault f)) :
    FailsAfter ps f (.mk expand qs) := by
  intro run
  rw [Word.values, h, bind_assoc]
  rfl

def readDelimited (nested : Bool) (c : Char) (cs : List Char) : List Piece × Rest cs.length :=
  if c = '{' then readBraced nested cs else closeQuoted nested (readPieces .atQuote cs)

section
variable {nested expand : Bool} {c : Char} {cs rest : List Char} {ps : List Piece} {f : Fault}

theorem readDelimited_of_mayFollow (h : Closes c cs ps rest f)
    (hfollow : mayFollow nested rest = true) :
    finished? (readDelimited nested c cs) = some (ps, rest) := by
  cases h with
  | braces h =>
    rw [readDelimited, if_pos rfl, finished?_readBraced, h, Option.bind_some, if_pos hfollow]
  | quotes h =>
    rw [readDelimited, if_neg (by decide), finished?_closeQuoted, h, Option.bind_some,
      List.tail_cons, if_pos hfollow]

theorem readDelimited_of_not_mayFollow (h : Closes c cs ps rest f)
    (hfollow : mayFollow nested rest = false) :
    (readDelimited nested c cs).2.text? = none ∧
      ∀ run, valueAfter run "" (readDelimited nested c cs).1 =
        valueAfter run "" ps >>= fun _ => fail (.fault f) := by
  cases h with
  | braces h =>
    rw [readDelimited, if_pos rfl]
    have hfault : readBraced nested cs = ([.fault .extraAfterBrace], none) := by
      unfold readBraced
      split
      · next hclose =>
        rw [braced?_eq, h] at hclose
        cases hclose
      · next hclose =>
        rw [braced?_eq, h] at hclose
        cases hclose
        exact if_neg (by simp [hfollow])
    rw [hfault]
    refine ⟨rfl, ?_⟩
    intro run
    simp only [valueAfter, Piece.value, pure_bind]
    rfl
  | quotes h =>
    rw [readDelimited, if_neg (by decide)]
    obtain ⟨hps, hrest⟩ := finished?_eq_some_iff.mp h
    obtain ⟨hle, hrest⟩ := Rest.text?_eq_some_iff.mp hrest
    have hread : readPieces .atQuote cs = (ps, some ⟨'"' :: rest, hle⟩) := Prod.ext hps hrest
    have hfault : closeQuoted nested (readPieces .atQuote cs) =
        (ps ++ [.fault .extraAfterQuote], none) := by
      rw [hread, closeQuoted, List.tail_cons, if_neg (by simp [hfollow])]
    rw [hfault]
    refine ⟨rfl, ?_⟩
    intro run
    rw [valueAfter_append]
    rfl

/-- A delimited word is its pieces, behind the mark of an expanded word or without one. -/
theorem readWord_of_delimited (h : Delimited nested c cs expand ps rest f) :
    ∃ d ds, Closes d ds ps rest f ∧
      (readWord nested c cs).1 = .mk expand (readDelimited nested d ds).1 ∧
      (readWord nested c cs).2.text? = (readDelimited nested d ds).2.text? := by
  cases h with
  | plain hexpand h =>
    refine ⟨c, cs, h, ?_⟩
    unfold readWord readDelimited
    split
    · next h' => cases hexpand.symm.trans h'
    · next h' => cases hexpand.symm.trans h'
    · cases h with
      | braces => exact ⟨rfl, rfl⟩
      | quotes => exact ⟨rfl, rfl⟩
  | expanded hexpand h =>
    refine ⟨_, _, h, ?_⟩
    unfold readWord readDelimited
    split
    · next h' => cases hexpand.symm.trans h'
    · next h' =>
      cases hexpand.symm.trans h'
      cases h <;> simp
    · next h' => cases hexpand.symm.trans h'

/-- A delimited word is accepted exactly if the check lets pass what follows it; otherwise its
pieces are found and then the fault is met, and nothing is read after it. -/
theorem readWord_delimited (h : Delimited nested c cs expand ps rest f) :
    (mayFollow nested rest = true →
      finished? (readWord nested c cs) = some (.mk expand ps, rest)) ∧
    (mayFollow nested rest = false → (readWord nested c cs).2.text? = none ∧
      FailsAfter ps f (readWord nested c cs).1) := by
  obtain ⟨d, ds, hcloses, hword, hrest⟩ := readWord_of_delimited h
  constructor
  · intro hfollow
    obtain ⟨hps, hleft⟩ :=
      finished?_eq_some_iff.mp (readDelimited_of_mayFollow hcloses hfollow)
    exact finished?_eq_some_iff.mpr ⟨by rw [hword, hps], hrest.trans hleft⟩
  · intro hfollow
    obtain ⟨hnone, hvalue⟩ := readDelimited_of_not_mayFollow hcloses hfollow
    exact ⟨hrest.trans hnone, hword ▸ failsAfter_of_valueAfter hvalue⟩

theorem mayFollow_of_accepted (h : Delimited nested c cs expand ps rest f)
    (hread : (readWord nested c cs).2.text? ≠ none) : mayFollow nested rest = true := by
  cases hfollow : mayFollow nested rest with
  | true => rfl
  | false => exact absurd ((readWord_delimited h).2 hfollow).1 hread

theorem closes_of_wordPieces? {bare : Option (List Piece × List Char)}
    (h : wordPieces? nested c cs bare = some (ps, rest)) :
    (∃ f, Closes c cs ps rest f) ∨ bare = some (ps, rest) := by
  rw [wordPieces?] at h
  by_cases hbrace : c = '{'
  · subst hbrace
    rw [if_pos rfl, finished?_readBraced] at h
    obtain ⟨⟨inner, rest'⟩, hclose, h⟩ := Option.bind_eq_some_iff.mp h
    split at h
    · cases h
      exact .inl ⟨_, .braces hclose⟩
    · cases h
  by_cases hquote : c = '"'
  · subst hquote
    rw [if_neg hbrace, if_pos rfl, finished?_closeQuoted] at h
    obtain ⟨⟨ps', rest'⟩, hread, h⟩ := Option.bind_eq_some_iff.mp h
    split at h
    · cases h
      rcases stopsAt_of_finished? hread with ⟨-, hfault⟩ | ⟨d, ds, rfl, hstop⟩
      · cases hfault
      · have hd : d = '"' := by simpa [Stop.stopsAt, Stop.closes] using hstop
        subst hd
        exact .inl ⟨_, .quotes hread⟩
    · cases h
  · rw [if_neg hbrace, if_neg hquote] at h
    exact .inr h

/-- A word that is accepted is delimited, or it ends where it has to. -/
theorem delimited_or_endsBefore {w : Word}
    (h : finished? (readWord nested c cs) = some (w, rest)) :
    (∃ expand ps f, Delimited nested c cs expand ps rest f) ∨ endsBefore nested rest = true := by
  cases hexpand : expanded? nested c cs with
  | none =>
    rw [finished?_readWord_plain hexpand] at h
    obtain ⟨⟨ps, rest'⟩, hpieces, heq⟩ := Option.map_eq_some_iff.mp h
    cases heq
    rcases closes_of_wordPieces? hpieces with ⟨f, hcloses⟩ | hbare
    · exact .inl ⟨_, _, f, .plain hexpand hcloses⟩
    · obtain ⟨⟨p, rest''⟩, -, hrest⟩ := Option.bind_eq_some_iff.mp hbare
      obtain ⟨⟨qs, r⟩, hqs, heq⟩ := Option.map_eq_some_iff.mp hrest
      cases heq
      exact .inr (endsBefore_of_finished? hqs)
  | some front =>
    cases front with
    | nil => exact absurd hexpand (expanded?_ne_nil nested c cs)
    | cons d ds =>
      rw [finished?_readWord_expanded hexpand] at h
      obtain ⟨⟨ps, rest'⟩, hpieces, heq⟩ := Option.map_eq_some_iff.mp h
      cases heq
      rcases closes_of_wordPieces? hpieces with ⟨f, hcloses⟩ | hbare
      · exact .inl ⟨_, _, f, .expanded hexpand hcloses⟩
      · exact .inr (endsBefore_of_finished? hbare)

end

/-! ## Gaps -/

inductive Gap : List Char → Prop
  | nil : Gap []
  | blank {c cs} (hc : (c == ' ' || c == '\t' || c == '\r') = true) (h : Gap cs) : Gap (c :: cs)
  | joined {cs} (h : Gap cs) : Gap ('\\' :: '\n' :: cs)

theorem exists_gap (cs : List Char) : ∃ gap, Gap gap ∧ cs = gap ++ skipBlanks cs := by
  fun_induction skipBlanks cs with
  | case1 => exact ⟨[], .nil, rfl⟩
  | case2 c cs hc ih =>
    obtain ⟨gap, hgap, hcs⟩ := ih
    exact ⟨c :: gap, .blank hc hgap, congrArg (c :: ·) hcs⟩
  | case3 ds _ ih =>
    obtain ⟨gap, hgap, hds⟩ := ih
    exact ⟨'\\' :: '\n' :: gap, .joined hgap, congrArg ('\\' :: '\n' :: ·) hds⟩
  | case4 => exact ⟨[], .nil, rfl⟩
  | case5 => exact ⟨[], .nil, rfl⟩

theorem Gap.isStray_append {gap : List Char} (h : Gap gap) (hne : gap ≠ []) (rest : List Char) :
    isStray (gap ++ rest) = false := by
  cases h with
  | nil => exact absurd rfl hne
  | @blank c cs hc _ =>
    have hb : c ≠ '\\' := by
      rintro rfl
      cases hc
    simp [isStray, hb]
  | joined => rfl

theorem not_blank_of_skipBlanks {cs tail : List Char} {d : Char} (h : skipBlanks cs = d :: tail) :
    (d == ' ' || d == '\t' || d == '\r') = false ∧ ¬(d = '\\' ∧ tail.head? = some '\n') := by
  fun_induction skipBlanks cs with
  | case1 => cases h
  | case2 c cs hc ih => exact ih h
  | case3 ds _ ih => exact ih h
  | case4 cs =>
    have hjoin : ∀ ds, cs ≠ '\n' :: ds := by assumption
    cases h
    refine ⟨rfl, ?_⟩
    rintro ⟨-, hline⟩
    obtain ⟨ds, rfl⟩ := List.head?_eq_some_iff.mp hline
    exact hjoin ds rfl
  | case5 c cs hc hb =>
    cases h
    exact ⟨by simpa using hc, fun hjoin => hb hjoin.1⟩

/-- A further word of a command starts with a character, behind blanks and joined lines. -/
structure NextWord (nested : Bool) (rest : List Char) (d : Char) (tail : List Char) : Prop where
  skip : skipBlanks rest = d :: tail
  notLineEnd : ¬(d = '\n' ∨ d = ';')
  notBracket : ¬(nested = true ∧ d = ']')

def IsApart (rest : List Char) (d : Char) (tail : List Char) : Prop :=
  ∃ gap, gap ≠ [] ∧ Gap gap ∧ rest = gap ++ d :: tail

theorem NextWord.isApart {nested : Bool} {rest tail : List Char} {d : Char}
    (h : NextWord nested rest d tail) (hend : endsBefore nested rest = true) :
    IsApart rest d tail := by
  obtain ⟨gap, hgap, hrest⟩ := exists_gap rest
  rw [h.skip] at hrest
  refine ⟨gap, ?_, hgap, hrest⟩
  rintro rfl
  rw [List.nil_append] at hrest
  subst hrest
  obtain ⟨hblank, hjoined⟩ := not_blank_of_skipBlanks h.skip
  simp only [Bool.or_eq_false_iff, beq_eq_false_iff_ne] at hblank
  have hstop : isWordEnd nested d = true ∨ d = '\\' ∧ tail.head? = some '\n' := by
    simpa [endsBefore, Stop.stopsAt, Stop.closes] using hend
  rcases hstop with hword | hjoin
  · simp only [isWordEnd, Bool.or_eq_true, Bool.and_eq_true, beq_iff_eq] at hword
    rcases hword with ((((hd | hd) | hd) | hd) | hd) | hd
    · exact hblank.1.1 hd
    · exact hblank.1.2 hd
    · exact hblank.2 hd
    · exact h.notLineEnd (.inl hd)
    · exact h.notLineEnd (.inr hd)
    · exact h.notBracket hd
  · exact hjoined hjoin

/-- A delimited word is accepted only if it ends at its closing delimiter, and otherwise its pieces
are found and then the fault is met. -/
structure ChecksEnd (nested : Bool) (c : Char) (cs : List Char) (ps : List Piece)
    (rest : List Char) (f : Fault) : Prop where
  accepted (h : (readWord nested c cs).2.text? ≠ none) : endsBefore nested rest = true
  refused (h : endsBefore nested rest = false) : (readWord nested c cs).2.text? = none ∧
    FailsAfter ps f (readWord nested c cs).1

/-- Wherever a word starts: a delimited one is checked as it should be exactly if no stray backslash
follows its closing delimiter, and it is apart from a further word exactly if none does.  No stray
backslash follows a word that is not delimited. -/
theorem words_apart_iff (nested : Bool) (c : Char) (cs : List Char) :
    (∀ expand ps rest f, Delimited nested c cs expand ps rest f →
      (ChecksEnd nested c cs ps rest f ↔ isStray rest = false)) ∧
    (∀ w rest d tail, finished? (readWord nested c cs) = some (w, rest) →
      NextWord nested rest d tail → (IsApart rest d tail ↔ isStray rest = false)) ∧
    ∀ w rest, finished? (readWord nested c cs) = some (w, rest) → isStray rest = true →
      ∃ expand ps f, Delimited nested c cs expand ps rest f := by
  have hfollow (rest : List Char) (hstray : isStray rest = false) :
      mayFollow nested rest = endsBefore nested rest := by
    rw [mayFollow_eq, hstray, Bool.or_false]
  refine ⟨?_, ?_, ?_⟩
  · intro expand ps rest f h
    obtain ⟨haccepted, hrefused⟩ := readWord_delimited h
    constructor
    · intro hchecks
      cases hstray : isStray rest with
      | false => rfl
      | true =>
        have hmay : mayFollow nested rest = true := by
          rw [mayFollow_eq, hstray, Bool.or_true]
        have hread := (finished?_eq_some_iff.mp (haccepted hmay)).2
        have hend := hchecks.accepted (by simp [hread])
        rw [endsBefore_of_isStray hstray] at hend
        cases hend
    · intro hstray
      rw [hfollow rest hstray] at hrefused
      refine ⟨fun hread => ?_, hrefused⟩
      rw [← hfollow rest hstray]
      exact mayFollow_of_accepted h hread
  · intro w rest d tail hread hnext
    constructor
    · rintro ⟨gap, hne, hgap, rfl⟩
      exact hgap.isStray_append hne _
    · intro hstray
      refine hnext.isApart ?_
      rcases delimited_or_endsBefore hread with ⟨expand, ps, f, h⟩ | hend
      · rw [← hfollow rest hstray]
        exact mayFollow_of_accepted h (by simp [(finished?_eq_some_iff.mp hread).2])
      · exact hend
  · intro w rest hread hstray
    rcases delimited_or_endsBefore hread with h | hend
    · exact h
    · rw [endsBefore_of_isStray hstray] at hend
      cases hend

/-! ### A stray backslash -/

theorem delimited_stray :
    Delimited false '{' ['a', '}', '\\', 'q'] false [.literal ['a']] ['\\', 'q']
      .extraAfterBrace :=
  .plain rfl (.braces (by decide))

theorem delimited_blank :
    Delimited false '{' ['a', '}', ' ', 'b'] false [.literal ['a']] [' ', 'b'] .extraAfterBrace :=
  .plain rfl (.braces (by decide))

theorem readWord_delimited_blank : finished? (readWord false '{' ['a', '}', ' ', 'b']) =
    some (.mk false [.literal ['a']], [' ', 'b']) :=
  (readWord_delimited delimited_blank).1 rfl

theorem readWord_delimited_stray : finished? (readWord false '{' ['a', '}', '\\', 'q']) =
    some (.mk false [.literal ['a']], ['\\', 'q']) :=
  (readWord_delimited delimited_stray).1 rfl

/-- In front of a blank the word is checked as it should be and apart from the next one. -/
theorem words_apart_blank :
    Delimited false '{' ['a', '}', ' ', 'b'] false [.literal ['a']] [' ', 'b'] .extraAfterBrace ∧
    finished? (readWord false '{' ['a', '}', ' ', 'b']) =
      some (.mk false [.literal ['a']], [' ', 'b']) ∧
    NextWord false [' ', 'b'] 'b' [] ∧
    ChecksEnd false '{' ['a', '}', ' ', 'b'] [.literal ['a']] [' ', 'b'] .extraAfterBrace ∧
    IsApart [' ', 'b'] 'b' [] ∧
    (finished? (readWord false '{' ['a', '}', '\\', 'q']) =
      some (.mk false [.literal ['a']], ['\\', 'q']) ∧ isStray ['\\', 'q'] = true ∧
      ∃ expand ps f, Delimited false '{' ['a', '}', '\\', 'q'] expand ps ['\\', 'q'] f) := by
  have hnext : NextWord false [' ', 'b'] 'b' [] := ⟨by decide, by decide, by decide⟩
  obtain ⟨hchecks, hapart, -⟩ := words_apart_iff false '{' ['a', '}', ' ', 'b']
  obtain ⟨-, -, hdelimited⟩ := words_apart_iff false '{' ['a', '}', '\\', 'q']
  exact ⟨delimited_blank, readWord_delimited_blank, hnext,
    (hchecks _ _ _ _ delimited_blank).mpr rfl,
    (hapart _ _ _ _ readWord_delimited_blank hnext).mpr rfl,
    readWord_delimited_stray, rfl, hdelimited _ _ readWord_delimited_stray rfl⟩

def strayCommand : String :=
  "list \x7ba\x7d\\q"

theorem readCommands_strayCommand : finished? (readCommands false strayCommand.toList) =
    some ([.words [.mk false [.literal ['l', 'i', 's', 't']], .mk false [.literal ['a']],
      .mk false [.literal ['q']]]], []) := by
  have htext : strayCommand.toList =
      'l' :: (['i', 's', 't'] ++ [' ', '{', 'a', '}', '\\', 'q']) := rfl
  have hlist : finished? (readWord false 'l'
      (['i', 's', 't'] ++ [' ', '{', 'a', '}', '\\', 'q'])) =
      some (.mk false [.literal ['l', 'i', 's', 't']], [' ', '{', 'a', '}', '\\', 'q']) :=
    finished?_readWord_bare ['i', 's', 't'] rfl (by decide) (by decide)
      (by simp [EndsWord, isWordEnd])
  have hq : finished? (readWord false '\\' ['q']) = some (.mk false [.literal ['q']], []) := by
    have hescape : Escape.read ['q'] = ('q', []) := by decide
    rw [finished?_readWord_plain rfl, wordPieces?, if_neg (by decide), if_neg (by decide),
      barePieces?, finished?_readPiece_escape, Option.bind_some, hescape, finished?_readPieces_nil]
    rfl
  rw [htext, finished?_readCommands_command rfl (by decide) (by decide), finished?_readCommand,
    hlist, Option.bind_some, finished?_readWords_word rfl (by decide) (by decide),
    finished?_readCommand, readWord_delimited_stray, Option.bind_some,
    finished?_readWords_word rfl (by decide) (by decide), finished?_readCommand, hq,
    Option.bind_some, finished?_readWords_nil rfl, Option.map_some, Option.map_some,
    Option.map_some, Option.bind_some, finished?_readCommands_nil rfl]
  rfl

/-- The word is accepted although it does not end there, and the command has one word more. -/
theorem strayCommand_accepted :
    Delimited false '{' ['a', '}', '\\', 'q'] false [.literal ['a']] ['\\', 'q']
        .extraAfterBrace ∧
      endsBefore false ['\\', 'q'] = false ∧
      (readWord false '{' ['a', '}', '\\', 'q']).2.text? = some ['\\', 'q'] ∧
      (Env.top 0).eval strayCommand Interp.fresh = (.ok "a q", Interp.fresh) := by
  have hread : Script.read strayCommand = _ :=
    (finished?_eq_some_iff.mp readCommands_strayCommand).1
  refine ⟨delimited_stray, by decide, (finished?_eq_some_iff.mp readWord_delimited_stray).2, ?_⟩
  rw [Env.top_eval, hread, Eval.nest_apply _ (by decide)]
  rfl

end TclHost.Script
