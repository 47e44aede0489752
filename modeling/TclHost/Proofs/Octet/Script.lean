import TclHost.Proofs.Evaluation.WordEnd
import TclHost.Proofs.Octet.Word
/-! # Scripts at boundaries

The rules for commands and for scripts, and with them all rules of the grammar: no script scanner is
ever halted.
-/
namespace TclHost.Octet

open Text Script

/-! ## Commands -/

theorem At.position_eq {text rest : List Char} {p q : Nat} (h : At text p rest)
    (h' : At text q rest) : p = q :=
  Nat.add_right_cancel (h.size_eq.trans h'.size_eq.symm)

section
variable {text cs rest tail : List Char} {nested : Bool} {p : Nat} {c : Char}

/-- A character is no stop of a word if it neither ends the word nor joins lines. -/
theorem stopsAt_eq_false_iff : (Stop.atWordEnd nested).stopsAt c tail = false ↔
    isWordEnd nested c = false ∧ ¬(c = '\\' ∧ tail.head? = some '\n') := by
  rw [Stop.stopsAt_eq, Bool.or_eq_false_iff]
  refine and_congr Iff.rfl ?_
  simp [Stop.joinsLine]

theorem stopsAt_of_skipBlanks (h : Script.skipBlanks cs = c :: tail) (hc : ¬(c = '\n' ∨ c = ';'))
    (hc' : ¬(nested = true ∧ c = ']')) : (Stop.atWordEnd nested).stopsAt c tail = false := by
  obtain ⟨hblank, hjoined⟩ := not_blank_of_skipBlanks h
  simp only [Bool.or_eq_false_iff, beq_eq_false_iff_ne] at hblank
  refine stopsAt_eq_false_iff.mpr ⟨?_, hjoined⟩
  rw [not_or] at hc
  simpa [isWordEnd, hblank, hc] using fun hnested hbracket => hc' ⟨hnested, hbracket⟩

theorem skipBlanks_of_stopsAt (h : (Stop.atWordEnd nested).stopsAt c tail = false) :
    Script.skipBlanks (c :: tail) = c :: tail := by
  obtain ⟨hend, hjoin⟩ := stopsAt_eq_false_iff.mp h
  simp only [isWordEnd, Bool.or_eq_false_iff] at hend
  rw [skipBlanks_cons, if_neg (by simp [hend]), if_neg hjoin]

theorem not_separator_of_skipSeparators (h : Script.skipSeparators cs = c :: tail) :
    isWordEnd false c = false ∧ ¬(c = '\\' ∧ tail.head? = some '\n') := by
  fun_induction Script.skipSeparators cs with
  | case1 => cases h
  | case2 _ _ _ ih => exact ih h
  | case3 _ _ ih => exact ih h
  | case4 ds =>
    have hjoin : ∀ es, ds ≠ '\n' :: es := by assumption
    cases h
    refine ⟨rfl, ?_⟩
    rintro ⟨-, hline⟩
    obtain ⟨ds, rfl⟩ := List.head?_eq_some_iff.mp hline
    exact hjoin ds rfl
  | case5 d ds hd hb =>
    cases h
    exact ⟨by simpa using hd, fun hjoin => hb hjoin.1⟩

theorem stopsAt_of_skipSeparators (h : Script.skipSeparators cs = c :: tail)
    (hc : ¬(nested = true ∧ c = ']')) : (Stop.atWordEnd nested).stopsAt c tail = false := by
  obtain ⟨hend, hjoined⟩ := not_separator_of_skipSeparators h
  refine stopsAt_eq_false_iff.mpr ⟨?_, hjoined⟩
  simp only [isWordEnd, Bool.false_and, Bool.or_false] at hend
  simpa [isWordEnd, hend] using fun hnested hbracket => hc ⟨hnested, hbracket⟩

theorem parseCommand_of_stopsAt (h : At text p (c :: tail))
    (hstop : (Stop.atWordEnd nested).stopsAt c tail = false) :
    parseCommand text nested p = do
      let expand ← startsExpanded text nested p
      let _ ← pass text (wordStart expand p)
      match ← parseWord text nested (wordStart expand p) with
      | (pieces, none) => return ([.mk expand pieces], none)
      | (pieces, some q) =>
        let ⟨q, _⟩ ← advance text p q
        let (words, last) ← parseCommand text nested q
        return (.mk expand pieces :: words, last) := by
  have hskip : Octet.skipBlanks text p = p :=
    (skipBlanks_of_stopsAt hstop ▸ h.skipBlanks).position_eq h
  obtain ⟨hend, -⟩ := stopsAt_eq_false_iff.mp hstop
  simp only [isWordEnd, Bool.or_eq_false_iff, beq_eq_false_iff_ne] at hend
  obtain ⟨o, ho, hstands⟩ := h.exists_octet
  have hline : ¬(o = '\n' ∨ o = ';') := by
    rw [hstands.eq_iff (by decide), hstands.eq_iff (by decide)]
    exact not_or.mpr ⟨hend.1.1.2, hend.1.2⟩
  have hbracket : ¬(nested = true ∧ o = ']') := by
    rw [hstands.eq_iff (by decide)]
    simpa using hend.2
  rw [parseCommand_eq nested hskip, ho]
  exact (if_neg hline).trans (if_neg hbracket)

theorem scans_command_fault {w : Word} (hword : Scans text (.word nested c) cs w none) :
    Scans text (.command nested c) cs [w] none := by
  intro p h hstop
  obtain ⟨expand, pieces, hexpand, ⟨ds, hstart⟩, rfl, last, hscan, hlast⟩ := hword p h hstop
  cases hlast
  refine ⟨none, ?_, .none⟩
  rw [parseCommand_of_stopsAt h hstop, hexpand]
  simp only [hstart.pass, hscan, bind, Except.bind, pure, Except.pure]

theorem scans_command_words {w : Word} {ws : List Word} {rest? : Option (List Char)}
    (hword : Scans text (.word nested c) cs w (some rest)) (hsuffix : rest <:+ cs)
    (hwords : Scans text (.words nested) rest ws rest?) :
    Scans text (.command nested c) cs (w :: ws) rest? := by
  intro p h hstop
  obtain ⟨expand, pieces, hexpand, ⟨ds, hstart⟩, rfl, last, hscan, hlast⟩ := hword p h hstop
  cases hlast with
  | @some q _ hq =>
  have hlt : p < q := h.lt_of_length_lt hq (Nat.lt_succ_of_le hsuffix.length_le)
  obtain ⟨last, hrest, hlast⟩ := hwords q hq
  refine ⟨last, ?_, hlast⟩
  rw [parseCommand_of_stopsAt h hstop, hexpand]
  simp only [hstart.pass, hscan, hq.advance hlt, hrest, bind, Except.bind, pure, Except.pure]

theorem scans_words_end (h : Script.skipBlanks cs = []) :
    Scans text (.words nested) cs [] (some []) := by
  intro p hp
  have hstart := hp.skipBlanks
  rw [h] at hstart
  refine ⟨_, ?_, .some hstart⟩
  rw [parseCommand_eq _ rfl, hstart.octet?_nil]
  simp only [hstart.pass]
  rfl

theorem scans_words_lineEnd (h : Script.skipBlanks cs = c :: tail) (hc : c = '\n' ∨ c = ';') :
    Scans text (.words nested) cs [] (some tail) := by
  intro p hp
  have hascii : c.toNat < 128 := by rcases hc with rfl | rfl <;> decide
  have hstart := hp.skipBlanks
  rw [h] at hstart
  have hlast := hstart.next_ascii hascii
  refine ⟨_, ?_, .some hlast⟩
  rw [parseCommand_eq _ rfl, hstart.octet?_ascii hascii]
  simp only [hc, if_true, hlast.pass]
  rfl

theorem scans_words_bracket (h : Script.skipBlanks cs = ']' :: tail) :
    Scans text (.words true) cs [] (some (']' :: tail)) := by
  intro p hp
  have hstart := hp.skipBlanks
  rw [h] at hstart
  refine ⟨_, ?_, .some hstart⟩
  rw [parseCommand_eq _ rfl, hstart.octet?_ascii (by decide)]
  simp only [hstart.pass]
  rfl

/-- A command is read alike in front of its blanks and behind them. -/
theorem scans_words_command {ws : List Word} {rest? : Option (List Char)}
    (h : Script.skipBlanks cs = c :: tail) (hc : ¬(c = '\n' ∨ c = ';'))
    (hc' : ¬(nested = true ∧ c = ']')) (hcommand : Scans text (.command nested c) tail ws rest?) :
    Scans text (.words nested) cs ws rest? := by
  intro p hp
  have hstop := stopsAt_of_skipBlanks h hc hc'
  have hstart := hp.skipBlanks
  rw [h] at hstart
  have hskip : Octet.skipBlanks text (Octet.skipBlanks text p) = Octet.skipBlanks text p :=
    (skipBlanks_of_stopsAt hstop ▸ hstart.skipBlanks).position_eq hstart
  obtain ⟨last, hscan, hlast⟩ := hcommand _ hstart hstop
  refine ⟨last, ?_, hlast⟩
  rw [← hscan, parseCommand_eq nested rfl, parseCommand_eq nested hskip]

end

/-! ## Scripts -/

section
variable {text cs rest tail : List Char} {nested : Bool} {c : Char}

theorem scans_commands_end (h : Script.skipSeparators cs = []) :
    Scans text (.commands false) cs [] (some []) := by
  intro p hp
  have hstart := hp.skipSeparators
  rw [h] at hstart
  refine ⟨_, ?_, .some hstart⟩
  rw [run_eq _ rfl, hstart.octet?_nil]
  simp only [hstart.pass]
  rfl

theorem scans_commands_unclosed (h : Script.skipSeparators cs = []) :
    Scans text (.commands true) cs [.fault .missingBracket] none := by
  intro p hp
  have hstart := hp.skipSeparators
  rw [h] at hstart
  refine ⟨none, ?_, .none⟩
  rw [run_eq _ rfl, hstart.octet?_nil]
  rfl

theorem scans_commands_bracket (h : Script.skipSeparators cs = ']' :: tail) :
    Scans text (.commands true) cs [] (some tail) := by
  intro p hp
  have hstart := hp.skipSeparators
  rw [h] at hstart
  have hlast := hstart.next_ascii (by decide)
  refine ⟨_, ?_, .some hlast⟩
  rw [run_eq _ rfl, hstart.octet?_ascii (by decide)]
  simp only [hlast.pass]
  rfl

theorem skipComment_hash (cs : List Char) :
    Script.skipComment ('#' :: cs) = Script.skipComment cs := by
  rw [Script.skipComment.eq_def]
  rfl

theorem scans_commands_comment {script : Script} {rest? : Option (List Char)}
    (h : Script.skipSeparators cs = '#' :: tail)
    (hscript : Scans text (.commands nested) (Script.skipComment tail) script rest?) :
    Scans text (.commands nested) cs script rest? := by
  intro p hp
  have hstart := hp.skipSeparators
  rw [h] at hstart
  have hnext := skipComment_hash tail ▸ hstart.skipComment
  have hlt := hstart.lt_of_length_lt hnext (Nat.lt_succ_of_le (skipComment_length_le tail))
  obtain ⟨last, hscan, hlast⟩ := hscript _ hnext
  refine ⟨last, ?_, hlast⟩
  rw [run_eq _ rfl, hstart.octet?_ascii (by decide)]
  simp only [show ('#' : Char) ≠ ']' by decide, and_false, if_false, if_true, hnext.advance hlt,
    bind, Except.bind]
  exact hscan

/-- What starts neither a comment nor the end of the script is a command. -/
theorem run_of_command {p : Nat} (h : Script.skipSeparators cs = c :: tail)
    (hc : ¬(nested = true ∧ c = ']')) (hc' : c ≠ '#') (hp : At text p cs) :
    run text nested p = do
      match ← parseCommand text nested (skipSeparators text p) with
      | (words, none) => return ([.words words], none)
      | (words, some q) =>
        let ⟨q, _⟩ ← advance text (skipSeparators text p) q
        let (script, last) ← run text nested q
        return (.words words :: script, last) := by
  have hstart := hp.skipSeparators
  rw [h] at hstart
  obtain ⟨o, ho, hstands⟩ := hstart.exists_octet
  rw [run_eq _ rfl, ho]
  simp only [hstands.eq_iff (a := ']') (by decide), hstands.eq_iff (a := '#') (by decide), hc, hc',
    if_false, hstart.pass]
  rfl

theorem scans_commands_fault {ws : List Word} (h : Script.skipSeparators cs = c :: tail)
    (hc : ¬(nested = true ∧ c = ']')) (hc' : c ≠ '#')
    (hcommand : Scans text (.command nested c) tail ws none) :
    Scans text (.commands nested) cs [.words ws] none := by
  intro p hp
  obtain ⟨last, hscan, hlast⟩ :=
    hcommand _ (h ▸ hp.skipSeparators) (stopsAt_of_skipSeparators h hc)
  cases hlast
  refine ⟨none, ?_, .none⟩
  rw [run_of_command h hc hc' hp, hscan]
  rfl

theorem scans_commands_cons {ws : List Word} {script : Script} {rest? : Option (List Char)}
    (h : Script.skipSeparators cs = c :: tail) (hc : ¬(nested = true ∧ c = ']')) (hc' : c ≠ '#')
    (hcommand : Scans text (.command nested c) tail ws (some rest)) (hsuffix : rest <:+ tail)
    (hscript : Scans text (.commands nested) rest script rest?) :
    Scans text (.commands nested) cs (.words ws :: script) rest? := by
  intro p hp
  have hstart := h ▸ hp.skipSeparators
  obtain ⟨last, hscan, hlast⟩ := hcommand _ hstart (stopsAt_of_skipSeparators h hc)
  cases hlast with
  | @some q _ hq =>
  have hlt := hstart.lt_of_length_lt hq (Nat.lt_succ_of_le hsuffix.length_le)
  obtain ⟨last, hrest, hlast⟩ := hscript q hq
  refine ⟨last, ?_, hlast⟩
  rw [run_of_command h hc hc' hp, hscan]
  simp only [hq.advance hlt, hrest, bind, Except.bind, pure, Except.pure]

end

/-! ## All scanners -/

/-- The scanners follow the grammar of scripts at every boundary of every text. -/
theorem scans_of_reads {text : List Char} {part : Part} {cs : List Char} {tree : part.Tree}
    {rest? : Option (List Char)} (h : Reads part cs tree rest?) :
    Scans text part cs tree rest? := by
  induction h with
  | @piecesEnd stop hfault =>
    intro p hp
    refine ⟨_, ?_, .some hp⟩
    rw [subst_eq, hp.octet?_nil]
    simp only [hfault, hp.cut_self, hp.pass]
    rfl
  | @piecesCut stop f hfault =>
    intro p hp
    refine ⟨none, ?_, .none⟩
    rw [subst_eq, hp.octet?_nil]
    simp only [hfault, hp.cut_self]
    rfl
  | piecesStop hstop =>
    intro p hp
    obtain ⟨o, ho, hstands⟩ := hp.exists_octet
    refine ⟨_, ?_, .some hp⟩
    rw [subst_eq, ho]
    simp only [hp.stopsAt hstands, hstop, if_true, hp.cut_self, hp.pass]
    rfl
  | piecesFault hstop _ hpiece => exact scans_pieces_fault hstop hpiece
  | piecesCons hstop hread _ hpiece hpieces =>
    exact scans_pieces_cons hstop hpiece (hread.suffix _ rfl) hpieces
  | pieceReference _ ih =>
    refine ⟨fun _ p hp => ?_, fun hplain => absurd (.inl rfl) hplain⟩
    rw [substPiece, if_pos (hp.octet?_ascii (by decide))]
    exact ih p hp
  | pieceCommand _ ih =>
    refine ⟨fun _ p hp => ?_, fun hplain => absurd (.inr (.inl rfl)) hplain⟩
    have hnext := hp.next_ascii (by decide)
    obtain ⟨last, hscan, hlast⟩ := ih _ hnext
    refine ⟨last, ?_, hlast⟩
    rw [substPiece, hp.octet?_ascii (by decide)]
    simp only [hnext.pass, hscan]
    rfl
  | pieceEscape =>
    refine ⟨fun _ p hp => ?_, fun hplain => absurd (.inr (.inr rfl)) hplain⟩
    obtain ⟨q, hscan, hq⟩ := hp.backslash
    refine ⟨some q, ?_, .some hq⟩
    rw [substPiece, hp.octet?_ascii (by decide)]
    simp only [hscan]
    rfl
  | pieceLiteral hdollar hopen hb =>
    exact ⟨fun hspecial => absurd hspecial (not_or.mpr ⟨hdollar, not_or.mpr ⟨hopen, hb⟩⟩),
      fun _ => ⟨rfl, rfl⟩⟩
  | referenceBraced hclose => exact scans_reference_braced hclose
  | referenceUnclosed hclose => exact scans_reference_unclosed hclose
  | referenceDollar hbrace hname => exact scans_reference_dollar hbrace hname
  | referenceElement hname hindex hread ih => exact scans_reference_element hname hindex hread ih
  | referenceVariable hname hindex => exact scans_reference_variable hname hindex
  | braced hclose hfollow => exact scans_braced hclose hfollow
  | bracedExtra hclose hfollow => exact scans_braced_extra hclose hfollow
  | bracedUnclosed hclose => exact scans_braced_unclosed hclose
  | quoted hread hfollow ih => exact scans_quoted hread ih hfollow
  | quotedExtra hread hfollow ih => exact scans_quoted_extra hread ih hfollow
  | quotedFault _ ih => exact scans_quoted_fault ih
  | wordDelimited hexpand _ _ ih => exact scans_word_plain hexpand fun p hp _ => ih p hp
  | wordFault hexpand hc _ ih =>
    refine scans_word_plain hexpand fun p hp hstop => ?_
    rw [parseWord_of_bare hp hc]
    exact scans_pieces_fault hstop ih p hp
  | wordBare hexpand hc hread _ ih ihps =>
    refine scans_word_plain hexpand fun p hp hstop => ?_
    rw [parseWord_of_bare hp hc]
    exact scans_pieces_cons hstop ih (hread.suffix _ rfl) ihps p hp
  | expandedDelimited hexpand _ _ ih => exact scans_word_expanded hexpand ih
  | expandedBare hexpand hd _ ih =>
    refine scans_word_expanded hexpand fun p hp => ?_
    rw [parseWord_of_bare hp hd]
    exact ih p hp
  | wordsEnd h => exact scans_words_end h
  | wordsLineEnd h hc => exact scans_words_lineEnd h hc
  | wordsBracket h => exact scans_words_bracket h
  | wordsCommand h hc hc' _ ih => exact scans_words_command h hc hc' ih
  | commandFault _ ih => exact scans_command_fault ih
  | commandWords hread _ ih ihws => exact scans_command_words ih (hread.suffix _ rfl) ihws
  | commandsEnd h => exact scans_commands_end h
  | commandsUnclosed h => exact scans_commands_unclosed h
  | commandsBracket h => exact scans_commands_bracket h
  | commandsComment h _ ih => exact scans_commands_comment h ih
  | commandsFault h hc hc' _ ih => exact scans_commands_fault h hc hc' ih
  | commandsCons h hc hc' hread _ ih ihscript =>
    exact scans_commands_cons h hc hc' ih (hread.suffix _ rfl) ihscript

end TclHost.Octet
