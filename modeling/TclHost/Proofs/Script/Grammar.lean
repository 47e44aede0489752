import TclHost.Proofs.Script.Finished
/-! # The grammar of scripts

One rule for each way in which a part of a script can start: the tree that it is read as, and the
text that follows it, or none after a fault.  The readers follow these rules on every text, so what
holds of each rule holds of whatever is read.
-/
namespace TclHost.Script

open Text

/-- The parts of a script that are read by rules of their own.  A character that comes with a part
is its first one, and has been taken from the text. -/
inductive Part where
  | pieces (stop : Stop)
  | piece (stop : Stop) (c : Char)
  | reference
  /-- A text between braces or quotes, which open with the character. -/
  | delimited (nested : Bool) (c : Char)
  | word (nested : Bool) (c : Char)
  | words (nested : Bool)
  | command (nested : Bool) (c : Char)
  | commands (nested : Bool)

abbrev Part.Tree : Part → Type
  | .pieces _ | .delimited _ _ => List Piece
  | .piece _ _ | .reference => Piece
  | .word _ _ => Word
  | .words _ | .command _ _ => List Word
  | .commands _ => Script

def isDelimiter (c : Char) : Bool :=
  c == '{' || c == '"'

/-- The rules: the part, its text, what it is read as, and the text that follows. -/
inductive Reads : (part : Part) → List Char → part.Tree → Option (List Char) → Prop
  | piecesEnd {stop} (h : stop.fault? = none) : Reads (.pieces stop) [] [] (some [])
  | piecesCut {stop f} (h : stop.fault? = some f) : Reads (.pieces stop) [] [.fault f] none
  | piecesStop {stop c cs} (h : stop.stopsAt c cs = true) :
    Reads (.pieces stop) (c :: cs) [] (some (c :: cs))
  | piecesFault {stop c cs p} (h : stop.stopsAt c cs = false)
    (hp : Reads (.piece stop c) cs p none) : Reads (.pieces stop) (c :: cs) [p] none
  | piecesCons {stop c cs p rest ps rest?} (h : stop.stopsAt c cs = false)
    (hp : Reads (.piece stop c) cs p (some rest)) (hps : Reads (.pieces stop) rest ps rest?) :
    Reads (.pieces stop) (c :: cs) (p :: ps) rest?
  | pieceReference {stop cs p rest?} (h : Reads .reference cs p rest?) :
    Reads (.piece stop '$') cs p rest?
  | pieceCommand {stop cs script rest?} (h : Reads (.commands true) cs script rest?) :
    Reads (.piece stop '[') cs (.command script) rest?
  | pieceEscape {stop cs} :
    Reads (.piece stop '\\') cs (.literal [(Escape.read cs).1]) (some (Escape.read cs).2)
  | pieceLiteral {stop c cs} (hdollar : c ≠ '$') (hopen : c ≠ '[') (hb : c ≠ '\\') :
    Reads (.piece stop c) cs (.literal (c :: cs.takeWhile stop.isPlain))
      (some (cs.dropWhile stop.isPlain))
  | referenceBraced {cs c rest} (h : cs.dropWhile (· != '}') = c :: rest) :
    Reads .reference ('{' :: cs) (.variable (String.ofList (cs.takeWhile (· != '}')))) (some rest)
  | referenceUnclosed {cs} (h : cs.dropWhile (· != '}') = []) :
    Reads .reference ('{' :: cs) (.fault .missingNameBrace) none
  | referenceDollar {cs} (hbrace : ∀ ds, cs ≠ '{' :: ds) (hname : (splitName cs).1 = []) :
    Reads .reference cs (.literal ['$']) (some cs)
  | referenceElement {cs ds ps rest?} (hname : (splitName cs).1 ≠ [])
    (hindex : (splitName cs).2 = '(' :: ds) (h : Reads (.pieces .atParen) ds ps rest?) :
    Reads .reference cs (.element (String.ofList (splitName cs).1) ps) (rest?.map List.tail)
  | referenceVariable {cs} (hname : (splitName cs).1 ≠ [])
    (hindex : ∀ ds, (splitName cs).2 ≠ '(' :: ds) :
    Reads .reference cs (.variable (String.ofList (splitName cs).1)) (some (splitName cs).2)
  | braced {nested cs inner rest} (h : closeAt? '{' '}' 0 cs = some (inner, rest))
    (hfollow : mayFollow nested rest = true) :
    Reads (.delimited nested '{') cs [.literal inner] (some rest)
  | bracedExtra {nested cs inner rest} (h : closeAt? '{' '}' 0 cs = some (inner, rest))
    (hfollow : mayFollow nested rest = false) :
    Reads (.delimited nested '{') cs [.fault .extraAfterBrace] none
  | bracedUnclosed {nested cs} (h : closeAt? '{' '}' 0 cs = none) :
    Reads (.delimited nested '{') cs [.fault .missingBrace] none
  | quoted {nested cs ps rest} (h : Reads (.pieces .atQuote) cs ps (some rest))
    (hfollow : mayFollow nested rest.tail = true) :
    Reads (.delimited nested '"') cs ps (some rest.tail)
  | quotedExtra {nested cs ps rest} (h : Reads (.pieces .atQuote) cs ps (some rest))
    (hfollow : mayFollow nested rest.tail = false) :
    Reads (.delimited nested '"') cs (ps ++ [.fault .extraAfterQuote]) none
  | quotedFault {nested cs ps} (h : Reads (.pieces .atQuote) cs ps none) :
    Reads (.delimited nested '"') cs ps none
  | wordDelimited {nested c cs ps rest?} (hexpand : expanded? nested c cs = none)
    (hc : isDelimiter c = true) (h : Reads (.delimited nested c) cs ps rest?) :
    Reads (.word nested c) cs (.mk false ps) rest?
  | wordFault {nested c cs p} (hexpand : expanded? nested c cs = none)
    (hc : isDelimiter c = false) (h : Reads (.piece (.atWordEnd nested) c) cs p none) :
    Reads (.word nested c) cs (.mk false [p]) none
  | wordBare {nested c cs p rest ps rest?} (hexpand : expanded? nested c cs = none)
    (hc : isDelimiter c = false) (h : Reads (.piece (.atWordEnd nested) c) cs p (some rest))
    (hps : Reads (.pieces (.atWordEnd nested)) rest ps rest?) :
    Reads (.word nested c) cs (.mk false (p :: ps)) rest?
  | expandedDelimited {nested c cs d ds ps rest?}
    (hexpand : expanded? nested c cs = some (d :: ds)) (hd : isDelimiter d = true)
    (h : Reads (.delimited nested d) ds ps rest?) : Reads (.word nested c) cs (.mk true ps) rest?
  | expandedBare {nested c cs d ds ps rest?}
    (hexpand : expanded? nested c cs = some (d :: ds)) (hd : isDelimiter d = false)
    (h : Reads (.pieces (.atWordEnd nested)) (d :: ds) ps rest?) :
    Reads (.word nested c) cs (.mk true ps) rest?
  | wordsEnd {nested cs} (h : skipBlanks cs = []) : Reads (.words nested) cs [] (some [])
  | wordsLineEnd {nested cs c tail} (h : skipBlanks cs = c :: tail) (hc : c = '\n' ∨ c = ';') :
    Reads (.words nested) cs [] (some tail)
  | wordsBracket {cs tail} (h : skipBlanks cs = ']' :: tail) :
    Reads (.words true) cs [] (some (']' :: tail))
  | wordsCommand {nested cs c tail ws rest?} (h : skipBlanks cs = c :: tail)
    (hc : ¬(c = '\n' ∨ c = ';')) (hc' : ¬(nested = true ∧ c = ']'))
    (hws : Reads (.command nested c) tail ws rest?) : Reads (.words nested) cs ws rest?
  | commandFault {nested c cs w} (h : Reads (.word nested c) cs w none) :
    Reads (.command nested c) cs [w] none
  | commandWords {nested c cs w rest ws rest?} (h : Reads (.word nested c) cs w (some rest))
    (hws : Reads (.words nested) rest ws rest?) : Reads (.command nested c) cs (w :: ws) rest?
  | commandsEnd {cs} (h : skipSeparators cs = []) : Reads (.commands false) cs [] (some [])
  | commandsUnclosed {cs} (h : skipSeparators cs = []) :
    Reads (.commands true) cs [.fault .missingBracket] none
  | commandsBracket {cs tail} (h : skipSeparators cs = ']' :: tail) :
    Reads (.commands true) cs [] (some tail)
  | commandsComment {nested cs tail script rest?} (h : skipSeparators cs = '#' :: tail)
    (hscript : Reads (.commands nested) (skipComment tail) script rest?) :
    Reads (.commands nested) cs script rest?
  | commandsFault {nested cs c tail ws} (h : skipSeparators cs = c :: tail)
    (hc : ¬(nested = true ∧ c = ']')) (hc' : c ≠ '#')
    (hws : Reads (.command nested c) tail ws none) : Reads (.commands nested) cs [.words ws] none
  | commandsCons {nested cs c tail ws rest script rest?} (h : skipSeparators cs = c :: tail)
    (hc : ¬(nested = true ∧ c = ']')) (hc' : c ≠ '#')
    (hws : Reads (.command nested c) tail ws (some rest))
    (hscript : Reads (.commands nested) rest script rest?) :
    Reads (.commands nested) cs (.words ws :: script) rest?

/-! ## The readers follow the rules -/

theorem reads_readBraced (nested : Bool) (cs : List Char) :
    Reads (.delimited nested '{') cs (readBraced nested cs).1 (readBraced nested cs).2.text? := by
  unfold readBraced
  split
  · next h => exact .bracedUnclosed (braced?_eq cs ▸ h)
  · next inner rest h =>
    rw [braced?_eq] at h
    split
    · next hfollow => exact .braced h hfollow
    · next hfollow => exact .bracedExtra h (by simpa using hfollow)

theorem reads_closeQuoted {nested : Bool} {cs : List Char} {r : List Piece × Rest cs.length}
    (h : Reads (.pieces .atQuote) cs r.1 r.2.text?) :
    Reads (.delimited nested '"') cs (closeQuoted nested r).1
      (closeQuoted nested r).2.text? := by
  rcases r with ⟨ps, _ | rest⟩
  · exact .quotedFault h
  · rw [closeQuoted]
    split
    · next hfollow => exact .quoted h hfollow
    · next hfollow => exact .quotedExtra h (by simpa using hfollow)

theorem reads_readBracedName (cs : List Char) :
    Reads .reference ('{' :: cs) (readBracedName cs).1 (readBracedName cs).2.text? := by
  unfold readBracedName
  split
  · next h => exact .referenceUnclosed h
  · next h => exact .referenceBraced h

theorem expanded?_ne_nil (nested : Bool) (c : Char) (cs : List Char) :
    expanded? nested c cs ≠ some [] := by
  unfold expanded?
  split
  · split <;> simp
  · simp

mutual

theorem reads_readPieces (stop : Stop) (cs : List Char) :
    Reads (.pieces stop) cs (readPieces stop cs).1 (readPieces stop cs).2.text? := by
  cases cs with
  | nil =>
    rw [readPieces]
    cases hf : stop.fault? with
    | none => exact .piecesEnd hf
    | some f => exact .piecesCut hf
  | cons c cs =>
    rw [readPieces]
    by_cases hstop : stop.stopsAt c cs = true
    · rw [if_pos hstop]
      exact .piecesStop hstop
    · rw [if_neg hstop]
      have hpiece := reads_readPiece stop c cs
      have hstop' : stop.stopsAt c cs = false := by simpa using hstop
      rcases hr : readPiece stop c cs with ⟨p, _ | rest⟩
      · rw [hr] at hpiece
        exact .piecesFault hstop' hpiece
      · rw [hr] at hpiece
        simpa using Reads.piecesCons hstop' hpiece (reads_readPieces stop rest.1)
termination_by 5 * cs.length + 1
decreasing_by
  · simp only [List.length_cons]
    omega
  · have := rest.2
    simp only [List.length_cons]
    omega

theorem reads_readPiece (stop : Stop) (c : Char) (cs : List Char) :
    Reads (.piece stop c) cs (readPiece stop c cs).1 (readPiece stop c cs).2.text? := by
  rw [readPiece]
  by_cases hdollar : c = '$'
  · subst hdollar
    rw [if_pos rfl]
    exact .pieceReference (reads_readReference cs)
  by_cases hopen : c = '['
  · subst hopen
    rw [if_neg hdollar, if_pos rfl]
    exact .pieceCommand (reads_readCommands true cs)
  rw [if_neg hdollar, if_neg hopen]
  by_cases hb : c = '\\'
  · subst hb
    rw [if_pos rfl]
    exact .pieceEscape
  · rw [if_neg hb]
    exact .pieceLiteral hdollar hopen hb
termination_by 5 * cs.length + 3
decreasing_by
  · omega
  · omega

theorem reads_readReference (cs : List Char) :
    Reads .reference cs (readReference cs).1 (readReference cs).2.text? := by
  unfold readReference
  split
  · next ds => simpa using reads_readBracedName ds
  · next hbrace =>
    by_cases hname : (splitName cs).1.isEmpty = true
    · rw [if_pos hname]
      exact .referenceDollar hbrace (by simpa using hname)
    · rw [if_neg hname]
      have hname' : (splitName cs).1 ≠ [] := by simpa using hname
      split
      · next ds hindex =>
        have hlt : ds.length < cs.length := by
          have := splitName_snd_length_le cs
          rw [hindex, List.length_cons] at this
          omega
        simpa using Reads.referenceElement hname' hindex (reads_readPieces .atParen ds)
      · next hindex => exact .referenceVariable hname' hindex
termination_by 5 * cs.length + 2
decreasing_by omega

theorem reads_readWord (nested : Bool) (c : Char) (cs : List Char) :
    Reads (.word nested c) cs (readWord nested c cs).1 (readWord nested c cs).2.text? := by
  unfold readWord
  split
  · next h => exact absurd h (expanded?_ne_nil nested c cs)
  · next d ds h =>
    have hlt := expanded?_length_lt h
    by_cases hbrace : d = '{'
    · subst hbrace
      rw [if_pos rfl]
      simpa using Reads.expandedDelimited h rfl (reads_readBraced nested ds)
    by_cases hquote : d = '"'
    · subst hquote
      rw [if_neg hbrace, if_pos rfl]
      simpa using Reads.expandedDelimited h rfl (reads_closeQuoted (reads_readPieces .atQuote ds))
    · rw [if_neg hbrace, if_neg hquote]
      simpa using Reads.expandedBare h (by simp [isDelimiter, hbrace, hquote])
        (reads_readPieces (.atWordEnd nested) (d :: ds))
  · next h =>
    by_cases hbrace : c = '{'
    · subst hbrace
      rw [if_pos rfl]
      exact .wordDelimited h rfl (reads_readBraced nested cs)
    by_cases hquote : c = '"'
    · subst hquote
      rw [if_neg hbrace, if_pos rfl]
      exact .wordDelimited h rfl (reads_closeQuoted (reads_readPieces .atQuote cs))
    · rw [if_neg hbrace, if_neg hquote]
      have hc : isDelimiter c = false := by simp [isDelimiter, hbrace, hquote]
      have hpiece := reads_readPiece (.atWordEnd nested) c cs
      rcases hr : readPiece (.atWordEnd nested) c cs with ⟨p, _ | rest⟩
      · rw [hr] at hpiece
        exact .wordFault h hc hpiece
      · rw [hr] at hpiece
        simpa using Reads.wordBare h hc hpiece (reads_readPieces (.atWordEnd nested) rest.1)
termination_by 5 * cs.length + 4
decreasing_by
  · simp only [List.length_cons] at hlt
    omega
  · omega
  · omega
  · omega
  · have := rest.2
    omega

theorem reads_readWords (nested : Bool) (cs : List Char) :
    Reads (.words nested) cs (readWords nested cs).1 (readWords nested cs).2.text? := by
  rw [readWords]
  split
  · next h => exact .wordsEnd h
  · next c tail h =>
    have hlt : tail.length < cs.length := by
      have := skipBlanks_length_le cs
      rw [h, List.length_cons] at this
      omega
    by_cases hc : c = '\n' ∨ c = ';'
    · rw [if_pos hc]
      exact .wordsLineEnd h hc
    by_cases hc' : nested = true ∧ c = ']'
    · obtain ⟨rfl, rfl⟩ := hc'
      rw [if_neg hc, if_pos ⟨rfl, rfl⟩]
      exact .wordsBracket h
    · rw [if_neg hc, if_neg hc']
      have hword := reads_readWord nested c tail
      rcases hr : readWord nested c tail with ⟨w, _ | rest⟩
      · rw [hr] at hword
        exact .wordsCommand h hc hc' (.commandFault hword)
      · rw [hr] at hword
        have hwords := reads_readWords nested rest.1
        simpa using Reads.wordsCommand h hc hc' (.commandWords hword hwords)
termination_by 5 * cs.length + 2
decreasing_by
  · omega
  · have := rest.2
    omega

theorem reads_readCommand (nested : Bool) (c : Char) (cs : List Char) :
    Reads (.command nested c) cs (readCommand nested c cs).1
      (readCommand nested c cs).2.text? := by
  rw [readCommand]
  have hword := reads_readWord nested c cs
  rcases hr : readWord nested c cs with ⟨w, _ | rest⟩
  · rw [hr] at hword
    exact .commandFault hword
  · rw [hr] at hword
    simpa using Reads.commandWords hword (reads_readWords nested rest.1)
termination_by 5 * cs.length + 5
decreasing_by
  · omega
  · have := rest.2
    omega

theorem reads_readCommands (nested : Bool) (cs : List Char) :
    Reads (.commands nested) cs (readCommands nested cs).1 (readCommands nested cs).2.text? := by
  rw [readCommands]
  split
  · next h =>
    cases nested with
    | false => exact .commandsEnd h
    | true => exact .commandsUnclosed h
  · next c tail h =>
    have hlt : tail.length < cs.length := by
      have := skipSeparators_length_le cs
      rw [h, List.length_cons] at this
      omega
    by_cases hc : nested = true ∧ c = ']'
    · obtain ⟨rfl, rfl⟩ := hc
      rw [if_pos ⟨rfl, rfl⟩]
      exact .commandsBracket h
    rw [if_neg hc]
    by_cases hhash : c = '#'
    · subst hhash
      rw [if_pos rfl]
      have hle := skipComment_length_le tail
      simpa using Reads.commandsComment h (reads_readCommands nested (skipComment tail))
    · rw [if_neg hhash]
      have hcommand := reads_readCommand nested c tail
      rcases hr : readCommand nested c tail with ⟨ws, _ | rest⟩
      · rw [hr] at hcommand
        exact .commandsFault h hc hhash hcommand
      · rw [hr] at hcommand
        simpa using Reads.commandsCons h hc hhash hcommand (reads_readCommands nested rest.1)
termination_by 5 * cs.length + 2
decreasing_by
  · omega
  · omega
  · have := rest.2
    omega

end

def Part.read? : (part : Part) → List Char → Option (part.Tree × List Char)
  | .pieces stop, cs => finished? (readPieces stop cs)
  | .piece stop c, cs => finished? (readPiece stop c cs)
  | .reference, cs => finished? (readReference cs)
  | .delimited nested c, cs => wordPieces? nested c cs none
  | .word nested c, cs => finished? (readWord nested c cs)
  | .words nested, cs => finished? (readWords nested cs)
  | .command nested c, cs => finished? (readCommand nested c cs)
  | .commands nested, cs => finished? (readCommands nested cs)

theorem wordPieces?_of_isDelimiter {c : Char} (h : isDelimiter c = true) (nested : Bool)
    (cs : List Char) (bare bare' : Option (List Piece × List Char)) :
    wordPieces? nested c cs bare = wordPieces? nested c cs bare' := by
  simp only [isDelimiter, Bool.or_eq_true, beq_iff_eq] at h
  rcases h with rfl | rfl <;> rfl

theorem wordPieces?_of_bare {c : Char} (h : isDelimiter c = false) (nested : Bool)
    (cs : List Char) (bare : Option (List Piece × List Char)) :
    wordPieces? nested c cs bare = bare := by
  simp only [isDelimiter, Bool.or_eq_false_iff, beq_eq_false_iff_ne] at h
  rw [wordPieces?, if_neg h.1, if_neg h.2]

/-- What the rules derive with a text behind it is what the reader takes. -/
theorem Reads.read? {part : Part} {cs : List Char} {tree : part.Tree} {rest? : Option (List Char)}
    (h : Reads part cs tree rest?) :
    ∀ rest, rest? = some rest → part.read? cs = some (tree, rest) := by
  induction h with
  | piecesEnd h =>
    rintro _ ⟨⟩
    exact (finished?_readPieces_nil _).trans (if_pos h)
  | piecesStop h =>
    rintro _ ⟨⟩
    exact finished?_readPieces_stop h
  | piecesCons h _ _ ihp ihps =>
    intro rest hrest
    refine (finished?_readPieces_cons h).trans ?_
    rw [show finished? _ = _ from ihp _ rfl, Option.bind_some,
      show finished? _ = _ from ihps rest hrest]
    rfl
  | pieceReference _ ih =>
    intro rest hrest
    exact (finished?_readPiece_reference _ _).trans (ih rest hrest)
  | pieceCommand _ ih =>
    intro rest hrest
    refine (finished?_readPiece_command _ _).trans ?_
    rw [show finished? _ = _ from ih rest hrest]
    rfl
  | pieceEscape =>
    rintro _ ⟨⟩
    exact finished?_readPiece_escape _ _
  | pieceLiteral hdollar hopen hb =>
    rintro _ ⟨⟩
    exact finished?_readPiece_literal _ hdollar hopen hb _
  | referenceBraced h =>
    rintro _ ⟨⟩
    exact finished?_readReference_braced h
  | referenceDollar hbrace hname =>
    rintro _ ⟨⟩
    exact finished?_readReference_dollar hbrace hname
  | referenceElement hname hindex _ ih =>
    intro rest hrest
    obtain ⟨ds, hds, rfl⟩ := Option.map_eq_some_iff.mp hrest
    refine (finished?_readReference_element hname hindex).trans ?_
    rw [show finished? _ = _ from ih ds hds]
    rfl
  | referenceVariable hname hindex =>
    rintro _ ⟨⟩
    exact finished?_readReference_variable hname hindex
  | braced h hfollow =>
    rintro _ ⟨⟩
    refine (finished?_readBraced _ _).trans ?_
    rw [h, Option.bind_some, if_pos hfollow]
  | quoted _ hfollow ih =>
    rintro _ ⟨⟩
    refine (finished?_closeQuoted _ _).trans ?_
    rw [show finished? _ = _ from ih _ rfl, Option.bind_some, if_pos hfollow]
  | wordDelimited hexpand hc _ ih =>
    intro rest hrest
    refine (finished?_readWord_plain hexpand).trans ?_
    rw [wordPieces?_of_isDelimiter hc, show wordPieces? _ _ _ none = _ from ih rest hrest]
    rfl
  | wordBare hexpand hc _ _ ih ihps =>
    intro rest hrest
    refine (finished?_readWord_plain hexpand).trans ?_
    rw [wordPieces?_of_bare hc, barePieces?, show finished? _ = _ from ih _ rfl,
      Option.bind_some, show finished? _ = _ from ihps rest hrest]
    rfl
  | expandedDelimited hexpand hd _ ih =>
    intro rest hrest
    refine (finished?_readWord_expanded hexpand).trans ?_
    rw [wordPieces?_of_isDelimiter hd, show wordPieces? _ _ _ none = _ from ih rest hrest]
    rfl
  | expandedBare hexpand hd _ ih =>
    intro rest hrest
    refine (finished?_readWord_expanded hexpand).trans ?_
    rw [wordPieces?_of_bare hd, show finished? _ = _ from ih rest hrest]
    rfl
  | wordsEnd h =>
    rintro _ ⟨⟩
    exact finished?_readWords_nil h
  | wordsLineEnd h hc =>
    rintro _ ⟨⟩
    exact finished?_readWords_lineEnd h hc
  | wordsBracket h =>
    rintro _ ⟨⟩
    exact finished?_readWords_bracket h ⟨rfl, rfl⟩
  | wordsCommand h hc hc' _ ih =>
    intro rest hrest
    exact (finished?_readWords_word h hc hc').trans (ih rest hrest)
  | commandWords _ _ ih ihws =>
    intro rest hrest
    refine (finished?_readCommand _ _ _).trans ?_
    rw [show finished? _ = _ from ih _ rfl, Option.bind_some,
      show finished? _ = _ from ihws rest hrest]
    rfl
  | commandsEnd h =>
    rintro _ ⟨⟩
    exact finished?_readCommands_nil h
  | commandsBracket h =>
    rintro _ ⟨⟩
    exact finished?_readCommands_bracket h ⟨rfl, rfl⟩
  | commandsComment h _ ih =>
    intro rest hrest
    exact (finished?_readCommands_comment h rfl).trans (ih rest hrest)
  | commandsCons h hc hc' _ _ ih ihscript =>
    intro rest hrest
    refine (finished?_readCommands_command h hc hc').trans ?_
    rw [show finished? _ = _ from ih _ rfl, Option.bind_some,
      show finished? _ = _ from ihscript rest hrest]
    rfl
  | _ => rintro _ ⟨⟩

/-! ## What follows is an end of the text -/

theorem skipBlanks_suffix (cs : List Char) : skipBlanks cs <:+ cs := by
  fun_induction skipBlanks cs with
  | case1 => exact List.suffix_rfl
  | case2 c cs _ ih => exact ih.trans (List.suffix_cons c cs)
  | case3 ds _ ih => exact ih.trans ((List.suffix_cons _ ds).trans (List.suffix_cons _ _))
  | case4 => exact List.suffix_rfl
  | case5 => exact List.suffix_rfl

theorem skipSeparators_suffix (cs : List Char) : skipSeparators cs <:+ cs := by
  fun_induction skipSeparators cs with
  | case1 => exact List.suffix_rfl
  | case2 c cs _ ih => exact ih.trans (List.suffix_cons c cs)
  | case3 ds _ ih => exact ih.trans ((List.suffix_cons _ ds).trans (List.suffix_cons _ _))
  | case4 => exact List.suffix_rfl
  | case5 => exact List.suffix_rfl

theorem skipComment_suffix (cs : List Char) : skipComment cs <:+ cs := by
  fun_induction skipComment cs with
  | case1 => exact List.suffix_rfl
  | case2 => exact List.nil_suffix
  | case3 d ds ih => exact ih.trans ((List.suffix_cons d ds).trans (List.suffix_cons _ _))
  | case4 cs => exact List.suffix_cons _ cs
  | case5 c cs _ _ ih => exact ih.trans (List.suffix_cons c cs)

theorem takeDigits_suffix (radix limit : Nat) (cs : List Char) :
    (Escape.takeDigits radix limit cs).2 <:+ cs :=
  ⟨_, Escape.takeDigits_append radix limit cs⟩

theorem readHex_suffix (letter : Char) (limit : Nat) (cs : List Char) :
    (Escape.readHex letter limit cs).2 <:+ cs := by
  unfold Escape.readHex
  split
  · exact List.suffix_rfl
  · next h => simpa [h] using takeDigits_suffix 16 limit cs

theorem escape_read_suffix (cs : List Char) : (Escape.read cs).2 <:+ cs := by
  cases cs with
  | nil => exact List.suffix_rfl
  | cons c cs =>
    suffices h : (Escape.read (c :: cs)).2 <:+ cs from h.trans (List.suffix_cons c cs)
    simp only [Escape.read]
    split
    · exact List.suffix_rfl
    · split
      · exact List.dropWhile_suffix _
      · split
        · exact readHex_suffix c _ cs
        · split
          · exact takeDigits_suffix 8 2 cs
          · exact List.suffix_rfl

theorem expanded?_suffix {nested : Bool} {c : Char} {cs rest : List Char}
    (h : expanded? nested c cs = some rest) : rest <:+ cs := by
  unfold expanded? at h
  split at h
  · split at h
    · cases h
    · cases h
      exact ⟨['*', '}'], rfl⟩
  · cases h

theorem Reads.suffix {part : Part} {cs : List Char} {tree : part.Tree}
    {rest? : Option (List Char)} (h : Reads part cs tree rest?) :
    ∀ rest ∈ rest?, rest <:+ cs := by
  induction h with
  | piecesEnd => simp
  | piecesStop => simp
  | piecesCons _ _ _ ihp ihps =>
    exact fun rest hrest => ((ihps rest hrest).trans (ihp _ rfl)).trans (List.suffix_cons _ _)
  | pieceReference _ ih => exact ih
  | pieceCommand _ ih => exact ih
  | pieceEscape => simpa using escape_read_suffix _
  | pieceLiteral => simpa using List.dropWhile_suffix _
  | @referenceBraced cs c rest h =>
    have hrest : rest <:+ cs := (List.suffix_cons c rest).trans (h ▸ List.dropWhile_suffix _)
    simpa using hrest.trans (List.suffix_cons _ cs)
  | referenceDollar => simp
  | @referenceElement cs ds _ _ _ hindex _ ih =>
    intro rest hrest
    obtain ⟨ds', hds', rfl⟩ := Option.map_eq_some_iff.mp hrest
    have hname : (splitName cs).2 <:+ cs := ⟨_, splitName_append cs⟩
    rw [hindex] at hname
    exact (List.tail_suffix ds').trans ((ih ds' hds').trans ((List.suffix_cons _ ds).trans hname))
  | referenceVariable => simpa using ⟨_, splitName_append _⟩
  | @braced _ cs inner rest h =>
    have hrest : rest <:+ cs := ⟨inner ++ ['}'], by simp [closeAt?_append h]⟩
    simpa using hrest
  | quoted _ _ ih => simpa using (List.tail_suffix _).trans (ih _ rfl)
  | wordDelimited _ _ _ ih => exact ih
  | wordBare _ _ _ _ ihp ihps => exact fun rest hrest => (ihps rest hrest).trans (ihp _ rfl)
  | expandedDelimited hexpand _ _ ih =>
    exact fun rest hrest => ((ih rest hrest).trans (List.suffix_cons _ _)).trans
      (expanded?_suffix hexpand)
  | expandedBare hexpand _ _ ih =>
    exact fun rest hrest => (ih rest hrest).trans (expanded?_suffix hexpand)
  | wordsEnd => simp
  | wordsLineEnd h => simpa using (List.suffix_cons _ _).trans (h ▸ skipBlanks_suffix _)
  | wordsBracket h => simpa using h ▸ skipBlanks_suffix _
  | wordsCommand h _ _ _ ih =>
    exact fun rest hrest => ((ih rest hrest).trans (List.suffix_cons _ _)).trans
      (h ▸ skipBlanks_suffix _)
  | commandWords _ _ ihw ihws => exact fun rest hrest => (ihws rest hrest).trans (ihw _ rfl)
  | commandsEnd => simp
  | commandsBracket h => simpa using (List.suffix_cons _ _).trans (h ▸ skipSeparators_suffix _)
  | commandsComment h _ ih =>
    exact fun rest hrest => ((ih rest hrest).trans (skipComment_suffix _)).trans
      ((List.suffix_cons _ _).trans (h ▸ skipSeparators_suffix _))
  | commandsCons h _ _ _ _ ihws ihscript =>
    exact fun rest hrest => ((ihscript rest hrest).trans (ihws _ rfl)).trans
      ((List.suffix_cons _ _).trans (h ▸ skipSeparators_suffix _))
  | _ => rintro _ ⟨⟩

end TclHost.Script
