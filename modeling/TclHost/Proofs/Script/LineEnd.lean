import TclHost.Proofs.Script.Grammar
/-! # Reading in front of a line end

What is read of a text is read of it in front of a line end too, whatever stands behind that,
unless the text ends in a backslash.  So a script that is read to its end is what is read first of
any text that goes on with a line end, and the rest of that text is read from there.
-/
namespace TclHost.Script

open Text

/-- A text whose last character does not take a line end along. -/
def NoFinalBackslash (cs : List Char) : Prop :=
  cs.getLast? ≠ some '\\'

namespace NoFinalBackslash
variable {c : Char} {cs rest : List Char}

theorem suffix (h : NoFinalBackslash cs) (hrest : rest <:+ cs) : NoFinalBackslash rest := by
  obtain ⟨front, rfl⟩ := hrest
  intro hlast
  exact h (by simp [hlast])

theorem tail (h : NoFinalBackslash (c :: cs)) : NoFinalBackslash cs :=
  h.suffix (List.suffix_cons c cs)

theorem cons (h : NoFinalBackslash cs) (hc : c ≠ '\\') : NoFinalBackslash (c :: cs) := by
  intro hlast
  cases hcs : cs.getLast? with
  | none => simp [List.getLast?_cons, hcs, hc] at hlast
  | some d => exact h (by simpa [List.getLast?_cons, hcs] using hlast)

end NoFinalBackslash

/-! ## What characters mean in front of a line end -/

section
variable (more : List Char)

/-- A run of characters that leaves something is the same in a longer text. -/
theorem span_append_of_ne_nil {p : Char → Bool} {cs : List Char} (h : cs.dropWhile p ≠ []) :
    (cs ++ more).takeWhile p = cs.takeWhile p ∧
      (cs ++ more).dropWhile p = cs.dropWhile p ++ more := by
  induction cs with
  | nil => exact absurd rfl h
  | cons c cs ih =>
    by_cases hc : p c
    · rw [List.dropWhile_cons_of_pos hc] at h
      simp [hc, ih h]
    · simp [hc]

theorem skipBlanks_line {cs rest : List Char} (hskip : skipBlanks cs = rest)
    (h : NoFinalBackslash cs) : skipBlanks (cs ++ '\n' :: more) = rest ++ '\n' :: more :=
  hskip ▸ skipBlanks_append_cons (by decide) (by decide) (fun _ => h) more

theorem skipSeparators_line_nil : skipSeparators ('\n' :: more) = skipSeparators more := by
  rw [skipSeparators.eq_def]
  simp [isWordEnd]

/-- A line end separates commands, as do the separators in front of it. -/
theorem skipSeparators_line_of_nil {cs : List Char} (hskip : skipSeparators cs = [])
    (h : NoFinalBackslash cs) : skipSeparators (cs ++ '\n' :: more) = skipSeparators more := by
  fun_induction skipSeparators cs with
  | case1 => exact skipSeparators_line_nil more
  | case2 c cs hc ih =>
    rw [List.cons_append, skipSeparators.eq_def]
    simp only [hc, if_true]
    exact ih hskip h.tail
  | case3 ds _ ih =>
    rw [List.cons_append, List.cons_append, skipSeparators.eq_def]
    exact ih hskip h.tail.tail
  | case4 => cases hskip
  | case5 => cases hskip

theorem skipSeparators_line_of_cons {c : Char} {cs tail : List Char}
    (hskip : skipSeparators cs = c :: tail) (h : NoFinalBackslash cs) :
    skipSeparators (cs ++ '\n' :: more) = c :: (tail ++ '\n' :: more) := by
  fun_induction skipSeparators cs with
  | case1 => cases hskip
  | case2 c cs hc ih =>
    rw [List.cons_append, skipSeparators.eq_def]
    simp only [hc, if_true]
    exact ih hskip h.tail
  | case3 ds _ ih =>
    rw [List.cons_append, List.cons_append, skipSeparators.eq_def]
    exact ih hskip h.tail.tail
  | case4 cs =>
    have hjoin : ∀ ds, cs ≠ '\n' :: ds := by assumption
    cases hskip
    rw [List.cons_append, skipSeparators.eq_def]
    cases tail with
    | nil => exact absurd rfl h
    | cons d tail =>
      have hd : d ≠ '\n' := fun hd => hjoin tail (hd ▸ rfl)
      simp [hd, isWordEnd]
  | case5 c cs hc hb =>
    cases hskip
    rw [List.cons_append, skipSeparators.eq_def]
    simp [hc, hb]

theorem skipComment_line {cs : List Char} (h : NoFinalBackslash cs) :
    skipComment (cs ++ '\n' :: more) = skipComment cs ++ '\n' :: more ∨
      skipComment cs = [] ∧ skipComment (cs ++ '\n' :: more) = more := by
  fun_induction skipComment cs with
  | case1 =>
    right
    rw [List.nil_append, skipComment.eq_def]
    exact ⟨rfl, rfl⟩
  | case2 => exact absurd rfl h
  | case3 d ds ih =>
    rw [List.cons_append, List.cons_append, skipComment.eq_def]
    exact ih h.tail.tail
  | case4 cs _ =>
    left
    rw [List.cons_append, skipComment.eq_def]
    rfl
  | case5 c cs hb hn ih =>
    rw [List.cons_append, skipComment.eq_def]
    simpa only [hb, hn, if_false] using ih h.tail

theorem stopsAt_line (stop : Stop) {c : Char} {cs : List Char} (h : NoFinalBackslash (c :: cs)) :
    stop.stopsAt c (cs ++ '\n' :: more) = stop.stopsAt c cs := by
  cases cs with
  | nil =>
    have hc : c ≠ '\\' := fun hc => h (hc ▸ rfl)
    cases stop <;> simp [Stop.stopsAt, hc]
  | cons d cs => rfl

theorem mayFollow_line {nested : Bool} {rest : List Char} (h : mayFollow nested rest = true) :
    mayFollow nested (rest ++ '\n' :: more) = true := by
  cases rest with
  | nil => rfl
  | cons c rest => exact h

theorem expanded?_line (nested : Bool) (c : Char) (cs : List Char) :
    expanded? nested c (cs ++ '\n' :: more) =
      (expanded? nested c cs).map (· ++ '\n' :: more) := by
  unfold expanded?
  split
  · next d ds heq =>
    match cs, heq with
    | [], heq => exact absurd (List.cons.inj heq).1 (by decide)
    | [_], heq => exact absurd (List.cons.inj (List.cons.inj heq).2).1 (by decide)
    | [_, _], heq =>
      cases heq
      rfl
    | _ :: _ :: _ :: cs, heq =>
      cases heq
      by_cases hd : isWordEnd nested d <;> simp [hd]
  · next hother =>
    split
    · next d ds => exact absurd rfl (hother d (ds ++ '\n' :: more) rfl)
    · rfl

end

/-! ## The parts of a script -/

def Part.text : Part → List Char → List Char
  | .piece _ c, cs | .delimited _ c, cs | .word _ c, cs | .command _ c, cs => c :: cs
  | _, cs => cs

/-- What is read of a part in front of a line end: the same, with the line end and what follows it
behind the rest.  A run of pieces must not end with the text only, a piece must not go on over the
line end, and the words of a command may take the line end along.  A whole script goes on with what
is read of the following text. -/
def Part.Resumes (more : List Char) : (part : Part) → List Char → part.Tree → List Char → Prop
  | .pieces stop, cs, ps, rest =>
    stop ≠ .atEnd → Reads (.pieces stop) (cs ++ '\n' :: more) ps (some (rest ++ '\n' :: more))
  | .piece stop c, cs, p, rest => (rest = [] → stop.closes '\n' = true) →
    Reads (.piece stop c) (cs ++ '\n' :: more) p (some (rest ++ '\n' :: more))
  | .words nested, cs, ws, rest =>
    ∃ rest', Reads (.words nested) (cs ++ '\n' :: more) ws (some rest')
      ∧ skipSeparators rest' = skipSeparators (rest ++ '\n' :: more)
  | .command nested c, cs, ws, rest =>
    ∃ rest', Reads (.command nested c) (cs ++ '\n' :: more) ws (some rest')
      ∧ skipSeparators rest' = skipSeparators (rest ++ '\n' :: more)
  | .commands false, cs, script, _ =>
    (readCommands false (cs ++ '\n' :: more)).1 = script ++ (readCommands false more).1
  | part, cs, tree, rest => Reads part (cs ++ '\n' :: more) tree (some (rest ++ '\n' :: more))

/-- A run of pieces with a character of its own at the end leaves that character. -/
theorem Reads.fault?_eq_none {part : Part} {cs : List Char} {tree : part.Tree}
    {rest? : Option (List Char)} (h : Reads part cs tree rest?) :
    ∀ stop, part = .pieces stop → rest? = some [] → stop.fault? = none := by
  induction h with
  | piecesEnd h =>
    rintro stop ⟨⟩ -
    exact h
  | piecesCons _ _ _ _ ih =>
    rintro stop ⟨⟩ hrest
    exact ih _ rfl hrest
  | _ => rintro _ ⟨⟩ <;> rintro ⟨⟩

theorem Reads.closes_lineEnd {stop : Stop} {cs rest : List Char} {ps : List Piece}
    (h : Reads (.pieces stop) rest ps (some cs)) (hstop : stop ≠ .atEnd) (hrest : rest = []) :
    stop.closes '\n' = true := by
  subst hrest
  cases h with
  | piecesEnd hfault => cases stop <;> simp_all [Stop.fault?, Stop.closes, isWordEnd]

theorem readCommands_congr {cs cs' : List Char} (h : skipSeparators cs = skipSeparators cs') :
    (readCommands false cs).1 = (readCommands false cs').1 := by
  cases hcs : skipSeparators cs with
  | nil => rw [readCommands_of_nil hcs, readCommands_of_nil (h ▸ hcs)]
  | cons c tail =>
    have hcs' : skipSeparators cs' = c :: tail := h ▸ hcs
    by_cases hhash : c = '#'
    · subst hhash
      rw [readCommands_of_comment hcs, readCommands_of_comment hcs']
    · rcases hr : readCommand false c tail with ⟨ws, _ | rest⟩
      · rw [readCommands_of_fault hcs hhash hr, readCommands_of_fault hcs' hhash hr]
      · rw [readCommands_of_command hcs hhash hr, readCommands_of_command hcs' hhash hr]

theorem Reads.commands_congr {nested : Bool} {cs cs' : List Char} {script : Script}
    {rest? : Option (List Char)} (h : Reads (.commands nested) cs script rest?)
    (hcs : skipSeparators cs = skipSeparators cs') :
    Reads (.commands nested) cs' script rest? := by
  cases h with
  | commandsEnd h => exact .commandsEnd (hcs ▸ h)
  | commandsUnclosed h => exact .commandsUnclosed (hcs ▸ h)
  | commandsBracket h => exact .commandsBracket (hcs ▸ h)
  | commandsComment h hscript => exact .commandsComment (hcs ▸ h) hscript
  | commandsFault h hc hc' hws => exact .commandsFault (hcs ▸ h) hc hc' hws
  | commandsCons h hc hc' hws hscript => exact .commandsCons (hcs ▸ h) hc hc' hws hscript

/-- Where there is no text, a script that is read through is empty and not between brackets. -/
theorem Reads.commands_nil {nested : Bool} {script : Script} {rest : List Char}
    (h : Reads (.commands nested) [] script (some rest)) : nested = false ∧ script = [] := by
  cases h with
  | commandsEnd => exact ⟨rfl, rfl⟩
  | commandsBracket hskip => cases hskip
  | commandsComment hskip => cases hskip
  | commandsCons hskip => cases hskip

theorem readCommands_of_reads {cs tail rest : List Char} {c : Char} {ws : List Word}
    (h : skipSeparators cs = c :: tail) (hc : c ≠ '#')
    (hws : Reads (.command false c) tail ws (some rest)) :
    (readCommands false cs).1 = .words ws :: (readCommands false rest).1 := by
  obtain ⟨hws', hrest⟩ := finished?_eq_some_iff.mp (hws.read? rest rfl)
  obtain ⟨hle, hrest'⟩ := Rest.text?_eq_some_iff.mp hrest
  exact readCommands_of_command h hc (Prod.ext hws' hrest')

/-! ### Rules in front of a line end -/

section
variable (more : List Char)

theorem Reads.pieceEscape_line {stop : Stop} {cs : List Char} (h : NoFinalBackslash ('\\' :: cs)) :
    Reads (.piece stop '\\') (cs ++ '\n' :: more) (.literal [(Escape.read cs).1])
      (some ((Escape.read cs).2 ++ '\n' :: more)) := by
  cases cs with
  | nil => exact absurd rfl h
  | cons c cs =>
    have hread := Escape.read_append_cons (z := '\n') (by decide) (by decide) c cs more
    have hreads := @Reads.pieceEscape stop (c :: cs ++ '\n' :: more)
    rw [List.cons_append, hread] at hreads
    exact hreads

theorem Reads.pieceLiteral_line {stop : Stop} {c : Char} {cs : List Char} (hdollar : c ≠ '$')
    (hopen : c ≠ '[') (hb : c ≠ '\\')
    (hclose : cs.dropWhile stop.isPlain = [] → stop.closes '\n' = true) :
    Reads (.piece stop c) (cs ++ '\n' :: more) (.literal (c :: cs.takeWhile stop.isPlain))
      (some (cs.dropWhile stop.isPlain ++ '\n' :: more)) := by
  have hspan : (cs ++ '\n' :: more).takeWhile stop.isPlain = cs.takeWhile stop.isPlain ∧
      (cs ++ '\n' :: more).dropWhile stop.isPlain =
        cs.dropWhile stop.isPlain ++ '\n' :: more := by
    by_cases hrest : cs.dropWhile stop.isPlain = []
    · have hplain : stop.isPlain '\n' = false := by simp [Stop.isPlain, hclose hrest]
      exact ⟨takeWhile_append_cons hplain cs more, dropWhile_append_cons hplain cs more⟩
    · exact span_append_of_ne_nil _ hrest
  have hreads := @Reads.pieceLiteral stop c (cs ++ '\n' :: more) hdollar hopen hb
  rw [hspan.1, hspan.2] at hreads
  exact hreads

theorem Reads.referenceBraced_line {c : Char} {cs rest : List Char}
    (h : cs.dropWhile (· != '}') = c :: rest) :
    Reads .reference ('{' :: cs ++ '\n' :: more)
      (.variable (String.ofList (cs.takeWhile (· != '}')))) (some (rest ++ '\n' :: more)) := by
  obtain ⟨htake, hdrop⟩ := span_append_of_ne_nil (p := (· != '}')) ('\n' :: more)
    (by rw [h]; exact List.cons_ne_nil _ _)
  rw [h] at hdrop
  have hreads := Reads.referenceBraced hdrop
  rw [htake] at hreads
  exact hreads

theorem splitName_line (cs : List Char) :
    splitName (cs ++ '\n' :: more) = ((splitName cs).1, (splitName cs).2 ++ '\n' :: more) :=
  splitName_append_cons (by decide) (by decide) cs more

/-- A text in front of a line end starts with a character other than that only as before. -/
theorem ne_cons_line {c : Char} {cs : List Char} (hc : c ≠ '\n') (h : ∀ ds, cs ≠ c :: ds)
    (ds : List Char) : cs ++ '\n' :: more ≠ c :: ds := by
  intro hds
  cases cs with
  | nil =>
    cases hds
    exact hc rfl
  | cons d cs =>
    cases hds
    exact h cs rfl

theorem Reads.referenceDollar_line {cs : List Char} (hbrace : ∀ ds, cs ≠ '{' :: ds)
    (hname : (splitName cs).1 = []) :
    Reads .reference (cs ++ '\n' :: more) (.literal ['$']) (some (cs ++ '\n' :: more)) :=
  .referenceDollar (ne_cons_line more (by decide) hbrace) (by rw [splitName_line, hname])

theorem Reads.referenceElement_line {cs ds ds' : List Char} {ps : List Piece}
    (hname : (splitName cs).1 ≠ []) (hindex : (splitName cs).2 = '(' :: ds)
    (h : Reads (.pieces .atParen) ds ps (some ds'))
    (hline : Reads (.pieces .atParen) (ds ++ '\n' :: more) ps (some (ds' ++ '\n' :: more))) :
    Reads .reference (cs ++ '\n' :: more) (.element (String.ofList (splitName cs).1) ps)
      (some (ds'.tail ++ '\n' :: more)) := by
  have hreads := @Reads.referenceElement (cs ++ '\n' :: more) _ _ _
    (by rwa [splitName_line]) (by rw [splitName_line, hindex]; rfl) hline
  rw [splitName_line] at hreads
  cases ds' with
  | nil => cases h.fault?_eq_none _ rfl rfl
  | cons d ds' => exact hreads

theorem Reads.referenceVariable_line {cs : List Char} (hname : (splitName cs).1 ≠ [])
    (hindex : ∀ ds, (splitName cs).2 ≠ '(' :: ds) :
    Reads .reference (cs ++ '\n' :: more) (.variable (String.ofList (splitName cs).1))
      (some ((splitName cs).2 ++ '\n' :: more)) := by
  have hreads := @Reads.referenceVariable (cs ++ '\n' :: more) (by rwa [splitName_line])
    (by rw [splitName_line]; exact ne_cons_line more (by decide) hindex)
  rw [splitName_line] at hreads
  exact hreads

end

/-- Every rule that leaves a text holds in front of a line end. -/
theorem Reads.resumes (more : List Char) {part : Part} {cs : List Char} {tree : part.Tree}
    {rest? : Option (List Char)} (h : Reads part cs tree rest?) :
    NoFinalBackslash (part.text cs) → ∀ rest, rest? = some rest →
      part.Resumes more cs tree rest := by
  induction h with
  | @piecesEnd stop h =>
    rintro - _ ⟨⟩ hstop
    refine .piecesStop ?_
    cases stop <;> simp_all [Stop.fault?, Stop.stopsAt, Stop.closes, isWordEnd]
  | piecesStop h =>
    rintro hlast _ ⟨⟩ -
    exact .piecesStop ((stopsAt_line more _ hlast).trans h)
  | piecesCons h hp hps ihp ihps =>
    rintro hlast rest rfl hstop
    have hrest := hlast.tail.suffix (hp.suffix _ rfl)
    exact .piecesCons ((stopsAt_line more _ hlast).trans h)
      (ihp hlast _ rfl (hps.closes_lineEnd hstop)) (ihps hrest _ rfl hstop)
  | pieceReference _ ih =>
    rintro hlast rest rfl -
    exact .pieceReference (ih hlast.tail rest rfl)
  | pieceCommand _ ih =>
    rintro hlast rest rfl -
    exact .pieceCommand (ih hlast.tail rest rfl)
  | pieceEscape =>
    rintro hlast _ ⟨⟩ -
    exact .pieceEscape_line more hlast
  | pieceLiteral hdollar hopen hb =>
    rintro - _ ⟨⟩ hclose
    exact .pieceLiteral_line more hdollar hopen hb hclose
  | referenceBraced h =>
    rintro - _ ⟨⟩
    exact .referenceBraced_line more h
  | referenceDollar hbrace hname =>
    rintro - _ ⟨⟩
    exact .referenceDollar_line more hbrace hname
  | @referenceElement cs ds ps rest? hname hindex h ih =>
    intro hlast rest hrest
    obtain ⟨ds', rfl, rfl⟩ := Option.map_eq_some_iff.mp hrest
    have hsuffix : (splitName cs).2 <:+ cs := ⟨_, splitName_append cs⟩
    rw [hindex] at hsuffix
    exact .referenceElement_line more hname hindex h
      (ih (hlast.suffix hsuffix).tail ds' rfl (by simp))
  | referenceVariable hname hindex =>
    rintro - _ ⟨⟩
    exact .referenceVariable_line more hname hindex
  | braced h hfollow =>
    rintro - _ ⟨⟩
    exact .braced (closeAt?_append_of_eq_some h _) (mayFollow_line more hfollow)
  | @quoted nested cs ps rest h hfollow ih =>
    rintro hlast _ ⟨⟩
    have hreads := ih hlast.tail rest rfl (by simp)
    cases rest with
    | nil => cases h.fault?_eq_none _ rfl rfl
    | cons d rest => exact .quoted hreads (mayFollow_line more hfollow)
  | wordDelimited hexpand hc _ ih =>
    rintro hlast rest rfl
    exact .wordDelimited (by rw [expanded?_line, hexpand]; rfl) hc (ih hlast rest rfl)
  | wordBare hexpand hc h _ ih ihps =>
    rintro hlast rest rfl
    have hrest := hlast.tail.suffix (h.suffix _ rfl)
    exact .wordBare (by rw [expanded?_line, hexpand]; rfl) hc (ih hlast _ rfl fun _ => rfl)
      (ihps hrest rest rfl (by simp))
  | expandedDelimited hexpand hd _ ih =>
    rintro hlast rest rfl
    have hds := hlast.tail.suffix (expanded?_suffix hexpand)
    exact .expandedDelimited (by rw [expanded?_line, hexpand]; rfl) hd (ih hds rest rfl)
  | expandedBare hexpand hd _ ih =>
    rintro hlast rest rfl
    have hds := hlast.tail.suffix (expanded?_suffix hexpand)
    exact .expandedBare (by rw [expanded?_line, hexpand]; rfl) hd (ih hds rest rfl (by simp))
  | wordsEnd h =>
    rintro hlast _ ⟨⟩
    exact ⟨more, .wordsLineEnd (skipBlanks_line more h hlast) (.inl rfl),
      (skipSeparators_line_nil more).symm⟩
  | wordsLineEnd h hc =>
    rintro hlast _ ⟨⟩
    exact ⟨_, .wordsLineEnd (skipBlanks_line more h hlast) hc, rfl⟩
  | wordsBracket h =>
    rintro hlast _ ⟨⟩
    exact ⟨_, .wordsBracket (skipBlanks_line more h hlast), rfl⟩
  | @wordsCommand nested cs c tail ws rest? h hc hc' _ ih =>
    rintro hlast rest rfl
    have hsuffix : c :: tail <:+ cs := h ▸ skipBlanks_suffix cs
    obtain ⟨rest', hreads, hrest'⟩ := ih (hlast.suffix hsuffix) rest rfl
    exact ⟨rest', .wordsCommand (skipBlanks_line more h hlast) hc hc' hreads, hrest'⟩
  | commandWords h _ ih ihws =>
    rintro hlast rest rfl
    obtain ⟨rest', hreads, hrest'⟩ := ihws (hlast.tail.suffix (h.suffix _ rfl)) rest rfl
    exact ⟨rest', .commandWords (ih hlast _ rfl) hreads, hrest'⟩
  | commandsEnd h =>
    rintro hlast _ ⟨⟩
    exact readCommands_congr (skipSeparators_line_of_nil more h hlast)
  | commandsBracket h =>
    rintro hlast _ ⟨⟩
    exact .commandsBracket (skipSeparators_line_of_cons more h hlast)
  | @commandsComment nested cs tail script rest? h hscript ih =>
    rintro hlast rest rfl
    have hskip := skipSeparators_line_of_cons more h hlast
    have htail := (hlast.suffix (h ▸ skipSeparators_suffix cs)).tail
    have hnext := ih (htail.suffix (skipComment_suffix tail)) rest rfl
    obtain hcomment | ⟨hnil, hcomment⟩ := skipComment_line more htail
    · cases nested with
      | false =>
        refine (readCommands_of_comment hskip).trans ?_
        rw [hcomment]
        exact hnext
      | true =>
        refine .commandsComment hskip ?_
        rw [hcomment]
        exact hnext
    · -- The comment was the last one, so that nothing but it was read.
      rw [hnil] at hscript
      obtain ⟨rfl, rfl⟩ := hscript.commands_nil
      refine (readCommands_of_comment hskip).trans ?_
      rw [hcomment]
      rfl
  | @commandsCons nested cs c tail ws rest script rest? h hc hc' hws hscript ih ihscript =>
    rintro hlast rest' rfl
    have hskip := skipSeparators_line_of_cons more h hlast
    have htail := hlast.suffix (h ▸ skipSeparators_suffix cs)
    obtain ⟨rest'', hreads, hrest''⟩ := ih htail rest rfl
    have hnext := ihscript (htail.tail.suffix (hws.suffix _ rfl)) rest' rfl
    cases nested with
    | false =>
      have hsame := (readCommands_congr hrest'').trans hnext
      exact (readCommands_of_reads hskip hc' hreads).trans (congrArg (.words ws :: ·) hsame)
    | true => exact .commandsCons hskip hc hc' hreads (hnext.commands_congr hrest''.symm)
  | _ => rintro - _ ⟨⟩

/-- A script that is read to its end is read in front of a line end too, and then what follows. -/
theorem readCommands_line {cs rest : List Char} (more : List Char) (hlast : NoFinalBackslash cs)
    (h : (readCommands false cs).2.text? = some rest) :
    (readCommands false (cs ++ '\n' :: more)).1 =
      (readCommands false cs).1 ++ (readCommands false more).1 :=
  (reads_readCommands false cs).resumes more hlast rest h

end TclHost.Script
