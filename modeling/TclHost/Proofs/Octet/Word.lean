import TclHost.Octet.Script
import TclHost.Proofs.Octet.Scanner
import TclHost.Proofs.Script.CutOff
/-! # Words at boundaries

The script scanners follow the grammar of scripts: what a rule reads from a text is what the octet
scanner reads at a boundary in front of it, and it goes on at the boundary in front of what follows.
Here each rule for pieces, references and words is taken by itself.
-/
namespace TclHost.Octet

open Text Script

/-- A scanner is not halted: it gives a tree and ends at the boundary of the text that follows. -/
def Gives {T : Type} (text : List Char) (scan : Scan (T × Option Nat)) (tree : T)
    (rest? : Option (List Char)) : Prop :=
  ∃ last, scan = .ok (tree, last) ∧ Option.Rel (At text) last rest?

/-! ## Stops -/

theorem isAscii_closes (stop : Stop) : IsAscii stop.closes := by
  cases stop with
  | atEnd =>
    intro c hc
    cases hc
  | atQuote => exact isAscii_beq (by decide)
  | atParen => exact isAscii_beq (by decide)
  | atWordEnd nested => exact isAscii_isWordEnd nested

section
variable {text cs lit : List Char} {stop : Stop} {p start : Nat} {c : Char}

theorem At.stopsAt {o : Char} (h : At text p (c :: cs)) (hstands : Stands o c) :
    stop.stopsAt o (octet? text (p + 1)).toList = stop.stopsAt c cs := by
  rw [Stop.stopsAt_eq, Stop.stopsAt_eq, hstands.test_eq (isAscii_closes stop),
    hstands.test_eq (isAscii_beq (a := '\\') (by decide))]
  by_cases hb : c = '\\'
  · subst hb
    have hline := (h.next_ascii (by decide)).octet?_eq_some_iff (a := '\n') (by decide)
    have hhead : ((octet? text (p + 1)).toList.head? == some '\n') =
        (cs.head? == some '\n') := by
      rw [Bool.eq_iff_iff, beq_iff_eq, beq_iff_eq, ← hline]
      cases octet? text (p + 1) <;> simp
    rw [hhead]
  · rw [beq_false_of_ne hb, Bool.false_and, Bool.false_and]

theorem overlooks_subst (stop : Stop) (start : Nat) :
    Overlooks text fun p => subst text stop p start := by
  intro p o ho hbeyond
  have hne {a : Char} (ha : a.toNat < 128) : o ≠ a := ne_of_le hbeyond ha
  have hstop : stop.stopsAt o (octet? text (p + 1)).toList = false := by
    rw [Stop.stopsAt_eq, (isAscii_closes stop).eq_false hbeyond,
      beq_false_of_ne (hne (by decide)), Bool.false_and, Bool.and_false, Bool.or_false]
  have hplain : ¬(o = '$' ∨ o = '[' ∨ o = '\\') := by
    simp only [hne (a := '$') (by decide), hne (a := '[') (by decide), hne (a := '\\') (by decide),
      or_self, not_false_eq_true]
  change subst text stop p start = subst text stop (p + 1) start
  rw [subst_eq, ho]
  simp only [hstop, hplain, Bool.false_eq_true, if_false]

/-! ## Pieces -/

/-- A character that does not stand for itself, even if no stop is in front of it. -/
def isSpecial (c : Char) : Prop :=
  c = '$' ∨ c = '[' ∨ c = '\\'

theorem subst_of_isPlain (h : At text p (c :: cs)) (hc : stop.isPlain c = true) (start : Nat) :
    subst text stop p start = subst text stop (p + c.utf8Size) start := by
  obtain ⟨o, ho, hstands⟩ := h.exists_octet
  have hstop : stop.stopsAt o (octet? text (p + 1)).toList = false := by
    rw [h.stopsAt hstands, Stop.stopsAt_of_isPlain hc]
  have hplain : ¬(o = '$' ∨ o = '[' ∨ o = '\\') := by
    simp only [hstands.eq_iff (a := '$') (by decide), hstands.eq_iff (a := '[') (by decide),
      hstands.eq_iff (a := '\\') (by decide)]
    simp only [Stop.isPlain, Bool.not_eq_true', Bool.or_eq_false_iff, beq_eq_false_iff_ne] at hc
    simp [hc]
  rw [← (overlooks_subst stop start).next h, subst_eq, ho]
  simp only [hstop, hplain, Bool.false_eq_true, if_false]

theorem subst_of_all_isPlain (h : At text p (lit ++ cs))
    (hlit : ∀ c ∈ lit, stop.isPlain c = true) (start : Nat) :
    subst text stop p start = subst text stop (p + Utf8.size lit) start := by
  induction lit generalizing p with
  | nil => rfl
  | cons c lit ih =>
    rw [subst_of_isPlain h (hlit c List.mem_cons_self),
      ih h.next fun d hd => hlit d (List.mem_cons_of_mem c hd), Nat.add_assoc]
    rfl

/-- Where a run of pieces does not stop, a character stands for itself or is special. -/
theorem isPlain_eq_false_iff (hstop : stop.stopsAt c cs = false) :
    stop.isPlain c = false ↔ isSpecial c := by
  have hcloses : stop.closes c = false := by
    rw [Stop.stopsAt_eq, Bool.or_eq_false_iff] at hstop
    exact hstop.1
  simp only [Stop.isPlain, hcloses, isSpecial, Bool.or_false, Bool.not_eq_false', Bool.or_eq_true,
    beq_iff_eq, or_assoc]

theorem subst_of_isSpecial (h : At text p (c :: cs)) (hstop : stop.stopsAt c cs = false)
    (hspecial : isSpecial c) {before : List Char} (hbefore : Octet.cut text start p = .ok before) :
    subst text stop p start = do
      match ← substPiece text p with
      | (piece, none) => return (literals before ++ [piece], none)
      | (piece, some q) =>
        let ⟨q, _⟩ ← advance text p q
        let (pieces, last) ← subst text stop q q
        return (literals before ++ piece :: pieces, last) := by
  obtain ⟨o, ho, hstands⟩ := h.exists_octet
  rw [isSpecial] at hspecial
  rw [subst_eq, ho]
  simp only [h.stopsAt hstands, hstop, hstands.eq_iff (a := '$') (by decide),
    hstands.eq_iff (a := '[') (by decide), hstands.eq_iff (a := '\\') (by decide), hspecial,
    Bool.false_eq_true, if_false, if_true, hbefore]
  rfl

/-- What stands for itself is put in front of whatever comes next. -/
theorem subst_start (h : At text start (lit ++ cs))
    (hcs : ∀ c ∈ cs.head?, stop.isPlain c = false) :
    subst text stop (start + Utf8.size lit) start =
      (subst text stop (start + Utf8.size lit) (start + Utf8.size lit)).map fun r =>
        (literals lit ++ r.1, r.2) := by
  have hp := h.append
  have hcut := h.cut
  generalize start + Utf8.size lit = p at hp hcut ⊢
  have hnone : Octet.cut text p p = .ok [] := hp.cut_self
  cases cs with
  | nil =>
    rw [subst_eq, subst_eq text stop p p, hp.octet?_nil]
    simp only [hcut, hnone, hp.pass]
    cases stop.fault? <;> simp [literals, bind, Except.bind, Except.map, pure, Except.pure]
  | cons c cs =>
    cases hstop : stop.stopsAt c cs with
    | true =>
      obtain ⟨o, ho, hstands⟩ := hp.exists_octet
      rw [subst_eq, subst_eq text stop p p, ho]
      simp only [hp.stopsAt hstands, hstop, if_true, hcut, hnone, hp.pass]
      simp [literals, bind, Except.bind, Except.map, pure, Except.pure]
    | false =>
      have hspecial := (isPlain_eq_false_iff hstop).mp (hcs c rfl)
      rw [subst_of_isSpecial hp hstop hspecial hcut, subst_of_isSpecial hp hstop hspecial hnone]
      rcases substPiece text p with e | ⟨piece, _ | q⟩
      · rfl
      · rfl
      · simp only [bind, Except.bind]
        rcases advance text p q with e | ⟨q, -⟩
        · rfl
        · simp only []
          rcases subst text stop q q with e | ⟨pieces, last⟩ <;> rfl

end

/-! ## What the scanners do at a boundary -/

/-- The mark of an expanded word is told, and the word behind it is read. -/
def GivesWord (text : List Char) (nested : Bool) (p : Nat) (w : Word)
    (rest? : Option (List Char)) : Prop :=
  ∃ expand pieces, startsExpanded text nested p = .ok expand ∧
    (∃ cs, At text (wordStart expand p) cs) ∧ w = .mk expand pieces ∧
    Gives text (parseWord text nested (wordStart expand p)) pieces rest?

/-- What the scanner of a part does at every boundary in front of the part. -/
def Scans (text : List Char) :
    (part : Part) → List Char → part.Tree → Option (List Char) → Prop
  | .pieces stop, cs, pieces, rest? =>
    ∀ p, At text p cs → Gives text (subst text stop p p) pieces rest?
  | .piece stop c, cs, piece, rest? =>
    (isSpecial c → ∀ p, At text p (c :: cs) → Gives text (substPiece text p) piece rest?) ∧
      (¬isSpecial c → piece = .literal (c :: cs.takeWhile stop.isPlain) ∧
        rest? = some (cs.dropWhile stop.isPlain))
  | .reference, cs, piece, rest? =>
    ∀ p, At text p ('$' :: cs) → Gives text (substVar text p) piece rest?
  | .delimited nested c, cs, pieces, rest? =>
    ∀ p, At text p (c :: cs) → Gives text (parseWord text nested p) pieces rest?
  | .word nested c, cs, w, rest? =>
    ∀ p, At text p (c :: cs) → (Stop.atWordEnd nested).stopsAt c cs = false →
      GivesWord text nested p w rest?
  | .words nested, cs, words, rest? =>
    ∀ p, At text p cs → Gives text (parseCommand text nested p) words rest?
  | .command nested c, cs, words, rest? =>
    ∀ p, At text p (c :: cs) → (Stop.atWordEnd nested).stopsAt c cs = false →
      Gives text (parseCommand text nested p) words rest?
  | .commands nested, cs, script, rest? =>
    ∀ p, At text p cs → Gives text (run text nested p) script rest?

section
variable {text cs rest : List Char} {stop : Stop} {c : Char} {piece : Piece} {pieces : List Piece}
  {rest? : Option (List Char)}

theorem scans_pieces_cons (hstop : stop.stopsAt c cs = false)
    (hpiece : Scans text (.piece stop c) cs piece (some rest)) (hsuffix : rest <:+ cs)
    (hpieces : Scans text (.pieces stop) rest pieces rest?) :
    Scans text (.pieces stop) (c :: cs) (piece :: pieces) rest? := by
  intro p h
  by_cases hspecial : isSpecial c
  · obtain ⟨last, hscan, hlast⟩ := hpiece.1 hspecial p h
    cases hlast with
    | @some q _ hq =>
    have hlt : p < q := h.lt_of_length_lt hq (Nat.lt_succ_of_le hsuffix.length_le)
    obtain ⟨last, hrest, hlast⟩ := hpieces q hq
    refine ⟨last, ?_, hlast⟩
    rw [subst_of_isSpecial h hstop hspecial h.cut_self]
    simp only [hscan, hq.advance hlt, hrest, bind, Except.bind, pure, Except.pure]
    rfl
  · -- One piece of plain characters, which the scanner passes one by one and then takes as a whole.
    obtain ⟨rfl, heq⟩ := hpiece.2 hspecial
    cases heq
    have hlit : ∀ d ∈ c :: cs.takeWhile stop.isPlain, stop.isPlain d = true := by
      intro d hd
      rcases List.mem_cons.mp hd with rfl | hd
      · exact Bool.of_not_eq_false (hspecial ∘ (isPlain_eq_false_iff hstop).mp)
      · exact List.all_eq_true.mp List.all_takeWhile d hd
    have hfollow : ∀ d ∈ (cs.dropWhile stop.isPlain).head?, stop.isPlain d = false := by
      intro d hd
      have hhead := List.head?_dropWhile_not stop.isPlain cs
      rwa [Option.mem_def.mp hd] at hhead
    have hwhole : At text p ((c :: cs.takeWhile stop.isPlain) ++ cs.dropWhile stop.isPlain) := by
      rw [List.cons_append, List.takeWhile_append_dropWhile]
      exact h
    obtain ⟨last, hrest, hlast⟩ := hpieces _ hwhole.append
    refine ⟨last, ?_, hlast⟩
    rw [subst_of_all_isPlain hwhole hlit, subst_start hwhole hfollow, hrest]
    rfl

theorem scans_pieces_fault (hstop : stop.stopsAt c cs = false)
    (hpiece : Scans text (.piece stop c) cs piece none) :
    Scans text (.pieces stop) (c :: cs) [piece] none := by
  intro p h
  by_cases hspecial : isSpecial c
  · obtain ⟨last, hscan, hlast⟩ := hpiece.1 hspecial p h
    cases hlast
    refine ⟨none, ?_, .none⟩
    rw [subst_of_isSpecial h hstop hspecial h.cut_self]
    simp only [hscan, bind, Except.bind, pure, Except.pure]
    rfl
  · cases (hpiece.2 hspecial).2

end

/-! ## References -/

section
variable {text cs rest : List Char} {c : Char}

theorem scans_reference_braced (hclose : cs.dropWhile (· != '}') = c :: rest) :
    Scans text .reference ('{' :: cs) (.variable (String.ofList (cs.takeWhile (· != '}'))))
      (some rest) := by
  intro p h
  have hopen := h.next_ascii (by decide)
  have hname := (hopen.next_ascii (by decide)).takeWhile (· != '}')
  rw [hclose, eq_of_dropWhile_bne hclose] at hname
  have hfind : find? '}' ('{' :: cs) = some (1 + Utf8.size (cs.takeWhile (· != '}'))) :=
    find?_eq_some (show ('{' :: cs).dropWhile (· != '}') = c :: rest from hclose)
  have hcut := (hopen.next_ascii (by decide)).cut_of_eq
    (List.takeWhile_append_dropWhile (p := (· != '}')))
  have hlast := hname.next_ascii (by decide)
  refine ⟨_, ?_, .some hlast⟩
  rw [substVar, if_pos (hopen.octet?_ascii (by decide)), hopen.behind]
  simp only [hfind, hcut, ← Nat.add_assoc, hlast.pass, bind, Except.bind, pure, Except.pure]

theorem scans_reference_unclosed (hclose : cs.dropWhile (· != '}') = []) :
    Scans text .reference ('{' :: cs) (.fault .missingNameBrace) none := by
  intro p h
  have hopen := h.next_ascii (by decide)
  have hfind : find? '}' ('{' :: cs) = none :=
    find?_eq_none (show ('{' :: cs).dropWhile (· != '}') = [] from hclose)
  refine ⟨none, ?_, .none⟩
  rw [substVar, if_pos (hopen.octet?_ascii (by decide)), hopen.behind]
  simp only [hfind, bind, Except.bind, pure, Except.pure]

theorem scans_reference_dollar (hbrace : ∀ ds, cs ≠ '{' :: ds) (hname : (splitName cs).1 = []) :
    Scans text .reference cs (.literal ['$']) (some cs) := by
  intro p h
  have hstart := h.next_ascii (by decide)
  have hopen : octet? text (p + 1) ≠ some '{' := hstart.octet?_ne (by decide) hbrace
  have hend : nameEnd text (p + 1) = p + 1 := hstart.nameEnd_eq_iff.mpr hname
  refine ⟨_, ?_, .some hstart⟩
  rw [substVar, if_neg hopen]
  simp only [hend, if_true, hstart.pass, bind, Except.bind, pure, Except.pure]

theorem substVar_of_name {p : Nat} (h : At text p ('$' :: cs)) (hname : (splitName cs).1 ≠ []) :
    substVar text p =
      if octet? text (nameEnd text (p + 1)) = some '(' then do
        let _ ← pass text (nameEnd text (p + 1) + 1)
        let (index, close) ←
          subst text .atParen (nameEnd text (p + 1) + 1) (nameEnd text (p + 1) + 1)
        return (.element (String.ofList (splitName cs).1) index,
          ← close.mapM fun q => pass text (q + 1))
      else return (.variable (String.ofList (splitName cs).1), some (nameEnd text (p + 1))) := by
  have hstart := h.next_ascii (by decide)
  have hopen : octet? text (p + 1) ≠ some '{' :=
    hstart.octet?_ne (by decide) (ne_brace_of_splitName hname)
  have hend := hstart.nameEnd_eq
  have hcut := hstart.cut_of_eq (splitName_append cs)
  have hne : nameEnd text (p + 1) ≠ p + 1 := mt hstart.nameEnd_eq_iff.mp hname
  rw [← hend] at hcut
  rw [substVar, if_neg hopen]
  simp only [hne, if_false, hcut, hstart.nameEnd.pass, bind, Except.bind, pure, Except.pure]
  rfl

/-- Where only one character stops a run of pieces, that character follows. -/
theorem eq_cons_of_reads {stop : Stop} {a : Char} {pieces : List Piece}
    (hstop : ∀ c cs, stop.stopsAt c cs = true → c = a) (hfault : stop.fault? ≠ none)
    (h : Reads (.pieces stop) cs pieces (some rest)) : ∃ ds, rest = a :: ds := by
  rcases stopsAt_of_finished? (h.read? rest rfl) with ⟨-, hnone⟩ | ⟨c, ds, rfl, hc⟩
  · exact absurd hnone hfault
  · exact ⟨ds, hstop c ds hc ▸ rfl⟩

theorem eq_quote_of_reads {pieces : List Piece}
    (h : Reads (.pieces .atQuote) cs pieces (some rest)) : ∃ ds, rest = '"' :: ds :=
  eq_cons_of_reads (by simp [Stop.stopsAt_eq, Stop.closes, Stop.joinsLine]) (by simp [Stop.fault?])
    h

theorem eq_paren_of_reads {pieces : List Piece}
    (h : Reads (.pieces .atParen) cs pieces (some rest)) : ∃ ds, rest = ')' :: ds :=
  eq_cons_of_reads (by simp [Stop.stopsAt_eq, Stop.closes, Stop.joinsLine]) (by simp [Stop.fault?])
    h

theorem scans_reference_element {ds : List Char} {index : List Piece}
    {rest? : Option (List Char)} (hname : (splitName cs).1 ≠ [])
    (hindex : (splitName cs).2 = '(' :: ds) (hread : Reads (.pieces .atParen) ds index rest?)
    (hscans : Scans text (.pieces .atParen) ds index rest?) :
    Scans text .reference cs (.element (String.ofList (splitName cs).1) index)
      (rest?.map List.tail) := by
  intro p h
  have hend := (h.next_ascii (by decide)).nameEnd
  rw [hindex] at hend
  have hopen := hend.next_ascii (by decide)
  obtain ⟨close, hscan, hclose⟩ := hscans _ hopen
  rw [substVar_of_name h hname, if_pos (hend.octet?_ascii (by decide))]
  simp only [hopen.pass, hscan, bind, Except.bind, pure, Except.pure]
  cases hclose with
  | none => exact ⟨none, rfl, .none⟩
  | @some q _ hq =>
    obtain ⟨ds, rfl⟩ := eq_paren_of_reads hread
    have hlast := hq.next_ascii (by decide)
    have hmap : (some q).mapM (fun q => pass text (q + 1)) = some <$> pass text (q + 1) := rfl
    refine ⟨some (q + 1), ?_, .some hlast⟩
    rw [hmap, hlast.pass]
    rfl

theorem scans_reference_variable (hname : (splitName cs).1 ≠ [])
    (hindex : ∀ ds, (splitName cs).2 ≠ '(' :: ds) :
    Scans text .reference cs (.variable (String.ofList (splitName cs).1))
      (some (splitName cs).2) := by
  intro p h
  have hend := (h.next_ascii (by decide)).nameEnd
  have hparen : octet? text (nameEnd text (p + 1)) ≠ some '(' :=
    hend.octet?_ne (by decide) hindex
  refine ⟨_, ?_, .some hend⟩
  rw [substVar_of_name h hname, if_neg hparen]
  rfl

end

/-! ## Words -/

section
variable {text cs rest inner : List Char} {nested : Bool} {p : Nat}

theorem At.endsWord (h : At text p cs) (nested : Bool) :
    endsWord text nested p = mayFollow nested cs := by
  rw [Octet.endsWord, h.all_octet? ((isAscii_isWordEnd nested).or (isAscii_beq (by decide)))]
  cases cs <;> rfl

/-- A word in braces ends where its brace is closed, if a word may end there. -/
theorem parseWord_of_brace (h : At text p ('{' :: cs)) :
    parseWord text nested p =
      match closeAt? '{' '}' 0 cs with
      | none => return ([.fault .missingBrace], none)
      | some (inner, rest) =>
        if mayFollow nested rest then
          return ([.literal inner], some (p + 1 + Utf8.size inner + 1))
        else return ([.fault .extraAfterBrace], none) := by
  have hinner := h.next_ascii (by decide)
  rw [parseWord_eq, h.octet?_ascii (by decide), h.matchingBrace]
  cases hclose : closeAt? '{' '}' 0 cs with
  | none => rfl
  | some r =>
    obtain ⟨inner, rest⟩ := r
    have hrest := hinner.closed (by decide) hclose
    simp only [if_true, Option.map_some, hrest.endsWord,
      hinner.cut_of_eq (closeAt?_append hclose), hrest.pass]
    rfl

theorem scans_braced (hclose : closeAt? '{' '}' 0 cs = some (inner, rest))
    (hfollow : mayFollow nested rest = true) :
    Scans text (.delimited nested '{') cs [.literal inner] (some rest) := by
  intro p h
  refine ⟨_, ?_, .some ((h.next_ascii (by decide)).closed (by decide) hclose)⟩
  rw [parseWord_of_brace h, hclose]
  exact if_pos hfollow

theorem scans_braced_extra (hclose : closeAt? '{' '}' 0 cs = some (inner, rest))
    (hfollow : mayFollow nested rest = false) :
    Scans text (.delimited nested '{') cs [.fault .extraAfterBrace] none := by
  intro p h
  refine ⟨none, ?_, .none⟩
  rw [parseWord_of_brace h, hclose]
  exact if_neg (Bool.not_eq_true _ ▸ hfollow)

theorem scans_braced_unclosed (hclose : closeAt? '{' '}' 0 cs = none) :
    Scans text (.delimited nested '{') cs [.fault .missingBrace] none := by
  intro p h
  refine ⟨none, ?_, .none⟩
  rw [parseWord_of_brace h, hclose]
  rfl

/-- The pieces between quotes come first, and then what follows the closing quote is looked at. -/
theorem parseWord_of_quote {pieces : List Piece} {close? : Option Nat} (h : At text p ('"' :: cs))
    (hscan : subst text .atQuote (p + 1) (p + 1) = .ok (pieces, close?)) :
    parseWord text nested p =
      match close? with
      | none => return (pieces, none)
      | some close =>
        if endsWord text nested (close + 1) then
          return (pieces, some (← pass text (close + 1)))
        else return (pieces ++ [.fault .extraAfterQuote], none) := by
  rw [parseWord_eq, h.octet?_ascii (by decide)]
  simp only [show ('"' : Char) ≠ '{' by decide, if_false, if_true,
    (h.next_ascii (by decide)).pass, hscan, bind, Except.bind]
  cases close? <;> rfl

/-- A word in quotes ends where the pieces in it end, if a word may end there. -/
theorem parseWord_of_closed_quote {pieces : List Piece}
    (hread : Reads (.pieces .atQuote) cs pieces (some rest))
    (hscans : Scans text (.pieces .atQuote) cs pieces (some rest)) (h : At text p ('"' :: cs)) :
    ∃ last, At text last rest.tail ∧
      parseWord text nested p =
        if mayFollow nested rest.tail then return (pieces, some last)
        else return (pieces ++ [.fault .extraAfterQuote], none) := by
  obtain ⟨close, hscan, hclose⟩ := hscans _ (h.next_ascii (by decide))
  cases hclose with
  | @some q _ hq =>
  obtain ⟨ds, rfl⟩ := eq_quote_of_reads hread
  have hlast := hq.next_ascii (by decide)
  refine ⟨q + 1, hlast, ?_⟩
  rw [parseWord_of_quote h hscan]
  simp only [hlast.endsWord, hlast.pass]
  rfl

theorem scans_quoted {pieces : List Piece} (hread : Reads (.pieces .atQuote) cs pieces (some rest))
    (hscans : Scans text (.pieces .atQuote) cs pieces (some rest))
    (hfollow : mayFollow nested rest.tail = true) :
    Scans text (.delimited nested '"') cs pieces (some rest.tail) := by
  intro p h
  obtain ⟨last, hlast, hword⟩ := parseWord_of_closed_quote hread hscans h
  exact ⟨some last, hword.trans (if_pos hfollow), .some hlast⟩

theorem scans_quoted_extra {pieces : List Piece}
    (hread : Reads (.pieces .atQuote) cs pieces (some rest))
    (hscans : Scans text (.pieces .atQuote) cs pieces (some rest))
    (hfollow : mayFollow nested rest.tail = false) :
    Scans text (.delimited nested '"') cs (pieces ++ [.fault .extraAfterQuote]) none := by
  intro p h
  obtain ⟨last, -, hword⟩ := parseWord_of_closed_quote hread hscans h
  exact ⟨none, hword.trans (if_neg (Bool.not_eq_true _ ▸ hfollow)), .none⟩

theorem scans_quoted_fault {pieces : List Piece}
    (hscans : Scans text (.pieces .atQuote) cs pieces none) :
    Scans text (.delimited nested '"') cs pieces none := by
  intro p h
  obtain ⟨close, hscan, hclose⟩ := hscans _ (h.next_ascii (by decide))
  cases hclose
  exact ⟨none, parseWord_of_quote h hscan, .none⟩

theorem parseWord_of_bare {c : Char} (h : At text p (c :: cs)) (hc : isDelimiter c = false) :
    parseWord text nested p = subst text (.atWordEnd nested) p p := by
  obtain ⟨o, ho, hstands⟩ := h.exists_octet
  simp only [isDelimiter, Bool.or_eq_false_iff, beq_eq_false_iff_ne] at hc
  rw [parseWord_eq, ho]
  simp only [hstands.eq_iff (a := '{') (by decide), hstands.eq_iff (a := '"') (by decide), hc,
    if_false]

/-- A mark stands in front of whatever does not end a word. -/
theorem At.startsExpanded {c : Char} (h : At text p (c :: cs)) (nested : Bool) :
    startsExpanded text nested p = .ok (expanded? nested c cs).isSome := by
  rw [Octet.startsExpanded, h.behind]
  refine congrArg Except.ok ?_
  by_cases hmark : ['{', '*', '}'].isPrefixOf (c :: cs) = true
  · obtain ⟨ds, hds⟩ := List.isPrefixOf_iff_prefix.mp hmark
    obtain ⟨rfl, rfl⟩ : '{' = c ∧ '*' :: '}' :: ds = cs := List.cons.inj hds
    have hnext := ((h.next_ascii (by decide)).next_ascii (by decide)).next_ascii (by decide)
    rw [hmark, Bool.true_and]
    cases ds with
    | nil =>
      rw [hnext.octet?_nil]
      rfl
    | cons d ds =>
      obtain ⟨o, ho, hstands⟩ := hnext.exists_octet
      rw [ho, Option.any_some, hstands.test_eq (isAscii_isWordEnd nested), expanded?]
      cases isWordEnd nested d <;> rfl
  · have hnone : expanded? nested c cs = none := by
      unfold expanded?
      split
      · exact absurd rfl hmark
      · rfl
    rw [hnone, Bool.eq_false_iff.mpr hmark]
    rfl

theorem eq_of_expanded? {c : Char} (h : expanded? nested c cs = some rest) :
    c :: cs = '{' :: '*' :: '}' :: rest := by
  unfold expanded? at h
  split at h
  · split at h
    · cases h
    · cases h
      rfl
  · cases h

theorem scans_word_plain {c : Char} {pieces : List Piece} {rest? : Option (List Char)}
    (hexpand : expanded? nested c cs = none)
    (h : ∀ p, At text p (c :: cs) → (Stop.atWordEnd nested).stopsAt c cs = false →
      Gives text (parseWord text nested p) pieces rest?) :
    Scans text (.word nested c) cs (.mk false pieces) rest? := by
  intro p hp hstop
  refine ⟨false, pieces, ?_, ⟨_, hp⟩, rfl, h p hp hstop⟩
  rw [hp.startsExpanded, hexpand]
  rfl

theorem scans_word_expanded {c : Char} {pieces : List Piece} {rest? : Option (List Char)}
    (hexpand : expanded? nested c cs = some rest)
    (h : ∀ p, At text p rest → Gives text (parseWord text nested p) pieces rest?) :
    Scans text (.word nested c) cs (.mk true pieces) rest? := by
  intro p hp _
  have hmark := hp
  rw [eq_of_expanded? hexpand] at hmark
  have hnext := ((hmark.next_ascii (by decide)).next_ascii (by decide)).next_ascii (by decide)
  refine ⟨true, pieces, ?_, ⟨rest, hnext⟩, rfl, h _ hnext⟩
  rw [hp.startsExpanded, hexpand]
  rfl

end

end TclHost.Octet
