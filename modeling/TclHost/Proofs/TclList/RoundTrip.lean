import TclHost.Proofs.Text.Written
import TclHost.TclList.Printer
import TclHost.TclList.Reader
/-! # Reading back a written list

An element is written in braces, where its own braces balance, or as a text whose plain
characters are those that are not special.  Either form is read back up to the space behind it,
so that a written list is read as the elements it was written from.
-/
namespace TclHost.TclList

open Text

private theorem getLast?_tail_ne {c d : Char} {cs : List Char}
    (h : (c :: cs).getLast? ≠ some d) : cs.getLast? ≠ some d := by
  intro hcs
  rw [List.getLast?_cons, hcs] at h
  exact h rfl

/-- A text whose braces balance is found again between braces. -/
theorem closeAt?_of_bracesBalanced {depth : Nat} {cs : List Char}
    (h : bracesBalanced depth cs = true) (hlast : cs.getLast? ≠ some '\\') (rest : List Char) :
    closeAt? '{' '}' depth (cs ++ '}' :: rest) = some (cs, rest) := by
  fun_induction bracesBalanced depth cs with
  | case1 depth =>
    cases beq_iff_eq.mp h
    exact closeAt?_closing_zero _ (by decide) rest
  | case2 depth => exact absurd rfl hlast
  | case3 depth d ds ih =>
    rw [List.cons_append, List.cons_append, closeAt?_backslash,
      ih h (getLast?_tail_ne (getLast?_tail_ne hlast))]
    rfl
  | case4 depth cs hb ih =>
    rw [List.cons_append, closeAt?_other _ _ hb (by decide), if_pos rfl,
      ih h (getLast?_tail_ne hlast)]
    rfl
  | case5 cs => simp at h
  | case6 cs hb ho depth ih =>
    rw [List.cons_append, closeAt?_closing_succ _ (by decide), ih h (getLast?_tail_ne hlast)]
    rfl
  | case7 depth c cs hb ho hc ih =>
    rw [List.cons_append, closeAt?_other _ _ hb hc, if_neg ho, ih h (getLast?_tail_ne hlast)]
    rfl

theorem isListSpace_of_not_isSpecial {c : Char} (hc : (!isSpecial c) = true) :
    isListSpace c = false := by
  simp only [isSpecial, Bool.not_eq_true', Bool.or_eq_false_iff] at hc
  simp [hc]

theorem ne_of_not_isSpecial {c : Char} (hc : (!isSpecial c) = true) :
    c ≠ ' ' ∧ c ≠ '\t' ∧ c ≠ '\n' ∧ c ≠ '\r' ∧ c ≠ ';' ∧ c ≠ '\\' ∧ c ≠ '{' ∧ c ≠ '"' ∧ c ≠ '$' ∧
      c ≠ '[' := by
  simp only [isSpecial, isListSpace, Bool.not_eq_true', Bool.or_eq_false_iff,
    beq_eq_false_iff_ne] at hc
  simp [hc]

/-- A special character is written as a backslash sequence that reads back, whatever follows. -/
theorem escapeChar_of_isSpecial {c : Char} (hc : isSpecial c = true) :
    ∃ d, escapeChar c = ['\\', d] ∧ d ≠ '\n' ∧ ∀ rest, Escape.read (d :: rest) = (c, rest) := by
  simp only [isSpecial, isListSpace, Bool.or_eq_true, beq_iff_eq, or_assoc] at hc
  rcases hc with rfl | rfl | rfl | rfl | rfl | rfl | rfl | rfl | rfl | rfl | rfl | rfl | rfl | rfl
  all_goals exact ⟨_, rfl, by decide, fun rest => rfl⟩

theorem escapeChar_of_not_isSpecial {c : Char} (hc : isSpecial c = false) :
    escapeChar c = [c] := by
  have hletter : controlLetter? c = none := by
    unfold controlLetter?
    split <;> first | rfl | exact absurd hc (by decide)
  simp [escapeChar, hletter, hc]

theorem written_escapeChar (c : Char) :
    Written (fun x => !isSpecial x) (escapeChar c) [c] := by
  cases hc : isSpecial c with
  | true =>
    obtain ⟨d, henc, hd, hread⟩ := escapeChar_of_isSpecial hc
    rw [henc]
    exact .escape hd (List.forall_mem_nil _) hread .nil
  | false =>
    rw [escapeChar_of_not_isSpecial hc]
    exact .literal (by simp [hc]) .nil

/-- An element is written in braces that close behind it, or as a text that writes it. -/
theorem quoteChars_cases (cs : List Char) :
    (quoteChars cs = '{' :: (cs ++ ['}']) ∧
      ∀ rest, closeAt? '{' '}' 0 (cs ++ '}' :: rest) = some (cs, rest)) ∨
    (quoteChars cs ≠ [] ∧ Written (fun x => !isSpecial x) (quoteChars cs) cs) := by
  unfold quoteChars
  split
  · next h =>
    cases List.isEmpty_iff.mp h
    exact .inl ⟨rfl, closeAt?_of_bracesBalanced rfl (by simp)⟩
  · next hne =>
    have hne : cs ≠ [] := by simpa using hne
    split
    · next h =>
      simp only [Bool.and_eq_true, Bool.not_eq_true', List.any_eq_false] at h
      exact .inr ⟨hne, .of_all fun c hc => by simpa using h.1 c hc⟩
    · split
      · next h =>
        simp only [canBrace, Bool.and_eq_true, bne_iff_ne] at h
        exact .inl ⟨rfl, closeAt?_of_bracesBalanced h.1.1 h.1.2⟩
      · have hwritten : Written (fun x => !isSpecial x) (cs.flatMap escapeChar) cs :=
          .flatMap fun c _ => written_escapeChar c
        exact .inr ⟨hwritten.ne_nil hne, hwritten⟩

def Separated (rest : List Char) : Prop :=
  ∀ c ∈ rest.head?, isListSpace c = true

theorem separated_of_separated {rest : List Char} (h : Separated rest)
    (error : String → Error) (element : List Char) :
    separated error element rest = .ok (element, rest) := by
  cases rest with
  | nil => rfl
  | cons c rest => simp [separated, h c (by simp)]

theorem readUntil_of_separated {rest : List Char} (h : Separated rest) :
    Escape.readUntil isListSpace rest = ([], rest) := by
  cases rest with
  | nil => rw [Escape.readUntil]
  | cons c rest =>
    rw [Escape.readUntil, if_pos (h c (by simp))]

/-- The form of an element starts no white space, and reading it gives the element back. -/
theorem readElement_quoteChars (cs : List Char) :
    ∃ c tail, quoteChars cs = c :: tail ∧ isListSpace c = false ∧
      ∀ rest, Separated rest → readElement c (tail ++ rest) = .ok (cs, rest) := by
  obtain ⟨hq, hclose⟩ | ⟨hne, hwritten⟩ := quoteChars_cases cs
  · refine ⟨'{', cs ++ ['}'], hq, by decide, ?_⟩
    intro rest hrest
    rw [readElement, if_pos rfl, braced?_eq, List.append_assoc, List.singleton_append,
      hclose rest]
    exact separated_of_separated hrest _ _
  · obtain ⟨c, tail, hq⟩ := List.exists_cons_of_ne_nil hne
    rw [hq] at hwritten
    have hhead : isListSpace c = false ∧ c ≠ '{' ∧ c ≠ '"' := by
      rcases hwritten.head with hc | rfl
      · simp [isListSpace_of_not_isSpecial hc, ne_of_not_isSpecial hc]
      · decide
    refine ⟨c, tail, hq, hhead.1, ?_⟩
    intro rest hrest
    rw [readElement, if_neg hhead.2.1, if_neg hhead.2.2, ← List.cons_append,
      hwritten.readUntil (by decide) ?_ rest, readUntil_of_separated hrest, List.append_nil]
    intro x hx
    simp [isListSpace_of_not_isSpecial hx, ne_of_not_isSpecial hx]

theorem elements_of_readElement {c : Char} {cs element rest : List Char}
    (hc : isListSpace c = false) (h : readElement c cs = .ok (element, rest)) :
    elements (c :: cs) = (elements rest).map (element :: ·) := by
  rw [elements]
  simp only [hc, Bool.false_eq_true, dif_neg, not_false_eq_true]
  split
  · next hr => simp [h] at hr
  · next hr =>
    rw [h] at hr
    cases hr
    rfl

theorem elements_quoteChars_append (cs rest : List Char) (h : Separated rest) :
    elements (quoteChars cs ++ rest) = (elements rest).map (cs :: ·) := by
  obtain ⟨c, tail, hq, hc, hread⟩ := readElement_quoteChars cs
  rw [hq, List.cons_append, elements_of_readElement hc (hread rest h)]

theorem separated_spaced (qs : List (List Char)) : Separated (spaced qs) := by
  cases qs with
  | nil => simp [Separated, spaced]
  | cons q qs => simp [Separated, spaced, isListSpace]

theorem elements_spaced (css : List (List Char)) :
    elements (spaced (css.map quoteChars)) = .ok css := by
  induction css with
  | nil => simp [spaced, elements]
  | cons cs css ih =>
    have hcons : spaced ((cs :: css).map quoteChars)
        = ' ' :: (quoteChars cs ++ spaced (css.map quoteChars)) := rfl
    rw [hcons, elements, dif_pos (by decide),
      elements_quoteChars_append cs _ (separated_spaced _), ih]
    rfl

theorem toList_format (item : String) (items : List String) :
    (format (item :: items)).toList =
      quoteChars item.toList ++ spaced ((items.map String.toList).map quoteChars) := by
  have hquote (s : String) : (quote s).toList = quoteChars s.toList := by
    simp [quote]
  rw [format, List.map_cons, toList_intercalate_space, hquote, List.map_map, List.map_map]
  congr 3
  funext s
  exact hquote s

theorem elements_toList_format (items : List String) :
    elements (format items).toList = .ok (items.map String.toList) := by
  cases items with
  | nil => simp [format, elements]
  | cons item items =>
    rw [toList_format, elements_quoteChars_append _ _ (separated_spaced _), elements_spaced]
    rfl

theorem parse_of_eq_format {text : String} {items : List String} (h : text = format items) :
    parse text = .ok items := by
  rw [h, parse, elements_toList_format]
  simp [Except.map]

/-- Writing elements as a list and reading the list gives the same elements. -/
theorem parse_format (items : List String) : parse (format items) = .ok items := by
  rw [parse, elements_toList_format]
  simp [Except.map]

end TclHost.TclList
