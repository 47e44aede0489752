import TclHost.Proofs.Script.Literal
/-! # Readings without a fault

What a reader returns if it gets through: what it read, and the text that follows, without the
bound on its length.  Each reader gets through if the readers it is made of do.
-/
namespace TclHost.Script

open Text

/-- What was read and what follows, unless there was a fault. -/
def finished? {α : Type} {n : Nat} (r : α × Rest n) : Option (α × List Char) :=
  r.2.text?.map (r.1, ·)

variable {α β : Type} {n : Nat}

@[simp] theorem finished?_some (a : α) (rest : { cs : List Char // cs.length ≤ n }) :
    finished? (a, (some rest : Rest n)) = some (a, rest.1) :=
  rfl

@[simp] theorem finished?_none (a : α) : finished? (a, (none : Rest n)) = none :=
  rfl

theorem finished?_eq_some_iff {r : α × Rest n} {a : α} {cs : List Char} :
    finished? r = some (a, cs) ↔ r.1 = a ∧ r.2.text? = some cs := by
  cases h : r.2.text? <;> simp [finished?, h]

@[simp] theorem finished?_mk {m : Nat} (r : α × Rest n) (f : α → β) (h : n ≤ m) :
    finished? (f r.1, r.2.weaken h) = (finished? r).map fun x => (f x.1, x.2) := by
  cases hr : r.2 <;> simp [finished?, hr, Rest.text?, Rest.weaken]

theorem finished?_map (r : α × Rest n) (f : α → β) :
    finished? (f r.1, r.2) = (finished? r).map fun x => (f x.1, x.2) := by
  cases hr : r.2 <;> simp [finished?, hr, Rest.text?]

theorem finished?_length_le {r : α × Rest n} {a : α} {cs : List Char}
    (h : finished? r = some (a, cs)) : cs.length ≤ n := by
  obtain ⟨hle, -⟩ := Rest.text?_eq_some_iff.mp (finished?_eq_some_iff.mp h).2
  exact hle

/-! ## Pieces -/

theorem finished?_readPieces_nil (stop : Stop) :
    finished? (readPieces stop []) = if stop.fault? = none then some ([], []) else none := by
  rw [readPieces]
  cases stop.fault? <;> rfl

theorem finished?_readPieces_stop {stop : Stop} {c : Char} {cs : List Char}
    (h : stop.stopsAt c cs = true) :
    finished? (readPieces stop (c :: cs)) = some ([], c :: cs) := by
  rw [readPieces, if_pos h]
  rfl

theorem finished?_readPieces_cons {stop : Stop} {c : Char} {cs : List Char}
    (h : stop.stopsAt c cs = false) :
    finished? (readPieces stop (c :: cs)) =
      (finished? (readPiece stop c cs)).bind fun x =>
        (finished? (readPieces stop x.2)).map fun y => (x.1 :: y.1, y.2) := by
  rw [readPieces, if_neg (by simp [h])]
  rcases readPiece stop c cs with ⟨p, _ | rest⟩
  · rfl
  · exact finished?_mk (readPieces stop rest.1) (p :: ·) _

/-- A run of pieces stops at the end of a text, if that may be, or where it has to. -/
theorem stopsAt_of_finished? {stop : Stop} {cs r : List Char} {ps : List Piece}
    (h : finished? (readPieces stop cs) = some (ps, r)) :
    r = [] ∧ stop.fault? = none ∨ ∃ c rest, r = c :: rest ∧ stop.stopsAt c rest = true := by
  suffices hall : ∀ (n : Nat) (cs : List Char) (ps : List Piece), cs.length ≤ n →
      finished? (readPieces stop cs) = some (ps, r) →
      r = [] ∧ stop.fault? = none ∨ ∃ c rest, r = c :: rest ∧ stop.stopsAt c rest = true from
    hall _ cs ps (Nat.le_refl _) h
  intro n
  induction n with
  | zero =>
    intro cs ps hcs h
    obtain rfl := List.eq_nil_of_length_eq_zero (Nat.le_zero.mp hcs)
    rw [finished?_readPieces_nil] at h
    split at h
    · cases h
      exact .inl ⟨rfl, ‹_›⟩
    · cases h
  | succ n ih =>
    intro cs ps hcs h
    cases cs with
    | nil => exact ih [] ps (Nat.zero_le n) h
    | cons c cs =>
      cases hstop : stop.stopsAt c cs with
      | true =>
        rw [finished?_readPieces_stop hstop] at h
        cases h
        exact .inr ⟨c, cs, rfl, hstop⟩
      | false =>
        rw [finished?_readPieces_cons hstop] at h
        obtain ⟨⟨p, rest⟩, hp, hrest⟩ := Option.bind_eq_some_iff.mp h
        obtain ⟨⟨qs, r'⟩, hqs, heq⟩ := Option.map_eq_some_iff.mp hrest
        cases heq
        have hle := finished?_length_le hp
        exact ih rest qs (Nat.le_trans hle (Nat.le_of_succ_le_succ hcs)) hqs

theorem finished?_readPiece_reference (stop : Stop) (cs : List Char) :
    finished? (readPiece stop '$' cs) = finished? (readReference cs) := by
  rw [readPiece, if_pos rfl]

theorem finished?_readPiece_command (stop : Stop) (cs : List Char) :
    finished? (readPiece stop '[' cs) =
      (finished? (readCommands true cs)).map fun x => (.command x.1, x.2) := by
  rw [readPiece, if_neg (by decide), if_pos rfl]
  exact finished?_map (readCommands true cs) Piece.command

theorem finished?_readPiece_escape (stop : Stop) (cs : List Char) :
    finished? (readPiece stop '\\' cs) =
      some (.literal [(Escape.read cs).1], (Escape.read cs).2) := by
  rw [readPiece, if_neg (by decide), if_neg (by decide), if_pos rfl]
  rfl

theorem finished?_readPiece_literal (stop : Stop) {c : Char} (hdollar : c ≠ '$') (hopen : c ≠ '[')
    (hb : c ≠ '\\') (cs : List Char) :
    finished? (readPiece stop c cs) =
      some (.literal (c :: cs.takeWhile stop.isPlain), cs.dropWhile stop.isPlain) := by
  rw [readPiece, if_neg hdollar, if_neg hopen, if_neg hb]
  rfl

theorem finished?_readReference_braced {cs rest : List Char} {c : Char}
    (h : cs.dropWhile (· != '}') = c :: rest) :
    finished? (readReference ('{' :: cs)) =
      some (.variable (String.ofList (cs.takeWhile (· != '}'))), rest) := by
  have hname : finished? (readBracedName cs) =
      some (.variable (String.ofList (cs.takeWhile (· != '}'))), rest) := by
    unfold readBracedName
    split
    · next h' => cases h.symm.trans h'
    · next h' =>
      cases h.symm.trans h'
      rfl
  rw [readReference, ← hname]
  exact (finished?_mk (readBracedName cs) id _).trans (by simp)

theorem finished?_readReference_unclosed {cs : List Char} (h : cs.dropWhile (· != '}') = []) :
    finished? (readReference ('{' :: cs)) = none := by
  have hname : (readBracedName cs).2 = none := by
    unfold readBracedName
    split
    · rfl
    · next h' => cases h.symm.trans h'
  rw [readReference]
  simp [finished?, hname, Rest.weaken, Rest.text?]

theorem finished?_readReference_dollar {cs : List Char} (hbrace : ∀ ds, cs ≠ '{' :: ds)
    (hname : (splitName cs).1 = []) :
    finished? (readReference cs) = some (.literal ['$'], cs) := by
  unfold readReference
  split
  · exact absurd rfl (hbrace _)
  · rw [if_pos (by simp [hname])]
    rfl

theorem finished?_readReference_element {cs ds : List Char} (hname : (splitName cs).1 ≠ [])
    (hindex : (splitName cs).2 = '(' :: ds) :
    finished? (readReference cs) = (finished? (readPieces .atParen ds)).map fun x =>
      (.element (String.ofList (splitName cs).1) x.1, x.2.tail) := by
  unfold readReference
  split
  · exact absurd rfl (ne_brace_of_splitName hname _)
  · rw [if_neg (by simpa using hname)]
    split
    · next h' =>
      cases hindex.symm.trans h'
      cases hr : (readPieces .atParen ds).2 <;>
        simp [finished?, hr, Rest.text?, Rest.weaken, Rest.tail]
    · next h' => exact absurd hindex (h' ds)

theorem finished?_readReference_variable {cs : List Char} (hname : (splitName cs).1 ≠ [])
    (hindex : ∀ ds, (splitName cs).2 ≠ '(' :: ds) :
    finished? (readReference cs) =
      some (.variable (String.ofList (splitName cs).1), (splitName cs).2) := by
  unfold readReference
  split
  · exact absurd rfl (ne_brace_of_splitName hname _)
  · rw [if_neg (by simpa using hname)]
    split
    · next h' => exact absurd h' (hindex _)
    · rfl

/-! ## Words -/

theorem finished?_closeQuoted (nested : Bool) (r : List Piece × Rest n) :
    finished? (closeQuoted nested r) = (finished? r).bind fun x =>
      if mayFollow nested x.2.tail then some (x.1, x.2.tail) else none := by
  rcases r with ⟨pieces, _ | rest⟩
  · rfl
  · rw [closeQuoted]
    split
    · next h =>
      rw [finished?_some, Option.bind_some, if_pos h]
      rfl
    · next h =>
      rw [finished?_some, Option.bind_some, if_neg h]
      rfl

theorem finished?_readBraced (nested : Bool) (cs : List Char) :
    finished? (readBraced nested cs) = (closeAt? '{' '}' 0 cs).bind fun x =>
      if mayFollow nested x.2 then some ([.literal x.1], x.2) else none := by
  cases hclose : closeAt? '{' '}' 0 cs with
  | none =>
    unfold readBraced
    split
    · rfl
    · next h => simp [braced?_eq, hclose] at h
  | some x =>
    obtain ⟨inner, rest⟩ := x
    unfold readBraced
    split
    · next h => simp [braced?_eq, hclose] at h
    · next h =>
      rw [braced?_eq, hclose] at h
      cases h
      rw [Option.bind_some]
      split <;> rfl

/-- The pieces of a word that starts with a character, if that character delimits it, and those
of a bare one otherwise. -/
def wordPieces? (nested : Bool) (c : Char) (cs : List Char)
    (bare : Option (List Piece × List Char)) : Option (List Piece × List Char) :=
  if c = '{' then finished? (readBraced nested cs)
  else if c = '"' then finished? (closeQuoted nested (readPieces .atQuote cs))
  else bare

def barePieces? (nested : Bool) (c : Char) (cs : List Char) : Option (List Piece × List Char) :=
  (finished? (readPiece (.atWordEnd nested) c cs)).bind fun x =>
    (finished? (readPieces (.atWordEnd nested) x.2)).map fun y => (x.1 :: y.1, y.2)

theorem finished?_readWord_plain {nested : Bool} {c : Char} {cs : List Char}
    (h : expanded? nested c cs = none) :
    finished? (readWord nested c cs) =
      (wordPieces? nested c cs (barePieces? nested c cs)).map fun x => (.mk false x.1, x.2) := by
  unfold readWord wordPieces?
  split
  · simp_all
  · simp_all
  · split
    · exact finished?_map (readBraced nested cs) (Word.mk false)
    · split
      · exact finished?_map _ (Word.mk false)
      · unfold barePieces?
        rcases readPiece (.atWordEnd nested) c cs with ⟨p, _ | rest⟩
        · rfl
        · simp only [finished?_some, Option.bind_some, Option.map_map]
          exact finished?_mk (readPieces (.atWordEnd nested) rest.1)
            (fun ps => Word.mk false (p :: ps)) _

theorem finished?_readWord_expanded {nested : Bool} {c d : Char} {cs ds : List Char}
    (h : expanded? nested c cs = some (d :: ds)) :
    finished? (readWord nested c cs) =
      (wordPieces? nested d ds (finished? (readPieces (.atWordEnd nested) (d :: ds)))).map
        fun x => (.mk true x.1, x.2) := by
  unfold readWord wordPieces?
  split
  · simp_all
  · next h' =>
    cases h.symm.trans h'
    split
    · exact finished?_mk (readBraced nested ds) (Word.mk true) _
    · split
      · exact finished?_mk _ (Word.mk true) _
      · exact finished?_mk (readPieces (.atWordEnd nested) (d :: ds)) (Word.mk true) _
  · next h' => cases h.symm.trans h'

theorem expanded?_of_ne {nested : Bool} {c : Char} (h : c ≠ '{') (cs : List Char) :
    expanded? nested c cs = none := by
  unfold expanded?
  split
  · exact absurd rfl h
  · rfl

/-! ## Words of plain characters -/

section
variable {nested : Bool} {c : Char} (text : List Char) {rest : List Char}

/-- Characters that stand for themselves, up to where they have to end, are one piece. -/
theorem finished?_readPiece_plain {stop : Stop} (hplain : (c :: text).all stop.isPlain = true)
    (hrest : ∀ d ∈ rest.head?, stop.isPlain d = false) :
    finished? (readPiece stop c (text ++ rest)) = some (.literal (c :: text), rest) := by
  obtain ⟨hc, htext⟩ : stop.isPlain c = true ∧ ∀ d ∈ text, stop.isPlain d = true := by
    rwa [List.all_cons, Bool.and_eq_true, List.all_eq_true] at hplain
  simp only [Stop.isPlain, Bool.not_eq_true', Bool.or_eq_false_iff, beq_eq_false_iff_ne] at hc
  obtain ⟨htake, hdrop⟩ := span_append htext hrest
  rw [finished?_readPiece_literal _ hc.1.1.1 hc.1.1.2 hc.1.2, htake, hdrop]

theorem finished?_readWord_bare (hplain : (c :: text).all (Stop.atWordEnd nested).isPlain = true)
    (hbrace : c ≠ '{') (hquote : c ≠ '"') (hrest : EndsWord nested rest) :
    finished? (readWord nested c (text ++ rest)) =
      some (.mk false [.literal (c :: text)], rest) := by
  have hend : ∀ d ∈ rest.head?, (Stop.atWordEnd nested).isPlain d = false := fun d hd => by
    simp [Stop.isPlain, Stop.closes, hrest d hd]
  have hnone : finished? (readPieces (.atWordEnd nested) rest) = some ([], rest) :=
    finished?_eq_some_iff.mpr (endsAt_of_endsWord hrest)
  rw [finished?_readWord_plain (expanded?_of_ne hbrace _), wordPieces?, if_neg hbrace,
    if_neg hquote, barePieces?, finished?_readPiece_plain text hplain hend, Option.bind_some, hnone]
  rfl

theorem finished?_readWord_quoted (hplain : (c :: text).all Stop.atQuote.isPlain = true)
    (hrest : mayFollow nested rest = true) :
    finished? (readWord nested '"' (c :: (text ++ '"' :: rest))) =
      some (.mk false [.literal (c :: text)], rest) := by
  have hc : Stop.atQuote.isPlain c = true := (Bool.and_eq_true_iff.mp hplain).1
  have hend : ∀ d ∈ ('"' :: rest).head?, Stop.atQuote.isPlain d = false := by
    rintro d ⟨rfl⟩
    rfl
  have hnone : finished? (readPieces .atQuote ('"' :: rest)) = some ([], '"' :: rest) :=
    finished?_readPieces_stop rfl
  rw [finished?_readWord_plain (expanded?_of_ne (by decide) _), wordPieces?, if_neg (by decide),
    if_pos rfl, finished?_closeQuoted, finished?_readPieces_cons (Stop.stopsAt_of_isPlain hc _),
    finished?_readPiece_plain text hplain hend, Option.bind_some, hnone, Option.map_some,
    Option.bind_some, List.tail_cons, if_pos hrest]
  rfl

end

/-! ## Commands -/

theorem finished?_readWords_nil {nested : Bool} {cs : List Char} (h : skipBlanks cs = []) :
    finished? (readWords nested cs) = some ([], []) := by
  rw [readWords]
  split
  · rfl
  · simp_all

section
variable {nested : Bool} {cs tail : List Char} {c : Char} (h : skipBlanks cs = c :: tail)
include h

theorem finished?_readWords_lineEnd (hc : c = '\n' ∨ c = ';') :
    finished? (readWords nested cs) = some ([], tail) := by
  rw [readWords]
  split
  · simp_all
  · next h' =>
    cases h.symm.trans h'
    rw [if_pos hc]
    rfl

theorem finished?_readWords_bracket (hc : nested ∧ c = ']') :
    finished? (readWords nested cs) = some ([], c :: tail) := by
  rw [readWords]
  split
  · simp_all
  · next h' =>
    cases h.symm.trans h'
    rw [if_neg (by simp [hc.2]), if_pos hc]
    rfl

theorem finished?_readWords_word (hc : ¬(c = '\n' ∨ c = ';')) (hc' : ¬(nested ∧ c = ']')) :
    finished? (readWords nested cs) = finished? (readCommand nested c tail) := by
  rw [readWords, readCommand]
  split
  · simp_all
  · next h' =>
    cases h.symm.trans h'
    rw [if_neg hc, if_neg hc']
    rcases readWord nested c tail with ⟨w, _ | rest⟩
    · rfl
    · exact (finished?_mk (readWords nested rest.1) (w :: ·) _).trans
        (finished?_mk (readWords nested rest.1) (w :: ·) _).symm

end

theorem finished?_readCommand (nested : Bool) (c : Char) (cs : List Char) :
    finished? (readCommand nested c cs) = (finished? (readWord nested c cs)).bind fun x =>
      (finished? (readWords nested x.2)).map fun y => (x.1 :: y.1, y.2) := by
  rw [readCommand]
  rcases readWord nested c cs with ⟨w, _ | rest⟩
  · rfl
  · exact finished?_mk (readWords nested rest.1) (w :: ·) _

theorem finished?_readCommands_nil {nested : Bool} {cs : List Char} (h : skipSeparators cs = []) :
    finished? (readCommands nested cs) = if nested then none else some ([], []) := by
  rw [readCommands]
  split
  · cases nested <;> rfl
  · simp_all

section
variable {nested : Bool} {cs tail : List Char} {c : Char} (h : skipSeparators cs = c :: tail)
include h

theorem finished?_readCommands_bracket (hc : nested ∧ c = ']') :
    finished? (readCommands nested cs) = some ([], tail) := by
  rw [readCommands]
  split
  · simp_all
  · next h' =>
    cases h.symm.trans h'
    rw [if_pos hc]
    rfl

theorem finished?_readCommands_comment (hc : c = '#') :
    finished? (readCommands nested cs) = finished? (readCommands nested (skipComment tail)) := by
  rw [readCommands]
  split
  · simp_all
  · next h' =>
    cases h.symm.trans h'
    rw [if_neg (by simp [hc]), if_pos hc]
    exact (finished?_mk (readCommands nested (skipComment tail)) id _).trans (by simp)

theorem finished?_readCommands_command (hc : ¬(nested ∧ c = ']')) (hc' : c ≠ '#') :
    finished? (readCommands nested cs) = (finished? (readCommand nested c tail)).bind fun x =>
      (finished? (readCommands nested x.2)).map fun y => (.words x.1 :: y.1, y.2) := by
  rw [readCommands]
  split
  · simp_all
  · next h' =>
    cases h.symm.trans h'
    rw [if_neg hc, if_neg hc']
    rcases readCommand nested c tail with ⟨ws, _ | rest⟩
    · rfl
    · exact finished?_mk (readCommands nested rest.1) (Command.words ws :: ·) _

end

end TclHost.Script
