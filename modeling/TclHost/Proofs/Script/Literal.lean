import TclHost.Interp.Substitution
import TclHost.Proofs.Text.Written
/-! # Words that stand for a fixed text

The value of a run of pieces that starts with a written text is the value of that text and then
that of the pieces behind it.  So a word that is a written text and nothing else denotes a fixed
text: its value needs no variable, no script and no state.
-/
namespace TclHost.Script

open Text

namespace Rest

def text? {n : Nat} (rest : Rest n) : Option (List Char) :=
  rest.map Subtype.val

@[simp] theorem text?_weaken {m n : Nat} (h : m ≤ n) (rest : Rest m) :
    (rest.weaken h).text? = rest.text? := by
  cases rest <;> rfl

@[simp] theorem text?_tail {n : Nat} (rest : Rest n) :
    rest.tail.text? = rest.text?.map List.tail := by
  cases rest <;> rfl

theorem text?_eq_some_iff {n : Nat} {rest : Rest n} {cs : List Char} :
    rest.text? = some cs ↔ ∃ h, rest = some ⟨cs, h⟩ := by
  cases rest with
  | none => simp [text?]
  | some r =>
    constructor
    · rintro ⟨rfl⟩
      exact ⟨r.2, rfl⟩
    · rintro ⟨h, hr⟩
      simp [text?, Option.some.inj hr]

end Rest

namespace Stop

theorem closes_backslash (stop : Stop) : stop.closes '\\' = false := by
  cases stop with
  | atWordEnd nested => cases nested <;> rfl
  | _ => rfl

theorem stopsAt_of_isPlain {stop : Stop} {c : Char} (hc : stop.isPlain c = true)
    (cs : List Char) : stop.stopsAt c cs = false := by
  simp only [isPlain, Bool.not_eq_true', Bool.or_eq_false_iff, beq_eq_false_iff_ne] at hc
  obtain ⟨⟨⟨-, -⟩, hb⟩, hcloses⟩ := hc
  cases stop <;> simp [stopsAt, hcloses, hb]

end Stop

/-- Characters that stand for themselves are one piece as far as they go. -/
theorem readPieces_of_isPlain {stop : Stop} {c : Char} (hc : stop.isPlain c = true)
    (cs : List Char) :
    (readPieces stop (c :: cs)).1 = .literal (c :: cs.takeWhile stop.isPlain) ::
        (readPieces stop (cs.dropWhile stop.isPlain)).1 ∧
      (readPieces stop (c :: cs)).2.text? =
        (readPieces stop (cs.dropWhile stop.isPlain)).2.text? := by
  have hpiece : readPiece stop c cs = (.literal (c :: cs.takeWhile stop.isPlain),
      some ⟨cs.dropWhile stop.isPlain, (List.dropWhile_sublist _).length_le⟩) := by
    simp only [Stop.isPlain, Bool.not_eq_true', Bool.or_eq_false_iff, beq_eq_false_iff_ne] at hc
    rw [readPiece, if_neg hc.1.1.1, if_neg hc.1.1.2, if_neg hc.1.2]
  rw [readPieces]
  simp [Stop.stopsAt_of_isPlain hc, hpiece]

theorem readPieces_backslash {stop : Stop} {cs : List Char}
    (hstop : stop.stopsAt '\\' cs = false) :
    (readPieces stop ('\\' :: cs)).1 = .literal [(Escape.read cs).1] ::
        (readPieces stop (Escape.read cs).2).1 ∧
      (readPieces stop ('\\' :: cs)).2.text? =
        (readPieces stop (Escape.read cs).2).2.text? := by
  have hpiece : readPiece stop '\\' cs = (.literal [(Escape.read cs).1],
      some ⟨(Escape.read cs).2, Escape.read_snd_length_le cs⟩) := by
    rw [readPiece, if_neg (by decide), if_neg (by decide), if_pos rfl]
  rw [readPieces]
  simp [hstop, hpiece]

@[simp] theorem valueAfter_literal (run : Script → Eval String) (before : String)
    (text : List Char) (ps : List Piece) :
    valueAfter run before (.literal text :: ps) =
      valueAfter run (before ++ String.ofList text) ps := by
  rw [valueAfter, Piece.value]
  exact pure_bind _ _

/-- Two runs of pieces read on to the same place, the first one with a text in front of the
value of the second. -/
def Prepends (text : List Char) (stop : Stop) (cs cs' : List Char) : Prop :=
  (readPieces stop cs).2.text? = (readPieces stop cs').2.text? ∧
    ∀ run before, valueAfter run before (readPieces stop cs).1 =
      valueAfter run (before ++ String.ofList text) (readPieces stop cs').1

/-- One more plain character in front is one more character in front of the value. -/
theorem prepends_of_isPlain {stop : Stop} {c : Char} (hc : stop.isPlain c = true)
    (cs : List Char) : Prepends [c] stop (c :: cs) cs := by
  obtain ⟨hpieces, hrest⟩ := readPieces_of_isPlain hc cs
  -- A plain character behind it belongs to the same piece.
  rcases cs with _ | ⟨d, ds⟩
  · exact ⟨hrest, fun run before => by rw [hpieces]; simp⟩
  · cases hd : stop.isPlain d with
    | true =>
      obtain ⟨hpieces', hrest'⟩ := readPieces_of_isPlain hd ds
      constructor
      · rw [hrest, hrest', List.dropWhile_cons_of_pos hd]
      · intro run before
        rw [hpieces, hpieces', List.takeWhile_cons_of_pos hd, List.dropWhile_cons_of_pos hd,
          valueAfter_literal, valueAfter_literal, String.append_assoc, ← String.ofList_append]
        rfl
    | false =>
      constructor
      · rw [hrest, List.dropWhile_cons_of_neg (by simp [hd])]
      · intro run before
        rw [hpieces, List.takeWhile_cons_of_neg (by simp [hd]),
          List.dropWhile_cons_of_neg (by simp [hd])]
        simp

theorem Prepends.refl (stop : Stop) (cs : List Char) : Prepends [] stop cs cs :=
  ⟨rfl, fun run before => by simp⟩

theorem Prepends.trans {stop : Stop} {text text' cs cs' cs'' : List Char}
    (h : Prepends text stop cs cs') (h' : Prepends text' stop cs' cs'') :
    Prepends (text ++ text') stop cs cs'' := by
  refine ⟨h.1.trans h'.1, ?_⟩
  intro run before
  rw [h.2, h'.2, String.append_assoc, ← String.ofList_append]

/-- A written text in front is its value in front of the value. -/
theorem prepends_of_written {stop : Stop} {plain : Char → Bool} {q v : List Char}
    (h : Written plain q v) (hp : ∀ c, plain c = true → stop.isPlain c = true)
    (rest : List Char) : Prepends v stop (q ++ rest) rest := by
  induction h with
  | nil => exact .refl stop rest
  | literal hc _ ih => exact (prepends_of_isPlain (hp _ hc) _).trans ih
  | @escape c d ds q v hd _ hread _ ih =>
    have hstop : stop.stopsAt '\\' (d :: (ds ++ (q ++ rest))) = false := by
      cases stop <;> simp [Stop.stopsAt, Stop.closes_backslash, hd]
    obtain ⟨hpieces, hrest⟩ := readPieces_backslash hstop
    rw [hread] at hpieces hrest
    have hfirst : Prepends [c] stop ('\\' :: d :: (ds ++ (q ++ rest))) (q ++ rest) :=
      ⟨hrest, fun run before => by rw [hpieces, valueAfter_literal]⟩
    simpa using hfirst.trans ih

def Stop.EndsAt (stop : Stop) (rest : List Char) : Prop :=
  (readPieces stop rest).1 = [] ∧ (readPieces stop rest).2.text? = some rest

theorem endsAt_cons {stop : Stop} {c : Char} {cs : List Char}
    (h : stop.stopsAt c cs = true) : stop.EndsAt (c :: cs) := by
  rw [Stop.EndsAt, readPieces, if_pos h]
  exact ⟨rfl, rfl⟩

theorem endsAt_nil {stop : Stop} (h : stop.fault? = none) : stop.EndsAt [] := by
  rw [Stop.EndsAt, readPieces, h]
  exact ⟨rfl, rfl⟩

/-- Up to where the run ends, a written text is all there is to its value. -/
theorem readPieces_of_written {stop : Stop} {plain : Char → Bool} {q v rest : List Char}
    (h : Written plain q v) (hp : ∀ c, plain c = true → stop.isPlain c = true)
    (hrest : stop.EndsAt rest) :
    (readPieces stop (q ++ rest)).2.text? = some rest ∧
      ∀ run before, valueAfter run before (readPieces stop (q ++ rest)).1 =
        pure (before ++ String.ofList v) := by
  obtain ⟨htext, hvalue⟩ := prepends_of_written h hp rest
  refine ⟨htext.trans hrest.2, ?_⟩
  intro run before
  rw [hvalue, hrest.1, valueAfter]

/-! ### Words -/

def EndsWord (nested : Bool) (rest : List Char) : Prop :=
  ∀ c ∈ rest.head?, isWordEnd nested c = true

/-- A text is read as one word up to the rest, and the word denotes a fixed text, whatever runs
the scripts of its pieces and in whatever state. -/
def ReadsAs (nested : Bool) (text : List Char) (w : String) (rest : List Char) : Prop :=
  ∃ c cs, text = c :: cs ∧ (readWord nested c cs).2.text? = some rest ∧
    ∀ run, (readWord nested c cs).1.values run = pure [w]

theorem mayFollow_of_endsWord {nested : Bool} {rest : List Char} (h : EndsWord nested rest) :
    mayFollow nested rest = true := by
  cases rest with
  | nil => rfl
  | cons c rest => simp [mayFollow, h c (by simp)]

theorem endsAt_of_endsWord {nested : Bool} {rest : List Char} (h : EndsWord nested rest) :
    (Stop.atWordEnd nested).EndsAt rest := by
  cases rest with
  | nil => exact endsAt_nil rfl
  | cons c rest => exact endsAt_cons (by simp [Stop.stopsAt, Stop.closes, h c (by simp)])

theorem values_of_valueAfter {run : Script → Eval String} {pieces : List Piece} {w : String}
    (h : valueAfter run "" pieces = pure w) : (Word.mk false pieces).values run = pure [w] := by
  rw [Word.values, h]
  exact pure_bind _ _

theorem readsAs_quoted {nested : Bool} {plain : Char → Bool} {q v rest : List Char}
    (h : Written plain q v) (hp : ∀ c, plain c = true → Stop.atQuote.isPlain c = true)
    (hrest : mayFollow nested rest = true) :
    ReadsAs nested ('"' :: (q ++ '"' :: rest)) (String.ofList v) rest := by
  obtain ⟨htext, hvalue⟩ := readPieces_of_written h hp
    (endsAt_cons (show Stop.atQuote.stopsAt '"' rest = true from rfl))
  obtain ⟨hle, hr⟩ := Rest.text?_eq_some_iff.mp htext
  have hword : readWord nested '"' (q ++ '"' :: rest) =
      (.mk false (readPieces .atQuote (q ++ '"' :: rest)).1,
        Rest.tail (some ⟨'"' :: rest, hle⟩)) := by
    rw [readWord]
    split
    · next he => simp [expanded?] at he
    · next he => simp [expanded?] at he
    · have hpair : readPieces .atQuote (q ++ '"' :: rest) =
          ((readPieces .atQuote (q ++ '"' :: rest)).1, some ⟨'"' :: rest, hle⟩) :=
        Prod.ext rfl hr
      rw [if_neg (by decide), if_pos rfl]
      conv => lhs; rw [hpair]
      simp [closeQuoted, hrest]
  refine ⟨'"', _, rfl, ?_, ?_⟩
  · rw [hword]
    rfl
  · intro run
    rw [hword]
    exact values_of_valueAfter ((hvalue run "").trans (by simp))

/-- A text between braces that close behind it is a word: it is not the mark of an expanded
one, because that mark must not be followed by the end of a word. -/
theorem readsAs_braced {nested : Bool} {v rest : List Char}
    (hclose : closeAt? '{' '}' 0 (v ++ '}' :: rest) = some (v, rest))
    (hrest : EndsWord nested rest) :
    ReadsAs nested ('{' :: (v ++ '}' :: rest)) (String.ofList v) rest := by
  have hexpand : expanded? nested '{' (v ++ '}' :: rest) = none := by
    unfold expanded?
    split
    · next d ds _ heq =>
      rw [heq, closeAt?_other _ _ (by decide) (by decide), if_neg (by decide),
        closeAt?_closing_zero _ (by decide)] at hclose
      cases hclose
      rw [if_pos (hrest d (by simp))]
    · rfl
  have hword : readWord nested '{' (v ++ '}' :: rest) =
      (.mk false (readBraced nested (v ++ '}' :: rest)).1,
        (readBraced nested (v ++ '}' :: rest)).2) := by
    rw [readWord]
    split
    · next he => simp [hexpand] at he
    · next he => simp [hexpand] at he
    · rw [if_pos rfl]
  have hbraced : (readBraced nested (v ++ '}' :: rest)).1 = [.literal v] ∧
      (readBraced nested (v ++ '}' :: rest)).2.text? = some rest := by
    unfold readBraced
    split
    · next hb => simp [braced?_eq, hclose] at hb
    · next hb =>
      rw [braced?_eq, hclose] at hb
      cases hb
      simp [mayFollow_of_endsWord hrest, Rest.text?]
  refine ⟨'{', _, rfl, ?_, ?_⟩
  · rw [hword]
    exact hbraced.2
  · intro run
    rw [hword, hbraced.1]
    exact values_of_valueAfter (by simp [valueAfter, Piece.value])

theorem readWord_bare {nested : Bool} {c : Char} {cs : List Char} (hbrace : c ≠ '{')
    (hquote : c ≠ '"') (hstop : (Stop.atWordEnd nested).stopsAt c cs = false) :
    (readWord nested c cs).1 = .mk false (readPieces (.atWordEnd nested) (c :: cs)).1 ∧
      (readWord nested c cs).2.text? =
        (readPieces (.atWordEnd nested) (c :: cs)).2.text? := by
  have hexpand : expanded? nested c cs = none := by
    unfold expanded?
    split
    · exact absurd rfl hbrace
    · rfl
  rw [readWord, readPieces]
  split
  · next he => simp [hexpand] at he
  · next he => simp [hexpand] at he
  · rw [if_neg hbrace, if_neg hquote, if_neg (by simp [hstop])]
    rcases readPiece (.atWordEnd nested) c cs with ⟨p, _ | rest⟩
    · exact ⟨rfl, rfl⟩
    · exact ⟨rfl, by simp⟩

theorem readsAs_bare {nested : Bool} {plain : Char → Bool} {c : Char} {q v rest : List Char}
    (h : Written plain (c :: q) v)
    (hp : ∀ c, plain c = true → (Stop.atWordEnd nested).isPlain c = true ∧ c ≠ '{' ∧ c ≠ '"')
    (hrest : EndsWord nested rest) :
    ReadsAs nested (c :: (q ++ rest)) (String.ofList v) rest := by
  obtain ⟨htext, hvalue⟩ := readPieces_of_written h (fun c hc => (hp c hc).1)
    (endsAt_of_endsWord hrest)
  have hstart : (Stop.atWordEnd nested).stopsAt c (q ++ rest) = false ∧ c ≠ '{' ∧ c ≠ '"' := by
    cases h with
    | literal hc _ => exact ⟨Stop.stopsAt_of_isPlain (hp c hc).1 _, (hp c hc).2⟩
    | escape hd _ _ _ => simp [Stop.stopsAt, Stop.closes_backslash, hd]
  obtain ⟨hword, hnext⟩ := readWord_bare hstart.2.1 hstart.2.2 hstart.1
  refine ⟨c, _, rfl, hnext.trans htext, ?_⟩
  intro run
  rw [hword]
  exact values_of_valueAfter ((hvalue run "").trans (by simp))

end TclHost.Script
