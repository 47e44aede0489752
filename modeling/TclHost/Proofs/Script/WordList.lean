import TclHost.Proofs.Evaluation.Nesting
import TclHost.Proofs.Script.Literal
/-! # A script that is one list of words

Texts that each read as one fixed word, joined by spaces, are one command with those words, unless
the first one starts a comment.  Evaluating them is running that command one level further
down.
-/
namespace TclHost.Script

open Text

/-- A text starts a word if it is passed over by neither blanks nor separators. -/
def StartsWord (c : Char) (cs : List Char) : Prop :=
  isWordEnd false c = false ∧ (c = '\\' → cs.head? ≠ some '\n')

theorem skipSeparators_of_startsWord {c : Char} {cs : List Char} (h : StartsWord c cs) :
    skipSeparators (c :: cs) = c :: cs := by
  obtain ⟨hc, hline⟩ := h
  rw [skipSeparators.eq_def]
  simp only [hc, Bool.false_eq_true, if_false]
  split
  · next hb =>
    split
    · exact absurd rfl (hline hb)
    · rfl
  · rfl

theorem skipBlanks_of_startsWord {c : Char} {cs : List Char} (h : StartsWord c cs) :
    skipBlanks (c :: cs) = c :: cs := by
  obtain ⟨hc, hline⟩ := h
  simp only [isWordEnd, Bool.or_eq_false_iff] at hc
  rw [skipBlanks.eq_def]
  simp only [hc, Bool.or_false, Bool.false_eq_true, if_false]
  split
  · next hb =>
    split
    · exact absurd rfl (hline hb)
    · rfl
  · rfl

theorem skipBlanks_space (cs : List Char) : skipBlanks (' ' :: cs) = skipBlanks cs := by
  rw [skipBlanks.eq_def]
  simp

theorem skipComment_append {cs : List Char} (h : ∀ c ∈ cs, c ≠ '\\' ∧ c ≠ '\n')
    (rest : List Char) : skipComment (cs ++ rest) = skipComment rest := by
  induction cs with
  | nil => rfl
  | cons c cs ih =>
    rw [List.cons_append, skipComment.eq_def]
    simp [h c (by simp), ih fun x hx => h x (by simp [hx])]

theorem skipComment_of_written {plain : Char → Bool} {q v : List Char} (h : Written plain q v)
    (hp : ∀ c, plain c = true → c ≠ '\\' ∧ c ≠ '\n') (rest : List Char) :
    skipComment (q ++ rest) = skipComment rest := by
  induction h with
  | nil => rfl
  | @literal c q v hc _ ih =>
    have hfirst : skipComment ([c] ++ (q ++ rest)) = skipComment (q ++ rest) :=
      skipComment_append (by simp [hp c hc]) _
    exact hfirst.trans ih
  | escape _ hds _ _ ih =>
    rw [List.cons_append, List.cons_append, List.append_assoc, skipComment.eq_def]
    simp [skipComment_append (fun x hx => hp x (hds x hx)), ih]

/-- A text that starts a word, and reads as one fixed word in front of a space or at the end of
a script. -/
structure WordForm (q : List Char) (w : String) : Prop where
  starts : ∃ c cs, q = c :: cs ∧ ∀ rest, StartsWord c (cs ++ rest)
  reads : ∀ rest, EndsWord false rest → ReadsAs false (q ++ rest) w rest

def isBare (c : Char) : Bool :=
  (Stop.atWordEnd false).isPlain c && c != '{' && c != '"'

theorem wordForm_of_isBare {w : String} (hne : w ≠ "")
    (hall : w.toList.all isBare = true) : WordForm w.toList w := by
  have h := List.all_eq_true.mp hall
  have hwritten := Written.of_all h
  have hbare (c : Char) (hc : isBare c = true) :
      (Stop.atWordEnd false).isPlain c = true ∧ c ≠ '{' ∧ c ≠ '"' := by
    simpa [isBare, and_assoc] using hc
  obtain ⟨c, cs, hcs⟩ := List.exists_cons_of_ne_nil (mt String.toList_eq_nil_iff.mp hne)
  rw [hcs] at h hwritten
  constructor
  · refine ⟨c, cs, hcs, ?_⟩
    intro rest
    have hplain := (hbare c (h c (by simp))).1
    simp only [Stop.isPlain, Stop.closes, Bool.not_eq_true', Bool.or_eq_false_iff,
      beq_eq_false_iff_ne] at hplain
    exact ⟨hplain.2, fun hb => absurd hb hplain.1.2⟩
  · intro rest hrest
    have hread := readsAs_bare hwritten hbare hrest
    rwa [← List.cons_append, ← hcs, String.ofList_toList] at hread

theorem WordForm.readWord {q : List Char} {w : String} (h : WordForm q w) {rest : List Char}
    (hrest : EndsWord false rest) :
    ∃ c tail word hle, q.head? = some c ∧ q ++ rest = c :: tail ∧ StartsWord c tail ∧
      readWord false c tail = (word, some ⟨rest, hle⟩) ∧ ∀ run, word.values run = pure [w] := by
  obtain ⟨c, cs, rfl, hstart⟩ := h.starts
  obtain ⟨c', tail, hcons, hnext, hvalues⟩ := h.reads rest hrest
  cases hcons
  obtain ⟨hle, hr⟩ := Rest.text?_eq_some_iff.mp hnext
  exact ⟨c, cs ++ rest, _, hle, rfl, rfl, hstart rest, Prod.ext rfl hr, hvalues⟩

/-- Texts with at least one space in front of each, and spaces behind the last one. -/
inductive Apart : List (List Char) → List Char → Prop
  | nil (k : Nat) : Apart [] (List.replicate k ' ')
  | cons (k : Nat) (q : List Char) {qs : List (List Char)} {rest : List Char} :
    Apart qs rest → Apart (q :: qs) (List.replicate (k + 1) ' ' ++ (q ++ rest))

theorem apart_spaced (qs : List (List Char)) : Apart qs (spaced qs) := by
  induction qs with
  | nil => exact .nil 0
  | cons q qs ih => exact .cons 0 q ih

theorem Apart.endsWord {qs : List (List Char)} {cs : List Char} (h : Apart qs cs) :
    EndsWord false cs := by
  cases h with
  | nil k => cases k <;> simp [EndsWord, List.replicate_succ, isWordEnd]
  | cons => simp [EndsWord, List.replicate_succ, isWordEnd]

theorem skipBlanks_spaces (k : Nat) (cs : List Char) :
    skipBlanks (List.replicate k ' ' ++ cs) = skipBlanks cs := by
  induction k with
  | zero => rfl
  | succ k ih => rw [List.replicate_succ, List.cons_append, skipBlanks_space, ih]

theorem readWords_of_word {cs tail : List Char} {c : Char} {w : Word}
    {rest : { cs : List Char // cs.length ≤ tail.length }} (h : skipBlanks cs = c :: tail)
    (hc : isWordEnd false c = false) (hr : readWord false c tail = (w, some rest)) :
    (readWords false cs).1 = w :: (readWords false rest.1).1 ∧
      (readWords false cs).2.text? = (readWords false rest.1).2.text? := by
  have hend : ¬(c = '\n' ∨ c = ';') := by
    rintro (rfl | rfl) <;> simp [isWordEnd] at hc
  rw [readWords]
  split
  · simp_all
  · next h' =>
    cases h.symm.trans h'
    simp [hend, hr]

section
variable {form : String → List Char} {ws : List String}

/-- Words with spaces in front of each are the words of a command up to its end. -/
theorem readWords_apart {cs : List Char} (happart : Apart (ws.map form) cs)
    (h : ∀ w ∈ ws, WordForm (form w) w) :
    (readWords false cs).2.text? = some [] ∧
      ∀ run, wordValues run (readWords false cs).1 = pure ws := by
  induction ws generalizing cs with
  | nil =>
    obtain ⟨k⟩ := happart
    have hskip : skipBlanks (List.replicate k ' ') = [] := by
      simpa [skipBlanks.eq_1] using skipBlanks_spaces k []
    rw [readWords]
    split
    · exact ⟨rfl, fun run => rfl⟩
    · simp_all
  | cons w ws ih =>
    obtain ⟨-⟩ | ⟨k, -, hrest⟩ := happart
    next rest =>
    obtain ⟨htext, hvalues⟩ := ih hrest fun v hv => h v (by simp [hv])
    obtain ⟨c, tail, word, hle, -, hcons, hstart, hread, hword⟩ :=
      (h w (by simp)).readWord hrest.endsWord
    have hskip : skipBlanks (List.replicate (k + 1) ' ' ++ (form w ++ rest)) = c :: tail := by
      rw [skipBlanks_spaces, hcons, skipBlanks_of_startsWord hstart]
    obtain ⟨hwords, hnext⟩ := readWords_of_word hskip hstart.1 hread
    refine ⟨hnext.trans htext, ?_⟩
    intro run
    rw [hwords, wordValues, hword, hvalues]
    rfl

/-- Words apart from each other are one command, unless the first one starts a comment. -/
theorem readCommands_apart {w : String} {cs : List Char} (hw : WordForm (form w) w)
    (happart : Apart (ws.map form) cs) (h : ∀ v ∈ ws, WordForm (form v) v)
    (hcomment : (form w).head? ≠ some '#') :
    ∃ words, (readCommands false (form w ++ cs)).1 = [.words words] ∧
      ∀ run, wordValues run words = pure (w :: ws) := by
  obtain ⟨htext, hvalues⟩ := readWords_apart happart h
  obtain ⟨c, tail, word, hle, hhead, hcons, hstart, hread, hword⟩ := hw.readWord happart.endsWord
  obtain ⟨hle', hr⟩ := Rest.text?_eq_some_iff.mp htext
  have hcommand : readCommand false c tail =
      (word :: (readWords false cs).1, some ⟨[], Nat.zero_le _⟩) := by
    rw [readCommand, hread]
    simp only
    rw [hr]
    rfl
  have hc : c ≠ '#' := fun hc => hcomment (hc ▸ hhead)
  refine ⟨word :: (readWords false cs).1, ?_, ?_⟩
  · rw [hcons, readCommands_of_command (skipSeparators_of_startsWord hstart) hc hcommand,
      readCommands_of_nil (skipSeparators.eq_1)]
  · intro run
    rw [wordValues, hword, hvalues]
    rfl

theorem runText_nil (env : Env) (invoke : List String → Eval String) (result : String) :
    runText env invoke result [] = pure result := by
  rw [runText_eq, readCommands_of_nil (skipSeparators.eq_1), runCommands]

theorem runText_apart (form : String → List Char) (env : Env)
    (invoke : List String → Eval String) {w : String} {cs : List Char} (hw : WordForm (form w) w)
    (happart : Apart (ws.map form) cs) (h : ∀ v ∈ ws, WordForm (form v) v)
    (hcomment : (form w).head? ≠ some '#') :
    runText env invoke "" (form w ++ cs) = invoke (w :: ws) := by
  obtain ⟨words, hread, hvalues⟩ := readCommands_apart hw happart h hcomment
  rw [runText_eq, hread, runCommands, runWords, hvalues, pure_bind]
  exact bind_pure _

/-- Words joined by spaces run as one command with those words. -/
theorem runText_wordForms (form : String → List Char) (env : Env)
    (invoke : List String → Eval String) {w : String} (hw : WordForm (form w) w)
    (h : ∀ v ∈ ws, WordForm (form v) v) (hcomment : (form w).head? ≠ some '#') :
    runText env invoke "" (form w ++ spaced (ws.map form)) = invoke (w :: ws) :=
  runText_apart form env invoke hw (apart_spaced _) h hcomment

end

end TclHost.Script
