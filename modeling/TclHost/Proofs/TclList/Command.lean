import TclHost.Proofs.Script.WordList
import TclHost.Proofs.TclList.RoundTrip
/-! # Running a written list

Each form of an element is also one word of a script, so a written list runs as the command of
its elements.  One form is an exception at the front of a list: an element that starts with a
number sign and cannot stand in braces is written with the number sign first, which a script
takes for a comment.
-/
namespace TclHost.TclList

open Text Script

theorem isPlain_of_not_isSpecial {c : Char} (hc : (!isSpecial c) = true) :
    (Stop.atWordEnd false).isPlain c = true ∧ c ≠ '{' ∧ c ≠ '"' := by
  simp [Stop.isPlain, Stop.closes, isWordEnd, ne_of_not_isSpecial hc]

theorem wordForm_quoteChars (cs : List Char) : WordForm (quoteChars cs) (String.ofList cs) := by
  obtain ⟨hq, hclose⟩ | ⟨hne, hwritten⟩ := quoteChars_cases cs
  · constructor
    · exact ⟨'{', _, hq, fun rest => ⟨rfl, by simp⟩⟩
    · intro rest hrest
      simpa [hq] using readsAs_braced (hclose rest) hrest
  · obtain ⟨c, tail, hq⟩ := List.exists_cons_of_ne_nil hne
    rw [hq] at hwritten ⊢
    constructor
    · refine ⟨c, tail, rfl, ?_⟩
      intro rest
      cases hwritten with
      | literal hc _ => simp [StartsWord, isWordEnd, ne_of_not_isSpecial hc]
      | escape hd _ _ _ => exact ⟨rfl, fun _ => by simp [hd]⟩
    · intro rest hrest
      exact readsAs_bare hwritten (fun c hc => isPlain_of_not_isSpecial hc) hrest

def startsComment (cs : List Char) : Bool :=
  cs.head? == some '#' && !canBrace cs

theorem head?_escapeChar (c : Char) : (escapeChar c).head? = some '#' ↔ c = '#' := by
  cases hc : isSpecial c with
  | true =>
    obtain ⟨d, henc, -⟩ := escapeChar_of_isSpecial hc
    rw [henc]
    constructor
    · simp
    · rintro rfl
      simp [isSpecial, isListSpace] at hc
  | false => simp [escapeChar_of_not_isSpecial hc]

theorem head?_quoteChars_iff (cs : List Char) :
    (quoteChars cs).head? = some '#' ↔ startsComment cs = true := by
  unfold quoteChars startsComment
  split
  · next h =>
    cases List.isEmpty_iff.mp h
    simp
  · split
    · next h => simp_all
    · split
      · next h => simp [h]
      · next hne _ h =>
        obtain ⟨c, cs, rfl⟩ := List.exists_cons_of_ne_nil (by simpa using hne)
        have hfirst : escapeChar c ≠ [] := (written_escapeChar c).ne_nil (by simp)
        have hhead : ((c :: cs).flatMap escapeChar).head? = (escapeChar c).head? := by
          obtain ⟨x, xs, hx⟩ := List.exists_cons_of_ne_nil hfirst
          rw [List.flatMap_cons, hx]
          rfl
        rw [hhead, head?_escapeChar]
        simp [h]

/-! ### Evaluation -/

/-- A list whose first element does not look like a comment runs as its elements. -/
theorem runText_format (env : Env) (invoke : List String → Eval String) {w : String}
    (args : List String) (h : startsComment w.toList = false) :
    runText env invoke "" (format (w :: args)).toList = invoke (w :: args) := by
  have hform (v : String) : WordForm (quoteChars v.toList) v := by
    simpa using wordForm_quoteChars v.toList
  have hcomment : (quoteChars w.toList).head? ≠ some '#' := by
    simp [head?_quoteChars_iff, h]
  rw [toList_format, List.map_map]
  exact runText_wordForms (fun v => quoteChars v.toList) env invoke (hform w)
    (fun v (_ : v ∈ args) => hform v) hcomment

/-- A list whose first element looks like a comment runs as what follows that comment. -/
theorem runText_format_of_comment (env : Env) (invoke : List String → Eval String) {w : String}
    (args : List String) (h : startsComment w.toList = true) :
    runText env invoke "" (format (w :: args)).toList =
      runText env invoke "" (skipComment (format (w :: args)).toList) := by
  obtain ⟨tail, htext⟩ : ∃ tail, (format (w :: args)).toList = '#' :: tail := by
    rw [toList_format]
    obtain ⟨tail, hq⟩ := List.head?_eq_some_iff.mp ((head?_quoteChars_iff w.toList).mpr h)
    exact ⟨_, by rw [hq]; rfl⟩
  have hstart : skipSeparators ('#' :: tail) = '#' :: tail :=
    skipSeparators_of_startsWord ⟨rfl, by simp⟩
  have hskip : skipComment ('#' :: tail) = skipComment tail := by
    rw [skipComment.eq_def]
    simp
  rw [htext, hskip, runText]
  split
  · next h' => simp [hstart] at h'
  · next h' =>
    cases hstart.symm.trans h'
    simp

theorem action?_of_startsComment {w : String} (h : startsComment w.toList = true) :
    Command.action? w = none := by
  have hnames : ∀ name ∈ Command.names, name.toList.head? ≠ some '#' := by decide
  simp only [startsComment, Bool.and_eq_true, beq_iff_eq] at h
  cases haction : Command.action? w with
  | none => rfl
  | some action =>
    have hmem : w ∈ Command.names := (Command.mem_names_iff w).mpr (by simp [haction])
    exact absurd h.1 (hnames w hmem)

/-- The form of an element that starts a comment is passed over as a whole. -/
theorem skipComment_quoteChars {cs : List Char} (h : startsComment cs = true)
    (rest : List Char) : skipComment (quoteChars cs ++ rest) = skipComment rest := by
  have hhead := (head?_quoteChars_iff cs).mpr h
  obtain ⟨hq, -⟩ | ⟨-, hwritten⟩ := quoteChars_cases cs
  · simp [hq] at hhead
  · apply skipComment_of_written hwritten
    intro c hc
    simp [ne_of_not_isSpecial hc]

theorem eval_format_singleton (rounds : Nat) {w : String} (h : startsComment w.toList = true) :
    (Env.top rounds).eval (format [w]) = (pure "" : Eval String).nest := by
  have htext : (format [w]).toList = quoteChars w.toList ++ [] := by
    rw [toList_format]
    rfl
  rw [Env.eval, Env.top_runText, runText_format_of_comment _ _ [] h, htext,
    skipComment_quoteChars h, skipComment.eq_1, runText_nil]

/-- As a command, an element that starts a comment is an unknown name without a procedure. -/
theorem invoke_of_startsComment (env : Env) {w : String} (args : List String) {s : Interp}
    (h : startsComment w.toList = true) (hs : s.procs.get? w = none) :
    invoke env (w :: args) s = (Eval.fail (.unknownCommand w) : Eval String) s := by
  have hget : (get : Eval Interp) s = (.ok s, s) := rfl
  rw [invoke, Eval.bind_apply, hget]
  simp only [hs, action?_of_startsComment h]

/-- A list runs as the command of its elements, whatever the other elements are, exactly if its
first element does not start a comment; if it does, the list runs as what follows the comment. -/
theorem eval_format_iff (rounds : Nat) :
    (Env.top rounds).eval (format []) = (invoke (Env.top rounds) []).nest ∧
    (∀ w : String, (∀ args, (Env.top rounds).eval (format (w :: args)) =
        (invoke (Env.top rounds) (w :: args)).nest) ↔ startsComment w.toList = false) ∧
    ∀ w args, startsComment w.toList = true → (Env.top rounds).eval (format (w :: args)) =
      (Env.top rounds).runText (skipComment (format (w :: args)).toList) := by
  refine ⟨?_, ?_, ?_⟩
  · rw [Env.eval, Env.top_runText]
    exact congrArg Eval.nest (runText_nil _ _ "")
  · intro w
    constructor
    · intro h
      cases hw : startsComment w.toList with
      | false => rfl
      | true =>
        -- A fresh interpreter tells the two apart, with no further element in the list.
        have hrun := congrFun (h []) Interp.fresh
        have hlimit : Interp.fresh.level < maxNesting := by decide
        have hproc : Interp.fresh.enter.procs.get? w = none := Table.get?_empty w
        rw [eval_format_singleton rounds hw, Eval.nest_apply _ hlimit, Eval.nest_apply _ hlimit,
          invoke_of_startsComment _ [] hw hproc] at hrun
        cases congrArg Prod.fst hrun
    · intro h args
      rw [Env.eval, Env.top_runText, runText_format _ _ args h]
  · intro w args h
    rw [Env.eval, Env.top_runText, Env.top_runText, runText_format_of_comment _ _ args h]

/-- The list of a number sign with an open brace runs as nothing at all, although there is no
command of that name. -/
theorem eval_format_hash_brace :
    ((Env.top 0).eval (format ["#\x7b"]) Interp.fresh).1 = .ok "" ∧
      ((invoke (Env.top 0) ["#\x7b"]).nest Interp.fresh).1 =
        .error (.error "invalid command name \"#\x7b\"") := by
  have hstart : startsComment ("#\x7b" : String).toList = true := by decide
  have hlimit : Interp.fresh.level < maxNesting := by decide
  have hproc : Interp.fresh.enter.procs.get? "#\x7b" = none := Table.get?_empty _
  rw [eval_format_singleton 0 hstart, Eval.nest_apply _ hlimit, Eval.nest_apply _ hlimit,
    invoke_of_startsComment _ [] hstart hproc]
  exact ⟨rfl, rfl⟩

end TclHost.TclList
