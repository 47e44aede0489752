import TclHost.Proofs.Evaluation.Nesting
import TclHost.Proofs.Script.LineEnd
import TclHost.Proofs.Script.WordList
/-! # One script after another

A script with a fault never ends normally, so one that does has been read to its end.  Put in
front of a line end, it is then read as it stands, and what follows the line end runs from the
state that it leaves.
-/
namespace TclHost

namespace Eval
variable {α β : Type}

/-- From no state does the evaluation end normally. -/
def Aborts (m : Eval α) : Prop :=
  ∀ s a, (m s).1 ≠ .ok a

theorem aborts_throw (e : Exit) : (throw e : Eval α).Aborts := by
  rintro s a ⟨⟩

theorem aborts_fail (e : CommandError) : (fail e : Eval α).Aborts :=
  aborts_throw _

theorem Aborts.bind {m : Eval α} (h : m.Aborts) (f : α → Eval β) : (m >>= f).Aborts := by
  intro s b hb
  rw [bind_apply] at hb
  rcases hm : m s with ⟨e | a, t⟩
  · rw [hm] at hb
    cases hb
  · exact h s a (by rw [hm])

theorem aborts_bind (m : Eval α) {f : α → Eval β} (h : ∀ a, (f a).Aborts) : (m >>= f).Aborts := by
  intro s b hb
  rw [bind_apply] at hb
  rcases hm : m s with ⟨e | a, t⟩
  · rw [hm] at hb
    cases hb
  · rw [hm] at hb
    exact h a t b hb

theorem Aborts.nest {m : Eval α} (h : m.Aborts) : m.nest.Aborts := by
  intro s a
  by_cases hs : s.level < maxNesting
  · rw [nest_apply m hs]
    exact h s.enter a
  · rw [nest_at_limit m (Nat.not_lt.mp hs)]
    exact aborts_fail _ s a

end Eval

namespace Script

open Eval

/-! ## Faults -/

theorem valueAfter_append (run : Script → Eval String) (before : String) (ps qs : List Piece) :
    valueAfter run before (ps ++ qs) =
      valueAfter run before ps >>= fun s => valueAfter run s qs := by
  induction ps generalizing before with
  | nil => rw [List.nil_append, valueAfter, pure_bind]
  | cons p ps ih => simp only [List.cons_append, valueAfter, ih, bind_assoc]

/-- What a part of a script stands for cannot be found without an end of the evaluation. -/
def Part.Aborts (env : Env) (invoke : List String → Eval String) :
    (part : Part) → part.Tree → Prop
  | .pieces _, ps | .delimited _ _, ps => ∀ before, (valueAfter env.run before ps).Aborts
  | .piece _ _, p | .reference, p => (p.value env.run).Aborts
  | .word _ _, w => (w.values env.run).Aborts
  | .words _, ws | .command _ _, ws => (wordValues env.run ws).Aborts
  | .commands _, script => ∀ result, (runCommands env invoke result script).Aborts

/-- Where reading ends in a fault, so does the run, if it does so between brackets. -/
theorem Reads.aborts {env : Env} {invoke : List String → Eval String}
    (henv : ∀ cs script, Reads (.commands true) cs script none → (env.run script).Aborts)
    {part : Part} {cs : List Char} {tree : part.Tree} {rest? : Option (List Char)}
    (h : Reads part cs tree rest?) : rest? = none → part.Aborts env invoke tree := by
  induction h with
  | piecesCut => exact fun _ before => (aborts_fail _).bind _
  | piecesFault _ _ ih => exact fun hrest before => (ih hrest).bind _
  | piecesCons _ _ _ _ ih => exact fun hrest before => aborts_bind _ fun s => ih hrest (before ++ s)
  | pieceReference _ ih => exact ih
  | @pieceCommand stop cs script rest? h =>
    rintro rfl
    exact henv cs script h
  | referenceUnclosed => exact fun _ => aborts_fail _
  | referenceElement _ _ _ ih =>
    intro hrest
    exact (ih (Option.map_eq_none_iff.mp hrest) "").bind _
  | bracedExtra => exact fun _ before => (aborts_fail _).bind _
  | bracedUnclosed => exact fun _ before => (aborts_fail _).bind _
  | @quotedExtra nested cs ps =>
    intro _ before
    rw [valueAfter_append]
    exact aborts_bind _ fun s => (aborts_fail _).bind _
  | quotedFault _ ih => exact ih
  | wordDelimited _ _ _ ih => exact fun hrest => (ih hrest "").bind _
  | wordFault _ _ _ ih => exact fun hrest => ((ih hrest).bind _).bind _
  | wordBare _ _ _ _ _ ih =>
    exact fun hrest => (aborts_bind _ fun s => ih hrest ("" ++ s)).bind _
  | expandedDelimited _ _ _ ih => exact fun hrest => (ih hrest "").bind _
  | expandedBare _ _ _ ih => exact fun hrest => (ih hrest "").bind _
  | wordsCommand _ _ _ _ ih => exact ih
  | commandFault _ ih => exact fun hrest => (ih hrest).bind _
  | commandWords _ _ _ ih => exact fun hrest => aborts_bind _ fun _ => (ih hrest).bind _
  | commandsUnclosed => exact fun _ result => aborts_fail _
  | commandsComment _ _ ih => exact ih
  | commandsFault _ _ _ _ ih => exact fun hrest result => ((ih hrest).bind _).bind _
  | commandsCons _ _ _ _ _ _ ih => exact fun hrest result => aborts_bind _ fun r => ih hrest r
  | _ => rintro ⟨⟩

/-- A script with a fault never ends normally, however many levels are left. -/
theorem Reads.envWith_aborts (rounds levels : Nat) {nested : Bool} {cs : List Char}
    {script : Script} (h : Reads (.commands nested) cs script none) :
    ((envWith rounds levels).run script).Aborts := by
  induction levels generalizing nested cs script with
  | zero => exact aborts_fail _
  | succ levels ih => exact (h.aborts (fun _ _ h => ih h) rfl "").nest

/-! ## Results -/

theorem runCommands_append (env : Env) (invoke : List String → Eval String) (result : String)
    (first second : Script) :
    runCommands env invoke result (first ++ second) =
      runCommands env invoke result first >>= fun r => runCommands env invoke r second := by
  induction first generalizing result with
  | nil => rw [List.nil_append, runCommands, pure_bind]
  | cons c first ih =>
    cases c with
    | words ws => simp only [List.cons_append, runCommands, ih, bind_assoc]
    | fault f => rfl

/-- Run commands one after the other and keep what each of them that has a word gives. -/
def runResults (env : Env) (invoke : List String → Eval String) : Script → Eval (List String)
  | [] => return []
  | .fault f :: _ => Eval.fail (.fault f)
  | .words ws :: commands => do
    match ← wordValues env.run ws with
    | [] => runResults env invoke commands
    | words => do
      let r ← invoke words
      return r :: (← runResults env invoke commands)

/-- The result of a run is that of the last command with a word, if there is one. -/
theorem runCommands_eq_getLastD (env : Env) (invoke : List String → Eval String)
    (result : String) (script : Script) :
    runCommands env invoke result script =
      (do return (← runResults env invoke script).getLastD result) := by
  induction script generalizing result with
  | nil => rw [runCommands, runResults, pure_bind, List.getLastD_nil]
  | cons c script ih =>
    cases c with
    | fault f => rfl
    | words ws =>
      simp only [runCommands, runResults, runWords, bind_assoc]
      refine bind_congr fun words => ?_
      cases words with
      | nil => simp only [pure_bind, ih]
      | cons name args => simp only [ih, bind_assoc, pure_bind, List.getLastD_cons]

end Script

open Script

theorem Eval.nest_bind_pure {α β : Type} (m : Eval α) (f : α → β) :
    (do return f (← m) : Eval β).nest = do return f (← m.nest) := by
  funext s
  rw [bind_apply]
  by_cases hs : s.level < maxNesting
  · rw [nest_apply _ hs, nest_apply _ hs, bind_apply]
    rcases m s.enter with ⟨_ | _, t⟩ <;> rfl
  · rw [nest_at_limit _ (Nat.not_lt.mp hs), nest_at_limit _ (Nat.not_lt.mp hs)]
    rfl

/-- Evaluations that go on one level further down may as well come back in between. -/
theorem Eval.nest_bind {α β : Type} {m : Eval α} {s t : Interp} {a : α} (f : α → Eval β)
    (hlevel : (m s.enter).2.level = s.enter.level) (h : m.nest s = (.ok a, t)) :
    (m >>= f).nest s = (f a).nest t := by
  by_cases hs : s.level < maxNesting
  · rw [nest_apply m hs] at h
    rcases hm : m s.enter with ⟨r, u⟩
    rw [hm] at h hlevel
    obtain ⟨rfl, rfl⟩ := Prod.mk.inj h
    have henter : u.leave.enter = u := by
      have hpos : u.level - 1 + 1 = u.level := by
        rw [hlevel]
        rfl
      simp only [Interp.leave, Interp.enter, hpos]
    have ht : u.leave.level < maxNesting := by
      have hsame : u.leave.level = s.level := congrArg (· - 1) hlevel
      rwa [hsame]
    rw [nest_apply _ hs, nest_apply _ ht, bind_apply, hm, henter]
  · rw [nest_at_limit m (Nat.not_lt.mp hs)] at h
    cases h

theorem Env.top_eval (rounds : Nat) (text : String) :
    (Env.top rounds).eval text =
      (runCommands (Env.top rounds) (invoke (Env.top rounds)) "" (Script.read text)).nest := by
  rw [Env.eval, Env.top_runText, runText_eq]
  rfl

/-- Evaluate a text and keep what each command gives that it invokes itself, outside of any
brackets in it. -/
def topResults (rounds : Nat) (text : String) : Eval (List String) :=
  (runResults (Env.top rounds) (invoke (Env.top rounds)) (Script.read text)).nest

theorem Env.top_eval_eq_getLastD (rounds : Nat) (text : String) :
    (Env.top rounds).eval text = do return (← topResults rounds text).getLastD "" := by
  rw [Env.top_eval, runCommands_eq_getLastD]
  exact Eval.nest_bind_pure _ _

theorem exists_rest_of_eval_eq_ok {rounds : Nat} {text : String} {s t : Interp} {v : String}
    (h : (Env.top rounds).eval text s = (.ok v, t)) :
    ∃ rest, (readCommands false text.toList).2.text? = some rest := by
  cases hrest : (readCommands false text.toList).2.text? with
  | some rest => exact ⟨rest, rfl⟩
  | none =>
    have hreads := reads_readCommands false text.toList
    rw [hrest] at hreads
    have habort := hreads.envWith_aborts rounds maxNesting
    have hrun := congrFun (envWith_eval rounds maxNesting text) s
    exact absurd (congrArg Prod.fst (hrun.symm.trans h)) (habort s v)

/-- After a script that ends normally and a line end, the next one runs from the state and with the
result that the first one leaves. -/
theorem eval_line {rounds : Nat} {first second : String} {s t : Interp} {v : String}
    (hlast : NoFinalBackslash first.toList) (h : (Env.top rounds).eval first s = (.ok v, t)) :
    (Env.top rounds).eval (first ++ "\n" ++ second) s =
      (do return (← topResults rounds second).getLastD v : Eval String) t := by
  obtain ⟨rest, hrest⟩ := exists_rest_of_eval_eq_ok h
  have hread : Script.read (first ++ "\n" ++ second) = Script.read first ++ Script.read second := by
    have htext : (first ++ "\n" ++ second).toList = first.toList ++ '\n' :: second.toList := by
      simp
    rw [Script.read, htext]
    exact readCommands_line second.toList hlast hrest
  rw [topResults, ← Eval.nest_bind_pure, ← runCommands_eq_getLastD, Env.top_eval, hread,
    runCommands_append]
  rw [Env.top_eval] at h
  have hself : (Env.top rounds).AgreesAt s.enter.level (Env.top rounds) :=
    envWith_agreesAt_self rounds maxNesting _
  have hsame := agreesAt_runCommands hself (agreesAt_invoke hself) "" (Script.read first)
  exact Eval.nest_bind _ (hsame s.enter rfl).2.level h

/-! ### Words that vanish -/

theorem eval_of_isBare {text w : String} {ws : List String}
    (htext : text.toList = w.toList ++ Text.spaced (ws.map String.toList))
    (hbare : ∀ v ∈ w :: ws, v ≠ "" ∧ v.toList.all isBare = true)
    (hcomment : w.toList.head? ≠ some '#') :
    (Env.top 0).eval text = (invoke (Env.top 0) (w :: ws)).nest := by
  have hform (v : String) (hv : v ∈ w :: ws) : WordForm v.toList v :=
    wordForm_of_isBare (hbare v hv).1 (hbare v hv).2
  have hrun := runText_wordForms String.toList (Env.top 0) (invoke (Env.top 0))
    (hform w List.mem_cons_self) (fun v hv => hform v (List.mem_cons_of_mem w hv)) hcomment
  rw [Env.eval, Env.top_runText, htext, hrun]

def setA : String :=
  "set a 1"

def afterSetA : Interp :=
  Interp.fresh.set "a" "1"

theorem eval_setA : (Env.top 0).eval setA Interp.fresh = (.ok "1", afterSetA) := by
  have htext : setA.toList = "set".toList ++ Text.spaced (["a", "1"].map String.toList) := rfl
  rw [eval_of_isBare htext (by decide) (by decide)]
  rfl

def appendA : String :=
  "append a 2"

theorem eval_appendA :
    (Env.top 0).eval appendA afterSetA = (.ok "12", afterSetA.set "a" "12") := by
  have htext : appendA.toList = "append".toList ++ Text.spaced (["a", "2"].map String.toList) :=
    rfl
  have hvalue : afterSetA.enter.get? "a" = some "1" := Interp.fresh.get?_set_self "a" "1"
  have happend : Command.append (Env.top 0) ["a", "2"] afterSetA.enter =
      (.ok "12", afterSetA.enter.set "a" "12") := by
    have hget : (get : Eval Interp) afterSetA.enter = (.ok afterSetA.enter, afterSetA.enter) := rfl
    rw [Command.append, Eval.bind_apply, hget]
    simp only [hvalue]
    rfl
  have hinvoke : invoke (Env.top 0) ["append", "a", "2"] afterSetA.enter =
      Command.append (Env.top 0) ["a", "2"] afterSetA.enter := rfl
  rw [eval_of_isBare htext (by decide) (by decide), Eval.nest_apply _ (by decide), hinvoke,
    happend]
  rfl

/-- A command that vanishes, because its only word stands for no words at all; what is between its
brackets runs nevertheless. -/
def vanishing : String :=
  "\x7b*\x7d[set b \x7b\x7d]"

def setB : Script :=
  [.words [.mk false [.literal ['s', 'e', 't']], .mk false [.literal ['b']],
    .mk false [.literal []]]]

theorem readCommands_setB :
    finished? (readCommands true ['s', 'e', 't', ' ', 'b', ' ', '{', '}', ']']) =
      some (setB, []) := by
  have hset : finished? (readWord true 's' ['e', 't', ' ', 'b', ' ', '{', '}', ']']) =
      some (.mk false [.literal ['s', 'e', 't']], [' ', 'b', ' ', '{', '}', ']']) :=
    finished?_readWord_bare ['e', 't'] rfl (by decide) (by decide) (by simp [EndsWord, isWordEnd])
  have hb : finished? (readWord true 'b' [' ', '{', '}', ']']) =
      some (.mk false [.literal ['b']], [' ', '{', '}', ']']) :=
    finished?_readWord_bare [] rfl (by decide) (by decide) (by simp [EndsWord, isWordEnd])
  have hempty : finished? (readWord true '{' ['}', ']']) =
      some (.mk false [.literal []], [']']) := by
    rw [finished?_readWord_plain rfl, wordPieces?, if_pos rfl, finished?_readBraced]
    rfl
  rw [finished?_readCommands_command rfl (by decide) (by decide), finished?_readCommand,
    hset, Option.bind_some, finished?_readWords_word rfl (by decide) (by decide),
    finished?_readCommand, hb, Option.bind_some,
    finished?_readWords_word rfl (by decide) (by decide), finished?_readCommand, hempty,
    Option.bind_some, finished?_readWords_bracket rfl ⟨rfl, rfl⟩, Option.map_some, Option.map_some,
    Option.map_some, Option.bind_some, finished?_readCommands_bracket rfl ⟨rfl, rfl⟩]
  rfl

theorem readCommands_vanishing : finished? (readCommands false vanishing.toList) =
    some ([.words [.mk true [.command setB]]], []) := by
  have hpiece : finished? (readPiece (.atWordEnd false) '['
      ['s', 'e', 't', ' ', 'b', ' ', '{', '}', ']']) = some (.command setB, []) := by
    rw [finished?_readPiece_command, readCommands_setB]
    rfl
  have hword : finished? (readWord false '{'
      ['*', '}', '[', 's', 'e', 't', ' ', 'b', ' ', '{', '}', ']']) =
      some (.mk true [.command setB], []) := by
    rw [finished?_readWord_expanded rfl, wordPieces?, if_neg (by decide), if_neg (by decide),
      finished?_readPieces_cons rfl, hpiece, Option.bind_some, finished?_readPieces_nil]
    rfl
  have htext : vanishing.toList =
      '{' :: ['*', '}', '[', 's', 'e', 't', ' ', 'b', ' ', '{', '}', ']'] := rfl
  rw [htext, finished?_readCommands_command rfl (by decide) (by decide), finished?_readCommand,
    hword, Option.bind_some, finished?_readWords_nil rfl, Option.map_some, Option.bind_some,
    finished?_readCommands_nil rfl]
  rfl

theorem wordValues_of_empty {run : Script → Eval String} {script : Script} {s t : Interp}
    (h : run script s = (.ok "", t)) :
    wordValues run [.mk true [.command script]] s = (.ok [], t) := by
  have hparse : TclList.parse "" = .ok [] := by
    simp [TclList.parse, TclList.elements, Except.map]
  have hvalue : valueAfter run "" [.command script] s = (.ok "", t) := by
    rw [valueAfter, Eval.bind_apply, Piece.value, h]
    rfl
  rw [wordValues, Eval.bind_apply, Word.values, Eval.bind_apply, hvalue]
  simp only [hparse]
  rfl

theorem wordValues_vanishing : wordValues (Env.top 0).run [.mk true [.command setB]]
    afterSetA.enter = (.ok [], (afterSetA.set "b" "").enter) :=
  wordValues_of_empty rfl

theorem topResults_vanishing :
    topResults 0 vanishing afterSetA = (.ok [], afterSetA.set "b" "") := by
  have hread : Script.read vanishing = [.words [.mk true [.command setB]]] :=
    (finished?_eq_some_iff.mp readCommands_vanishing).1
  rw [topResults, hread, Eval.nest_apply _ (by decide), runResults, Eval.bind_apply,
    wordValues_vanishing]
  rfl

/-- A command that vanishes gives no result, although it sets a variable: after another command the
result is still that one's, and on its own it is empty. -/
theorem eval_lineEnd_vanishing :
    (Env.top 0).eval setA Interp.fresh = (.ok "1", afterSetA) ∧
      (Env.top 0).eval vanishing afterSetA = (.ok "", afterSetA.set "b" "") ∧
      (Env.top 0).eval (setA ++ "\n" ++ vanishing) Interp.fresh =
        (.ok "1", afterSetA.set "b" "") := by
  have hlast : NoFinalBackslash setA.toList := by simp [NoFinalBackslash, setA]
  refine ⟨eval_setA, ?_, ?_⟩
  · rw [Env.top_eval_eq_getLastD, Eval.bind_apply, topResults_vanishing]
    rfl
  · rw [eval_line hlast eval_setA, Eval.bind_apply, topResults_vanishing]
    rfl

/-- Evaluating two scripts with a line end between them is evaluating the first one and, from the
state that it leaves, the second one; where the second one invokes no command of its own and
ends normally, the result is that of the first one. -/
theorem eval_lineEnd {rounds : Nat} {first second : String} {s t : Interp} {v : String}
    (hlast : first.toList.getLast? ≠ some '\\')
    (h : (Env.top rounds).eval first s = (.ok v, t)) :
    ((topResults rounds second t).1 = .ok [] →
      (Env.top rounds).eval (first ++ "\n" ++ second) s =
        (.ok v, ((Env.top rounds).eval second t).2)) ∧
    ((topResults rounds second t).1 ≠ .ok [] →
      (Env.top rounds).eval (first ++ "\n" ++ second) s = (Env.top rounds).eval second t) := by
  rw [eval_line hlast h, Env.top_eval_eq_getLastD, Eval.bind_apply, Eval.bind_apply]
  rcases topResults rounds second t with ⟨e | rs, u⟩
  · exact ⟨by simp, fun _ => rfl⟩
  · cases rs with
    | nil => exact ⟨fun _ => rfl, fun hne => absurd rfl hne⟩
    | cons r rs =>
      have hlastD : (r :: rs).getLastD v = (r :: rs).getLastD "" := by
        rw [List.getLastD_cons, List.getLastD_cons]
      exact ⟨by simp, fun _ => congrArg (fun r => (Except.ok r, u)) hlastD⟩

theorem topResults_ne_nil {rounds : Nat} {text : String} {s : Interp} {v : String}
    (h : ((Env.top rounds).eval text s).1 = .ok v) (hv : v ≠ "") :
    (topResults rounds text s).1 ≠ .ok [] := by
  intro hnil
  rw [Env.top_eval_eq_getLastD, Eval.bind_apply] at h
  rcases hresults : topResults rounds text s with ⟨r, t⟩
  rw [hresults] at h hnil
  cases hnil
  exact hv (Except.ok.inj h).symm

/-- A command behind the line end goes on with the variable that the one in front of it has set; of
one that vanishes only the variable is left that it sets itself. -/
theorem eval_lineEnd_appendA :
    (setA.toList.getLast? ≠ some '\\' ∧
      (Env.top 0).eval setA Interp.fresh = (.ok "1", afterSetA)) ∧
    ((topResults 0 appendA afterSetA).1 ≠ .ok [] ∧
      (Env.top 0).eval (setA ++ "\n" ++ appendA) Interp.fresh =
        (.ok "12", afterSetA.set "a" "12")) ∧
    (topResults 0 vanishing afterSetA).1 = .ok [] ∧
      (Env.top 0).eval (setA ++ "\n" ++ vanishing) Interp.fresh =
        (.ok "1", ((Env.top 0).eval vanishing afterSetA).2) := by
  have hlast : setA.toList.getLast? ≠ some '\\' := by decide
  have hinvoked : (topResults 0 appendA afterSetA).1 ≠ .ok [] :=
    topResults_ne_nil (congrArg Prod.fst eval_appendA) (by decide)
  have hnone : (topResults 0 vanishing afterSetA).1 = .ok [] :=
    congrArg Prod.fst topResults_vanishing
  refine ⟨⟨hlast, eval_setA⟩, ⟨hinvoked, ?_⟩, hnone, ?_⟩
  · rw [(eval_lineEnd hlast eval_setA).2 hinvoked, eval_appendA]
  · exact (eval_lineEnd hlast eval_setA).1 hnone

end TclHost
