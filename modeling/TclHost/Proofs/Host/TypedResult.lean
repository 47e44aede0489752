import TclHost.Host.Handle
import TclHost.Proofs.Evaluation.Effects
/-! # Typed results come from the script that was asked for

Evaluating a script writes the result afresh however it ends, so that what a result is read as does
not depend on the one before.  An empty script is not evaluated: reading its result reads what
was left over.
-/
namespace TclHost.Host

/-! ## Engines -/

/-- Two engines hold the same variables, procedures and frames, and run loops for as many rounds. -/
structure Engine.SameState (e e' : Engine) : Prop where
  interp : e.interp.silent = e'.interp.silent
  rounds : e.rounds = e'.rounds

structure Engine.Same (e e' : Engine) : Prop extends e.SameState e' where
  result : e.result = e'.result

namespace Engine
variable {e e' : Engine}

/-- Whatever the results before, a script ends alike and leaves the same result. -/
theorem SameState.eval (h : e.SameState e') (script : ByteArray) :
    (e.eval script).1 = (e'.eval script).1 ∧ (e.eval script).2.Same (e'.eval script).2 := by
  unfold Engine.eval
  cases Text.Utf8.decode script with
  | error position => exact ⟨rfl, ⟨h.interp, h.rounds⟩, rfl⟩
  | ok text =>
    dsimp only
    obtain ⟨hend, hsilent⟩ := Env.top_eval_silent e.rounds text h.interp
    rw [← h.rounds]
    rcases hr : (Env.top e.rounds).eval text e.interp with ⟨r, s⟩
    rcases hr' : (Env.top e.rounds).eval text e'.interp with ⟨r', s'⟩
    rw [hr, hr'] at hend hsilent
    cases hend
    rcases r with (_ | _ | _ | _ | _) | _ <;> exact ⟨rfl, ⟨hsilent, h.rounds⟩, rfl⟩

/-- Reading a text does not look at the engine, and changes its result at most. -/
theorem extract_eq (text : String) (t : HostType) : ∃ answer message?, ∀ e : Engine,
    e.extract text t = (answer, { e with result := Option.getD message? e.result }) := by
  unfold Engine.extract Engine.coerce
  cases t.kind with
  | int | uint =>
    cases Number.parseInt text with
    | ok n => exact ⟨_, none, fun _ => rfl⟩
    | error error => exact ⟨_, some error.message, fun _ => rfl⟩
  | str => exact ⟨_, none, fun _ => rfl⟩
  | float =>
    cases Number.parseDouble text with
    | ok x => exact ⟨_, none, fun _ => rfl⟩
    | error error => exact ⟨_, some error.message, fun _ => rfl⟩
  | bool =>
    cases Number.parseBool text with
    | ok b => exact ⟨_, none, fun _ => rfl⟩
    | error error => exact ⟨_, some error.message, fun _ => rfl⟩

theorem Same.extract (h : e.Same e') (text : String) (t : HostType) :
    (e.extract text t).1 = (e'.extract text t).1 ∧
      (e.extract text t).2.Same (e'.extract text t).2 := by
  obtain ⟨answer, message?, hextract⟩ := extract_eq text t
  rw [hextract, hextract, h.result]
  exact ⟨rfl, ⟨h.interp, h.rounds⟩, rfl⟩

theorem extract_interp (e : Engine) (text : String) (t : HostType) :
    (e.extract text t).2.interp = e.interp := by
  obtain ⟨answer, message?, hextract⟩ := extract_eq text t
  rw [hextract]

end Engine

/-! ## Handles -/

namespace Handle
variable {h h' : Handle} {caller : Nat}

/-- What a handle answers to one request for a typed result after the other. -/
def answers (caller : Nat) : List (ByteArray × HostType) → Handle → List (Except Error HostValue)
  | [], _ => []
  | (script, t) :: requests, h =>
    (h.evalAs caller script t).1 :: answers caller requests (h.evalAs caller script t).2

theorem evalAs_of_error {e : Error} (hthread : h.checkThread caller = .error e)
    (script : ByteArray) (t : HostType) : h.evalAs caller script t = (.error e, h) := by
  rw [evalAs, eval, hthread]

/-- An empty script is not evaluated, and its result is what was left over. -/
theorem evalAs_of_isEmpty (hthread : h.checkThread caller = .ok ()) {script : ByteArray}
    (hscript : script.isEmpty = true) (t : HostType) :
    h.evalAs caller script t = ((h.engine.extract h.engine.result t).1,
      { h with engine := (h.engine.extract h.engine.result t).2 }) := by
  rw [evalAs, eval, hthread]
  simp only [hscript, if_true]

theorem evalAs_of_not_isEmpty (hthread : h.checkThread caller = .ok ()) {script : ByteArray}
    (hscript : script.isEmpty = false) (t : HostType) :
    h.evalAs caller script t =
      if (h.engine.eval script).1.isOk then
        (((h.engine.eval script).2.extract (h.engine.eval script).2.result t).1,
          { h with
            engine := ((h.engine.eval script).2.extract (h.engine.eval script).2.result t).2 })
      else
        (.error (.eval (h.engine.eval script).2.result),
          { h with engine := (h.engine.eval script).2 }) := by
  rw [evalAs, eval, hthread]
  simp only [hscript, Bool.false_eq_true, if_false]
  cases (h.engine.eval script).1.isOk <;> rfl

theorem evalAs_snd (h : Handle) (caller : Nat) (script : ByteArray) (t : HostType) :
    ∃ engine : Engine, (h.evalAs caller script t).2 = { h with engine } := by
  cases hthread : h.checkThread caller with
  | error e => exact ⟨h.engine, by rw [evalAs_of_error hthread]⟩
  | ok _ =>
    cases hscript : script.isEmpty with
    | true => exact ⟨_, by rw [evalAs_of_isEmpty hthread hscript]⟩
    | false =>
      rw [evalAs_of_not_isEmpty hthread hscript]
      split
      · exact ⟨_, rfl⟩
      · exact ⟨_, rfl⟩

theorem checkThread_evalAs (h : Handle) (caller : Nat) (script : ByteArray) (t : HostType) :
    (h.evalAs caller script t).2.checkThread caller = h.checkThread caller := by
  obtain ⟨engine, hengine⟩ := h.evalAs_snd caller script t
  rw [hengine]
  rfl

section
variable (hthread : h.checkThread caller = .ok ()) (hthread' : h'.checkThread caller = .ok ())
include hthread hthread'

/-- A script that is evaluated gives the same answer whatever the results before, and leaves the
same result. -/
theorem evalAs_of_sameState (hstate : h.engine.SameState h'.engine) {script : ByteArray}
    (hscript : script.isEmpty = false) (t : HostType) :
    (h.evalAs caller script t).1 = (h'.evalAs caller script t).1 ∧
      (h.evalAs caller script t).2.engine.Same (h'.evalAs caller script t).2.engine := by
  obtain ⟨hstatus, hsame⟩ := hstate.eval script
  obtain ⟨hanswer, hleft⟩ := hsame.extract (h.engine.eval script).2.result t
  rw [evalAs_of_not_isEmpty hthread hscript, evalAs_of_not_isEmpty hthread' hscript, ← hstatus,
    ← hsame.result]
  split
  · exact ⟨hanswer, hleft⟩
  · exact ⟨rfl, hsame⟩

theorem evalAs_of_same (hsame : h.engine.Same h'.engine) (script : ByteArray) (t : HostType) :
    (h.evalAs caller script t).1 = (h'.evalAs caller script t).1 ∧
      (h.evalAs caller script t).2.engine.Same (h'.evalAs caller script t).2.engine := by
  cases hscript : script.isEmpty with
  | false => exact evalAs_of_sameState hthread hthread' hsame.toSameState hscript t
  | true =>
    rw [evalAs_of_isEmpty hthread hscript, evalAs_of_isEmpty hthread' hscript, ← hsame.result]
    exact hsame.extract h.engine.result t

theorem answers_of_same (hsame : h.engine.Same h'.engine)
    (requests : List (ByteArray × HostType)) :
    answers caller requests h = answers caller requests h' := by
  induction requests generalizing h h' with
  | nil => rfl
  | cons request requests ih =>
    obtain ⟨script, t⟩ := request
    obtain ⟨hanswer, hleft⟩ := evalAs_of_same hthread hthread' hsame script t
    rw [answers, answers, hanswer, ih ((checkThread_evalAs ..).trans hthread)
      ((checkThread_evalAs ..).trans hthread') hleft]

end

theorem answers_of_error {e : Error} (hthread : h.checkThread caller = .error e)
    (requests : List (ByteArray × HostType)) :
    answers caller requests h = requests.map fun _ => .error e := by
  induction requests with
  | nil => rfl
  | cons request requests ih =>
    rw [answers, evalAs_of_error hthread, ih]
    rfl

/-- Two handles that hold the same variables, procedures and frames, whatever their results, answer
alike to a script that is not empty and to everything that follows.  An empty script leaves the
interpreter alone, and its answer is what the result that was left over is read as. -/
theorem answers_of_sameState (hthread : h.checkThread caller = h'.checkThread caller)
    (hstate : h.engine.SameState h'.engine) :
    (∀ script t later, script.isEmpty = false →
      answers caller ((script, t) :: later) h = answers caller ((script, t) :: later) h') ∧
    ∀ t, (h.evalAs caller .empty t).1 = (do
        h.checkThread caller
        (h.engine.extract h.engine.result t).1) ∧
      (h.evalAs caller .empty t).2.engine.interp = h.engine.interp := by
  cases hh : h.checkThread caller with
  | error e =>
    have hh' := hthread.symm.trans hh
    constructor
    · intro script t later _
      rw [answers_of_error hh, answers_of_error hh']
    · intro t
      rw [evalAs_of_error hh]
      exact ⟨rfl, rfl⟩
  | ok _ =>
    have hh' := hthread.symm.trans hh
    constructor
    · intro script t later hscript
      obtain ⟨hanswer, hleft⟩ := evalAs_of_sameState hh hh' hstate hscript t
      rw [answers, answers, hanswer, answers_of_same ((checkThread_evalAs ..).trans hh)
        ((checkThread_evalAs ..).trans hh') hleft]
    · intro t
      rw [evalAs_of_isEmpty hh rfl]
      exact ⟨rfl, h.engine.extract_interp h.engine.result t⟩

def leftOver (result : String) : Handle :=
  ⟨{ Engine.create 1 with result }, false, 0, .empty⟩

theorem sameState_leftOver (result result' : String) :
    (leftOver result).engine.SameState (leftOver result').engine :=
  ⟨rfl, rfl⟩

theorem evalAs_leftOver : (leftOver "").engine.SameState (leftOver "9").engine ∧
    ((leftOver "").evalAs 0 .empty .i64).1 ≠ ((leftOver "9").evalAs 0 .empty .i64).1 := by
  have hempty : ((leftOver "").evalAs 0 .empty .i64).1 =
      .error (.coerce "expected integer but got \"\"") := rfl
  have hnine : ((leftOver "9").evalAs 0 .empty .i64).1 = .ok (.integer 9) := rfl
  rw [hempty, hnine]
  exact ⟨sameState_leftOver "" "9", by simp⟩

/-- Behind a script that is evaluated, an empty script answers alike, too. -/
theorem answers_leftOver : (leftOver "").engine.SameState (leftOver "9").engine ∧
    answers 0 [("set".toUTF8, .i64), (.empty, .string)] (leftOver "") =
      answers 0 [("set".toUTF8, .i64), (.empty, .string)] (leftOver "9") := by
  have hthread : (leftOver "").checkThread 0 = (leftOver "9").checkThread 0 := rfl
  have hscript : "set".toUTF8.isEmpty = false := by
    rw [Text.Utf8.isEmpty_toUTF8]
    rfl
  exact ⟨sameState_leftOver "" "9",
    (answers_of_sameState hthread (sameState_leftOver "" "9")).1 _ _ _ hscript⟩

end Handle
end TclHost.Host
