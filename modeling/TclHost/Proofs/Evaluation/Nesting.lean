import TclHost.Proofs.Evaluation.Commands
/-! # Evaluation comes back to where it was entered

However an evaluation ends, the frames of its callers and the level are as they were, and at no
point has the level been beyond the limit.  The number of levels that an environment is built
for does not matter, as long as it reaches the limit.
-/
namespace TclHost

open Eval

abbrev Env.AgreesAt (level : Nat) (env env' : Env) : Prop :=
  env.Related (Eval.AgreesAt level) env'

variable {level : Nat}

theorem congruence_agreesAt : Congruence (AgreesAt level) where
  pure := agreesAt_pure
  throw := agreesAt_throw
  bind := AgreesAt.bind
  attempt := AgreesAt.attempt
  look _ _ h s hs := h s s hs
  change hf := agreesAt_self hf.outside
  framed frame h s hs := by
    obtain ⟨heq, hsame⟩ := h (s.pushFrame frame) hs
    rw [framed, framed, ← heq]
    exact ⟨rfl, hsame.popFrame⟩

variable {env env' : Env}

theorem Env.AgreesAt.subst (h : env.AgreesAt level env') (text : String) :
    (env.subst text).AgreesAt level (env'.subst text) :=
  Env.Related.subst congruence_agreesAt h text

theorem agreesAt_runCommands (h : env.AgreesAt level env')
    {invoke invoke' : List String → Eval String}
    (hi : ∀ words, (invoke words).AgreesAt level (invoke' words)) (result : String)
    (script : Script) :
    (Script.runCommands env invoke result script).AgreesAt level
      (Script.runCommands env' invoke' result script) :=
  related_runCommands congruence_agreesAt h hi result script

theorem agreesAt_runText (h : env.AgreesAt level env') {invoke invoke' : List String → Eval String}
    (hi : ∀ words, (invoke words).AgreesAt level (invoke' words)) (result : String)
    (cs : List Char) :
    (Script.runText env invoke result cs).AgreesAt level
      (Script.runText env' invoke' result cs) :=
  related_runText congruence_agreesAt h hi result cs

theorem agreesAt_invoke (h : env.AgreesAt level env') (words : List String) :
    (invoke env words).AgreesAt level (invoke env' words) :=
  related_invoke congruence_agreesAt h words

theorem agreesAt_callProcedure (h : env.AgreesAt level env') (name : String) (p : Procedure)
    (args : List String) :
    (callProcedure env name p args).AgreesAt level (callProcedure env' name p args) :=
  related_callProcedure congruence_agreesAt h name p args

/-- A completed call leaves every frame as it was. -/
theorem frames_callProcedure (h : env.AgreesAt level env') (name : String) (p : Procedure)
    (args : List String) {s : Interp} (hs : s.level = level) :
    (callProcedure env name p args s).2.frames = s.frames := by
  cases hb : p.bind? args with
  | none =>
    rw [callProcedure_of_bind?_eq_none env name hb]
    rfl
  | some frame =>
    have hframes := (h.runText p.body (s.pushFrame frame) hs).2.popFrame_frames
    have hattempt : ((env.runText p.body).framed frame).attempt s =
        (.ok (env.runText p.body (s.pushFrame frame)).1,
          (env.runText p.body (s.pushFrame frame)).2.popFrame) := rfl
    rw [callProcedure_of_bind? env name hb, bind_apply, hattempt]
    rcases (env.runText p.body (s.pushFrame frame)).1 with (_ | _ | _ | _ | _) | _ <;> exact hframes

/-! ### Nested evaluations -/

theorem Eval.nest_apply {α : Type} (m : Eval α) {s : Interp} (hs : s.level < maxNesting) :
    m.nest s = ((m s.enter).1, (m s.enter).2.leave) := by
  simp only [nest, if_pos hs]
  rfl

theorem Eval.nest_at_limit {α : Type} (m : Eval α) {s : Interp} (hs : maxNesting ≤ s.level) :
    m.nest s = (fail .tooManyNested : Eval α) s := by
  simp only [nest, if_neg (Nat.not_lt.mpr hs)]

theorem Eval.AgreesAt.nest {α : Type} {m m' : Eval α}
    (h : level < maxNesting → m.AgreesAt (level + 1) m') : m.nest.AgreesAt level m'.nest := by
  intro s hs
  by_cases hlimit : s.level < maxNesting
  · obtain ⟨heq, hsame⟩ := h (hs ▸ hlimit) s.enter (congrArg (· + 1) hs)
    rw [nest_apply m hlimit, nest_apply m' hlimit, ← heq]
    exact ⟨rfl, hsame.leave⟩
  · rw [nest_at_limit m (Nat.not_lt.mp hlimit), nest_at_limit m' (Nat.not_lt.mp hlimit)]
    exact agreesAt_fail _ s hs

/-- What runs one level further down decides what runs here. -/
theorem agreesAt_envWith_succ (rounds : Nat) {levels levels' : Nat}
    (h : level < maxNesting →
      (envWith rounds levels).AgreesAt (level + 1) (envWith rounds levels')) :
    (envWith rounds (levels + 1)).AgreesAt level (envWith rounds (levels' + 1)) where
  run script := .nest fun hl => agreesAt_runCommands (h hl) (agreesAt_invoke (h hl)) "" script
  runText cs := .nest fun hl => agreesAt_runText (h hl) (agreesAt_invoke (h hl)) "" cs
  rounds := rfl

theorem envWith_agreesAt_self (rounds levels level : Nat) :
    (envWith rounds levels).AgreesAt level (envWith rounds levels) := by
  induction levels generalizing level with
  | zero => exact ⟨fun _ => agreesAt_fail _, fun _ => agreesAt_fail _, rfl⟩
  | succ levels ih => exact agreesAt_envWith_succ rounds fun _ => ih (level + 1)

theorem envWith_at_limit (rounds levels : Nat) {s : Interp} (hs : maxNesting ≤ s.level) :
    (∀ script, (envWith rounds levels).run script s = fail .tooManyNested s) ∧
      ∀ cs, (envWith rounds levels).runText cs s = fail .tooManyNested s := by
  cases levels with
  | zero => exact ⟨fun _ => rfl, fun _ => rfl⟩
  | succ levels => exact ⟨fun _ => nest_at_limit _ hs, fun _ => nest_at_limit _ hs⟩

theorem agreesAt_envWith_limit (rounds levels levels' : Nat) (hl : maxNesting ≤ level) :
    (envWith rounds levels).AgreesAt level (envWith rounds levels') where
  run script s hs := by
    have hlimit : maxNesting ≤ s.level := hs ▸ hl
    rw [(envWith_at_limit rounds levels hlimit).1, (envWith_at_limit rounds levels' hlimit).1]
    exact agreesAt_fail _ s hs
  runText cs s hs := by
    have hlimit : maxNesting ≤ s.level := hs ▸ hl
    rw [(envWith_at_limit rounds levels hlimit).2, (envWith_at_limit rounds levels' hlimit).2]
    exact agreesAt_fail _ s hs
  rounds := by cases levels <;> cases levels' <;> rfl

/-- Environments whose levels reach the limit from a level agree there. -/
theorem envWith_agreesAt (rounds : Nat) {levels levels' : Nat} (h : maxNesting ≤ levels + level)
    (h' : maxNesting ≤ levels' + level) :
    (envWith rounds levels).AgreesAt level (envWith rounds levels') := by
  induction levels generalizing levels' level with
  | zero => exact agreesAt_envWith_limit rounds 0 levels' (by omega)
  | succ levels ih =>
    cases levels' with
    | zero => exact agreesAt_envWith_limit rounds _ 0 (by omega)
    | succ levels' => exact agreesAt_envWith_succ rounds fun _ => ih (by omega) (by omega)

/-- What is left below the outermost evaluation agrees there with the outermost environment. -/
theorem Env.agreesAt_top (rounds level : Nat) :
    (envWith rounds (maxNesting - 1)).AgreesAt (level + 1) (Env.top rounds) :=
  envWith_agreesAt rounds (by omega) (by omega)

/-- From the outermost environment, everything runs in that same environment one level further
down: the levels it was built for never run out before the limit is reached. -/
theorem Env.top_runText (rounds : Nat) (cs : List Char) :
    (Env.top rounds).runText cs =
      (Script.runText (Env.top rounds) (invoke (Env.top rounds)) "" cs).nest := by
  funext s
  have hunroll : (Env.top rounds).runText cs = (Script.runText (envWith rounds (maxNesting - 1))
      (invoke (envWith rounds (maxNesting - 1))) "" cs).nest := rfl
  have hagree := Env.agreesAt_top rounds s.level
  rw [hunroll]
  exact (AgreesAt.nest (fun _ =>
    agreesAt_runText hagree (agreesAt_invoke hagree) "" cs) s rfl).1

theorem Env.top_run (rounds : Nat) (script : Script) :
    (Env.top rounds).run script =
      (Script.runCommands (Env.top rounds) (invoke (Env.top rounds)) "" script).nest := by
  funext s
  have hunroll : (Env.top rounds).run script = (Script.runCommands
      (envWith rounds (maxNesting - 1)) (invoke (envWith rounds (maxNesting - 1))) ""
      script).nest := rfl
  have hagree := Env.agreesAt_top rounds s.level
  rw [hunroll]
  exact (AgreesAt.nest (fun _ =>
    agreesAt_runCommands hagree (agreesAt_invoke hagree) "" script) s rfl).1

/-! ### A watch over the states of a run -/

def Eval.require (test : Interp → Bool) : Eval Unit := do
  if test (← get) then return () else throw .outOfRounds

/-- What runs scripts as `envWith` does, except that the run is cut off for good where a state
fails a test: after an evaluation has been entered, and before every command. -/
def watchedWith (test : Interp → Bool) (rounds : Nat) : (levels : Nat) → Env
  | 0 => envWith rounds 0
  | levels + 1 =>
    let env := watchedWith test rounds levels
    let invokeWatched (words : List String) : Eval String := do
      Eval.require test
      invoke env words
    ⟨fun script => Eval.nest do
        Eval.require test
        Script.runCommands env invokeWatched "" script,
      fun cs => Eval.nest do
        Eval.require test
        Script.runText env invokeWatched "" cs,
      rounds⟩

theorem Eval.AgreesAt.require_bind {α : Type} {m m' : Eval α} {test : Interp → Bool}
    (htest : ∀ s : Interp, s.level = level → test s = true) (h : m.AgreesAt level m') :
    (Eval.require test >>= fun _ => m).AgreesAt level m' := by
  intro s hs
  have hpass : Eval.require test s = (.ok (), s) := by
    change (if test s then (pure () : Eval Unit) else throw .outOfRounds) s = _
    rw [htest s hs]
    rfl
  rw [bind_apply, hpass]
  exact h s hs

/-- A watch that only objects to a level beyond the limit never objects. -/
theorem watchedWith_agreesAt (rounds levels : Nat) (hl : level ≤ maxNesting) :
    (watchedWith (fun t => t.level ≤ maxNesting) rounds levels).AgreesAt level
      (envWith rounds levels) := by
  induction levels generalizing level with
  | zero => exact envWith_agreesAt_self rounds 0 level
  | succ levels ih =>
    have hpass {level : Nat} (hl : level ≤ maxNesting) (s : Interp) (hs : s.level = level) :
        decide (s.level ≤ maxNesting) = true := by simp [hs, hl]
    have hcommand (hlt : level < maxNesting) (words : List String) :=
      (agreesAt_invoke (ih hlt) words).require_bind (hpass hlt)
    constructor
    · intro script
      exact AgreesAt.nest fun hlt =>
        (agreesAt_runCommands (ih hlt) (hcommand hlt) "" script).require_bind (hpass hlt)
    · intro cs
      exact AgreesAt.nest fun hlt =>
        (agreesAt_runText (ih hlt) (hcommand hlt) "" cs).require_bind (hpass hlt)
    · rfl

/-- However evaluation, substitution or a command ends, the number of frames, the frames further
out than the innermost one, the links of the global frame and the level are those it began with, a
call leaves every frame as it was, and no state on the way is beyond the limit: a watch for that
changes nothing. -/
theorem evaluation_confined (rounds levels : Nat) (s : Interp) :
    (∀ text, s.SameOutside ((envWith rounds levels).eval text s).2) ∧
    (∀ text, s.SameOutside ((envWith rounds levels).subst text s).2) ∧
    (∀ words, s.SameOutside (invoke (envWith rounds levels) words s).2) ∧
    (∀ name p args, (callProcedure (envWith rounds levels) name p args s).2.frames = s.frames ∧
      (callProcedure (envWith rounds levels) name p args s).2.global.links = s.global.links ∧
      (callProcedure (envWith rounds levels) name p args s).2.level = s.level) ∧
    (s.level ≤ maxNesting →
      let watched := watchedWith (fun t => t.level ≤ maxNesting) rounds levels
      (∀ text, watched.eval text s = (envWith rounds levels).eval text s) ∧
      (∀ text, watched.subst text s = (envWith rounds levels).subst text s) ∧
      ∀ words, invoke watched words s = invoke (envWith rounds levels) words s) := by
  have hself := envWith_agreesAt_self rounds levels s.level
  refine ⟨?_, ?_, ?_, ?_, ?_⟩
  · intro text
    exact (hself.eval text s rfl).2
  · intro text
    exact (hself.subst text s rfl).2
  · intro words
    exact (agreesAt_invoke hself words s rfl).2
  · intro name p args
    have hsame := (agreesAt_callProcedure hself name p args s rfl).2
    exact ⟨frames_callProcedure hself name p args rfl, hsame.links, hsame.level⟩
  · intro hlimit
    have hwatch := watchedWith_agreesAt rounds levels hlimit
    exact ⟨fun text => (hwatch.eval text s rfl).1, fun text => (hwatch.subst text s rfl).1,
      fun words => (agreesAt_invoke hwatch words s rfl).1⟩

end TclHost
