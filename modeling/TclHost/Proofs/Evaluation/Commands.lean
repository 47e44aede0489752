import TclHost.Interp.Eval
import TclHost.Proofs.Evaluation.Congruence
/-! # Commands respect what relates evaluations

If a congruence relates two ways to run scripts, it relates substitution, expressions and each of
the commands over them.
-/
namespace TclHost

open Eval

/-- Ways to run scripts that a relation between evaluations relates, script by script. -/
structure Env.Related (A : ∀ {α : Type}, Eval α → Eval α → Prop) (env env' : Env) : Prop where
  run : ∀ script, A (env.run script) (env'.run script)
  runText : ∀ cs, A (env.runText cs) (env'.runText cs)
  rounds : env.rounds = env'.rounds

/-! ### Commands as they are put together -/

namespace Command

theorem clauses_of_dropThen_nil (env : Env) (condition : String) {args : List String}
    (hd : dropThen args = []) :
    clauses env (condition :: args) = Eval.fail (.noScriptAfter condition) := by
  rw [clauses]
  split
  · rfl
  · simp_all

theorem clauses_of_dropThen_cons (env : Env) (condition : String) {args rest : List String}
    {body : String} (hd : dropThen args = body :: rest) :
    clauses env (condition :: args) = (do
      if ← env.condition condition then env.eval body
      else match rest with
        | [] => return ""
        | "elseif" :: rest => clauses env rest
        | ["else"] => Eval.fail (.noScriptAfter "else")
        | ["else", body] => env.eval body
        | [body] => env.eval body
        | _ => Eval.fail .extraWordsAfterElse) := by
  rw [clauses]
  split
  · simp_all
  · next hd' =>
    cases hd.symm.trans hd'
    apply bind_congr
    intro b
    cases b
    · simp only [Bool.false_eq_true, if_false]
      split <;> simp_all
    · rfl

theorem isLocal_assignRound (names items : List String) :
    Interp.IsLocal (assignRound · names items) := by
  induction names generalizing items with
  | nil => exact Interp.isLocal_id
  | cons name names ih => exact (ih items.tail).comp (Interp.isLocal_set name _)

theorem isLocal_assignRounds (bindings : List Binding) :
    Interp.IsLocal fun s => bindings.foldl (fun s b => assignRound s b.1 b.2) s :=
  Interp.isLocal_foldl (fun b => isLocal_assignRound b.1 b.2) bindings

theorem unsetEach_cons (complain : Bool) (name : String) (names : List String) :
    unsetEach complain (name :: names) = (do
      match ((← get).unset name).map Interp.own with
      | .ok _ =>
        modify (·.unsetOrKeep name)
        unsetEach complain names
      | .error e => if complain then Eval.fail e else unsetEach complain names) := by
  funext s
  have hget : (get : Eval Interp) s = (.ok s, s) := rfl
  rw [unsetEach, bind_apply, bind_apply, hget]
  dsimp only
  cases h : s.unset name with
  | ok t =>
    have hkeep : s.unsetOrKeep name = t := by
      rw [Interp.unsetOrKeep, h]
      rfl
    exact congrArg (unsetEach complain names) hkeep.symm
  | error e => rfl

theorem information_own (builtins : List String) (s : Interp) (args : List String) :
    information builtins s.own args = information builtins s args := by
  unfold information
  simp only [Interp.get?_own, Interp.procs_own]
  rfl

end Command

theorem callProcedure_of_bind? (env : Env) (name : String) {p : Procedure} {args : List String}
    {frame : Frame} (hb : p.bind? args = some frame) :
    callProcedure env name p args = (do
      match ← ((env.runText p.body).framed frame).attempt with
      | .ok value | .error (.returned value) => return value
      | .error .broke => Eval.fail .breakOutsideLoop
      | .error .continued => Eval.fail .continueOutsideLoop
      | .error exit => throw exit) := by
  rw [callProcedure, hb]
  rfl

theorem callProcedure_of_bind?_eq_none (env : Env) (name : String) {p : Procedure}
    {args : List String} (hb : p.bind? args = none) :
    callProcedure env name p args = Eval.fail (.wrongArgs (p.usage name)) := by
  rw [callProcedure, hb]

theorem invoke_of_action? (env : Env) {name : String} {action : Command.Action} {s : Interp}
    (hproc : s.procs.get? name = none) (haction : Command.action? name = some action)
    (args : List String) : invoke env (name :: args) s = action env args s := by
  have hget : (get : Eval Interp) s = (.ok s, s) := rfl
  rw [invoke, bind_apply, hget]
  simp only [hproc, haction]

section
variable {A : ∀ {α : Type}, Eval α → Eval α → Prop} {env env' : Env}

theorem Env.Related.eval (h : env.Related A env') (text : String) :
    A (env.eval text) (env'.eval text) :=
  h.runText text.toList

variable (hA : Congruence A)
include hA

/-! ### Substitution -/

namespace Script
variable {run run' : Script → Eval String}

mutual

theorem Piece.related_value (h : ∀ script, A (run script) (run' script)) :
    (p : Piece) → A (p.value run) (p.value run')
  | .literal _ => hA.pure _
  | .variable name => hA.getVar name
  | .element _ index => hA.bind (related_valueAfter h "" index) fun _ => hA.getVar _
  | .command script => h script
  | .fault _ => hA.fail _

theorem related_valueAfter (h : ∀ script, A (run script) (run' script))
    (before : String) :
    (ps : List Piece) → A (valueAfter run before ps) (valueAfter run' before ps)
  | [] => hA.pure _
  | p :: ps => hA.bind (Piece.related_value h p) fun s => related_valueAfter h (before ++ s) ps

end

theorem Word.related_values (h : ∀ script, A (run script) (run' script))
    (w : Word) : A (w.values run) (w.values run') := by
  obtain ⟨expand, pieces⟩ := w
  apply hA.bind (related_valueAfter hA h "" pieces)
  intro s
  cases expand with
  | true => exact hA.ofExcept _ _
  | false => exact hA.pure _

theorem related_wordValues (h : ∀ script, A (run script) (run' script))
    (ws : List Word) : A (wordValues run ws) (wordValues run' ws) := by
  induction ws with
  | nil => exact hA.pure _
  | cons w ws ih =>
    exact hA.bind (Word.related_values hA h w) fun _ => hA.bind ih fun _ => hA.pure _

end Script

theorem related_runWords (h : env.Related A env') {invoke invoke' : List String → Eval String}
    (hi : ∀ words, A (invoke words) (invoke' words)) (result : String)
    (ws : List Script.Word) :
    A (Script.runWords env invoke result ws)
      (Script.runWords env' invoke' result ws) := by
  apply hA.bind (Script.related_wordValues hA h.run ws)
  intro words
  cases words with
  | nil => exact hA.pure _
  | cons name args => exact hi (name :: args)

theorem related_runCommands (h : env.Related A env')
    {invoke invoke' : List String → Eval String}
    (hi : ∀ words, A (invoke words) (invoke' words)) (result : String)
    (script : Script) :
    A (Script.runCommands env invoke result script)
      (Script.runCommands env' invoke' result script) := by
  induction script generalizing result with
  | nil => exact hA.pure _
  | cons c script ih =>
    cases c with
    | words ws => exact hA.bind (related_runWords hA h hi result ws) fun r => ih r
    | fault f => exact hA.fail _

theorem related_runText (h : env.Related A env') {invoke invoke' : List String → Eval String}
    (hi : ∀ words, A (invoke words) (invoke' words)) (result : String) (cs : List Char) :
    A (Script.runText env invoke result cs) (Script.runText env' invoke' result cs) := by
  rw [Script.runText_eq, Script.runText_eq]
  exact related_runCommands hA h hi result _

theorem Env.Related.subst (h : env.Related A env') (text : String) :
    A (env.subst text) (env'.subst text) :=
  Script.related_valueAfter hA h.run "" _

/-! ### Expressions -/

theorem related_truth (v : Value) : A (Eval.truth v) (Eval.truth v) :=
  hA.ofExcept _ _

mutual

theorem Env.Related.evalTree (h : env.Related A env') :
    (t : Expr.Tree) → A (env.evalTree t) (env'.evalTree t)
  | .literal _ => hA.pure _
  | .variable text => hA.bind (h.subst hA text) fun _ => hA.pure _
  | .quoted text => hA.bind (h.subst hA text) fun _ => hA.pure _
  | .command script => hA.bind (h.eval script) fun _ => hA.pure _
  | .unary _ operand => hA.bind (h.evalTree operand) fun _ => hA.ofExcept _ _
  | .binary _ left right =>
    hA.bind (h.evalTree left) fun _ => hA.bind (h.evalTree right) fun _ => hA.ofExcept _ _
  | .logical _ left right =>
    hA.bind (h.evalTree left) fun l => hA.bind (related_truth hA l) fun _ => hA.ite
      (hA.bind (h.evalTree right) fun r => hA.bind (related_truth hA r) fun _ => hA.pure _)
      (hA.pure _)
  | .ternary condition yes no =>
    hA.bind (h.evalTree condition) fun c => hA.bind (related_truth hA c) fun _ => hA.ite
      (h.evalTree yes) (h.evalTree no)
  | .call _ args => hA.bind (h.evalTrees args) fun _ => hA.ofExcept _ _

theorem Env.Related.evalTrees (h : env.Related A env') :
    (ts : List Expr.Tree) → A (env.evalTrees ts) (env'.evalTrees ts)
  | [] => hA.pure _
  | t :: ts => hA.bind (h.evalTree t) fun _ => hA.bind (h.evalTrees ts) fun _ => hA.pure _

end

theorem Env.Related.evalParsed (h : env.Related A env')
    (parsed : Except Expr.ParseError Expr.Tree) :
    A (env.evalParsed parsed) (env'.evalParsed parsed) :=
  hA.bind (hA.ofExcept _ _) fun t => h.evalTree hA t

theorem Env.Related.parsedCondition (h : env.Related A env')
    (parsed : Except Expr.ParseError Expr.Tree) :
    A (env.parsedCondition parsed) (env'.parsedCondition parsed) :=
  hA.bind (h.evalParsed hA parsed) fun v => related_truth hA v

theorem Env.Related.condition (h : env.Related A env') (source : String) :
    A (env.condition source) (env'.condition source) :=
  h.parsedCondition hA _

namespace Command

/-! ### Control -/

theorem related_clauses (h : env.Related A env') (args : List String) :
    A (clauses env args) (clauses env' args) := by
  induction args using clauses.induct with
  | case1 => simpa only [clauses] using hA.fail _
  | case2 condition args hd =>
    rw [clauses_of_dropThen_nil env condition hd, clauses_of_dropThen_nil env' condition hd]
    exact hA.fail _
  | case3 condition args body rest hd ih =>
    rw [clauses_of_dropThen_cons env condition hd, clauses_of_dropThen_cons env' condition hd]
    refine hA.bind (h.condition hA condition) fun _ => hA.ite (h.eval body) ?_
    split
    · exact hA.pure _
    · exact ih _ rfl
    · exact hA.fail _
    · exact h.eval _
    · exact h.eval _
    · exact hA.fail _

theorem related_loopBody (h : env.Related A env') (body : List Char) :
    A (loopBody env body) (loopBody env' body) := by
  apply hA.bind (hA.attempt (h.runText body))
  intro outcome
  rcases outcome with (_ | _ | _ | _ | _) | _
  all_goals first | exact hA.pure _ | exact hA.throw _

theorem related_loopNext (h : env.Related A env') (next : List Char) :
    A (loopNext env next) (loopNext env' next) := by
  apply hA.bind (hA.attempt (h.runText next))
  intro outcome
  rcases outcome with (_ | _ | _ | _ | _) | _
  all_goals first | exact hA.pure _ | exact hA.throw _

theorem related_repeatWhile {condition condition' step step' : Eval Bool}
    (hc : A condition condition') (hs : A step step') (rounds : Nat) :
    A (repeatWhile condition step rounds)
      (repeatWhile condition' step' rounds) := by
  induction rounds with
  | zero => exact hA.throw _
  | succ rounds ih =>
    exact hA.bind hc fun _ => hA.ite (hA.bind hs fun _ => hA.ite ih (hA.pure _)) (hA.pure _)

theorem related_whileLoop (h : env.Related A env') (args : List String) :
    A (whileLoop env args) (whileLoop env' args) := by
  unfold whileLoop
  split
  · rw [h.rounds]
    exact related_repeatWhile hA (h.parsedCondition hA _) (related_loopBody hA h _) _
  · exact hA.fail _

theorem related_forLoop (h : env.Related A env') (args : List String) :
    A (forLoop env args) (forLoop env' args) := by
  unfold forLoop
  split
  · next start test next body =>
    rw [h.rounds]
    refine hA.bind (h.eval start) fun _ => related_repeatWhile hA (h.parsedCondition hA _) ?_ _
    exact hA.bind (related_loopBody hA h _) fun _ => hA.ite (related_loopNext hA h _) (hA.pure _)
  · exact hA.fail _

theorem related_readBindings (args : List String) :
    A (readBindings args) (readBindings args) := by
  induction args using readBindings.induct with
  | case1 names list args ih =>
    rw [readBindings]
    refine hA.bind (hA.ofExcept _ _) fun _ => hA.ite (hA.fail _) ?_
    exact hA.bind (hA.ofExcept _ _) fun _ => hA.bind ih fun _ => hA.pure _
  | case2 args hargs =>
    rw [readBindings]
    · exact hA.pure _
    · exact hargs

theorem related_eachRound (h : env.Related A env') (body : List Char) (rounds : Nat)
    (bindings : List Binding) :
    A (eachRound env body rounds bindings)
      (eachRound env' body rounds bindings) := by
  induction rounds generalizing bindings with
  | zero => exact hA.pure _
  | succ rounds ih =>
    apply hA.bind (hA.change (isLocal_assignRounds bindings))
    intro _
    exact hA.bind (related_loopBody hA h body) fun _ => hA.ite (ih _) (hA.pure _)

theorem related_forEach (h : env.Related A env') (args : List String) :
    A (forEach env args) (forEach env' args) := by
  simp only [forEach]
  split
  · refine hA.ite (hA.fail _) ?_
    exact hA.bind (related_readBindings hA _) fun _ => related_eachRound hA h _ _ _
  · exact hA.fail _

theorem related_caught (h : env.Related A env') (script : String) :
    A (caught env script) (caught env' script) := by
  apply hA.bind (hA.attempt (h.eval script))
  intro outcome
  rcases outcome with (_ | _ | _ | _ | _) | _
  all_goals first | exact hA.pure _ | exact hA.throw _

theorem related_catchExit (h : env.Related A env') (args : List String) :
    A (catchExit env args) (catchExit env' args) := by
  unfold catchExit
  split
  · exact hA.bind (related_caught hA h _) fun _ => hA.pure _
  · apply hA.bind (related_caught hA h _)
    intro outcome
    exact hA.bind (hA.setVar _ _) fun _ => hA.pure _
  · exact hA.fail _

theorem related_eval (h : env.Related A env') (args : List String) :
    A (eval env args) (eval env' args) := by
  cases args with
  | nil => exact hA.fail _
  | cons arg args => exact h.eval _

theorem related_expr (h : env.Related A env') (args : List String) :
    A (expr env args) (expr env' args) := by
  cases args with
  | nil => exact hA.fail _
  | cons arg args => exact hA.bind (h.evalParsed hA _) fun _ => hA.pure _

/-! ### Variables and procedures -/

theorem related_set (args : List String) :
    A (set env args) (set env' args) := by
  unfold set
  split
  · exact hA.getVar _
  · exact hA.setVar _ _
  · exact hA.fail _

theorem related_unsetEach (complain : Bool) (names : List String) :
    A (unsetEach complain names) (unsetEach complain names) := by
  induction names with
  | nil => exact hA.pure _
  | cons name names ih =>
    rw [unsetEach_cons]
    refine hA.look (fun s => by rw [s.unset_own name]) (fun s => by rw [s.unset_own name]) ?_
    intro s
    cases (s.unset name).map Interp.own with
    | ok t => exact hA.bind (hA.change (Interp.isLocal_unsetOrKeep name)) fun _ => ih
    | error e => exact hA.ite (hA.fail e) ih

theorem related_unset (args : List String) :
    A (unset env args) (unset env' args) := by
  unfold unset
  split
  · exact related_unsetEach hA _ _
  · exact related_unsetEach hA _ _

theorem related_incrBy (name : String) (amount : Int64) :
    A (incrBy name amount) (incrBy name amount) := by
  refine hA.look (fun s => by rw [s.get?_own]) (fun s => by rw [s.get?_own]) fun s => ?_
  cases s.get? name with
  | some v => exact hA.bind (hA.ofExcept _ _) fun _ => hA.setVar _ _
  | none => exact hA.bind (hA.pure _) fun _ => hA.setVar _ _

theorem related_incr (args : List String) :
    A (incr env args) (incr env' args) := by
  unfold incr
  split
  · exact related_incrBy hA _ _
  · exact hA.bind (hA.ofExcept _ _) fun _ => related_incrBy hA _ _
  · exact hA.fail _

theorem related_append (args : List String) :
    A (append env args) (append env' args) := by
  cases args with
  | nil => exact hA.fail _
  | cons name pieces =>
    exact hA.look (fun s => by rw [s.get?_own]) (fun s => by rw [s.get?_own]) fun _ => hA.setVar _ _

theorem related_lappend (args : List String) :
    A (lappend env args) (lappend env' args) := by
  cases args with
  | nil => exact hA.fail _
  | cons name items =>
    refine hA.look (fun s => by rw [s.get?_own]) (fun s => by rw [s.get?_own]) fun s => ?_
    cases s.get? name with
    | some v => exact hA.bind (hA.ofExcept _ _) fun _ => hA.setVar _ _
    | none => exact hA.bind (hA.pure _) fun _ => hA.setVar _ _

theorem related_global (args : List String) :
    A (global env args) (global env' args) :=
  hA.bind (hA.change (Interp.isLocal_foldl Interp.isLocal_linkGlobal args)) fun _ => hA.pure _

theorem related_proc (args : List String) :
    A (proc env args) (proc env' args) := by
  unfold proc
  split
  · apply hA.bind (hA.ofExcept _ _)
    intro _
    exact hA.bind (hA.change (Interp.isLocal_procs fun procs => procs.set _ _)) fun _ => hA.pure _
  · exact hA.fail _

/-! ### Lists, texts and the outside -/

theorem related_llength (args : List String) :
    A (llength env args) (llength env' args) := by
  unfold llength
  split
  · exact hA.bind (hA.ofExcept _ _) fun _ => hA.pure _
  · exact hA.fail _

theorem related_lindex (args : List String) :
    A (lindex env args) (lindex env' args) := by
  cases args with
  | nil => exact hA.fail _
  | cons items specs => exact hA.ofExcept _ _

theorem related_lrange (args : List String) :
    A (lrange env args) (lrange env' args) := by
  unfold lrange
  split
  · apply hA.bind (hA.ofExcept _ _)
    intro _
    exact hA.bind (hA.ofExcept _ _) fun _ => hA.pure _
  · exact hA.fail _

theorem related_join (args : List String) :
    A (join env args) (join env' args) := by
  unfold join
  split
  · exact hA.bind (hA.ofExcept _ _) fun _ => hA.pure _
  · exact hA.bind (hA.ofExcept _ _) fun _ => hA.pure _
  · exact hA.fail _

theorem related_split (args : List String) :
    A (split env args) (split env' args) := by
  unfold split
  split
  · exact hA.pure _
  · exact hA.pure _
  · exact hA.fail _

theorem related_string (args : List String) :
    A (string env args) (string env' args) := by
  cases args with
  | nil => exact hA.fail _
  | cons sub args => exact hA.ofExcept _ _

theorem related_after (args : List String) :
    A (after env args) (after env' args) := by
  unfold after
  split
  · apply hA.bind (hA.ofExcept _ _)
    intro _
    exact hA.bind (hA.change (Interp.isLocal_effects fun effects => effects.sleep _)) fun _ =>
      hA.pure _
  · exact hA.fail _

theorem related_print (name text : String) :
    A (print name text) (print name text) := by
  unfold print
  split
  · exact hA.bind (hA.change (Interp.isLocal_effects fun effects => effects.print _ _)) fun _ =>
      hA.pure _
  · exact hA.fail _

theorem related_printArgs (ending : String) (args : List String) :
    A (printArgs ending args) (printArgs ending args) := by
  unfold printArgs
  split
  · exact related_print hA _ _
  · exact related_print hA _ _
  · exact hA.fail _

theorem related_puts (args : List String) :
    A (puts env args) (puts env' args) := by
  unfold puts
  split
  · exact related_printArgs hA _ _
  · exact related_printArgs hA _ _

theorem related_breakLoop (args : List String) :
    A (breakLoop env args) (breakLoop env' args) := by
  cases args with
  | nil => exact hA.throw _
  | cons arg args => exact hA.fail _

theorem related_continueLoop (args : List String) :
    A (continueLoop env args) (continueLoop env' args) := by
  cases args with
  | nil => exact hA.throw _
  | cons arg args => exact hA.fail _

theorem related_returnValue (args : List String) :
    A (returnValue env args) (returnValue env' args) := by
  unfold returnValue
  split
  · exact hA.throw _
  · exact hA.throw _
  · exact hA.fail _

theorem related_error (args : List String) :
    A (error env args) (error env' args) := by
  unfold error
  split
  · exact hA.throw _
  · exact hA.throw _
  · exact hA.throw _
  · exact hA.fail _

theorem related_info (args : List String) :
    A (info env args) (info env' args) :=
  hA.look (fun s => by rw [information_own]) (fun s => by rw [information_own]) fun _ =>
    hA.ofExcept _ _

/-- Every builtin command is related to itself over ways to run scripts that are related. -/
theorem related_of_mem_actions (h : env.Related A env') :
    ∀ entry ∈ actions, ∀ args, A (entry.2 env args) (entry.2 env' args) := by
  simp only [actions, List.forall_mem_cons]
  exact ⟨related_after hA, related_append hA, related_breakLoop hA, related_catchExit hA h,
    fun _ => hA.pure _, related_continueLoop hA, related_error hA, related_eval hA h,
    related_expr hA h, related_forLoop hA h, related_forEach hA h, related_global hA,
    related_clauses hA h, related_incr hA, related_join hA, related_lappend hA, related_lindex hA,
    fun _ => hA.pure _, related_llength hA, related_lrange hA, related_proc hA, related_puts hA,
    related_returnValue hA, related_set hA, related_split hA, related_string hA, related_unset hA,
    related_whileLoop hA h, fun _ hmem => (List.not_mem_nil hmem).elim⟩

theorem related_action (h : env.Related A env') {name : String} {action : Action}
    (ha : action? name = some action) (args : List String) :
    A (action env args) (action env' args) := by
  unfold action? at ha
  split at ha
  · cases ha
    exact related_info hA args
  · obtain ⟨front, back, heq, -⟩ := List.lookup_eq_some_iff.mp ha
    exact related_of_mem_actions hA h (name, action) (heq ▸ by simp) args

end Command

/-! ### Procedure calls -/

theorem related_callProcedure (h : env.Related A env') (name : String) (p : Procedure)
    (args : List String) :
    A (callProcedure env name p args) (callProcedure env' name p args) := by
  cases hb : p.bind? args with
  | none =>
    rw [callProcedure_of_bind?_eq_none env name hb, callProcedure_of_bind?_eq_none env' name hb]
    exact hA.fail _
  | some frame =>
    rw [callProcedure_of_bind? env name hb, callProcedure_of_bind? env' name hb]
    apply hA.bind (hA.attempt (hA.framed frame (h.runText p.body)))
    intro outcome
    rcases outcome with (_ | _ | _ | _ | _) | _
    all_goals first | exact hA.pure _ | exact hA.throw _

theorem related_invoke (h : env.Related A env') (words : List String) :
    A (invoke env words) (invoke env' words) := by
  cases words with
  | nil => exact hA.pure _
  | cons name args =>
    refine hA.look (fun _ => rfl) (fun _ => rfl) fun s => ?_
    cases s.procs.get? name with
    | some p => exact related_callProcedure hA h name p args
    | none =>
      cases ha : Command.action? name with
      | some action => exact Command.related_action hA h ha args
      | none => exact hA.fail _

end
end TclHost
