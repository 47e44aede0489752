import TclHost.Interp.Expression
import TclHost.Interp.Command.Variable
/-! # Commands that steer evaluation -/
namespace TclHost.Command

/-- Join arguments with a space, after white space around them and empty ones are dropped. -/
def concatTexts (args : List String) : String :=
  let trimmed := args.map fun a => String.ofList (Text.trim a.toList)
  " ".intercalate (trimmed.filter fun a => !a.isEmpty)

/-- What is left of a conditional after a condition: an optional word before the script. -/
def dropThen : List String → List String
  | "then" :: args => args
  | args => args

/-- Evaluate the script of the first condition that holds, or the last script. -/
def clauses (env : Env) (args : List String) : Eval String :=
  match args with
  | [] => Eval.fail .noCondition
  | condition :: args =>
    match _h : dropThen args with
    | [] => Eval.fail (.noScriptAfter condition)
    | body :: rest => do
      if ← env.condition condition then env.eval body
      else match _h' : rest with
        | [] => return ""
        | "elseif" :: rest => clauses env rest
        | ["else"] => Eval.fail (.noScriptAfter "else")
        | ["else", body] => env.eval body
        | [body] => env.eval body
        | _ => Eval.fail .extraWordsAfterElse
termination_by args.length
decreasing_by
  have : (dropThen args).length ≤ args.length := by
    unfold dropThen
    split <;> simp
  rw [_h, _h'] at this
  simp only [List.length_cons] at this ⊢
  omega

def ifThen : Action := clauses

def loopBody (env : Env) (body : List Char) : Eval Bool := do
  match ← (env.runText body).attempt with
  | .ok _ | .error .continued => return true
  | .error .broke => return false
  | .error exit => throw exit

def loopNext (env : Env) (next : List Char) : Eval Bool := do
  match ← (env.runText next).attempt with
  | .ok _ => return true
  | .error .broke => return false
  | .error exit => throw exit

/-- Repeat a step while a condition holds and the step asks for more.  What the rounds have in
common, such as a parsed condition, is worked out before the first one. -/
def repeatWhile (condition step : Eval Bool) : (rounds : Nat) → Eval String
  | 0 => throw .outOfRounds
  | rounds + 1 => do
    if ← condition then
      if ← step then repeatWhile condition step rounds else return ""
    else return ""

def whileLoop : Action
  | env, [test, body] =>
    repeatWhile (env.parsedCondition (Expr.parse test)) (loopBody env body.toList) env.rounds
  | _, _ => Eval.fail (.wrongArgs "while test command")

def forLoop : Action
  | env, [start, test, next, body] => do
    let _ ← env.eval start
    let body := body.toList
    let next := next.toList
    let step : Eval Bool := do
      if ← loopBody env body then loopNext env next else return false
    repeatWhile (env.parsedCondition (Expr.parse test)) step env.rounds
  | _, _ => Eval.fail (.wrongArgs "for start test next command")

/-- The variables of a loop over a list, and the elements of the list. -/
abbrev Binding := List String × List String

def readBindings : List String → Eval (List Binding)
  | names :: list :: args => do
    let names ← Eval.ofExcept .list (TclList.parse names)
    if names.isEmpty then Eval.fail .emptyVarList
    else
      let items ← Eval.ofExcept .list (TclList.parse list)
      return (names, items) :: (← readBindings args)
  | _ => return []

/-- The rounds that it takes to use up the elements of every list. -/
def roundCount (bindings : List Binding) : Nat :=
  bindings.foldl (fun n b => max n ((b.2.length + b.1.length - 1) / b.1.length)) 0

/-- Give variables the elements of one round; where these run out the value is empty. -/
def assignRound (s : Interp) : List String → List String → Interp
  | [], _ => s
  | name :: names, items => assignRound (s.set name (items.head?.getD "")) names items.tail

def eachRound (env : Env) (body : List Char) : (rounds : Nat) → List Binding → Eval String
  | 0, _ => return ""
  | rounds + 1, bindings => do
    modify fun s => bindings.foldl (fun s b => assignRound s b.1 b.2) s
    if ← loopBody env body then
      eachRound env body rounds (bindings.map fun b => (b.1, b.2.drop b.1.length))
    else return ""

def forEach : Action
  | env, args =>
    match args.getLast? with
    | some body =>
      if args.length < 3 ∨ args.length % 2 = 0 then Eval.fail (.wrongArgs forEachUsage)
      else do
        let bindings ← readBindings args.dropLast
        eachRound env body.toList (roundCount bindings) bindings
    | none => Eval.fail (.wrongArgs forEachUsage)
where
  /-- How the command is to be called. -/
  forEachUsage : String := "foreach varList list ?varList list ...? command"

def breakLoop : Action
  | _, [] => throw .broke
  | _, _ => Eval.fail (.wrongArgs "break")

def continueLoop : Action
  | _, [] => throw .continued
  | _, _ => Eval.fail (.wrongArgs "continue")

def returnValue : Action
  | _, [] => throw (.returned "")
  | _, [value] => throw (.returned value)
  | _, _ => Eval.fail (.wrongArgs "return ?value?")

def error : Action
  | _, [message] | _, [message, _] | _, [message, _, _] => throw (.error message)
  | _, _ => Eval.fail (.wrongArgs "error message ?errorInfo? ?errorCode?")

/-- Evaluate a script; the code of how it ended, and its value or message. -/
def caught (env : Env) (script : String) : Eval (Nat × String) := do
  match ← (env.eval script).attempt with
  | .ok value => return (0, value)
  | .error (.error message) => return (1, message)
  | .error (.returned value) => return (2, value)
  | .error .broke => return (3, "")
  | .error .continued => return (4, "")
  | .error .outOfRounds => throw .outOfRounds

def catchExit : Action
  | env, [script] => do return toString (← caught env script).1
  | env, [script, name] => do
    let (code, value) ← caught env script
    let _ ← Eval.setVar name value
    return toString code
  | _, _ => Eval.fail (.wrongArgs "catch script ?resultVarName?")

def eval : Action
  | _, [] => Eval.fail (.wrongArgs "eval arg ?arg ...?")
  | env, args => env.eval (concatTexts args)

def expr : Action
  | _, [] => Eval.fail (.wrongArgs "expr arg ?arg ...?")
  | env, args => do return (← env.expr (" ".intercalate args)).text

end TclHost.Command
