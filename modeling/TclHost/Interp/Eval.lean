import TclHost.Interp.Command.Outside
import TclHost.Interp.Command.Text
/-! # Running scripts

The first word of a command names a procedure or a builtin command; procedures come first.
Evaluations are nested at most `maxNesting` deep, which is checked whenever one is entered.  What
runs at one depth is built from what runs one level further down.
-/
namespace TclHost

namespace Command

def infoSubcommands : String :=
  "args, body, commands, exists, or procs"

/-- The names that match a pattern, sorted and each of them once. -/
def matchingNames (pattern : String) (names : List String) : String :=
  let matching := names.filter fun n => Text.Glob.isMatch pattern n false
  TclList.format (matching.foldl (fun t n => t.set n ()) (∅ : Table Unit)).keys

def listNames (sub : String) (names : List String) : List String → Except CommandError String
  | [] => .ok (matchingNames "*" names)
  | [pattern] => .ok (matchingNames pattern names)
  | _ => .error (.wrongArgs ("info " ++ sub ++ " ?pattern?"))

def describe (sub : String) (s : Interp) (part : Procedure → String) :
    List String → Except CommandError String
  | [name] =>
    match s.procs.get? name with
    | some p => .ok (part p)
    | none => .error (.noProcedure name)
  | _ => .error (.wrongArgs ("info " ++ sub ++ " procname"))

/-- What `info` says, given the names of the builtin commands. -/
def information (builtins : List String) (s : Interp) :
    List String → Except CommandError String
  | "exists" :: args =>
    match args with
    | [name] => .ok (truthText (s.get? name).isSome)
    | _ => .error (.wrongArgs "info exists varName")
  | "procs" :: args => listNames "procs" s.procs.keys args
  | "commands" :: args => listNames "commands" (s.procs.keys ++ builtins) args
  | "body" :: args => describe "body" s (fun p => String.ofList p.body) args
  | "args" :: args => describe "args" s (fun p => TclList.format (p.params.map (·.name))) args
  | sub :: _ => .error (.unknownSubcommand sub infoSubcommands)
  | [] => .error (.unknownSubcommand "" infoSubcommands)

def actions : List (String × Action) :=
  [ ("after", after), ("append", append), ("break", breakLoop), ("catch", catchExit),
    ("concat", concat), ("continue", continueLoop), ("error", error), ("eval", eval),
    ("expr", expr), ("for", forLoop), ("foreach", forEach), ("global", global),
    ("if", ifThen), ("incr", incr), ("join", join), ("lappend", lappend), ("lindex", lindex),
    ("list", list), ("llength", llength), ("lrange", lrange), ("proc", proc), ("puts", puts),
    ("return", returnValue), ("set", set), ("split", split), ("string", string),
    ("unset", unset), ("while", whileLoop) ]

def names : List String :=
  [ "after", "append", "break", "catch", "concat", "continue", "error", "eval", "expr", "for",
    "foreach", "global", "if", "incr", "info", "join", "lappend", "lindex", "list", "llength",
    "lrange", "proc", "puts", "return", "set", "split", "string", "unset", "while" ]

def info : Action
  | _, args => do Eval.ofExcept id (information names (← get) args)

def action? (name : String) : Option Action :=
  if name = "info" then some info else actions.lookup name

theorem mem_names_iff (name : String) : name ∈ names ↔ (action? name).isSome := by
  have h : names.Perm ("info" :: actions.map Prod.fst) := by
    decide
  rw [h.mem_iff, List.mem_cons, action?]
  split
  · simp_all
  · next hi =>
    simp only [hi, false_or]
    generalize actions = table
    induction table with
    | nil => simp
    | cons entry table ih =>
      obtain ⟨key, action⟩ := entry
      by_cases hk : name = key
      · simp [hk]
      · simp [List.lookup_cons, beq_false_of_ne hk, hk, ih]

end Command

/-- Call a procedure in a frame of its own, which is gone when the call is over. -/
def callProcedure (env : Env) (name : String) (p : Procedure) (args : List String) :
    Eval String :=
  match p.bind? args with
  | none => Eval.fail (.wrongArgs (p.usage name))
  | some frame => do
    modify (·.pushFrame frame)
    let outcome ← (env.runText p.body).attempt
    modify Interp.popFrame
    match outcome with
    | .ok value | .error (.returned value) => return value
    | .error .broke => Eval.fail .breakOutsideLoop
    | .error .continued => Eval.fail .continueOutsideLoop
    | .error exit => throw exit

def invoke (env : Env) (words : List String) : Eval String :=
  match words with
  | [] => return ""
  | name :: args => do
    match (← get).procs.get? name with
    | some p => callProcedure env name p args
    | none =>
      match Command.action? name with
      | some action => action env args
      | none => Eval.fail (.unknownCommand name)

def maxNesting : Nat :=
  256

/-- Evaluate one level further down, and come back to the level however that ends; at the limit
it is an error. -/
def Eval.nest {α : Type} (m : Eval α) : Eval α :=
  fun s =>
    if s.level < maxNesting then
      let (r, t) := m s.enter
      (r, t.leave)
    else Eval.fail .tooManyNested s

/-- What runs scripts where a number of levels is left, if loops may take a number of rounds. -/
def envWith (rounds : Nat) : (levels : Nat) → Env
  | 0 => ⟨fun _ => Eval.fail .tooManyNested, fun _ => Eval.fail .tooManyNested, rounds⟩
  | levels + 1 =>
    let env := envWith rounds levels
    ⟨fun script => (Script.runCommands env (invoke env) "" script).nest,
      fun cs => (Script.runText env (invoke env) "" cs).nest, rounds⟩

theorem envWith_eval (rounds levels : Nat) (text : String) :
    (envWith rounds levels).eval text = (envWith rounds levels).run (Script.read text) := by
  cases levels with
  | zero => rfl
  | succ levels => exact congrArg Eval.nest (Script.runText_eq ..)

/-- What runs scripts outside of any evaluation. -/
def Env.top (rounds : Nat) : Env :=
  envWith rounds maxNesting

end TclHost
