import TclHost.Interp.Substitution
import TclHost.Interp.Procedure
/-! # Commands on variables and procedures -/
namespace TclHost.Command

/-- A command is given what it may evaluate with and its arguments. -/
abbrev Action := Env → List String → Eval String

def set : Action
  | _, [name] => Eval.getVar name
  | _, [name, value] => Eval.setVar name value
  | _, _ => Eval.fail (.wrongArgs "set varName ?newValue?")

/-- Remove variables one after the other; a missing one is an error unless complaints are off. -/
def unsetEach (complain : Bool) : List String → Eval String
  | [] => return ""
  | name :: names => do
    match (← get).unset name with
    | .ok s =>
      MonadState.set s
      unsetEach complain names
    | .error e => if complain then Eval.fail e else unsetEach complain names

def unset : Action
  | _, "-nocomplain" :: names => unsetEach false names
  | _, names => unsetEach true names

/-- Add to the integer in a variable; a missing variable counts as zero. -/
def incrBy (name : String) (amount : Int64) : Eval String := do
  let current ← match (← get).get? name with
    | some v => Eval.ofExcept .number (Number.parseInt v)
    | none => pure 0
  Eval.setVar name (intText (current + amount))

def incr : Action
  | _, [name] => incrBy name 1
  | _, [name, amount] => do incrBy name (← Eval.ofExcept .number (Number.parseInt amount))
  | _, _ => Eval.fail (.wrongArgs "incr varName ?increment?")

def append : Action
  | _, name :: pieces => do
    let value := ((← get).get? name).getD ""
    Eval.setVar name (value ++ String.join pieces)
  | _, [] => Eval.fail (.wrongArgs "append varName ?value ...?")

def lappend : Action
  | _, name :: items => do
    let current ← match (← get).get? name with
      | some v => Eval.ofExcept .list (TclList.parse v)
      | none => pure []
    Eval.setVar name (TclList.format (current ++ items))
  | _, [] => Eval.fail (.wrongArgs "lappend varName ?value ...?")

def global : Action
  | _, names => do
    modify fun s => names.foldl Interp.linkGlobal s
    return ""

def defineProc (name params body : String) : Eval String := do
  let p ← Eval.ofExcept id (Procedure.parse params body)
  modify fun s => { s with procs := s.procs.set name p }
  return ""

def proc : Action
  | _, [name, params, body] => defineProc name params body
  | _, _ => Eval.fail (.wrongArgs "proc name args body")

end TclHost.Command
