import TclHost.Interp.State
import TclHost.TclList.Printer
/-! # Procedures

A parameter list names the parameters of a procedure and their default values; a last
parameter called `args` takes all further arguments as a list.
-/
namespace TclHost

/-- Read one entry of a parameter list: a name, or a name and a default value. -/
def Parameter.parse (spec : String) : Except CommandError Parameter := do
  match ← (TclList.parse spec).mapError .list with
  | [] => throw .namelessParameter
  | [name] => return ⟨name, none⟩
  | [name, value] => return ⟨name, some value⟩
  | _ => throw (.tooManyParameterFields spec)

namespace Procedure

def parse (params body : String) : Except CommandError Procedure := do
  let specs ← (TclList.parse params).mapError .list
  return ⟨← specs.mapM Parameter.parse, body.toList⟩

def isVariadic (p : Procedure) : Bool :=
  (p.params.getLast?.map (·.name)) == some "args"

def fixed (p : Procedure) : List Parameter :=
  if p.isVariadic then p.params.dropLast else p.params

def paramUsage (p : Parameter) : String :=
  if p.default?.isSome then "?" ++ p.name ++ "?" else p.name

def usage (p : Procedure) (name : String) : String :=
  " ".intercalate
    (name :: p.fixed.map paramUsage ++ if p.isVariadic then ["?arg ...?"] else [])

/-- Give the fixed parameters their arguments, or their default values where these run out. -/
def bindFixed (vars : Table String) : List Parameter → List String → Option (Table String)
  | [], _ => some vars
  | p :: ps, arg :: args => bindFixed (vars.set p.name arg) ps args
  | p :: ps, [] =>
    match p.default? with
    | some v => bindFixed (vars.set p.name v) ps []
    | none => none

/-- The frame of a call with the given arguments, if their number fits. -/
def bind? (p : Procedure) (args : List String) : Option Frame := do
  if !p.isVariadic && p.fixed.length < args.length then none
  let vars ← bindFixed ∅ p.fixed args
  if p.isVariadic then
    return ⟨vars.set "args" (TclList.format (args.drop p.fixed.length)), ∅⟩
  else return ⟨vars, ∅⟩

end Procedure
end TclHost
