import TclHost.Interp.Eval
import TclHost.Text.Utf8
/-! # Engines

An engine runs scripts in an interpreter and keeps the text of the last result or message.
Readings of a result that fail leave their message there too.
-/
namespace TclHost.Host

inductive Status where
  | ok
  | error
  | returned
  | broke
  | continued
  deriving DecidableEq, Repr

/-- The status of a completion code; a code without one of its own is an error. -/
def Status.ofCode : Int → Status
  | 0 => .ok
  | 2 => .returned
  | 3 => .broke
  | 4 => .continued
  | _ => .error

def Status.isOk (s : Status) : Bool :=
  s == .ok

/-- An interpreter with the text of its last result, and the rounds that its loops may take. -/
structure Engine where
  interp : Interp
  result : String
  rounds : Nat

namespace Engine

def create (rounds : Nat) : Engine :=
  ⟨.fresh, "", rounds⟩

def init (e : Engine) : Engine :=
  { e with
    interp := ((e.interp.set "tcl_version" "8.6").set "tcl_interactive" "0").set "auto_path" ""
    result := "" }

def finish (e : Engine) (interp : Interp) (status : Status) (result : String) :
    Status × Engine :=
  (status, { e with interp, result })

/-- Run a script given as bytes; a script that returns has ended normally. -/
def eval (e : Engine) (script : ByteArray) : Status × Engine :=
  match Text.Utf8.decode script with
  | .error position =>
    e.finish e.interp .error ("invalid UTF-8 in script at byte " ++ toString position)
  | .ok text =>
    match (Env.top e.rounds).eval text e.interp with
    | (.ok value, s) | (.error (.returned value), s) => e.finish s .ok value
    | (.error (.error message), s) => e.finish s .error message
    | (.error .broke, s) => e.finish s .error CommandError.breakOutsideLoop.message
    | (.error .continued, s) => e.finish s .error CommandError.continueOutsideLoop.message
    | (.error .outOfRounds, s) => e.finish s .error "too many rounds of a loop"

/-- A reading of a text; a failure leaves its message as the result. -/
def reading {α : Type} (e : Engine) : Except Number.Error α → Except String α × Engine
  | .ok a => (.ok a, e)
  | .error error => (.error error.message, { e with result := error.message })

end Engine
end TclHost.Host
