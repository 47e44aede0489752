import TclHost.Host.Files
import TclHost.Template.Expansion
/-! # Errors of the host side

Errors that come from an engine show nothing but the engine's own message.
-/
namespace TclHost.Host

/-- Whatever can go wrong when an interpreter is made or used. -/
inductive Error where
  /-- The engine could not be made ready. -/
  | init (message : String)
  /-- A script did not end normally. -/
  | eval (message : String)
  /-- A result could not be read as the kind that was asked for. -/
  | coerce (message : String)
  /-- A value of one kind was given for a type of another. -/
  | cannotConvert (typeName : String)
  | template (error : Template.Error)
  | released
  | wrongThread
  /-- A deadline, in milliseconds, was missed. -/
  | timeout (duration : Nat)
  | workerGone
  /-- The start-up file of the given path could not be read. -/
  | config (path : String) (error : FileError)
  deriving DecidableEq, Repr

/-- The three digits of a number of thousandths, without the zeros at the end. -/
def thousandths (n : Nat) : List Char :=
  let ds := Nat.toDigits 10 n
  ((List.replicate (3 - ds.length) '0' ++ ds).reverse.dropWhile (· == '0')).reverse

/-- A duration in seconds from one second on, and in milliseconds below. -/
def durationText (ms : Nat) : String :=
  if ms = 0 then "0ns"
  else if ms < 1000 then toString ms ++ "ms"
  else
    match thousandths (ms % 1000) with
    | [] => toString (ms / 1000) ++ "s"
    | ds => toString (ms / 1000) ++ "." ++ String.ofList ds ++ "s"

def Error.message : Error → String
  | .init message | .eval message | .coerce message => message
  | .cannotConvert typeName => "cannot convert Tcl object to " ++ typeName
  | .template error => "format error: " ++ error.message
  | .released => "interpreter has been released"
  | .wrongThread => "interpreter used from a thread other than the one that created it"
  | .timeout duration => "evaluation did not finish within " ++ durationText duration
  | .workerGone => "interpreter worker has stopped"
  | .config path error => "cannot read rc file " ++ path ++ ": " ++ error.message

end TclHost.Host
