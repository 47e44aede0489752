import TclHost.Interp.Command.Variable
/-! # Commands that reach the outside -/
namespace TclHost.Command

/-- Sleep for a number of milliseconds, not at all for a negative one. -/
def after : Action
  | _, [duration] => do
    let ms ← Eval.ofExcept .number (Number.parseInt duration)
    modify fun s => { s with effects := s.effects.sleep ms.toInt.toNat }
    return ""
  | _, _ => Eval.fail (.wrongArgs "after ms")

def channel? : String → Option Channel
  | "stdout" => some .stdout
  | "stderr" => some .stderr
  | _ => none

def print (name text : String) : Eval String := do
  match channel? name with
  | some channel =>
    modify fun s => { s with effects := s.effects.print channel text }
    return ""
  | none => Eval.fail (.unknownChannel name)

def printArgs (ending : String) : List String → Eval String
  | [text] => print "stdout" (text ++ ending)
  | [channel, text] => print channel (text ++ ending)
  | _ => Eval.fail (.wrongArgs "puts ?-nonewline? ?channelId? string")

/-- Print a text, with a line end unless that is turned off. -/
def puts : Action
  | _, "-nonewline" :: arg :: args => printArgs "" (arg :: args)
  | _, args => printArgs "\n" args

end TclHost.Command
