import TclHost.Interp.Command.Control
import TclHost.Interp.Index
/-! # Commands on lists -/
namespace TclHost.Command

def concat : Action
  | _, args => return concatTexts args

def list : Action
  | _, args => return TclList.format args

def llength : Action
  | _, [items] => do return toString (← Eval.ofExcept .list (TclList.parse items)).length
  | _, _ => Eval.fail (.wrongArgs "llength list")

/-- The element at the end of a path of indices; outside of a list there is an empty one. -/
def elementAt (current : String) : List String → Except CommandError String
  | [] => .ok current
  | spec :: specs => do
    let items ← (TclList.parse current).mapError .list
    match ← Index.resolve spec items.length with
    | some i =>
      match items[i]? with
      | some item => elementAt item specs
      | none => return ""
    | none => return ""

def lindex : Action
  | _, items :: specs => Eval.ofExcept id (elementAt items specs)
  | _, [] => Eval.fail (.wrongArgs "lindex list ?index ...?")

def lrange : Action
  | _, [items, first, last] => do
    let items ← Eval.ofExcept .list (TclList.parse items)
    return TclList.format (← Eval.ofExcept id (Index.slice items first last))
  | _, _ => Eval.fail (.wrongArgs "lrange list first last")

def join : Action
  | _, [items] => do return " ".intercalate (← Eval.ofExcept .list (TclList.parse items))
  | _, [items, separator] => do
    return separator.intercalate (← Eval.ofExcept .list (TclList.parse items))
  | _, _ => Eval.fail (.wrongArgs "join list ?joinString?")

def cutAt (isSeparator : Char → Bool) : List Char → List (List Char)
  | [] => [[]]
  | c :: cs =>
    if isSeparator c then [] :: cutAt isSeparator cs
    else match cutAt isSeparator cs with
      | [] => [[c]]
      | part :: parts => (c :: part) :: parts

/-- Cut a text at every one of some characters, or between all of its characters. -/
def splitText (text separators : String) : List String :=
  if text.isEmpty then []
  else if separators.isEmpty then text.toList.map Char.toString
  else (cutAt separators.toList.contains text.toList).map String.ofList

def split : Action
  | _, [text] => return TclList.format (splitText text " \t\n\r")
  | _, [text, separators] => return TclList.format (splitText text separators)
  | _, _ => Eval.fail (.wrongArgs "split string ?splitChars?")

end TclHost.Command
