/-! # Scripts as trees

Where a word ends never depends on a value, so a script can be read before it is run.  A fault
in the text is a leaf that stands where a run gets to it: what comes before a fault is run, and
nothing is read after it.
-/
namespace TclHost.Script

inductive Fault where
  | missingBracket
  | missingBrace
  | missingQuote
  | missingParen
  | missingNameBrace
  | extraAfterBrace
  | extraAfterQuote
  deriving DecidableEq, Repr

def Fault.message : Fault → String
  | .missingBracket => "missing close-bracket"
  | .missingBrace => "missing close-brace"
  | .missingQuote => "missing \""
  | .missingParen => "missing )"
  | .missingNameBrace => "missing close-brace for variable name"
  | .extraAfterBrace => "extra characters after close-brace"
  | .extraAfterQuote => "extra characters after close-quote"

mutual

/-- A piece of a word: characters that stand for themselves, the value of a variable, that of an
array element with a computed index, or the result of a script. -/
inductive Piece where
  | literal (text : List Char)
  | variable (name : String)
  | element (array : String) (index : List Piece)
  | command (script : List Command)
  | fault (f : Fault)

/-- A word; one that is expanded stands for the elements of the list that it denotes. -/
inductive Word where
  | mk (expand : Bool) (pieces : List Piece)

/-- A command, or the fault that ends a script. -/
inductive Command where
  | words (ws : List Word)
  | fault (f : Fault)

end

end TclHost.Script

namespace TclHost

abbrev Script := List Script.Command

end TclHost
