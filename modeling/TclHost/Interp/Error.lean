import TclHost.Expr.Grammar
import TclHost.Expr.Operator
import TclHost.Script.Syntax
import TclHost.TclList.Reader
/-! # Errors of commands

Why a command fails.  Scripts only ever see the wording of an error.
-/
namespace TclHost

inductive CommandError where
  | fault (f : Script.Fault)
  | list (error : TclList.Error)
  | number (error : Number.Error)
  | expression (error : Expr.ParseError)
  | operator (error : Expr.OperatorError)
  | noVariableToRead (name : String)
  | noVariableToUnset (name : String)
  | tooManyNested
  | unknownCommand (name : String)
  | wrongArgs (usage : String)
  | unknownSubcommand (name choices : String)
  | noCondition
  | noScriptAfter (word : String)
  | extraWordsAfterElse
  | emptyVarList
  | breakOutsideLoop
  | continueOutsideLoop
  | unknownChannel (name : String)
  | badIndex (spec : String)
  | valueTooLarge
  | noProcedure (name : String)
  | namelessParameter
  | tooManyParameterFields (spec : String)
  deriving DecidableEq, Repr

def CommandError.message : CommandError → String
  | .fault f => f.message
  | .list error => error.message
  | .number error => error.message
  | .expression error => error.message
  | .operator error => error.message
  | .noVariableToRead name => "can't read \"" ++ name ++ "\": no such variable"
  | .noVariableToUnset name => "can't unset \"" ++ name ++ "\": no such variable"
  | .tooManyNested => "too many nested evaluations (infinite loop?)"
  | .unknownCommand name => "invalid command name \"" ++ name ++ "\""
  | .wrongArgs usage => "wrong # args: should be \"" ++ usage ++ "\""
  | .unknownSubcommand name choices =>
    "unknown or ambiguous subcommand \"" ++ name ++ "\": must be " ++ choices
  | .noCondition => "wrong # args: no expression after \"if\" argument"
  | .noScriptAfter word => "wrong # args: no script following \"" ++ word ++ "\" argument"
  | .extraWordsAfterElse =>
    "wrong # args: extra words after \"else\" clause in \"if\" command"
  | .emptyVarList => "foreach varlist is empty"
  | .breakOutsideLoop => "invoked \"break\" outside of a loop"
  | .continueOutsideLoop => "invoked \"continue\" outside of a loop"
  | .unknownChannel name => "can not find channel named \"" ++ name ++ "\""
  | .badIndex spec =>
    "bad index \"" ++ spec ++ "\": must be integer?[+-]integer? or end?[+-]integer?"
  | .valueTooLarge => "max size for a Tcl value (2147483647 bytes) exceeded"
  | .noProcedure name => "\"" ++ name ++ "\" isn't a procedure"
  | .namelessParameter => "argument with no name"
  | .tooManyParameterFields spec =>
    "too many fields in argument specifier \"" ++ spec ++ "\""

end TclHost
