import TclHost.Interp.State
import TclHost.Script.Reader
/-! # Substitution

The value of a word is found from left to right: variables are read and scripts between
brackets are run where they stand, and a fault ends the evaluation where a run gets to it.
-/
namespace TclHost

/-- What a command needs to evaluate its arguments: ways to run a script one level further down,
one that has been read and one that is read on the way, and the number of rounds that a loop may
take. -/
structure Env where
  run : Script → Eval String
  runText : List Char → Eval String
  rounds : Nat

def Env.eval (env : Env) (text : String) : Eval String :=
  env.runText text.toList

namespace Script

mutual

def Piece.value (run : Script → Eval String) : Piece → Eval String
  | .literal text => return String.ofList text
  | .variable name => Eval.getVar name
  | .element array index => do
    let i ← valueAfter run "" index
    Eval.getVar (array ++ "(" ++ i ++ ")")
  | .command script => run script
  | .fault f => Eval.fail (.fault f)

def valueAfter (run : Script → Eval String) (before : String) : List Piece → Eval String
  | [] => return before
  | p :: ps => do
    let s ← p.value run
    valueAfter run (before ++ s) ps

end

def Word.values (run : Script → Eval String) : Word → Eval (List String)
  | .mk expand pieces => do
    let s ← valueAfter run "" pieces
    if expand then Eval.ofExcept .list (TclList.parse s) else return [s]

def wordValues (run : Script → Eval String) : List Word → Eval (List String)
  | [] => return []
  | w :: ws => do
    let xs ← w.values run
    return xs ++ (← wordValues run ws)

/-- Run the command that words stand for; the result stays as it is if they stand for none. -/
def runWords (env : Env) (invoke : List String → Eval String) (result : String)
    (ws : List Word) : Eval String := do
  match ← wordValues env.run ws with
  | [] => return result
  | words => invoke words

/-- Run commands one after the other; the result is that of the last one that has a word. -/
def runCommands (env : Env) (invoke : List String → Eval String) (result : String) :
    Script → Eval String
  | [] => return result
  | .fault f :: _ => Eval.fail (.fault f)
  | .words ws :: commands => do
    runCommands env invoke (← runWords env invoke result ws) commands

/-- Run a script that is read on the way, so that nothing is read after the command that ends
the run. -/
def runText (env : Env) (invoke : List String → Eval String) (result : String)
    (cs : List Char) : Eval String :=
  match _h : skipSeparators cs with
  | [] => return result
  | c :: tail =>
    if c = '#' then runText env invoke result (skipComment tail)
    else
      match readCommand false c tail with
      | (ws, none) => runWords env invoke result ws
      | (ws, some rest) => do runText env invoke (← runWords env invoke result ws) rest.1
termination_by cs.length
decreasing_by
  · have := skipSeparators_length_le cs
    have := skipComment_length_le tail
    rw [_h, List.length_cons] at *
    omega
  · have := skipSeparators_length_le cs
    have := rest.2
    rw [_h, List.length_cons] at *
    omega

/-- Reading on the way and reading beforehand are the same. -/
theorem runText_eq (env : Env) (invoke : List String → Eval String) (result : String)
    (cs : List Char) :
    runText env invoke result cs = runCommands env invoke result (readCommands false cs).1 := by
  fun_induction runText env invoke result cs with
  | case1 result cs h => rw [readCommands_of_nil h, runCommands]
  | case2 result cs tail h ih => rw [ih, readCommands_of_comment h]
  | case3 result cs c tail h hc ws hr =>
    rw [readCommands_of_fault h hc hr, runCommands]
    exact (bind_pure _).symm
  | case4 result cs c tail h hc ws rest hr ih =>
    rw [readCommands_of_command h hc hr, runCommands]
    exact bind_congr ih

end Script

def Env.subst (env : Env) (text : String) : Eval String :=
  Script.valueAfter env.run "" (Script.pieces text)

end TclHost
