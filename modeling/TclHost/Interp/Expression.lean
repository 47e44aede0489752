import TclHost.Interp.Substitution
/-! # Evaluating expressions

Operands are evaluated from left to right, and only those that are needed: a logical operator
skips its right operand if the left one decides, and a conditional evaluates one branch.
-/
namespace TclHost

open TclHost.Expr

def Eval.truth (v : Value) : Eval Bool :=
  Eval.ofExcept .operator (Expr.truth v)

mutual

def Env.evalTree (env : Env) : Tree → Eval Value
  | .literal v => return v
  | .variable text | .quoted text => return .str (← env.subst text)
  | .command script => return .str (← env.eval script)
  | .unary op operand => do
    let v ← env.evalTree operand
    Eval.ofExcept .operator (applyUnary op v)
  | .binary op left right => do
    let l ← env.evalTree left
    let r ← env.evalTree right
    Eval.ofExcept .operator (applyBinary op l r)
  | .logical op left right => do
    let l ← Eval.truth (← env.evalTree left)
    if l = (op == .and) then
      return .ofBool (← Eval.truth (← env.evalTree right))
    else return .ofBool l
  | .ternary condition yes no => do
    if ← Eval.truth (← env.evalTree condition) then env.evalTree yes else env.evalTree no
  | .call name args => do
    let vs ← env.evalTrees args
    Eval.ofExcept .operator (applyFunction name vs)

def Env.evalTrees (env : Env) : List Tree → Eval (List Value)
  | [] => return []
  | t :: ts => do
    let v ← env.evalTree t
    return v :: (← env.evalTrees ts)

end

def Env.evalParsed (env : Env) (parsed : Except ParseError Tree) : Eval Value := do
  env.evalTree (← Eval.ofExcept .expression parsed)

def Env.expr (env : Env) (source : String) : Eval Value :=
  env.evalParsed (Expr.parse source)

def Env.parsedCondition (env : Env) (parsed : Except ParseError Tree) : Eval Bool := do
  Eval.truth (← env.evalParsed parsed)

def Env.condition (env : Env) (source : String) : Eval Bool :=
  env.parsedCondition (Expr.parse source)

end TclHost
