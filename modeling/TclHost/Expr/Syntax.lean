import TclHost.Value.Basic
/-! # Expression trees

References, scripts and quoted texts inside an expression stay texts: they are substituted or
evaluated only when the expression needs them.
-/
namespace TclHost.Expr

inductive UnaryOp where
  | neg | plus | not | bitNot
  deriving DecidableEq, Repr

inductive BinaryOp where
  | add | sub | mul | div | rem | pow
  | eq | ne | lt | le | gt | ge
  | strEq | strNe | isIn | notIn
  | bitAnd | bitOr | bitXor | shiftLeft | shiftRight
  deriving DecidableEq, Repr

/-- The operators that need their right operand only if the left one leaves the result open. -/
inductive LogicalOp where
  | and | or
  deriving DecidableEq, Repr

inductive Tree where
  | literal (v : Value)
  | variable (reference : String)
  | command (script : String)
  | quoted (text : String)
  | unary (op : UnaryOp) (operand : Tree)
  | binary (op : BinaryOp) (left right : Tree)
  | logical (op : LogicalOp) (left right : Tree)
  | ternary (condition yes no : Tree)
  | call (name : String) (args : List Tree)

def UnaryOp.symbol : UnaryOp → String
  | .neg => "-"
  | .plus => "+"
  | .not => "!"
  | .bitNot => "~"

def BinaryOp.symbol : BinaryOp → String
  | .add => "+"
  | .sub => "-"
  | .mul => "*"
  | .div => "/"
  | .rem => "%"
  | .pow => "**"
  | .eq => "=="
  | .ne => "!="
  | .lt => "<"
  | .le => "<="
  | .gt => ">"
  | .ge => ">="
  | .strEq => "eq"
  | .strNe => "ne"
  | .isIn => "in"
  | .notIn => "ni"
  | .bitAnd => "&"
  | .bitOr => "|"
  | .bitXor => "^"
  | .shiftLeft => "<<"
  | .shiftRight => ">>"

end TclHost.Expr
