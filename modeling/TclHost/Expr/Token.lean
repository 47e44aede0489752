import TclHost.Value.Basic
/-! # Tokens of expressions

Operands keep the text of what they refer to; everything else is punctuation or a word that
acts as an operator.
-/
namespace TclHost.Expr

inductive Mark where
  | plus | minus | star | slash | percent | power
  | bang | tilde | ampersand | pipe | caret | shiftLeft | shiftRight
  | eq | ne | lt | le | gt | ge | strEq | strNe | isIn | notIn
  | and | or | question | colon | comma | leftParen | rightParen
  deriving DecidableEq, Repr

/-- The name by which an error calls a mark that stands where an operand should. -/
def Mark.name : Mark → String
  | .plus => "Plus"
  | .minus => "Minus"
  | .star => "Star"
  | .slash => "Slash"
  | .percent => "Percent"
  | .power => "Pow"
  | .bang => "Bang"
  | .tilde => "Tilde"
  | .ampersand => "Ampersand"
  | .pipe => "Pipe"
  | .caret => "Caret"
  | .shiftLeft => "ShiftLeft"
  | .shiftRight => "ShiftRight"
  | .eq => "Eq"
  | .ne => "Ne"
  | .lt => "Lt"
  | .le => "Le"
  | .gt => "Gt"
  | .ge => "Ge"
  | .strEq => "StrEq"
  | .strNe => "StrNe"
  | .isIn => "In"
  | .notIn => "Ni"
  | .and => "And"
  | .or => "Or"
  | .question => "Question"
  | .colon => "Colon"
  | .comma => "Comma"
  | .leftParen => "LParen"
  | .rightParen => "RParen"

inductive Token where
  | number (n : Num)
  /-- The text of a variable reference, the dollar sign included. -/
  | variable (reference : String)
  /-- The script between brackets. -/
  | command (script : String)
  /-- The text between quotes, to be substituted. -/
  | quoted (text : String)
  /-- The text between braces, taken as it stands. -/
  | braced (text : String)
  | word (name : String)
  | mark (m : Mark)
  | unknown (c : Char)

end TclHost.Expr
