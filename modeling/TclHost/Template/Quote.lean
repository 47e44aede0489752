/-! # Inert words

A text is quoted as one word that stands for exactly that text wherever it is read: every
character with a meaning of its own has a backslash before it, and control characters are
written as backslash sequences.
-/
namespace TclHost.Template

def isControl (c : Char) : Bool :=
  c.toNat < 0x20 || (0x7F ≤ c.toNat && c.toNat ≤ 0x9F)

/-- A character that has a meaning inside quotes, braces or brackets. -/
def isActive (c : Char) : Bool :=
  c == '\\' || c == '"' || c == '$' || c == '[' || c == ']' || c == '{' || c == '}' || c == ';'

def fourHexDigits (n : Nat) : List Char :=
  let ds := Nat.toDigits 16 n
  List.replicate (4 - ds.length) '0' ++ ds

def quoteChar (c : Char) : List Char :=
  if isActive c then ['\\', c]
  else if c = '\n' then ['\\', 'n']
  else if c = '\t' then ['\\', 't']
  else if c = '\r' then ['\\', 'r']
  else if isControl c then '\\' :: 'u' :: fourHexDigits c.toNat
  else [c]

def quote (s : String) : String :=
  String.ofList ('"' :: s.toList.flatMap quoteChar ++ ['"'])

end TclHost.Template
