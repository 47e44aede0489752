import TclHost.Text.Blank
/-! # Writing lists

An element is written as it stands if nothing in it needs quoting, in braces if braces keep
it, and with backslashes otherwise, so that reading the list gives the elements back.
-/
namespace TclHost.TclList

open Text

def isSpecial (c : Char) : Bool :=
  isListSpace c || c == '{' || c == '}' || c == '[' || c == ']' || c == '$' || c == '"'
    || c == ';' || c == '\\'

/-- The braces outside backslash sequences are balanced after `depth` open ones. -/
def bracesBalanced (depth : Nat) : List Char → Bool
  | [] => depth == 0
  | c :: cs =>
    if c = '\\' then
      match cs with
      | [] => depth == 0
      | _ :: ds => bracesBalanced depth ds
    else if c = '{' then bracesBalanced (depth + 1) cs
    else if c = '}' then
      match depth with
      | 0 => false
      | depth + 1 => bracesBalanced depth cs
    else bracesBalanced depth cs

def hasLineContinuation : List Char → Bool
  | [] => false
  | c :: cs => (c == '\\' && cs.head? == some '\n') || hasLineContinuation cs

/-- Braces keep an element whose own braces balance, unless a backslash would reach the closing
brace or join lines. -/
def canBrace (cs : List Char) : Bool :=
  bracesBalanced 0 cs && cs.getLast? != some '\\' && !hasLineContinuation cs

def controlLetter? : Char → Option Char
  | '\n' => some 'n'
  | '\t' => some 't'
  | '\r' => some 'r'
  | '\x0b' => some 'v'
  | '\x0c' => some 'f'
  | _ => none

def escapeChar (c : Char) : List Char :=
  match controlLetter? c with
  | some letter => ['\\', letter]
  | none => if isSpecial c then ['\\', c] else [c]

def quoteChars (cs : List Char) : List Char :=
  if cs.isEmpty then ['{', '}']
  else if !cs.any isSpecial && cs.head? != some '#' then cs
  else if canBrace cs then '{' :: cs ++ ['}']
  else cs.flatMap escapeChar

def quote (s : String) : String :=
  String.ofList (quoteChars s.toList)

def format (items : List String) : String :=
  " ".intercalate (items.map quote)

end TclHost.TclList
