import TclHost.Expr.Lexer
import TclHost.Octet.Scanner
/-! # Tokens in octets

A second form of the reader of tokens.  Each of its parts is given the position at which the token
starts.
-/
namespace TclHost.Octet

open Text TclHost.Expr

/-- A token with the position behind it, or the reason why there is none. -/
abbrev TokenScan :=
  Scan (Except LexicalError (Token × Nat))

def finish (text : List Char) (p q : Nat) (token : List Char → Except LexicalError Token) :
    TokenScan := do
  return (token (← cut text p q)).map fun t => (t, q)

def numberEnd (text : List Char) (hex : Bool) (p : Nat) : Nat :=
  match _h : octet? text p with
  | none => p
  | some o =>
    if isNumberChar o then
      if !hex && (o == 'e' || o == 'E') && (octet? text (p + 1)).any (fun s => s == '+' || s == '-')
          && (octet? text (p + 2)).any isAsciiDigit then
        numberEnd text hex (p + 2)
      else numberEnd text hex (p + 1)
    else p
termination_by Utf8.size text - p
decreasing_by
  all_goals
    have := lt_size_of_octet? _h
    omega

theorem numberEnd_eq (text : List Char) (hex : Bool) (p : Nat) :
    numberEnd text hex p =
      match octet? text p with
      | none => p
      | some o =>
        if isNumberChar o then
          if !hex && (o == 'e' || o == 'E')
              && (octet? text (p + 1)).any (fun s => s == '+' || s == '-')
              && (octet? text (p + 2)).any isAsciiDigit then
            numberEnd text hex (p + 2)
          else numberEnd text hex (p + 1)
        else p := by
  rw [numberEnd]
  split <;> simp_all

def readNumber (text : List Char) (p : Nat) : TokenScan := do
  let rest ← behind text p
  let hex := ['0', 'x'].isPrefixOf rest || ['0', 'X'].isPrefixOf rest
  finish text p (numberEnd text hex (p + 1)) numberToken

def readVariable (text : List Char) (p : Nat) : TokenScan :=
  let reference (name : List Char) : Except LexicalError Token :=
    .ok (.variable (String.ofList name))
  if octet? text (p + 1) = some '{' then do
    match find? '}' (← behind text (p + 2)) with
    | none => return .error .unclosedVariableName
    | some i => finish text p (p + 2 + i + 1) reference
  else
    let last := nameEnd text (p + 1)
    if last = p + 1 then return .error .loneDollar
    else if octet? text last = some '(' then do
      match find? ')' (← behind text last) with
      | none => return .error .unclosedIndex
      | some i => finish text p (last + i + 1) reference
    else finish text p last reference

def readDelimited (text : List Char) (opening close : Char) (error : LexicalError)
    (token : String → Token) (p : Nat) : TokenScan :=
  match closing text opening close 0 (p + 1) with
  | none => return .error error
  | some q => do return .ok (token (String.ofList (← cut text (p + 1) q)), q + 1)

def markOfTwo? : Char → Char → Option Mark
  | '*', '*' => some .power
  | '!', '=' => some .ne
  | '&', '&' => some .and
  | '|', '|' => some .or
  | '<', '<' => some .shiftLeft
  | '<', '=' => some .le
  | '>', '>' => some .shiftRight
  | '>', '=' => some .ge
  | '=', '=' => some .eq
  | _, _ => none

def markOfOne? : Char → Option Mark
  | '+' => some .plus
  | '-' => some .minus
  | '*' => some .star
  | '/' => some .slash
  | '%' => some .percent
  | '!' => some .bang
  | '~' => some .tilde
  | '^' => some .caret
  | '&' => some .ampersand
  | '|' => some .pipe
  | '<' => some .lt
  | '>' => some .gt
  | '?' => some .question
  | ':' => some .colon
  | ',' => some .comma
  | '(' => some .leftParen
  | ')' => some .rightParen
  | _ => none

def readMark (text : List Char) (o : Char) (p : Nat) : TokenScan :=
  match (octet? text (p + 1)).bind (markOfTwo? o) with
  | some m => return .ok (.mark m, p + 2)
  | none =>
    match markOfOne? o with
    | some m => return .ok (.mark m, p + 1)
    | none => do
      let c := (← behind text p).head?.getD '?'
      return .ok (.unknown c, p + c.utf8Size)

def nextToken (text : List Char) (o : Char) (p : Nat) : TokenScan :=
  if isAsciiDigit o || (o == '.' && (octet? text (p + 1)).any isAsciiDigit) then readNumber text p
  else if o = '$' then readVariable text p
  else if o = '[' then readDelimited text '[' ']' .unclosedBracket .command p
  else if o = '"' then readDelimited text '"' '"' .unclosedQuote .quoted p
  else if o = '{' then readDelimited text '{' '}' .unclosedBrace .braced p
  else if isAsciiLetter o || o == '_' then
    finish text p (runEnd text isWordChar (p + 1)) fun name => .ok (wordToken (String.ofList name))
  else readMark text o p

def tokenize (text : List Char) (p : Nat) : Scan (Except LexicalError (List Token)) :=
  let start := runEnd text isSpace p
  match octet? text start with
  | none => return .ok []
  | some o => do
    match ← nextToken text o start with
    | .error e => return .error e
    | .ok (token, q) =>
      let ⟨q, _⟩ ← advance text start q
      return (← tokenize text q).map (token :: ·)
termination_by Utf8.size text - p
decreasing_by
  have := le_runEnd text isSpace p
  omega

end TclHost.Octet
