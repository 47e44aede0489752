import TclHost.Double.Numeral
import TclHost.Text.Blank
/-! # Numbers and truth values in texts

Every value is a text.  These are the rules by which a text is read as a 64-bit integer, as a
double or as a truth value; white space around it never matters.
-/
namespace TclHost.Number

open Text

inductive Error where
  /-- Not an integer; the flag marks digits that no octal numeral has. -/
  | notInteger (text : String) (invalidOctal : Bool)
  | notDouble (text : String)
  | notBoolean (text : String)
  deriving DecidableEq, Repr

def Error.message : Error → String
  | .notInteger text invalidOctal =>
    "expected integer but got \"" ++ text ++ "\""
      ++ if invalidOctal then " (looks like invalid octal number)" else ""
  | .notDouble text => "expected floating-point number but got \"" ++ text ++ "\""
  | .notBoolean text => "expected boolean value but got \"" ++ text ++ "\""

/-- A zero before further decimal digits. -/
def isLegacyOctal (ds : List Char) : Bool :=
  match ds with
  | '0' :: _ :: _ => ds.all isAsciiDigit
  | _ => false

def splitRadix (ds : List Char) : Nat × List Char :=
  match ds with
  | '0' :: 'x' :: rest | '0' :: 'X' :: rest => (16, rest)
  | '0' :: 'o' :: rest | '0' :: 'O' :: rest => (8, rest)
  | '0' :: 'b' :: rest | '0' :: 'B' :: rest => (2, rest)
  | _ => if isLegacyOctal ds then (8, ds.drop 1) else (10, ds)

/-- The signed 64-bit reading of a magnitude, negated after a minus sign. -/
def signedReading (negative : Bool) (magnitude : Nat) : Int64 :=
  let n := Int64.ofNat magnitude
  if negative then -n else n

/-- Read an integer: an optional sign and decimal, `0x`, `0o` or `0b` digits, where a zero
before further digits means octal.  Magnitudes up to 2^64 - 1 wrap around. -/
def parseInt (s : String) : Except Error Int64 :=
  let (negative, body) := Double.splitSign (trim s.toList)
  let (radix, ds) := splitRadix body
  if ds.isEmpty || !ds.all (isDigitOf radix) then
    .error (.notInteger s (radix == 8 && ds.all isAsciiDigit))
  else
    let magnitude := longNumeral radix ds
    if magnitude < 2 ^ 64 then .ok (signedReading negative magnitude)
    else .error (.notInteger s false)

/-- Read a double: an integer, or a decimal numeral that does not look like a faulty octal
integer. -/
def parseDouble (s : String) : Except Error Float :=
  let body := trim s.toList
  match parseInt (String.ofList body) with
  | .ok n => .ok (Double.ofInt n.toInt)
  | .error _ =>
    if isLegacyOctal (body.dropWhile fun c => c == '+' || c == '-') then .error (.notDouble s)
    else match Double.read? body with
      | some x => .ok x
      | none => .error (.notDouble s)

/-- The truth value of a word in lower case: `on`, at least two letters of `off`, or at least
one letter of `true`, `yes`, `false` or `no`. -/
def wordTruth? (word : List Char) : Option Bool :=
  if word = "on".toList then some true
  else if 2 ≤ word.length ∧ word <+: "off".toList then some false
  else if word.isEmpty then none
  else if word <+: "true".toList ∨ word <+: "yes".toList then some true
  else if word <+: "false".toList ∨ word <+: "no".toList then some false
  else none

/-- Read a truth value: a number, which is true unless it is zero, or a word in any case. -/
def parseBool (s : String) : Except Error Bool :=
  match parseDouble s with
  | .ok x => .ok (!Double.isZero x)
  | .error _ =>
    match wordTruth? ((trim s.toList).map Char.toLower) with
    | some b => .ok b
    | none => .error (.notBoolean s)

end TclHost.Number
