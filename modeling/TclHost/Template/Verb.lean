import TclHost.Template.Arg
import TclHost.Template.Directive
import TclHost.Template.Quote
/-! # Writing arguments by a directive

The verb chooses the form of an argument, the flags and the precision shape it, and the width
pads it.
-/
namespace TclHost.Template

inductive VerbError where
  | directive (error : DirectiveError)
  /-- The verb does not take arguments of this type. -/
  | mismatch (verb : Char) (typeName text : String)
  | unknownVerb (verb : Char) (source : String)
  | invalidCodePoint (n : Nat)
  deriving DecidableEq, Repr

def VerbError.message : VerbError → String
  | .directive error => error.message
  | .mismatch verb typeName text =>
    "verb %" ++ verb.toString ++ " cannot format " ++ typeName ++ " value " ++ text
  | .unknownVerb verb source => "unknown verb %" ++ verb.toString ++ " in \"" ++ source ++ "\""
  | .invalidCodePoint n => "%c: " ++ toString n ++ " is not a valid code point"

def Directive.sign (d : Directive) (negative : Bool) : List Char :=
  if negative then ['-'] else if d.plus then ['+'] else if d.space then [' '] else []

/-- An integer: sign, radix mark if the directive asks for it, and at least as many digits as
the precision says. -/
def Directive.integer (d : Directive) (negative : Bool) (magnitude radix : Nat)
    (mark : List Char) : List Char :=
  let ds := Nat.toDigits radix magnitude
  let ds := List.replicate (d.precision.getD 0 - ds.length) '0' ++ ds
  d.sign negative ++ (if d.sharp then mark else []) ++ ds

def Arg.integer? : Arg → Option (Bool × Nat)
  | .int n => some (decide (n < 0), n.toInt.natAbs)
  | .uint n => some (false, n.toNat)
  | _ => none

/-- The form of a finite magnitude under a verb: a fixed number of places, scientific notation
or the general form. -/
def Directive.magnitude (d : Directive) (significand : Nat) (exponent : Int) : List Char :=
  let r := Double.magnitude significand exponent
  let upper := d.verb.isUpper
  match d.verb.toLower with
  | 'e' => scientificText (r.toScientific (d.precision.getD 6)) upper
  | 'f' => r.toFixed (d.precision.getD 6)
  | _ => generalMagnitude significand exponent d.precision upper

/-- A double: infinity always has a sign, and zero counts as positive. -/
def Directive.double (d : Directive) (x : Float) : List Char :=
  match Double.datum x with
  | .nan => ['N', 'a', 'N']
  | .infinite negative => (if negative then '-' else '+') :: ['I', 'n', 'f']
  | .finite negative m e => d.sign (negative && m != 0) ++ d.magnitude m e

def Directive.truncate (d : Directive) (cs : List Char) : List Char :=
  match d.precision with
  | some p => cs.take p
  | none => cs

def hexBytes (s : String) (upper : Bool) : List Char :=
  s.toUTF8.toList.flatMap fun b =>
    let ds := Nat.toDigits 16 b.toNat
    let ds := List.replicate (2 - ds.length) '0' ++ ds
    if upper then ds.map Char.toUpper else ds

def codePoint (n : Nat) : Except VerbError (List Char) :=
  if n.isValidChar then .ok [Char.ofNat n] else .error (.invalidCodePoint n)

def Directive.body (d : Directive) (source : String) (arg : Arg) :
    Except VerbError (List Char) :=
  let mismatch : Except VerbError (List Char) :=
    .error (.mismatch d.verb arg.typeName arg.text)
  let inRadix (radix : Nat) (mark : List Char) : Except VerbError (List Char) :=
    match arg.integer? with
    | some (negative, magnitude) => .ok (d.integer negative magnitude radix mark)
    | none => mismatch
  match d.verb with
  | 'v' =>
    match arg with
    | .float x => .ok (d.double x)
    | .int _ | .uint _ => inRadix 10 []
    | other => .ok (d.truncate other.text.toList)
  | 'd' => inRadix 10 []
  | 'b' => inRadix 2 ['0', 'b']
  | 'o' => inRadix 8 ['0']
  | 'x' =>
    match arg with
    | .str s => .ok (hexBytes s false)
    | _ => inRadix 16 ['0', 'x']
  | 'X' =>
    match arg with
    | .str s => .ok (hexBytes s true)
    | _ => (inRadix 16 ['0', 'X']).map (·.map Char.toUpper)
  | 'c' =>
    match arg with
    | .int n => codePoint n.toUInt64.toNat
    | .uint n => codePoint n.toNat
    | _ => mismatch
  | 'e' | 'E' | 'f' | 'F' | 'g' | 'G' =>
    match arg with
    | .float x => .ok (d.double x)
    | _ => mismatch
  | 's' =>
    match arg with
    | .str s => .ok (d.truncate s.toList)
    | _ => mismatch
  | 't' =>
    match arg with
    | .bool _ => .ok arg.text.toList
    | _ => mismatch
  | 'q' => .ok (quote arg.text).toList
  | verb => .error (.unknownVerb verb source)

def Arg.isNumber : Arg → Bool
  | .int _ | .uint _ | .float _ => true
  | _ => false

def Arg.isInteger : Arg → Bool
  | .int _ | .uint _ => true
  | _ => false

/-- The number of characters before the digits: the sign and the radix mark. -/
def Directive.headLength (d : Directive) (body : List Char) : Nat :=
  let sign := match body with
    | '-' :: _ | '+' :: _ | ' ' :: _ => 1
    | _ => 0
  if d.sharp then
    match body.drop sign with
    | '0' :: 'x' :: _ | '0' :: 'X' :: _ | '0' :: 'b' :: _ => sign + 2
    | '0' :: _ => if d.verb = 'o' then sign + 1 else sign
    | _ => sign
  else sign

/-- Numbers are padded with zeros if the directive says so, except characters, quoted words,
integers with a precision and doubles that are not finite. -/
def Directive.padsWithZeros (d : Directive) (body : List Char) (arg : Arg) : Bool :=
  d.zero && arg.isNumber && d.verb != 'c' && d.verb != 'q'
    && !(arg.isInteger && d.precision.isSome)
    && !(['I', 'n', 'f'].isSuffixOf body) && body != ['N', 'a', 'N']

/-- Pad a form to the width: on the right, with zeros between sign and digits, or on the left. -/
def Directive.pad (d : Directive) (body : List Char) (arg : Arg) : List Char :=
  let fill := d.width.getD 0 - body.length
  if fill = 0 then body
  else if d.minus then body ++ List.replicate fill ' '
  else if d.padsWithZeros body arg then
    let head := d.headLength body
    body.take head ++ List.replicate fill '0' ++ body.drop head
  else List.replicate fill ' ' ++ body

def applyDirective (source : String) (arg : Arg) : Except VerbError String :=
  match Directive.parse source with
  | .error e => .error (.directive e)
  | .ok d => (d.body source arg).map fun body => String.ofList (d.pad body arg)

end TclHost.Template
