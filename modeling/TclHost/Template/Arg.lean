import TclHost.Value.Basic
/-! # Template arguments

An argument is an integer, signed or not, a double, a text or a truth value.  Each has a
default text, in which doubles take the general form: positional for moderate exponents and
scientific otherwise, with no zeros at the end.
-/
namespace TclHost.Template

inductive Arg where
  | int (n : Int64)
  | uint (n : UInt64)
  | float (x : Float)
  | str (s : String)
  | bool (b : Bool)

def Arg.typeName : Arg → String
  | .int _ => "int"
  | .uint _ => "uint"
  | .float _ => "float"
  | .str _ => "string"
  | .bool _ => "bool"

def scientificText (s : Double.Scientific) (upper : Bool) : List Char :=
  s.mantissa ++ (if upper then 'E' else 'e') :: exponentText s.exponent

/-- The least exponent that is written in scientific notation: six for the shortest digits, and
otherwise the precision, unless fewer digits than that already give an integer. -/
def scientificFrom (precision : Option Nat) (digits : Nat) (exponent : Int) : Int :=
  match precision with
  | none => 6
  | some p =>
    let p := max p 1
    if digits < p ∧ exponent + 1 ≤ digits then digits else p

/-- The general form of a finite magnitude: its shortest digits, or as many significant digits
as the precision says, without the zeros at the end. -/
def generalMagnitude (significand : Nat) (exponent : Int) (precision : Option Nat)
    (upper : Bool) : List Char :=
  if significand = 0 then ['0']
  else
    let r := Double.magnitude significand exponent
    let s := (match precision with
      | none => Double.shortest significand exponent
      | some p => r.toScientific (max p 1 - 1)).trimZeros
    if s.exponent < -4 ∨ scientificFrom precision s.digits.length s.exponent ≤ s.exponent then
      scientificText s upper
    else r.toFixed (s.digits.length - 1 - s.exponent).toNat

/-- The general form of a double; infinity always has a sign, and zero never has one. -/
def generalText (x : Float) (precision : Option Nat) (upper : Bool) : String :=
  match Double.datum x with
  | .nan => "NaN"
  | .infinite negative => if negative then "-Inf" else "+Inf"
  | .finite negative m e =>
    let body := generalMagnitude m e precision upper
    String.ofList (if negative ∧ m ≠ 0 then '-' :: body else body)

def Arg.text : Arg → String
  | .int n => intText n
  | .uint n => toString n.toNat
  | .float x => generalText x none false
  | .str s => s
  | .bool b => if b then "true" else "false"

inductive Args where
  | positional (args : List Arg)
  | named (args : List (String × Arg))

def Args.length : Args → Nat
  | .positional args => args.length
  | .named _ => 0

def Args.isEmpty : Args → Bool
  | .positional args => args.isEmpty
  | .named args => args.isEmpty

end TclHost.Template
