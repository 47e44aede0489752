import TclHost.Double.Decimal
import TclHost.Value.Number
/-! # Operand values

An operand of an expression is an integer, a double or a text.  A text that reads as a number
counts as that number wherever a number is wanted.
-/
namespace TclHost

inductive Num where
  | int (n : Int64)
  | float (x : Float)
  deriving BEq

inductive Value where
  | int (n : Int64)
  | float (x : Float)
  | str (s : String)
  deriving BEq

inductive OperandError where
  | emptyText (operator : String)
  | nonNumeric (text operator : String)
  | notInteger (text operator : String)
  deriving DecidableEq, Repr

def OperandError.message : OperandError → String
  | .emptyText operator => "can't use empty string as operand of \"" ++ operator ++ "\""
  | .nonNumeric text operator =>
    "can't use non-numeric string \"" ++ text ++ "\" as operand of \"" ++ operator ++ "\""
  | .notInteger text operator =>
    "can't use floating-point value \"" ++ text ++ "\" as operand of \"" ++ operator ++ "\""

def exponentText (e : Int) : List Char :=
  let ds := Nat.toDigits 10 e.natAbs
  (if e < 0 then '-' else '+') :: (List.replicate (2 - ds.length) '0' ++ ds)

/-- The text of a positive finite double: the fewest digits that read back, positional from
0.0001 to below 10^17 with at least one digit after the point, scientific otherwise. -/
def magnitudeText (significand : Nat) (exponent : Int) : List Char :=
  let s := Double.shortest significand exponent
  if s.exponent < -4 ∨ 17 ≤ s.exponent then s.mantissa ++ 'e' :: exponentText s.exponent
  else
    let ds := s.positional
    if ds.contains '.' then ds else ds ++ ['.', '0']

def doubleText (x : Float) : String :=
  match Double.datum x with
  | .nan => "NaN"
  | .infinite negative => if negative then "-Inf" else "Inf"
  | .finite negative m e =>
    let body := if m = 0 then ['0', '.', '0'] else magnitudeText m e
    String.ofList (if negative then '-' :: body else body)

def intText (n : Int64) : String :=
  toString n.toInt

def Num.toFloat : Num → Float
  | .int n => Double.ofInt n.toInt
  | .float x => x

/-- Integers are compared exactly, and as doubles once a double is among the two. -/
def Num.compare : Num → Num → Ordering
  | .int a, .int b => Ord.compare a.toInt b.toInt
  | a, b => Double.compare a.toFloat b.toFloat

namespace Value

def ofNum : Num → Value
  | .int n => .int n
  | .float x => .float x

def ofBool (b : Bool) : Value :=
  .int (if b then 1 else 0)

def textNum? (s : String) : Option Num :=
  match Number.parseInt s with
  | .ok n => some (.int n)
  | .error _ =>
    match Number.parseDouble s with
    | .ok x => some (.float x)
    | .error _ => none

/-- A text as an operand: the number it reads as, or itself. -/
def ofText (s : String) : Value :=
  match textNum? s with
  | some n => ofNum n
  | none => .str s

def text : Value → String
  | .int n => intText n
  | .float x => doubleText x
  | .str s => s

def num? : Value → Option Num
  | .int n => some (.int n)
  | .float x => some (.float x)
  | .str s => textNum? s

def asNum (operator : String) (v : Value) : Except OperandError Num :=
  match v.num? with
  | some n => .ok n
  | none => .error (if v.text.isEmpty then .emptyText operator else .nonNumeric v.text operator)

/-- The integer of an operand of the named operator, which takes no doubles. -/
def asInt (operator : String) (v : Value) : Except OperandError Int64 :=
  match v.asNum operator with
  | .ok (.int n) => .ok n
  | .ok (.float _) => .error (.notInteger v.text operator)
  | .error e => .error e

def truth : Value → Except Number.Error Bool
  | .int n => .ok (n != 0)
  | .float x => .ok (!Double.isZero x)
  | .str s => Number.parseBool s

/-- Two numbers are compared as numbers, anything else as texts. -/
def compare (a b : Value) : Ordering :=
  match a.num?, b.num? with
  | some x, some y => x.compare y
  | _, _ => Ord.compare a.text b.text

end Value
end TclHost
