import TclHost.Expr.Syntax
import TclHost.Double.Integral
import TclHost.TclList.Reader
/-! # Operators and functions on values

Integers are 64 bits wide and wrap around; division rounds toward negative infinity and the
remainder goes with the divisor.  As soon as one operand is a double, arithmetic is done on
doubles.
-/
namespace TclHost.Expr

inductive OperatorError where
  | operand (error : OperandError)
  | boolean (error : Number.Error)
  | divideByZero
  | zeroToNegativePower
  | negativeShift
  | list (error : TclList.Error)
  | tooFewArguments (name : String)
  | tooManyArguments (name : String)
  | unknownFunction (name : String)
  /-- The text of a double that no integer represents. -/
  | tooLarge (text : String)
  deriving DecidableEq, Repr

def OperatorError.message : OperatorError → String
  | .operand error => error.message
  | .boolean error => error.message
  | .divideByZero => "divide by zero"
  | .zeroToNegativePower => "exponentiation of zero by negative power"
  | .negativeShift => "negative shift argument"
  | .list error => error.message
  | .tooFewArguments name => "too few arguments for math function \"" ++ name ++ "\""
  | .tooManyArguments name => "too many arguments for math function \"" ++ name ++ "\""
  | .unknownFunction name => "invalid command name \"tcl::mathfunc::" ++ name ++ "\""
  | .tooLarge text => "integer value too large to represent: " ++ text

def number (operator : String) (v : Value) : Except OperatorError Num :=
  (v.asNum operator).mapError .operand

def integer (operator : String) (v : Value) : Except OperatorError Int64 :=
  (v.asInt operator).mapError .operand

def truth (v : Value) : Except OperatorError Bool :=
  v.truth.mapError .boolean

/-- A power of an integer, by squaring, modulo 2^64. -/
def wrappingPow (a : Int64) (n : Nat) : Int64 :=
  if n = 0 then 1
  else
    let r := wrappingPow (a * a) (n / 2)
    if n % 2 = 1 then a * r else r

/-- The largest exponent of an integer power; larger ones count as this one. -/
def maxExponent : Nat :=
  2 ^ 32 - 1

/-- The power of two integers; a negative exponent gives the rounded fraction. -/
def intPow (a b : Int64) : Except OperatorError Int64 :=
  if b < 0 then
    if a = 0 then .error .zeroToNegativePower
    else if a = 1 then .ok 1
    else if a = -1 then .ok (if b.toInt % 2 = 0 then 1 else -1)
    else .ok 0
  else .ok (wrappingPow a (min b.toInt.toNat maxExponent))

def signsDiffer (a b : Int64) : Bool :=
  decide (a < 0) != decide (b < 0)

/-- The quotient of two integers, rounded toward negative infinity.  The 64-bit quotient is
rounded toward zero, which is one too high if the signs differ and something is left over. -/
def floorDiv (a b : Int64) : Except OperatorError Int64 :=
  if b = 0 then .error .divideByZero
  else if a % b != 0 && signsDiffer a b then .ok (a / b - 1)
  else .ok (a / b)

def floorMod (a b : Int64) : Except OperatorError Int64 :=
  if b = 0 then .error .divideByZero
  else
    let rem := a % b
    if rem != 0 && signsDiffer rem b then .ok (rem + b) else .ok rem

/-- The number of places to shift by; 63 places stand for any larger number of them. -/
def shiftCount (b : Int64) : Int64 :=
  min b 63

def shiftLeft (a b : Int64) : Except OperatorError Int64 :=
  if b < 0 then .error .negativeShift
  else if 63 < b then .ok 0
  else .ok (a <<< shiftCount b)

def shiftRight (a b : Int64) : Except OperatorError Int64 :=
  if b < 0 then .error .negativeShift else .ok (a >>> shiftCount b)

/-- Arithmetic on two numbers: on integers if both are, otherwise on doubles. -/
def arithmetic (onInts : Int64 → Int64 → Except OperatorError Int64)
    (onDoubles : Float → Float → Float) (a b : Num) : Except OperatorError Value :=
  match a, b with
  | .int m, .int n => (onInts m n).map .int
  | a, b => .ok (.float (onDoubles a.toFloat b.toFloat))

def applyBinary (op : BinaryOp) (l r : Value) : Except OperatorError Value := do
  let sym := op.symbol
  match op with
  | .add => arithmetic (fun a b => .ok (a + b)) (· + ·) (← number sym l) (← number sym r)
  | .sub => arithmetic (fun a b => .ok (a - b)) (· - ·) (← number sym l) (← number sym r)
  | .mul => arithmetic (fun a b => .ok (a * b)) (· * ·) (← number sym l) (← number sym r)
  | .div => arithmetic floorDiv (· / ·) (← number sym l) (← number sym r)
  | .pow => arithmetic intPow Float.pow (← number sym l) (← number sym r)
  | .rem => return .int (← floorMod (← integer sym l) (← integer sym r))
  | .eq => return .ofBool (l.compare r == .eq)
  | .ne => return .ofBool (l.compare r != .eq)
  | .lt => return .ofBool (l.compare r == .lt)
  | .le => return .ofBool (l.compare r != .gt)
  | .gt => return .ofBool (l.compare r == .gt)
  | .ge => return .ofBool (l.compare r != .lt)
  | .strEq => return .ofBool (l.text == r.text)
  | .strNe => return .ofBool (l.text != r.text)
  | .isIn =>
    let items ← (TclList.parse r.text).mapError .list
    return .ofBool (items.contains l.text)
  | .notIn =>
    let items ← (TclList.parse r.text).mapError .list
    return .ofBool (!items.contains l.text)
  | .bitAnd => return .int ((← integer sym l) &&& (← integer sym r))
  | .bitOr => return .int ((← integer sym l) ||| (← integer sym r))
  | .bitXor => return .int ((← integer sym l) ^^^ (← integer sym r))
  | .shiftLeft => return .int (← shiftLeft (← integer sym l) (← integer sym r))
  | .shiftRight => return .int (← shiftRight (← integer sym l) (← integer sym r))

/-- The integer part of a double; one out of range goes to the nearest end. -/
def toInteger (x : Float) : Except OperatorError Int64 :=
  match Double.datum x with
  | .nan => .error (.tooLarge "NaN")
  | .infinite negative => .error (.tooLarge (if negative then "-inf" else "inf"))
  | .finite .. => .ok (Double.clampToInt64 ((Double.truncate? x).getD 0))

def absolute : Num → Value
  | .int n => .int (if n < 0 then -n else n)
  | .float x => .float x.abs

def oneNumber (name : String) (f : Num → Except OperatorError Value) :
    List Value → Except OperatorError Value
  | [] => .error (.tooFewArguments name)
  | [v] => do f (← number name v)
  | _ => .error (.tooManyArguments name)

/-- The first of the numbers that no other one surpasses in the wanted direction. -/
def extreme (name : String) (wanted : Ordering) (best : Num) :
    List Value → Except OperatorError Value
  | [] => .ok (.ofNum best)
  | v :: vs => do
    let candidate ← number name v
    extreme name wanted (if candidate.compare best == wanted then candidate else best) vs

def pickExtreme (name : String) (wanted : Ordering) :
    List Value → Except OperatorError Value
  | [] => .error (.tooFewArguments name)
  | v :: vs => do extreme name wanted (← number name v) vs

def applyFunction (name : String) (args : List Value) : Except OperatorError Value :=
  match name with
  | "abs" => oneNumber name (fun n => .ok (absolute n)) args
  | "int" =>
    oneNumber name (fun
      | .int n => .ok (.int n)
      | .float x => (toInteger x).map .int) args
  | "double" => oneNumber name (fun n => .ok (.float n.toFloat)) args
  | "round" =>
    oneNumber name (fun
      | .int n => .ok (.int n)
      | .float x => (toInteger (Double.round x)).map .int) args
  | "floor" => oneNumber name (fun n => .ok (.float (Double.floor n.toFloat))) args
  | "ceil" => oneNumber name (fun n => .ok (.float (Double.ceil n.toFloat))) args
  | "sqrt" => oneNumber name (fun n => .ok (.float n.toFloat.sqrt)) args
  | "pow" =>
    match args with
    | [a, b] => do return .float (((← number name a).toFloat).pow (← number name b).toFloat)
    | [] | [_] => .error (.tooFewArguments name)
    | _ => .error (.tooManyArguments name)
  | "min" => pickExtreme name .lt args
  | "max" => pickExtreme name .gt args
  | _ => .error (.unknownFunction name)

def applyUnary (op : UnaryOp) (v : Value) : Except OperatorError Value := do
  match op with
  | .neg =>
    match ← number op.symbol v with
    | .int n => return .int (-n)
    | .float x => return .float (-x)
  | .plus => return .ofNum (← number op.symbol v)
  | .not => return .ofBool (!(← truth v))
  | .bitNot => return .int (~~~(← integer op.symbol v))

end TclHost.Expr
