/-! # The number a double denotes

A finite double is a significand times a power of two.  `datum` takes a double apart, and
`ofRatio` goes the other way: it is the double nearest to a fraction, where the one with the
even significand wins a tie.
-/
namespace TclHost.Double

-- powers are the core library's, also where another library brings its own
attribute [instance (high), default_instance 11000] instPowNat

/-- What a double denotes; a finite one is the significand times two to the exponent. -/
inductive Datum where
  | nan
  | infinite (negative : Bool)
  | finite (negative : Bool) (significand : Nat) (exponent : Int)
  deriving DecidableEq, Repr

def datumOfBits (bits : Nat) : Datum :=
  let negative := bits / 2 ^ 63 % 2 == 1
  let biased : Nat := bits / 2 ^ 52 % 2 ^ 11
  let fraction : Nat := bits % 2 ^ 52
  if biased = 2047 then
    if fraction = 0 then .infinite negative else .nan
  else if biased = 0 then .finite negative fraction (-1074)
  else .finite negative (2 ^ 52 + fraction) ((biased : Int) - 1075)

def datum (x : Float) : Datum :=
  datumOfBits x.toBits.toNat

structure Ratio where
  num : Nat
  den : Nat
  deriving DecidableEq, Repr

def Ratio.scaled (base : Nat) (n : Nat) (exponent : Int) : Ratio :=
  if exponent < 0 then ⟨n, base ^ (-exponent).toNat⟩ else ⟨n * base ^ exponent.toNat, 1⟩

def Ratio.divPow (r : Ratio) (base : Nat) (exponent : Int) : Ratio :=
  if exponent < 0 then ⟨r.num * base ^ (-exponent).toNat, r.den⟩
  else ⟨r.num, r.den * base ^ exponent.toNat⟩

def Ratio.floor (r : Ratio) : Nat :=
  r.num / r.den

/-- The integer nearest to the fraction; of two equally near ones the even one. -/
def Ratio.round (r : Ratio) : Nat :=
  let q := r.num / r.den
  let twice := 2 * (r.num % r.den)
  if twice < r.den then q
  else if r.den < twice then q + 1
  else if q % 2 = 0 then q else q + 1

/-- The exponent of the last bit that the significand of a double near the fraction has. -/
def Ratio.unitExponent (r : Ratio) : Int :=
  let e := max ((r.num.log2 : Int) - r.den.log2 - 52) (-1074)
  if (r.divPow 2 e).floor < 2 ^ 52 then max (e - 1) (-1074) else e

def infinityBits : Nat :=
  0x7FF0000000000000

/-- The bits of the double nearest to a fraction: from the subnormal numbers on, the doubles
are numbered in the order of their values. -/
def Ratio.nearestBits (r : Ratio) : Nat :=
  if r.num = 0 then 0
  else
    let e := r.unitExponent
    min infinityBits ((e + 1074).toNat * 2 ^ 52 + (r.divPow 2 e).round)

def ofMagnitudeBits (negative : Bool) (bits : Nat) : Float :=
  Float.ofBits (UInt64.ofNat (if negative then 2 ^ 63 + bits else bits))

def ofRatio (negative : Bool) (r : Ratio) : Float :=
  ofMagnitudeBits negative r.nearestBits

def ofInt (n : Int) : Float :=
  ofRatio (n < 0) ⟨n.natAbs, 1⟩

def infinity : Float :=
  ofMagnitudeBits false infinityBits

def nan : Float :=
  Float.ofBits 0x7FF8000000000000

/-- The place of a double in the order of all doubles, counted from zero, whose sign does not
matter.  What is not a number has no place. -/
def rank? (x : Float) : Option Int :=
  let bits := x.toBits.toNat
  let magnitude := bits % 2 ^ 63
  if infinityBits < magnitude then none
  else some (if bits < 2 ^ 63 then magnitude else -magnitude)

/-- The order of two doubles; one that is not a number equals every other. -/
def compare (x y : Float) : Ordering :=
  match rank? x, rank? y with
  | some a, some b => Ord.compare a b
  | _, _ => .eq

def isZero (x : Float) : Bool :=
  rank? x == some 0

end TclHost.Double
