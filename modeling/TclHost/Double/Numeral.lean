import TclHost.Double.Exact
import TclHost.Text.Digit
/-! # Reading doubles

A decimal numeral has an optional sign, digits with at most one point among or around them,
and an optional exponent; the words `inf`, `infinity` and `nan` in any case are numerals too.
The double read is the one nearest to the number that the numeral denotes, where only so many
digits of the exponent count as take it past a limit.
-/
namespace TclHost.Double

open Text

/-- The parts of an unsigned decimal numeral: its digits, how many of them follow the point,
and its power of ten. -/
structure Numeral where
  digits : List Char
  places : Nat
  exponent : Int
  deriving DecidableEq, Repr

def splitSign : List Char → Bool × List Char
  | '-' :: cs => (true, cs)
  | '+' :: cs => (false, cs)
  | cs => (false, cs)

/-- From this value on an exponent takes no more digits. -/
def exponentLimit : Nat := 0x10000

/-- The number that the digits of an exponent stand for.  A digit that comes when the number
read so far has reached the limit is passed over, so a very long exponent counts only up to
there. -/
def exponentOf (ds : List Char) : Nat :=
  ds.foldl (fun e d => if e < exponentLimit then numeralFrom 10 e [d] else e) 0

/-- Read an exponent, which is absent or a letter, an optional sign and digits to the end. -/
def readExponent? : List Char → Option Int
  | [] => some 0
  | c :: cs =>
    if c = 'e' ∨ c = 'E' then
      let (negative, ds) := splitSign cs
      if ds.isEmpty || !ds.all isAsciiDigit then none
      else some (if negative then -(exponentOf ds : Int) else exponentOf ds)
    else none

def readNumeral? (cs : List Char) : Option Numeral :=
  let whole := cs.takeWhile isAsciiDigit
  let afterWhole := cs.dropWhile isAsciiDigit
  let (fraction, rest) :=
    match afterWhole with
    | '.' :: ds => (ds.takeWhile isAsciiDigit, ds.dropWhile isAsciiDigit)
    | ds => ([], ds)
  if whole.isEmpty && fraction.isEmpty then none
  else (readExponent? rest).map fun e => ⟨whole ++ fraction, fraction.length, e⟩

/-- The double nearest to a numeral.  The exact value is worked out only where the number of
its digits before the point leaves the nearest double open. -/
def Numeral.toFloat (negative : Bool) (n : Numeral) : Float :=
  let significant := n.digits.dropWhile (· == '0')
  let exponent := n.exponent - n.places
  let position : Int := significant.length + exponent
  if significant.isEmpty || position < -400 then ofMagnitudeBits negative 0
  else if 400 < position then ofMagnitudeBits negative infinityBits
  else ofRatio negative (Ratio.scaled 10 (longNumeral 10 significant) exponent)

/-- The words for infinity and for what is not a number, read in lower case. -/
def word? (negative : Bool) (lowered : List Char) : Option Float :=
  if lowered = "inf".toList ∨ lowered = "infinity".toList then
    some (ofMagnitudeBits negative infinityBits)
  else if lowered = "nan".toList then some nan
  else none

def read? (cs : List Char) : Option Float :=
  let (negative, body) := splitSign cs
  match readNumeral? body with
  | some n => some (n.toFloat negative)
  | none => word? negative (body.map Char.toLower)

end TclHost.Double
