import TclHost.Double.Exact
/-! # Rounding doubles to integers

Each way to round is a rule for when the integer part of a magnitude grows by one.  A result
of zero keeps the sign of its argument.
-/
namespace TclHost.Double

/-- Round a finite double by a rule that sees the sign, the fractional part below one unit and
that unit, and says whether the integer part of the magnitude grows. -/
def roundBy (grows : (negative : Bool) → (fraction unit : Nat) → Bool) (x : Float) : Float :=
  match datum x with
  | .finite negative m e =>
    if 0 ≤ e then x
    else
      let unit := 2 ^ (-e).toNat
      ofRatio negative ⟨m / unit + (if grows negative (m % unit) unit then 1 else 0), 1⟩
  | _ => x

def floor (x : Float) : Float :=
  roundBy (fun negative fraction _ => negative && fraction != 0) x

def ceil (x : Float) : Float :=
  roundBy (fun negative fraction _ => !negative && fraction != 0) x

/-- The integer nearest to a double; a half goes away from zero. -/
def round (x : Float) : Float :=
  roundBy (fun _ fraction unit => unit ≤ 2 * fraction) x

def truncate? (x : Float) : Option Int :=
  match datum x with
  | .finite negative m e =>
    let magnitude : Int := (Ratio.scaled 2 m e).floor
    some (if negative then -magnitude else magnitude)
  | _ => none

/-- The 64-bit integer nearest to an integer: those out of range go to the ends. -/
def clampToInt64 (n : Int) : Int64 :=
  Int64.ofInt (max (-2 ^ 63) (min (2 ^ 63 - 1) n))

end TclHost.Double
