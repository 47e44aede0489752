import TclHost.Interp.Error
/-! # Index specifications

An index is an integer or `end`, with an offset that may be added or subtracted.  It counts
from zero, and `end` is the last position.
-/
namespace TclHost.Index

/-- Split a specification in front of the first sign that is not its first character. -/
def splitOffset : List Char → List Char × List Char
  | [] => ([], [])
  | c :: cs =>
    let isSign (c : Char) : Bool := c == '+' || c == '-'
    (c :: cs.takeWhile (!isSign ·), cs.dropWhile (!isSign ·))

def offsetFrom? (base : Int64) (offset : List Char) : Option Int64 :=
  match offset with
  | [] => some base
  | c :: _ =>
    if c = '+' ∨ c = '-' then
      (Number.parseInt (String.ofList offset)).toOption.map (base + ·)
    else none

/-- The position that a specification names in a sequence, which may be outside of it. -/
def value? (spec : String) (length : Nat) : Option Int64 :=
  match spec.toList with
  | 'e' :: 'n' :: 'd' :: offset => offsetFrom? (Int64.ofNat length - 1) offset
  | cs => do
    let (base, offset) := splitOffset cs
    offsetFrom? (← (Number.parseInt (String.ofList base)).toOption) offset

def value (spec : String) (length : Nat) : Except CommandError Int64 :=
  match value? spec length with
  | some i => .ok i
  | none => .error (.badIndex spec)

def resolve (spec : String) (length : Nat) : Except CommandError (Option Nat) := do
  let i ← value spec length
  return if 0 ≤ i.toInt ∧ i.toInt < length then some i.toInt.toNat else none

/-- Where the part between two positions, both included, begins in a sequence, and where what
follows it begins.  There is no such part if the positions are reversed. -/
def bounds (first last : String) (length : Nat) : Except CommandError (Nat × Nat) := do
  let i := max (← value first length).toInt 0
  let j := min (← value last length).toInt (length - 1)
  return if j < i then (0, 0) else (i.toNat, j.toNat + 1)

def slice {α : Type} (items : List α) (first last : String) : Except CommandError (List α) := do
  let (lower, upper) ← bounds first last items.length
  return (items.take upper).drop lower

end TclHost.Index
