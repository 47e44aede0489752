import TclHost.Text.Digit
/-! # Directives

A directive is a percent sign, flags, an optional width, an optional precision after a point
and one letter, the verb.
-/
namespace TclHost.Template

open Text

structure Directive where
  minus : Bool
  plus : Bool
  space : Bool
  zero : Bool
  sharp : Bool
  width : Option Nat
  precision : Option Nat
  verb : Char
  deriving DecidableEq, Repr

inductive DirectiveError where
  | malformed (source : String)
  | countTooLarge (source : String)
  deriving DecidableEq, Repr

def DirectiveError.message : DirectiveError → String
  | .malformed source => "malformed format directive \"" ++ source ++ "\""
  | .countTooLarge source => "width or precision too large in \"" ++ source ++ "\""

def maxCount : Nat :=
  1000000

/-- The parts of a directive as they are written: the flags, the digits of the width, those of
the precision if there is a point, and the verb. -/
structure DirectiveParts where
  flags : List Char
  width : List Char
  precision : Option (List Char)
  verb : Char
  deriving DecidableEq, Repr

def isFlag (c : Char) : Bool :=
  c == '-' || c == '+' || c == '#' || c == ' ' || c == '0'

/-- Split a directive into its parts.  The counts admit every Unicode decimal digit here. -/
def splitDirective? (source : List Char) : Option DirectiveParts :=
  match source with
  | '%' :: cs =>
    let flags := cs.takeWhile isFlag
    let cs := cs.dropWhile isFlag
    let width := cs.takeWhile isDecimalDigit
    let cs := cs.dropWhile isDecimalDigit
    let (precision, cs) :=
      match cs with
      | '.' :: cs => (some (cs.takeWhile isDecimalDigit), cs.dropWhile isDecimalDigit)
      | cs => (none, cs)
    match cs with
    | [verb] => if isAsciiLetter verb then some ⟨flags, width, precision, verb⟩ else none
    | _ => none
  | _ => none

/-- The value of a count, which has ASCII digits and is not too large. -/
def count? (ds : List Char) : Option Nat :=
  if ds.all isAsciiDigit ∧ numeral 10 ds ≤ maxCount then some (numeral 10 ds) else none

/-- The counts of a directive: no digits mean no width, and a precision of zero. -/
def DirectiveParts.counts? (p : DirectiveParts) : Option (Option Nat × Option Nat) := do
  let width ← if p.width.isEmpty then some none else (count? p.width).map some
  let precision ← match p.precision with
    | none => some none
    | some ds => (count? ds).map some
  return (width, precision)

def Directive.parse (source : String) : Except DirectiveError Directive :=
  match splitDirective? source.toList with
  | none => .error (.malformed source)
  | some p =>
    match p.counts? with
    | none => .error (.countTooLarge source)
    | some (width, precision) =>
      .ok {
        minus := p.flags.contains '-'
        plus := p.flags.contains '+'
        space := p.flags.contains ' '
        zero := p.flags.contains '0'
        sharp := p.flags.contains '#'
        width, precision
        verb := p.verb }

end TclHost.Template
