import TclHost.Double.Exact
/-! # Decimal digits of doubles

Three ways to write a positive fraction in decimal: rounded to a number of places after the
point, rounded to a number of significant digits, and with the fewest digits whose nearest
double is the given one.  All of them work on the exact value; rounding goes to the nearest
neighbour and a tie to the even digit.
-/
namespace TclHost.Double

/-- Decimal digits, of which the first stands before the point, and a power of ten. -/
structure Scientific where
  digits : List Char
  exponent : Int
  deriving DecidableEq, Repr

def magnitude (significand : Nat) (exponent : Int) : Ratio :=
  Ratio.scaled 2 significand exponent

def lastDigits : (width : Nat) → Nat → List Char
  | 0, _ => []
  | width + 1, n => lastDigits width (n / 10) ++ [(n % 10).digitChar]

/-- The digits in front are those of the quotient, the others those of the remainder. -/
theorem lastDigits_add (front back n : Nat) :
    lastDigits (front + back) n
      = lastDigits front (n / 10 ^ back) ++ lastDigits back (n % 10 ^ back) := by
  induction back generalizing n with
  | zero => simp [lastDigits]
  | succ back ih =>
    have hq : n / 10 / 10 ^ back = n / 10 ^ (back + 1) := by
      rw [Nat.div_div_eq_div_mul, Nat.pow_succ']
    have hr : n / 10 % 10 ^ back = n % 10 ^ (back + 1) / 10 := by
      rw [Nat.pow_succ', Nat.mod_mul_right_div_self]
    have hd : n % 10 ^ (back + 1) % 10 = n % 10 := by
      rw [Nat.pow_succ', Nat.mod_mul_right_mod]
    rw [← Nat.add_assoc, lastDigits, lastDigits, ih, hq, hr, hd, List.append_assoc]

theorem lastDigits_zero (width : Nat) : lastDigits width 0 = List.replicate width '0' := by
  induction width with
  | zero => rfl
  | succ width ih =>
    rw [lastDigits, Nat.zero_div, ih, List.replicate_succ']
    rfl

/-- Without the zeros in front, enough of the last digits are all of them. -/
theorem dropWhile_lastDigits {width n : Nat} (hn : 0 < n) (h : n < 10 ^ width) :
    (lastDigits width n).dropWhile (· == '0') = Nat.toDigits 10 n := by
  induction width generalizing n with
  | zero =>
    rw [Nat.pow_zero] at h
    omega
  | succ width ih =>
    rw [lastDigits, List.dropWhile_append]
    by_cases hsmall : n < 10
    · have hd : (n.digitChar == '0') = false := by
        have : n = 1 ∨ n = 2 ∨ n = 3 ∨ n = 4 ∨ n = 5 ∨ n = 6 ∨ n = 7 ∨ n = 8 ∨ n = 9 := by omega
        rcases this with rfl | rfl | rfl | rfl | rfl | rfl | rfl | rfl | rfl <;> rfl
      rw [Nat.div_eq_of_lt hsmall, lastDigits_zero, Nat.mod_eq_of_lt hsmall,
        Nat.toDigits_of_lt_base hsmall]
      simp [hd]
    · have hq : 0 < n / 10 := by omega
      have hlt : n / 10 < 10 ^ width := by
        rw [Nat.pow_succ] at h
        omega
      rw [ih hq hlt, Nat.toDigits_of_base_le (by omega) (by omega : 10 ≤ n)]
      simp [Nat.toDigits_ne_nil]

/-- The last digits of a number, in halves as often as the depth says. -/
def lastDigitsByHalves : (depth width : Nat) → Nat → List Char
  | 0, width, n => lastDigits width n
  | depth + 1, width, n =>
    let back := width / 2
    lastDigitsByHalves depth (width - back) (n / 10 ^ back)
      ++ lastDigitsByHalves depth back (n % 10 ^ back)

theorem lastDigitsByHalves_eq (depth width n : Nat) :
    lastDigitsByHalves depth width n = lastDigits width n := by
  induction depth generalizing width n with
  | zero => rfl
  | succ depth ih =>
    rw [lastDigitsByHalves]
    simp only [ih, ← lastDigits_add]
    rw [Nat.sub_add_cancel (Nat.div_le_self width 2)]

def decimalDigits (n : Nat) : List Char :=
  let width := n.log2 / 3 + 1
  if width < 32 then Nat.toDigits 10 n
  else (lastDigitsByHalves (width.log2 - 3) width n).dropWhile (· == '0')

theorem decimalDigits_eq (n : Nat) : decimalDigits n = Nat.toDigits 10 n := by
  unfold decimalDigits
  dsimp only
  split
  · rfl
  · next h =>
    have hn : 0 < n := by
      rcases Nat.eq_zero_or_pos n with rfl | hn
      · exact absurd (by decide) h
      · exact hn
    have hlt : n < 10 ^ (n.log2 / 3 + 1) :=
      calc n < 2 ^ (n.log2 + 1) := Nat.lt_log2_self
        _ ≤ 2 ^ (3 * (n.log2 / 3 + 1)) := Nat.pow_le_pow_right (by omega) (by omega)
        _ = 8 ^ (n.log2 / 3 + 1) := by rw [Nat.pow_mul]
        _ ≤ 10 ^ (n.log2 / 3 + 1) := Nat.pow_le_pow_left (by omega) _
    rw [lastDigitsByHalves_eq, dropWhile_lastDigits hn hlt]

/-- The exponent of the first significant decimal digit of a positive fraction. -/
def Ratio.decimalExponent (r : Ratio) : Int :=
  let e : Int := (decimalDigits r.num).length - (decimalDigits r.den).length
  if (r.divPow 10 e).floor = 0 then e - 1 else e

def Scientific.ofUnits (units : Nat) (unitExponent : Int) : Scientific :=
  let ds := decimalDigits units
  ⟨ds, unitExponent + (ds.length - 1)⟩

def Ratio.toScientific (r : Ratio) (places : Nat) : Scientific :=
  if r.num = 0 then ⟨List.replicate (places + 1) '0', 0⟩
  else
    let e := r.decimalExponent
    let s := Scientific.ofUnits (r.divPow 10 (e - places)).round (e - places)
    ⟨s.digits.take (places + 1), s.exponent⟩

def fixedDigits (units places : Nat) : List Char :=
  let ds := decimalDigits units
  let ds := List.replicate (places + 1 - ds.length) '0' ++ ds
  let whole := ds.take (ds.length - places)
  if places = 0 then whole else whole ++ '.' :: ds.drop (ds.length - places)

/-- Round a fraction to `places` digits after the point and write it positionally. -/
def Ratio.toFixed (r : Ratio) (places : Nat) : List Char :=
  fixedDigits (r.divPow 10 (-places)).round places

def Scientific.mantissa (s : Scientific) : List Char :=
  match s.digits with
  | [] => []
  | [d] => [d]
  | d :: ds => d :: '.' :: ds

def Scientific.trimZeros (s : Scientific) : Scientific :=
  match s.digits with
  | [] => s
  | d :: ds => ⟨d :: (ds.reverse.dropWhile (· == '0')).reverse, s.exponent⟩

/-- Of the two multiples of a decimal unit around a fraction, the one whose nearest double is
the given one; if both are, the nearer, and the larger of two equally near ones. -/
def Ratio.neighbourReadingBack? (r : Ratio) (bits : Nat) (unitExponent : Int) : Option Nat :=
  let scaled := r.divPow 10 unitExponent
  let below := scaled.floor
  let readsBack (n : Nat) : Bool := (Ratio.scaled 10 n unitExponent).nearestBits == bits
  let lower := readsBack below
  let upper := readsBack (below + 1)
  if lower && upper then
    some (if 2 * (scaled.num % scaled.den) < scaled.den then below else below + 1)
  else if lower then some below
  else if upper then some (below + 1)
  else none

def Ratio.shortestFrom (r : Ratio) (bits : Nat) : (tries : Nat) → (unitExponent : Int) → Scientific
  | 0, unitExponent =>
    Scientific.ofUnits (r.divPow 10 unitExponent).round unitExponent
  | tries + 1, unitExponent =>
    match r.neighbourReadingBack? bits unitExponent with
    | some n => (Scientific.ofUnits n unitExponent).trimZeros
    | none => r.shortestFrom bits tries (unitExponent - 1)

/-- The least number of digits that may read back, given falling numbers of digits to be tested.
If that many digits do not read back, fewer do not either: a decimal that reads back lies on the
finer grid too, and so do all between it and the fraction. -/
def Ratio.fewestFrom (r : Ratio) (bits : Nat) (e : Int) : List Nat → Nat
  | [] => 1
  | n :: ns =>
    if (r.neighbourReadingBack? bits (e - n + 1)).isSome then r.fewestFrom bits e ns else n + 1

/-- The fewest decimal digits that read back as the double with these bits, which is the one
nearest to the fraction; seventeen always suffice. -/
def Ratio.shortest (r : Ratio) (bits : Nat) : Scientific :=
  let e := r.decimalExponent
  let fewest := r.fewestFrom bits e [15, 9, 4]
  r.shortestFrom bits (18 - fewest) (e - fewest + 1)

def shortest (significand : Nat) (exponent : Int) : Scientific :=
  let r := magnitude significand exponent
  r.shortest r.nearestBits

/-- Scientific notation written positionally, without a point if no digit follows it. -/
def Scientific.positional (s : Scientific) : List Char :=
  if s.exponent < 0 then
    '0' :: '.' :: (List.replicate (-s.exponent - 1).toNat '0' ++ s.digits)
  else
    let whole := s.exponent.toNat + 1
    let ds := s.digits ++ List.replicate (whole - s.digits.length) '0'
    match ds.drop whole with
    | [] => ds
    | fraction => ds.take whole ++ '.' :: fraction

end TclHost.Double
