import TclHost.Text.Utf8
/-! # Octets of a text

A scanner may go over the UTF-8 form of a text octet by octet, and then it steps into the middle of
characters.  But what it cuts out of the text and what it hands on has to lie between characters,
and behind whatever it has consumed it has to be further on than before.  Here both are checked
where they matter, and a scanner that fails such a check is halted.
-/
namespace TclHost.Octet

open Text

/-- The octets of a character, each of them as the character with its number. -/
def ofChar (c : Char) : List Char :=
  (String.utf8EncodeChar c).map fun b => Char.ofNat b.toNat

def octets (text : List Char) : List Char :=
  text.flatMap ofChar

def octet? (text : List Char) (p : Nat) : Option Char :=
  (octets text)[p]?

/-- The octets of a text are the bytes of its UTF-8 form. -/
theorem octets_eq (text : List Char) :
    octets text = (String.ofList text).toUTF8.data.toList.map fun b => Char.ofNat b.toNat := by
  rw [String.toUTF8_eq_toByteArray, String.toByteArray_ofList, List.utf8Encode,
    List.data_toByteArray, List.map_flatMap]
  rfl

theorem length_octets (text : List Char) : (octets text).length = Utf8.size text := by
  induction text with
  | nil => rfl
  | cons c cs ih =>
    rw [octets, List.flatMap_cons, List.length_append, ofChar, List.length_map,
      String.length_utf8EncodeChar, Utf8.size]
    exact congrArg _ ih

theorem lt_size_of_octet? {text : List Char} {p : Nat} {o : Char} (h : octet? text p = some o) :
    p < Utf8.size text := by
  rw [← length_octets]
  exact (List.getElem?_eq_some_iff.mp h).1

inductive Halt where
  /-- A position inside a character or beyond the end of the text. -/
  | offBoundary (p : Nat)
  /-- Something was consumed, and the position is no further on. -/
  | stuck (p : Nat)
  deriving DecidableEq, Repr

/-- A result, unless the scanner was halted. -/
abbrev Scan :=
  Except Halt

def behind (text : List Char) (p : Nat) : Scan (List Char) :=
  match Utf8.dropBytes? text p with
  | some rest => .ok rest
  | none => .error (.offBoundary p)

def pass (text : List Char) (p : Nat) : Scan Nat := do
  let _ ← behind text p
  return p

def cut (text : List Char) (p q : Nat) : Scan (List Char) := do
  let front ← behind text p
  let rest ← behind text q
  if p ≤ q then return front.take (front.length - rest.length) else throw (.offBoundary q)

def advance (text : List Char) (p q : Nat) : Scan { q : Nat // p < q ∧ q ≤ Utf8.size text } := do
  let _ ← behind text q
  if h : p < q ∧ q ≤ Utf8.size text then return ⟨q, h⟩ else throw (.stuck p)

def runEnd (text : List Char) (test : Char → Bool) (p : Nat) : Nat :=
  match _h : octet? text p with
  | some o => if test o then runEnd text test (p + 1) else p
  | none => p
termination_by Utf8.size text - p
decreasing_by
  have := lt_size_of_octet? _h
  omega

theorem runEnd_eq (text : List Char) (test : Char → Bool) (p : Nat) :
    runEnd text test p =
      match octet? text p with
      | some o => if test o then runEnd text test (p + 1) else p
      | none => p := by
  rw [runEnd]
  split <;> simp_all

theorem le_runEnd (text : List Char) (test : Char → Bool) (p : Nat) : p ≤ runEnd text test p := by
  fun_induction runEnd text test p <;> omega

/-- The number of octets in front of the first occurrence of a character. -/
def find? (c : Char) (cs : List Char) : Option Nat :=
  if c ∈ cs then some (Utf8.size (cs.takeWhile (· != c))) else none

end TclHost.Octet
