import TclHost.Text.CaseTable
/-! # Upper and lower case

The full case mappings of Unicode, in which one character may become several, and the rule
for a capital sigma: at the end of a word it becomes the final form.
-/
namespace TclHost.Text

def CaseRun.image? (runs : List CaseRun) (n : Nat) : Option Nat :=
  (runs.find? fun r => r.first ≤ n && n ≤ r.last && (n - r.first) % r.stride == 0).map
    fun r => (Int.ofNat n + r.shift).toNat

/-- A full mapping: several characters first, then one, then the character itself. -/
private def mapCase (specials : List (Nat × List Nat)) (runs : List CaseRun) (c : Char) :
    List Char :=
  match specials.lookup c.toNat with
  | some images => images.map Char.ofNat
  | none => match CaseRun.image? runs c.toNat with
    | some n => [Char.ofNat n]
    | none => [c]

def upperChar (c : Char) : List Char :=
  if c.toNat < 0x80 then [c.toUpper] else mapCase upperSpecials upperRuns c

def lowerChar (c : Char) : List Char :=
  if c.toNat < 0x80 then [c.toLower] else mapCase lowerSpecials lowerRuns c

private def inRanges (ranges : List (Nat × Nat)) (c : Char) : Bool :=
  ranges.any fun r => r.1 ≤ c.toNat && c.toNat ≤ r.2

/-- The first character that case decisions do not look through has case. -/
def casedAhead (cs : List Char) : Bool :=
  match cs.dropWhile (inRanges caseIgnorableRanges) with
  | [] => false
  | c :: _ => inRanges casedRanges c

/-- Lower-case a text whose characters before this point are given in reverse. -/
private def lowerAfter (before : List Char) : List Char → List Char
  | [] => []
  | c :: cs =>
    let image :=
      if c == 'Σ' then if casedAhead before && !casedAhead cs then ['ς'] else ['σ']
      else lowerChar c
    image ++ lowerAfter (c :: before) cs

def upper (s : String) : String :=
  String.ofList (s.toList.flatMap upperChar)

/-- The lower-case form of a text: a capital sigma that ends a word becomes the final sigma. -/
def lower (s : String) : String :=
  String.ofList (lowerAfter [] s.toList)

end TclHost.Text
