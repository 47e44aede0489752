import TclHost.Octet.Position
import TclHost.Script.Reader
import TclHost.TclList.Reader
/-! # Scanning octets

Second forms of the readers of backslash sequences, delimited texts, names and lists, which go over
octets and keep positions.  A loop may leave the boundaries of characters on its way: a backslash
takes only one octet along, and any octet of a longer character is passed over like the others.
-/
namespace TclHost.Octet

open Text Script

/-! ## Backslash sequences -/

/-- At most `limit` digits from a position on, and the position behind them. -/
def digits (text : List Char) (radix : Nat) : (limit p : Nat) → List Char × Nat
  | 0, p => ([], p)
  | limit + 1, p =>
    match octet? text p with
    | some d =>
      if isDigitOf radix d then
        let r := digits text radix limit (p + 1)
        (d :: r.1, r.2)
      else ([], p)
    | none => ([], p)

def hexEscape (text : List Char) (start limit : Nat) : Option (Char × Nat) :=
  match digits text 16 limit start with
  | ([], _) => none
  | (ds, q) => some (Escape.charOrReplacement (numeral 16 ds), q)

def backslash (text : List Char) (p : Nat) : Scan (Char × Nat) :=
  match octet? text (p + 1) with
  | none => do return ('\\', ← pass text (p + 1))
  | some o =>
    match Escape.letter? o with
    | some image => do return (image, ← pass text (p + 2))
    | none =>
      if o = '\n' then do
        return (' ', ← pass text (runEnd text (fun s => s == ' ' || s == '\t') (p + 2)))
      else match Escape.hexLimit? o with
        | some limit => do
          let r := (hexEscape text (p + 2) limit).getD (o, p + 2)
          return (r.1, ← pass text r.2)
        | none =>
          if isDigitOf 8 o then do
            let r := digits text 8 3 (p + 1)
            return (Escape.charOrReplacement (numeral 8 r.1 % 256), ← pass text r.2)
          else do
            let rest ← behind text (p + 1)
            let c := rest.head?.getD '\\'
            return (c, ← pass text (p + 1 + c.utf8Size))

/-! ## Delimited texts, comments, separators and names -/

/-- The position of the octet that closes the last of `depth + 1` open ones. -/
def closing (text : List Char) (opening close : Char) (depth p : Nat) : Option Nat :=
  match _h : octet? text p with
  | none => none
  | some o =>
    if o = '\\' then closing text opening close depth (p + 2)
    else if o = close then
      match depth with
      | 0 => some p
      | depth + 1 => closing text opening close depth (p + 1)
    else closing text opening close (if o = opening then depth + 1 else depth) (p + 1)
termination_by Utf8.size text - p
decreasing_by
  all_goals
    have := lt_size_of_octet? _h
    omega

theorem closing_eq (text : List Char) (opening close : Char) (depth p : Nat) :
    closing text opening close depth p =
      match octet? text p with
      | none => none
      | some o =>
        if o = '\\' then closing text opening close depth (p + 2)
        else if o = close then
          match depth with
          | 0 => some p
          | depth + 1 => closing text opening close depth (p + 1)
        else closing text opening close (if o = opening then depth + 1 else depth) (p + 1) := by
  rw [closing.eq_def]
  split <;> simp_all

def matchingBrace (text : List Char) (p : Nat) : Option Nat :=
  closing text '{' '}' 0 (p + 1)

def skipComment (text : List Char) (p : Nat) : Nat :=
  match _h : octet? text p with
  | none => Utf8.size text
  | some o =>
    if o = '\\' then skipComment text (p + 2)
    else if o = '\n' then p + 1
    else skipComment text (p + 1)
termination_by Utf8.size text - p
decreasing_by
  all_goals
    have := lt_size_of_octet? _h
    omega

theorem skipComment_eq (text : List Char) (p : Nat) :
    skipComment text p =
      match octet? text p with
      | none => Utf8.size text
      | some o =>
        if o = '\\' then skipComment text (p + 2)
        else if o = '\n' then p + 1
        else skipComment text (p + 1) := by
  rw [skipComment]
  split <;> simp_all

def skipJoining (text : List Char) (separates : Char → Bool) (p : Nat) : Nat :=
  match _h : octet? text p with
  | none => p
  | some o =>
    if separates o then skipJoining text separates (p + 1)
    else if o = '\\' ∧ octet? text (p + 1) = some '\n' then skipJoining text separates (p + 2)
    else p
termination_by Utf8.size text - p
decreasing_by
  all_goals
    have := lt_size_of_octet? _h
    omega

theorem skipJoining_eq (text : List Char) (separates : Char → Bool) (p : Nat) :
    skipJoining text separates p =
      match octet? text p with
      | none => p
      | some o =>
        if separates o then skipJoining text separates (p + 1)
        else if o = '\\' ∧ octet? text (p + 1) = some '\n' then
          skipJoining text separates (p + 2)
        else p := by
  rw [skipJoining]
  split <;> simp_all

def skipSeparators (text : List Char) (p : Nat) : Nat :=
  skipJoining text (isWordEnd false) p

def skipBlanks (text : List Char) (p : Nat) : Nat :=
  skipJoining text (fun o => o == ' ' || o == '\t' || o == '\r') p

def nameEnd (text : List Char) (p : Nat) : Nat :=
  match _h : octet? text p with
  | none => p
  | some o =>
    if isNameChar o then nameEnd text (p + 1)
    else if o = ':' ∧ octet? text (p + 1) = some ':' then nameEnd text (p + 2)
    else p
termination_by Utf8.size text - p
decreasing_by
  all_goals
    have := lt_size_of_octet? _h
    omega

theorem nameEnd_eq (text : List Char) (p : Nat) :
    nameEnd text p =
      match octet? text p with
      | none => p
      | some o =>
        if isNameChar o then nameEnd text (p + 1)
        else if o = ':' ∧ octet? text (p + 1) = some ':' then nameEnd text (p + 2)
        else p := by
  rw [nameEnd]
  split <;> simp_all

theorem le_skipJoining (text : List Char) (separates : Char → Bool) (p : Nat) :
    p ≤ skipJoining text separates p := by
  fun_induction skipJoining text separates p <;> omega

theorem le_nameEnd (text : List Char) (p : Nat) : p ≤ nameEnd text p := by
  fun_induction nameEnd text p <;> omega

/-! ## Lists -/

/-- Replace backslash sequences up to an octet that satisfies the test, or the end: what was taken
so far, the start of what is still to be taken, and where that ends. -/
def escaped (text : List Char) (stop : Char → Bool) (p start : Nat) :
    Scan (List Char × Nat × Nat) :=
  match _h : octet? text p with
  | none => return ([], start, p)
  | some o =>
    if stop o then return ([], start, p)
    else if o = '\\' then do
      let before ← cut text start p
      let (c, q) ← backslash text p
      let ⟨q, _⟩ ← advance text p q
      let (out, start, last) ← escaped text stop q q
      return (before ++ c :: out, start, last)
    else escaped text stop (p + 1) start
termination_by Utf8.size text - p
decreasing_by
  · omega
  · have := lt_size_of_octet? _h
    omega

theorem escaped_eq (text : List Char) (stop : Char → Bool) (p start : Nat) :
    escaped text stop p start =
      match octet? text p with
      | none => return ([], start, p)
      | some o =>
        if stop o then return ([], start, p)
        else if o = '\\' then do
          let before ← cut text start p
          let (c, q) ← backslash text p
          let ⟨q, _⟩ ← advance text p q
          let (out, start, last) ← escaped text stop q q
          return (before ++ c :: out, start, last)
        else escaped text stop (p + 1) start := by
  rw [escaped]
  split <;> simp_all

/-- What stands from a position up to the next blank. -/
def trailing (text : List Char) (p : Nat) : Scan String := do
  let rest ← behind text p
  return String.ofList (rest.takeWhile fun c => !isBlank c)

def separated (text : List Char) (error : String → TclList.Error) (element : List Char) (p : Nat) :
    Scan (Except TclList.Error (List Char × Nat)) :=
  match octet? text p with
  | some o =>
    if TclHost.Text.isListSpace o then return .ok (element, p)
    else do return .error (error (← trailing text p))
  | none => return .ok (element, p)

def readElement (text : List Char) (p : Nat) : Scan (Except TclList.Error (List Char × Nat)) :=
  if octet? text p = some '{' then
    match closing text '{' '}' 0 (p + 1) with
    | none => return .error .unmatchedBrace
    | some close => do
      let element ← cut text (p + 1) close
      separated text .afterBraces element (close + 1)
  else if octet? text p = some '"' then do
    let (out, start, last) ← escaped text (· == '"') (p + 1) (p + 1)
    match octet? text last with
    | none => return .error .unmatchedQuote
    | some _ =>
      let element := out ++ (← cut text start last)
      separated text .afterQuotes element (last + 1)
  else do
    let (out, start, last) ← escaped text isListSpace p p
    return .ok (out ++ (← cut text start last), last)

def parseList (text : List Char) (p : Nat) : Scan (Except TclList.Error (List (List Char))) :=
  let start := runEnd text isListSpace p
  match octet? text start with
  | none => return .ok []
  | some _ => do
    match ← readElement text start with
    | .error e => return .error e
    | .ok (element, q) =>
      let ⟨q, _⟩ ← advance text start q
      return (← parseList text q).map (element :: ·)
termination_by Utf8.size text - p
decreasing_by
  have := le_runEnd text isListSpace p
  omega

end TclHost.Octet
