import TclHost.Text.Blank
import TclHost.Text.Delimited
import TclHost.Text.Escape
/-! # Reading lists

A list is a text whose elements are separated by white space.  An element in braces is taken
as it stands, one in quotes and a bare one have their backslash sequences replaced.
-/
namespace TclHost.TclList

open Text

inductive Error where
  | unmatchedBrace
  | unmatchedQuote
  /-- Something follows a closing brace before the next white space. -/
  | afterBraces (junk : String)
  /-- Something follows a closing quote before the next white space. -/
  | afterQuotes (junk : String)
  deriving DecidableEq, Repr

def Error.message : Error → String
  | .unmatchedBrace => "unmatched open brace in list"
  | .unmatchedQuote => "unmatched open quote in list"
  | .afterBraces junk =>
    "list element in braces followed by \"" ++ junk ++ "\" instead of space"
  | .afterQuotes junk =>
    "list element in quotes followed by \"" ++ junk ++ "\" instead of space"

/-- A delimited element must be followed by white space or the end of the list; the error
quotes what follows up to the next Unicode blank. -/
def separated (error : String → Error) (element rest : List Char) :
    Except Error (List Char × List Char) :=
  match rest with
  | [] => .ok (element, rest)
  | c :: _ =>
    if isListSpace c then .ok (element, rest)
    else .error (error (String.ofList (rest.takeWhile fun c => !isBlank c)))

def readElement (c : Char) (cs : List Char) : Except Error (List Char × List Char) :=
  if c = '{' then
    match braced? cs with
    | none => .error .unmatchedBrace
    | some (element, rest) => separated .afterBraces element rest
  else if c = '"' then
    match Escape.readUntil (· == '"') cs with
    | (_, []) => .error .unmatchedQuote
    | (element, _ :: rest) => separated .afterQuotes element rest
  else .ok (Escape.readUntil isListSpace (c :: cs))

theorem separated_eq_ok {error : String → Error} {element rest : List Char}
    {r : List Char × List Char} (h : separated error element rest = .ok r) :
    r = (element, rest) := by
  unfold separated at h
  split at h
  · cases h; rfl
  · split at h
    · cases h; rfl
    · cases h

theorem readElement_length_lt {c : Char} {cs : List Char} {r : List Char × List Char}
    (hc : isListSpace c = false) (h : readElement c cs = .ok r) :
    r.2.length < (c :: cs).length := by
  unfold readElement at h
  split at h
  · split at h
    · cases h
    · next hb =>
      cases separated_eq_ok h
      have := closeAt?_length_lt (braced?_eq _ ▸ hb)
      simp only [List.length_cons]
      omega
  · split at h
    · split at h
      · cases h
      · next hq =>
        cases separated_eq_ok h
        have := Escape.readUntil_snd_length_le (· == '"') cs
        rw [hq] at this
        simp only [List.length_cons] at this ⊢
        omega
    · cases h
      exact Escape.readUntil_snd_length_lt cs hc

def elements (cs : List Char) : Except Error (List (List Char)) :=
  match cs with
  | [] => .ok []
  | c :: cs =>
    if _hc : isListSpace c = true then elements cs
    else
      match _h : readElement c cs with
      | .error e => .error e
      | .ok r => (elements r.2).map (r.1 :: ·)
termination_by cs.length
decreasing_by
  · simp
  · exact readElement_length_lt (by simpa using _hc) _h

def parse (s : String) : Except Error (List String) :=
  (elements s.toList).map (·.map String.ofList)

end TclHost.TclList
