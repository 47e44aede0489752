import TclHost.Octet.Scanner
/-! # Scripts in octets

A second form of the script reader.  What a command does never changes where it ends, so that the
positions are those of a run, as far as the run gets.
-/
namespace TclHost.Octet

open Text Script

/-- The characters that stand for themselves between two pieces, if there are any. -/
def literals (text : List Char) : List Piece :=
  if text = [] then [] else [.literal text]

def endsWord (text : List Char) (nested : Bool) (p : Nat) : Bool :=
  (octet? text p).all fun o => isWordEnd nested o || o == '\\'

def startsExpanded (text : List Char) (nested : Bool) (p : Nat) : Scan Bool := do
  let rest ← behind text p
  return ['{', '*', '}'].isPrefixOf rest && (octet? text (p + 3)).any fun o => !isWordEnd nested o

def wordStart (expand : Bool) (p : Nat) : Nat :=
  if expand then p + 3 else p

theorem le_wordStart (expand : Bool) (p : Nat) : p ≤ wordStart expand p := by
  unfold wordStart
  split <;> omega

mutual

/-- Read pieces up to a stop, where `start` is the start of the characters that stand for
themselves; the position of the stop, or none after a fault. -/
def subst (text : List Char) (stop : Stop) (p start : Nat) : Scan (List Piece × Option Nat) :=
  match _h : octet? text p with
  | none => do
    let before := literals (← cut text start p)
    match stop.fault? with
    | some f => return (before ++ [.fault f], none)
    | none => return (before, some (← pass text p))
  | some o =>
    if stop.stopsAt o (octet? text (p + 1)).toList then do
      return (literals (← cut text start p), some (← pass text p))
    else if o = '$' ∨ o = '[' ∨ o = '\\' then do
      let before := literals (← cut text start p)
      match ← substPiece text p with
      | (piece, none) => return (before ++ [piece], none)
      | (piece, some q) =>
        let ⟨q, _⟩ ← advance text p q
        let (pieces, last) ← subst text stop q q
        return (before ++ piece :: pieces, last)
    else subst text stop (p + 1) start
termination_by 7 * (Utf8.size text - p) + 2
decreasing_by
  · omega
  · omega
  · have := lt_size_of_octet? _h
    omega

def substPiece (text : List Char) (p : Nat) : Scan (Piece × Option Nat) :=
  if octet? text p = some '$' then substVar text p
  else if _h : octet? text p = some '[' then do
    let _ ← pass text (p + 1)
    let (script, last) ← run text true (p + 1)
    return (.command script, last)
  else do
    let (c, q) ← backslash text p
    return (.literal [c], some q)
termination_by 7 * (Utf8.size text - p) + 1
decreasing_by
  · omega
  · have := lt_size_of_octet? _h
    omega

def substVar (text : List Char) (p : Nat) : Scan (Piece × Option Nat) := do
  let start := p + 1
  if octet? text start = some '{' then
    match find? '}' (← behind text start) with
    | none => return (.fault .missingNameBrace, none)
    | some i =>
      let close := start + i
      let name ← cut text (start + 1) close
      return (.variable (String.ofList name), some (← pass text (close + 1)))
  else
    let last := nameEnd text start
    if last = start then return (.literal ['$'], some (← pass text start))
    else
      let name := String.ofList (← cut text start last)
      if _h : octet? text last = some '(' then
        let _ ← pass text (last + 1)
        let (index, close) ← subst text .atParen (last + 1) (last + 1)
        return (.element name index, ← close.mapM fun q => pass text (q + 1))
      else return (.variable name, some (← pass text last))
termination_by 7 * (Utf8.size text - p)
decreasing_by
  have := lt_size_of_octet? _h
  have := le_nameEnd text (p + 1)
  have : last = nameEnd text (p + 1) := rfl
  omega

def parseWord (text : List Char) (nested : Bool) (p : Nat) : Scan (List Piece × Option Nat) :=
  match _h : octet? text p with
  | none => throw (.offBoundary p)
  | some o =>
    if o = '{' then
      match matchingBrace text p with
      | none => return ([.fault .missingBrace], none)
      | some close =>
        if endsWord text nested (close + 1) then do
          return ([.literal (← cut text (p + 1) close)], some (← pass text (close + 1)))
        else return ([.fault .extraAfterBrace], none)
    else if o = '"' then do
      let _ ← pass text (p + 1)
      match ← subst text .atQuote (p + 1) (p + 1) with
      | (pieces, none) => return (pieces, none)
      | (pieces, some close) =>
        if endsWord text nested (close + 1) then
          return (pieces, some (← pass text (close + 1)))
        else return (pieces ++ [.fault .extraAfterQuote], none)
    else subst text (.atWordEnd nested) p p
termination_by 7 * (Utf8.size text - p) + 3
decreasing_by
  · have := lt_size_of_octet? _h
    omega
  · omega

def parseCommand (text : List Char) (nested : Bool) (p : Nat) : Scan (List Word × Option Nat) :=
  let start := skipBlanks text p
  match _h : octet? text start with
  | none => do return ([], some (← pass text start))
  | some o =>
    if o = '\n' ∨ o = ';' then do return ([], some (← pass text (start + 1)))
    else if nested ∧ o = ']' then do return ([], some (← pass text start))
    else do
      let expand ← startsExpanded text nested start
      let _ ← pass text (wordStart expand start)
      match ← parseWord text nested (wordStart expand start) with
      | (pieces, none) => return ([.mk expand pieces], none)
      | (pieces, some q) =>
        let ⟨q, _⟩ ← advance text start q
        let (words, last) ← parseCommand text nested q
        return (.mk expand pieces :: words, last)
termination_by 7 * (Utf8.size text - p) + 4
decreasing_by
  · have : p ≤ skipBlanks text p := le_skipJoining ..
    have := le_wordStart expand (skipBlanks text p)
    omega
  · have : p ≤ start := le_skipJoining ..
    omega

def run (text : List Char) (nested : Bool) (p : Nat) : Scan (Script × Option Nat) :=
  let start := skipSeparators text p
  match _h : octet? text start with
  | none => if nested then return ([.fault .missingBracket], none)
    else do return ([], some (← pass text start))
  | some o =>
    if nested ∧ o = ']' then do return ([], some (← pass text (start + 1)))
    else if o = '#' then do
      let ⟨q, _⟩ ← advance text start (skipComment text start)
      run text nested q
    else do
      let _ ← pass text start
      match ← parseCommand text nested start with
      | (words, none) => return ([.words words], none)
      | (words, some q) =>
        let ⟨q, _⟩ ← advance text start q
        let (script, last) ← run text nested q
        return (.words words :: script, last)
termination_by 7 * (Utf8.size text - p) + 5
decreasing_by
  all_goals
    have : p ≤ start := le_skipJoining text (isWordEnd false) p
    omega

end

theorem subst_eq (text : List Char) (stop : Stop) (p start : Nat) :
    subst text stop p start =
      match octet? text p with
      | none => do
        let before := literals (← cut text start p)
        match stop.fault? with
        | some f => return (before ++ [.fault f], none)
        | none => return (before, some (← pass text p))
      | some o =>
        if stop.stopsAt o (octet? text (p + 1)).toList then do
          return (literals (← cut text start p), some (← pass text p))
        else if o = '$' ∨ o = '[' ∨ o = '\\' then do
          let before := literals (← cut text start p)
          match ← substPiece text p with
          | (piece, none) => return (before ++ [piece], none)
          | (piece, some q) =>
            let ⟨q, _⟩ ← advance text p q
            let (pieces, last) ← subst text stop q q
            return (before ++ piece :: pieces, last)
        else subst text stop (p + 1) start := by
  rw [subst]
  split <;> simp_all

theorem parseWord_eq (text : List Char) (nested : Bool) (p : Nat) :
    parseWord text nested p =
      match octet? text p with
      | none => throw (.offBoundary p)
      | some o =>
        if o = '{' then
          match matchingBrace text p with
          | none => return ([.fault .missingBrace], none)
          | some close =>
            if endsWord text nested (close + 1) then do
              return ([.literal (← cut text (p + 1) close)], some (← pass text (close + 1)))
            else return ([.fault .extraAfterBrace], none)
        else if o = '"' then do
          let _ ← pass text (p + 1)
          match ← subst text .atQuote (p + 1) (p + 1) with
          | (pieces, none) => return (pieces, none)
          | (pieces, some close) =>
            if endsWord text nested (close + 1) then
              return (pieces, some (← pass text (close + 1)))
            else return (pieces ++ [.fault .extraAfterQuote], none)
        else subst text (.atWordEnd nested) p p := by
  rw [parseWord]
  split <;> simp_all

theorem parseCommand_eq {text : List Char} (nested : Bool) {p start : Nat}
    (h : skipBlanks text p = start) :
    parseCommand text nested p =
      match octet? text start with
      | none => do return ([], some (← pass text start))
      | some o =>
        if o = '\n' ∨ o = ';' then do return ([], some (← pass text (start + 1)))
        else if nested ∧ o = ']' then do return ([], some (← pass text start))
        else do
          let expand ← startsExpanded text nested start
          let _ ← pass text (wordStart expand start)
          match ← parseWord text nested (wordStart expand start) with
          | (pieces, none) => return ([.mk expand pieces], none)
          | (pieces, some q) =>
            let ⟨q, _⟩ ← advance text start q
            let (words, last) ← parseCommand text nested q
            return (.mk expand pieces :: words, last) := by
  subst h
  rw [parseCommand]
  split <;> simp_all

theorem run_eq {text : List Char} (nested : Bool) {p start : Nat}
    (h : skipSeparators text p = start) :
    run text nested p =
      match octet? text start with
      | none => if nested then return ([.fault .missingBracket], none)
        else do return ([], some (← pass text start))
      | some o =>
        if nested ∧ o = ']' then do return ([], some (← pass text (start + 1)))
        else if o = '#' then do
          let ⟨q, _⟩ ← advance text start (skipComment text start)
          run text nested q
        else do
          let _ ← pass text start
          match ← parseCommand text nested start with
          | (words, none) => return ([.words words], none)
          | (words, some q) =>
            let ⟨q, _⟩ ← advance text start q
            let (script, last) ← run text nested q
            return (.words words :: script, last) := by
  subst h
  rw [run]
  split <;> simp_all

end TclHost.Octet
