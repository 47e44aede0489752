import TclHost.Script.Syntax
import TclHost.Text.Delimited
import TclHost.Text.Escape
import TclHost.Text.VariableName
/-! # Reading scripts

Each reader returns what it read and the text that follows, with a proof that this text is no
longer than the one it was given; after a fault there is no such text.  A script between
brackets is read by the same rules as a whole one, except that a closing bracket ends it.
-/
namespace TclHost.Script

open Text

abbrev Rest (n : Nat) := Option { cs : List Char // cs.length ≤ n }

def Rest.weaken {m n : Nat} (h : m ≤ n) (rest : Rest m) : Rest n :=
  rest.map fun r => ⟨r.1, Nat.le_trans r.2 h⟩

def Rest.tail {n : Nat} (rest : Rest n) : Rest n :=
  rest.map fun r => ⟨r.1.tail, by
    have := r.2
    rw [List.length_tail]
    omega⟩

inductive Stop where
  /-- At the end of the text. -/
  | atEnd
  /-- At the quote that closes a word. -/
  | atQuote
  /-- At the parenthesis that closes an index. -/
  | atParen
  /-- At the end of a bare word, which a bracket closes inside brackets. -/
  | atWordEnd (nested : Bool)
  deriving DecidableEq, Repr

def isWordEnd (nested : Bool) (c : Char) : Bool :=
  c == ' ' || c == '\t' || c == '\r' || c == '\n' || c == ';' || (nested && c == ']')

/-- A run of pieces stops in front of a character, whatever follows it. -/
def Stop.closes (stop : Stop) (c : Char) : Bool :=
  match stop with
  | .atEnd => false
  | .atQuote => c == '"'
  | .atParen => c == ')'
  | .atWordEnd nested => isWordEnd nested c

/-- A run of pieces stops in front of a character and what follows it; a joined line ends a bare
word too. -/
def Stop.stopsAt (stop : Stop) (c : Char) (cs : List Char) : Bool :=
  stop.closes c ||
    match stop with
    | .atWordEnd _ => c == '\\' && cs.head? == some '\n'
    | _ => false

def Stop.isPlain (stop : Stop) (c : Char) : Bool :=
  !(c == '$' || c == '[' || c == '\\' || stop.closes c)

/-- The fault if the text ends before the run of pieces does. -/
def Stop.fault? : Stop → Option Fault
  | .atQuote => some .missingQuote
  | .atParen => some .missingParen
  | _ => none

/-- What may follow a delimited word: the end, a character that ends words, or a backslash. -/
def mayFollow (nested : Bool) (cs : List Char) : Bool :=
  match cs with
  | [] => true
  | c :: _ => isWordEnd nested c || c == '\\'

/-- Drop the separators between commands: blanks, line ends, semicolons and joined lines. -/
def skipSeparators : List Char → List Char
  | [] => []
  | c :: cs =>
    if isWordEnd false c then skipSeparators cs
    else if c = '\\' then
      match cs with
      | '\n' :: ds => skipSeparators ds
      | _ => c :: cs
    else c :: cs

def skipBlanks : List Char → List Char
  | [] => []
  | c :: cs =>
    if c == ' ' || c == '\t' || c == '\r' then skipBlanks cs
    else if c = '\\' then
      match cs with
      | '\n' :: ds => skipBlanks ds
      | _ => c :: cs
    else c :: cs

/-- Drop a comment and the line end after it; a backslash takes the next character along. -/
def skipComment : List Char → List Char
  | [] => []
  | c :: cs =>
    if c = '\\' then
      match cs with
      | [] => []
      | _ :: ds => skipComment ds
    else if c = '\n' then cs
    else skipComment cs

theorem skipSeparators_length_le (cs : List Char) :
    (skipSeparators cs).length ≤ cs.length := by
  fun_induction skipSeparators cs <;> simp only [List.length_cons, Nat.le_refl] at * <;> omega

theorem skipBlanks_length_le (cs : List Char) : (skipBlanks cs).length ≤ cs.length := by
  fun_induction skipBlanks cs <;> simp only [List.length_cons, Nat.le_refl] at * <;> omega

theorem skipComment_length_le (cs : List Char) : (skipComment cs).length ≤ cs.length := by
  fun_induction skipComment cs <;>
    simp only [List.length_cons, List.length_nil, Nat.le_refl] at * <;> omega

/-- Blanks end in front of any other character, whatever follows it, unless a backslash takes it
along. -/
theorem skipBlanks_append_cons {z : Char} (hz : (z == ' ' || z == '\t' || z == '\r') = false)
    (hb : z ≠ '\\') {cs : List Char} (hline : z = '\n' → cs.getLast? ≠ some '\\')
    (more : List Char) : skipBlanks (cs ++ z :: more) = skipBlanks cs ++ z :: more := by
  fun_induction skipBlanks cs with
  | case1 =>
    rw [List.nil_append, skipBlanks.eq_def]
    simp only [hz, Bool.false_eq_true, if_false, hb]
  | case2 c cs hc ih =>
    rw [List.cons_append, skipBlanks.eq_def]
    simp only [hc, if_true]
    refine ih fun hz' hlast => hline hz' ?_
    rw [List.getLast?_cons, hlast]
    rfl
  | case3 ds h ih =>
    rw [List.cons_append, List.cons_append, skipBlanks.eq_def]
    refine ih fun hz' hlast => hline hz' ?_
    rw [List.getLast?_cons, List.getLast?_cons, hlast]
    rfl
  | case4 cs =>
    have hjoin : ∀ ds, cs ≠ '\n' :: ds := by assumption
    rw [List.cons_append, skipBlanks.eq_def]
    cases cs with
    | nil =>
      have hz' : z ≠ '\n' := fun hz' => hline hz' rfl
      simp [hz']
    | cons d cs =>
      have hd : d ≠ '\n' := fun hd => hjoin cs (hd ▸ rfl)
      simp [hd]
  | case5 c cs hc hb' =>
    rw [List.cons_append, skipBlanks.eq_def]
    simp [hc, hb']

def readBraced (nested : Bool) (cs : List Char) : List Piece × Rest cs.length :=
  match h : braced? cs with
  | none => ([.fault .missingBrace], none)
  | some (inner, rest) =>
    if mayFollow nested rest then
      ([.literal inner], some ⟨rest, Nat.le_of_lt (closeAt?_length_lt (braced?_eq _ ▸ h))⟩)
    else ([.fault .extraAfterBrace], none)

/-- The rest after a closing quote must not continue the word. -/
def closeQuoted {n : Nat} (nested : Bool) (r : List Piece × Rest n) : List Piece × Rest n :=
  match r with
  | (pieces, none) => (pieces, none)
  | (pieces, some rest) =>
    if mayFollow nested rest.1.tail then (pieces, Rest.tail (some rest))
    else (pieces ++ [.fault .extraAfterQuote], none)

def readBracedName (cs : List Char) : Piece × Rest cs.length :=
  match h : cs.dropWhile (· != '}') with
  | [] => (.fault .missingNameBrace, none)
  | _ :: rest =>
    (.variable (String.ofList (cs.takeWhile (· != '}'))),
      some ⟨rest, Nat.le_of_lt (length_lt_of_dropWhile h)⟩)

/-- What follows the mark of an expanded word, unless that would be an empty word. -/
def expanded? (nested : Bool) (c : Char) (cs : List Char) : Option (List Char) :=
  match c, cs with
  | '{', '*' :: '}' :: d :: ds => if isWordEnd nested d then none else some (d :: ds)
  | _, _ => none

theorem expanded?_length_lt {nested : Bool} {c : Char} {cs rest : List Char}
    (h : expanded? nested c cs = some rest) : rest.length < cs.length := by
  unfold expanded? at h
  split at h
  · split at h
    · cases h
    · cases h
      simp only [List.length_cons]
      omega
  · cases h

mutual

def readPieces (stop : Stop) (cs : List Char) : List Piece × Rest cs.length :=
  match cs with
  | [] =>
    match stop.fault? with
    | some f => ([.fault f], none)
    | none => ([], some ⟨[], Nat.le_refl _⟩)
  | c :: cs =>
    if stop.stopsAt c cs then ([], some ⟨c :: cs, Nat.le_refl _⟩)
    else
      match readPiece stop c cs with
      | (p, none) => ([p], none)
      | (p, some rest) =>
        let r := readPieces stop rest.1
        (p :: r.1, r.2.weaken (Nat.le_succ_of_le rest.2))
termination_by 5 * cs.length + 1
decreasing_by
  · simp only [List.length_cons]
    omega
  · have := rest.2
    simp only [List.length_cons]
    omega

/-- Read the piece that starts with the first character, which goes on as far as characters
stand for themselves if this one does. -/
def readPiece (stop : Stop) (c : Char) (cs : List Char) : Piece × Rest cs.length :=
  if c = '$' then readReference cs
  else if c = '[' then
    let r := readCommands true cs
    (.command r.1, r.2)
  else if c = '\\' then
    (.literal [(Escape.read cs).1], some ⟨(Escape.read cs).2, Escape.read_snd_length_le cs⟩)
  else (.literal (c :: cs.takeWhile stop.isPlain),
    some ⟨cs.dropWhile stop.isPlain, (List.dropWhile_sublist _).length_le⟩)
termination_by 5 * cs.length + 3
decreasing_by
  · omega
  · omega

/-- Read a variable reference from what follows its dollar sign, which stands for itself if no
name follows. -/
def readReference (cs : List Char) : Piece × Rest cs.length :=
  match cs with
  | '{' :: ds =>
    let r := readBracedName ds
    (r.1, r.2.weaken (by simp))
  | cs =>
    if (splitName cs).1.isEmpty then (.literal ['$'], some ⟨cs, Nat.le_refl _⟩)
    else
      let name := String.ofList (splitName cs).1
      match _h : (splitName cs).2 with
      | '(' :: ds =>
        let r := readPieces .atParen ds
        (.element name r.1, (r.2.weaken (by
          have := splitName_snd_length_le cs
          rw [_h, List.length_cons] at this
          omega)).tail)
      | rest => (.variable name, some ⟨rest, by
          rw [← _h]
          exact splitName_snd_length_le cs⟩)
termination_by 5 * cs.length + 2
decreasing_by
  have := splitName_snd_length_le cs
  rw [_h, List.length_cons] at this
  omega

def readWord (nested : Bool) (c : Char) (cs : List Char) : Word × Rest cs.length :=
  match _h : expanded? nested c cs with
  | some [] => (.mk true [], some ⟨[], Nat.zero_le _⟩)
  | some (d :: ds) =>
    have hlt := expanded?_length_lt _h
    if d = '{' then
      let r := readBraced nested ds
      (.mk true r.1, r.2.weaken (by
        simp only [List.length_cons] at hlt
        omega))
    else if d = '"' then
      let r := closeQuoted nested (readPieces .atQuote ds)
      (.mk true r.1, r.2.weaken (by
        simp only [List.length_cons] at hlt
        omega))
    else
      let r := readPieces (.atWordEnd nested) (d :: ds)
      (.mk true r.1, r.2.weaken (Nat.le_of_lt hlt))
  | none =>
    if c = '{' then
      let r := readBraced nested cs
      (.mk false r.1, r.2)
    else if c = '"' then
      let r := closeQuoted nested (readPieces .atQuote cs)
      (.mk false r.1, r.2)
    else
      match readPiece (.atWordEnd nested) c cs with
      | (p, none) => (.mk false [p], none)
      | (p, some rest) =>
        let r := readPieces (.atWordEnd nested) rest.1
        (.mk false (p :: r.1), r.2.weaken rest.2)
termination_by 5 * cs.length + 4
decreasing_by
  · simp only [List.length_cons] at hlt
    omega
  · omega
  · omega
  · omega
  · have := rest.2
    omega

def readWords (nested : Bool) (cs : List Char) : List Word × Rest cs.length :=
  match _h : skipBlanks cs with
  | [] => ([], some ⟨[], Nat.zero_le _⟩)
  | c :: tail =>
    have hlt : tail.length < cs.length := by
      have := skipBlanks_length_le cs
      rw [_h, List.length_cons] at this
      omega
    if c = '\n' ∨ c = ';' then ([], some ⟨tail, Nat.le_of_lt hlt⟩)
    else if nested ∧ c = ']' then ([], some ⟨c :: tail, hlt⟩)
    else
      match readWord nested c tail with
      | (w, none) => ([w], none)
      | (w, some rest) =>
        let r := readWords nested rest.1
        (w :: r.1, r.2.weaken (Nat.le_trans rest.2 (Nat.le_of_lt hlt)))
termination_by 5 * cs.length + 2
decreasing_by
  · omega
  · have := rest.2
    omega

def readCommand (nested : Bool) (c : Char) (cs : List Char) : List Word × Rest cs.length :=
  match readWord nested c cs with
  | (w, none) => ([w], none)
  | (w, some rest) =>
    let r := readWords nested rest.1
    (w :: r.1, r.2.weaken rest.2)
termination_by 5 * cs.length + 5
decreasing_by
  · omega
  · have := rest.2
    omega

def readCommands (nested : Bool) (cs : List Char) : Script × Rest cs.length :=
  match _h : skipSeparators cs with
  | [] => if nested then ([.fault .missingBracket], none) else ([], some ⟨[], Nat.zero_le _⟩)
  | c :: tail =>
    have hlt : tail.length < cs.length := by
      have := skipSeparators_length_le cs
      rw [_h, List.length_cons] at this
      omega
    if nested ∧ c = ']' then ([], some ⟨tail, Nat.le_of_lt hlt⟩)
    else if c = '#' then
      let r := readCommands nested (skipComment tail)
      (r.1, r.2.weaken (Nat.le_trans (skipComment_length_le tail) (Nat.le_of_lt hlt)))
    else
      match readCommand nested c tail with
      | (ws, none) => ([.words ws], none)
      | (ws, some rest) =>
        let r := readCommands nested rest.1
        (.words ws :: r.1, r.2.weaken (Nat.le_trans rest.2 (Nat.le_of_lt hlt)))
termination_by 5 * cs.length + 2
decreasing_by
  · have := skipComment_length_le tail
    omega
  · omega
  · have := rest.2
    omega

end

theorem readCommands_of_nil {cs : List Char} (h : skipSeparators cs = []) :
    (readCommands false cs).1 = [] := by
  rw [readCommands]
  split
  · rfl
  · simp_all

theorem readCommands_of_comment {cs tail : List Char} (h : skipSeparators cs = '#' :: tail) :
    (readCommands false cs).1 = (readCommands false (skipComment tail)).1 := by
  rw [readCommands]
  split
  · simp_all
  · next h' =>
    cases h.symm.trans h'
    simp

/-- A command with a fault is the last one. -/
theorem readCommands_of_fault {cs tail : List Char} {c : Char} {ws : List Word}
    (h : skipSeparators cs = c :: tail) (hc : c ≠ '#')
    (hr : readCommand false c tail = (ws, none)) :
    (readCommands false cs).1 = [.words ws] := by
  rw [readCommands]
  split
  · simp_all
  · next h' =>
    cases h.symm.trans h'
    simp [hc, hr]

theorem readCommands_of_command {cs tail : List Char} {c : Char} {ws : List Word}
    {rest : { cs : List Char // cs.length ≤ tail.length }} (h : skipSeparators cs = c :: tail)
    (hc : c ≠ '#') (hr : readCommand false c tail = (ws, some rest)) :
    (readCommands false cs).1 = .words ws :: (readCommands false rest.1).1 := by
  rw [readCommands]
  split
  · simp_all
  · next h' =>
    cases h.symm.trans h'
    simp [hc, hr]

def read (text : String) : Script :=
  (readCommands false text.toList).1

def pieces (text : String) : List Piece :=
  (readPieces .atEnd text.toList).1

end TclHost.Script
