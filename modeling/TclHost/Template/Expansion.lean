import TclHost.Template.Verb
/-! # Expanding templates

A template is text with placeholders between `%\{` and the next closing brace.  A placeholder
names its argument, by nothing, by an index or by a key, and may give a directive.  Inserted
text is never searched for placeholders.
-/
namespace TclHost.Template

open Text

inductive Error where
  /-- A placeholder without an end; the text from its start on. -/
  | unterminated (tail : String)
  | implicitWithNamed
  | noArgument (index given : Nat)
  | positionalWithNamed (name : String)
  | indexTooLarge (name : String)
  | indexOutOfRange (index given : Nat)
  | missingName (name : String)
  | namedWithPositional (name : String) (given : Nat)
  | verb (error : VerbError)
  deriving DecidableEq, Repr

private def placeholderText (name : String) : String :=
  "%\x7b" ++ name ++ "\x7d"

def Error.message : Error → String
  | .unterminated tail => "unterminated placeholder starting at \"" ++ tail ++ "\""
  | .implicitWithNamed =>
    "implicit placeholder " ++ placeholderText "" ++ " cannot be used with named arguments"
  | .noArgument index given =>
    "implicit placeholder #" ++ toString index ++ " has no argument (" ++ toString given
      ++ " given)"
  | .positionalWithNamed name =>
    "positional placeholder " ++ placeholderText name
      ++ " cannot be used with named arguments"
  | .indexTooLarge name => "argument index " ++ name ++ " is too large"
  | .indexOutOfRange index given =>
    "argument index " ++ toString index ++ " out of range (" ++ toString given ++ " given)"
  | .missingName name => "missing named argument \"" ++ name ++ "\""
  | .namedWithPositional name given =>
    "named placeholder " ++ placeholderText name
      ++ " requires a single ArgMap argument, got " ++ toString given ++ " positional"
  | .verb error => error.message

inductive Piece where
  | literal (c : Char)
  /-- The name of an argument, and the directive from its percent sign on. -/
  | placeholder (name : List Char) (directive : Option (List Char))
  | unterminated (tail : List Char)
  deriving DecidableEq, Repr

def Piece.ofBody (body : List Char) : Piece :=
  match body.dropWhile (· != '%') with
  | [] => .placeholder body none
  | directive => .placeholder (body.takeWhile (· != '%')) (some directive)

def pieces (template : List Char) : List Piece :=
  match template with
  | '%' :: '{' :: cs =>
    match _h : cs.dropWhile (· != '}') with
    | [] => [.unterminated template]
    | _ :: rest => .ofBody (cs.takeWhile (· != '}')) :: pieces rest
  | c :: cs => .literal c :: pieces cs
  | [] => []
termination_by template.length
decreasing_by
  · have := (List.dropWhile_sublist (· != '}') (l := cs)).length_le
    rw [_h] at this
    simp only [List.length_cons] at this ⊢
    omega
  · simp

/-- The argument that a name stands for.  No name stands for the next argument of the implicit
counter, which only such placeholders move. -/
def resolve (name : String) (args : Args) (counter : Nat) : Except Error (Arg × Nat) :=
  if name.isEmpty then
    match args with
    | .named _ => .error .implicitWithNamed
    | .positional list =>
      match list[counter]? with
      | some arg => .ok (arg, counter + 1)
      | none => .error (.noArgument counter list.length)
  else if name.toList.all isAsciiDigit then
    match args with
    | .named _ => .error (.positionalWithNamed name)
    | .positional list =>
      let index := numeral 10 name.toList
      if 2 ^ 64 ≤ index then .error (.indexTooLarge name)
      else match list[index]? with
        | some arg => .ok (arg, counter)
        | none => .error (.indexOutOfRange index list.length)
  else
    match args with
    | .named map =>
      match map.lookup name with
      | some arg => .ok (arg, counter)
      | none => .error (.missingName name)
    | .positional list => .error (.namedWithPositional name list.length)

/-- The text of an argument under a directive.  The default form and the quoted one are written
directly. -/
def insertion (directive : Option String) (arg : Arg) : Except Error String :=
  match directive with
  | none | some "%v" => .ok arg.text
  | some "%q" => .ok (quote arg.text)
  | some source =>
    match applyDirective source arg with
    | .ok s => .ok s
    | .error e => .error (.verb e)

/-- What texts are appended to. -/
class Buffer (β : Type) where
  append : β → String → β
  append_empty (written : β) : append written "" = written
  append_append (written : β) (s t : String) :
    append (append written s) t = append written (s ++ t)

instance : Buffer String where
  append written s := written ++ s
  append_empty _ := String.append_empty
  append_append _ _ _ := String.append_assoc

@[simp] theorem Buffer.append_string (s t : String) : Buffer.append s t = s ++ t :=
  rfl

/-- Bytes need not be those of a text. -/
instance : Buffer ByteArray where
  append written s := written ++ s.toUTF8
  append_empty _ := ByteArray.append_empty
  append_append written s t := by
    simp only [String.toUTF8_eq_toByteArray, String.toByteArray_append, ByteArray.append_assoc]

variable {β : Type} [Buffer β]

def expandPieces (args : Args) (counter : Nat) (written : β) : List Piece → β × Option Error
  | [] => (written, none)
  | .literal c :: rest => expandPieces args counter (Buffer.append written c.toString) rest
  | .unterminated tail :: _ => (written, some (.unterminated (String.ofList tail)))
  | .placeholder name directive :: rest =>
    match resolve (String.ofList name) args counter with
    | .error e => (written, some e)
    | .ok (arg, counter) =>
      match insertion (directive.map String.ofList) arg with
      | .error e => (written, some e)
      | .ok s => expandPieces args counter (Buffer.append written s) rest

/-- Append the expansion of a template.  After an error the buffer holds what stands to the left of
the piece at fault. -/
def expandInto (written : β) (template : String) (args : Args) : β × Option Error :=
  expandPieces args 0 written (pieces template.toList)

theorem expandPieces_append (args : Args) (counter : Nat) (written : β) (s : String)
    (ps : List Piece) : expandPieces args counter (Buffer.append written s) ps =
      (expandPieces args counter s ps).map (Buffer.append written) id := by
  induction ps generalizing counter s with
  | nil => rfl
  | cons p ps ih =>
    cases p with
    | literal c =>
      rw [expandPieces, expandPieces, Buffer.append_append]
      exact ih ..
    | unterminated tail => rfl
    | placeholder name directive =>
      rw [expandPieces, expandPieces]
      cases resolve (String.ofList name) args counter with
      | error e => rfl
      | ok r =>
        dsimp only
        cases insertion (directive.map String.ofList) r.1 with
        | error e => rfl
        | ok s =>
          dsimp only
          rw [Buffer.append_append]
          exact ih ..

/-- What was written before stays in front of the expansion and has no part in it. -/
theorem expandInto_eq (written : β) (template : String) (args : Args) :
    expandInto written template args =
      (expandInto "" template args).map (Buffer.append written) id := by
  rw [expandInto, expandInto, ← expandPieces_append, Buffer.append_empty]

theorem expandInto_bytes (template : String) (args : Args) :
    expandInto ByteArray.empty template args =
      (expandInto "" template args).map String.toUTF8 id := by
  have happend : (Buffer.append ByteArray.empty : String → ByteArray) = String.toUTF8 :=
    funext fun _ => ByteArray.empty_append
  rw [expandInto_eq, happend]

def expand (template : String) (args : Args) : Except Error String :=
  match expandInto "" template args with
  | (s, none) => .ok s
  | (_, some e) => .error e

end TclHost.Template
