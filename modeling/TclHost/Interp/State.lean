import TclHost.Interp.Error
import TclHost.Interp.Table
/-! # The state of an interpreter

An interpreter has a frame for the global variables, a stack of call frames with the innermost
first, procedures, and the level of the evaluation that runs.  It also collects what commands print and
how long they sleep, which is all that the outside sees of a running script.
-/
namespace TclHost

/-- The variables of one procedure call, or the global ones, and local names for global
variables. -/
structure Frame where
  vars : Table String
  links : Table String

structure Parameter where
  name : String
  default? : Option String
  deriving DecidableEq, Repr

/-- A procedure.  Its body is kept as characters, which is what a call reads. -/
structure Procedure where
  params : List Parameter
  body : List Char
  deriving DecidableEq, Repr

inductive Channel where
  | stdout
  | stderr
  deriving DecidableEq, Repr

/-- A printed text, and the milliseconds that had been slept before. -/
structure Printed where
  channel : Channel
  text : String
  time : Nat
  deriving DecidableEq, Repr

/-- What scripts have done to the outside: texts printed, the newest first, and the
milliseconds slept. -/
structure Effects where
  printed : List Printed
  slept : Nat
  deriving DecidableEq, Repr

def Effects.none : Effects :=
  ⟨[], 0⟩

def Effects.print (e : Effects) (channel : Channel) (text : String) : Effects :=
  { e with printed := ⟨channel, text, e.slept⟩ :: e.printed }

def Effects.sleep (e : Effects) (duration : Nat) : Effects :=
  { e with slept := e.slept + duration }

def Printed.textOn (channel : Channel) (printed : List Printed) : String :=
  String.join ((printed.reverse.filter (·.channel = channel)).map (·.text))

structure Interp where
  /-- The frame outside of all calls. -/
  global : Frame
  frames : List Frame
  procs : Table Procedure
  effects : Effects
  /-- How many evaluations have been entered and not yet left. -/
  level : Nat

def Interp.fresh : Interp :=
  ⟨⟨∅, ∅⟩, [], ∅, .none, 0⟩

/-- How an evaluation ends if it does not end normally. -/
inductive Exit where
  | error (message : String)
  | returned (value : String)
  | broke
  | continued
  /-- A loop was cut off after its budget of rounds; no command catches this. -/
  | outOfRounds
  deriving DecidableEq, Repr

/-- An evaluation changes the state of an interpreter however it ends. -/
abbrev Eval := ExceptT Exit (StateM Interp)

def Eval.fail {α : Type} (error : CommandError) : Eval α :=
  throw (.error error.message)

def Eval.ofExcept {ε α : Type} (cause : ε → CommandError) : Except ε α → Eval α
  | .ok a => pure a
  | .error e => Eval.fail (cause e)

/-- How an evaluation ends, as the result of one that always ends normally. -/
def Eval.attempt {α : Type} (m : Eval α) : Eval (Except Exit α) :=
  fun s => let (r, s) := m s; (.ok r, s)

namespace Interp

/-- Where a variable lives, and its key there. -/
inductive Place where
  | global (key : String)
  | inner (key : String)
  deriving DecidableEq, Repr

/-- The name of an array and the index of an element with its parentheses; the index of what
is no element is empty. -/
def splitArray (name : List Char) : List Char × List Char :=
  if name.getLast? = some ')' ∧ name.contains '(' then
    (name.takeWhile (· != '('), name.dropWhile (· != '('))
  else (name, [])

def globalName? (name : String) : Option String :=
  match name.toList with
  | ':' :: ':' :: rest => some (String.ofList rest)
  | _ => none

def top (s : Interp) : Frame :=
  match s.frames with
  | [] => s.global
  | frame :: _ => frame

/-- Find a variable: a qualified name is global, a linked one goes to the global variable it
is linked to, and any other belongs to the innermost frame. -/
def place (s : Interp) (name : String) : Place :=
  match globalName? name with
  | some key => .global key
  | none =>
    let (base, index) := splitArray name.toList
    match s.top.links.get? (String.ofList base) with
    | some target => .global (target ++ String.ofList index)
    | none =>
      match s.frames with
      | [] => .global name
      | _ :: _ => .inner name

def inner (s : Interp) : Table String :=
  s.top.vars

def mapGlobals (f : Table String → Table String) (s : Interp) : Interp :=
  { s with global := { s.global with vars := f s.global.vars } }

def mapInner (f : Table String → Table String) (s : Interp) : Interp :=
  match s.frames with
  | [] => s.mapGlobals f
  | frame :: frames => { s with frames := { frame with vars := f frame.vars } :: frames }

def get? (s : Interp) (name : String) : Option String :=
  match s.place name with
  | .global key => s.global.vars.get? key
  | .inner key => s.inner.get? key

def read (s : Interp) (name : String) : Except CommandError String :=
  match s.get? name with
  | some v => .ok v
  | none => .error (.noVariableToRead name)

def set (s : Interp) (name value : String) : Interp :=
  match s.place name with
  | .global key => s.mapGlobals (·.set key value)
  | .inner key => s.mapInner (·.set key value)

/-- Giving a variable a value moves no variable to another place. -/
theorem place_set (s : Interp) (name value other : String) :
    (s.set name value).place other = s.place other := by
  rw [set]
  obtain ⟨global, frames, procs, effects, level⟩ := s
  cases place _ name with
  | global key => cases frames <;> rfl
  | inner key => cases frames <;> rfl

theorem get?_set_self (s : Interp) (name value : String) :
    (s.set name value).get? name = some value := by
  rw [get?, place_set, set]
  cases s.place name with
  | global key => simp [mapGlobals]
  | inner key =>
    obtain ⟨global, frames, procs, effects, level⟩ := s
    cases frames <;> simp [mapInner, mapGlobals, inner, top]

/-- A key is removed together with an array: the array's own name and its elements. -/
def isRemovedWith (name key : String) : Bool :=
  key == name || key.startsWith (name ++ "(") && key.endsWith ')'

/-- Remove a variable, or all elements of an array; it is an error if there is nothing. -/
def unset (s : Interp) (name : String) : Except CommandError Interp :=
  let vars := match s.place name with
    | .global _ => s.global.vars
    | .inner _ => s.inner
  let key := match s.place name with
    | .global key | .inner key => key
  if vars.keys.any (isRemovedWith key) then
    let remove (t : Table String) := t.keep fun k => !isRemovedWith key k
    match s.place name with
    | .global _ => .ok (s.mapGlobals remove)
    | .inner _ => .ok (s.mapInner remove)
  else .error (.noVariableToUnset name)

/-- Make a name of the innermost frame stand for the global variable of that name; without a
frame nothing changes. -/
def linkGlobal (s : Interp) (name : String) : Interp :=
  match s.frames with
  | [] => s
  | frame :: frames =>
    let name := (globalName? name).getD name
    { s with frames := { frame with links := frame.links.set name name } :: frames }

def pushFrame (frame : Frame) (s : Interp) : Interp :=
  { s with frames := frame :: s.frames }

def popFrame (s : Interp) : Interp :=
  { s with frames := s.frames.tail }

def enter (s : Interp) : Interp :=
  { s with level := s.level + 1 }

def leave (s : Interp) : Interp :=
  { s with level := s.level - 1 }

end Interp

def Eval.getVar (name : String) : Eval String := do
  Eval.ofExcept id ((← get).read name)

def Eval.setVar (name value : String) : Eval String := do
  modify (·.set name value)
  return value

end TclHost
