import TclHost.Host.Startup
/-! # Sessions

A session is what a host program works with: a handle that can be released once, and a filter
that every error passes through before the host sees it.
-/
namespace TclHost.Host

structure Session where
  handle : Option Handle
  filter : Option (Error → Error)

namespace Session

/-- Start a session: the session or the error, and the handle as start-up left it. -/
def start (startup : Startup) (files : Files) (rounds caller : Nat) :
    Except Error Session × Handle :=
  match startup.run files caller ⟨(Engine.create rounds).init, false, caller, .empty⟩ with
  | (.error e, h) => (.error e, h)
  | (.ok (), h) => (.ok ⟨some h, none⟩, h)

/-- Use the handle, unless it was released; an error passes through the filter. -/
def withHandle {α : Type} (s : Session) (f : Handle → Except Error α × Handle) :
    Except Error α × Session :=
  let filtered (e : Error) : Error := (s.filter.getD id) e
  match s.handle with
  | none => (.error (filtered .released), s)
  | some h =>
    let (r, h) := f h
    (r.mapError filtered, { s with handle := some h })

/-- A template without positional arguments is run as it stands. -/
def isBare : Template.Args → Bool
  | .positional args => args.isEmpty
  | .named _ => false

def eval (s : Session) (caller : Nat) (template : String) (args : Template.Args) :
    Except Error Unit × Session :=
  s.withHandle fun h =>
    if isBare args then h.eval caller template.toUTF8
    else h.evalTemplate caller template args

def evalBytes (s : Session) (caller : Nat) (script : ByteArray) : Except Error Unit × Session :=
  s.withHandle fun h => h.eval caller script

def evalAs (s : Session) (caller : Nat) (template : String) (args : Template.Args)
    (t : HostType) : Except Error HostValue × Session :=
  s.withHandle fun h =>
    if isBare args then h.evalAs caller template.toUTF8 t
    else h.evalTemplateAs caller template args t

/-- Give up the handle; what was released stays released. -/
def release (s : Session) : Session :=
  { s with handle := none }

def isReleased (s : Session) : Bool :=
  s.handle.isNone

def describe (s : Session) : String :=
  "Interpreter \x7b released: " ++ toString s.isReleased ++ ", filtered: "
    ++ toString s.filter.isSome ++ " \x7d"

end Session
end TclHost.Host
