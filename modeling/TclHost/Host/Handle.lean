import TclHost.Host.Typed
/-! # Handles

A handle owns an engine.  It knows the thread that made it, which alone may use an engine
that is bound to its thread, and keeps the bytes of the last expansion.
-/
namespace TclHost.Host

/-- An engine with the thread it belongs to and a buffer for expanded templates. -/
structure Handle where
  engine : Engine
  /-- Only the thread that made the handle may use it. -/
  bound : Bool
  thread : Nat
  buffer : ByteArray

namespace Handle

def ofReady (ready : Status × Engine) (bound : Bool) (thread : Nat) : Except Error Handle :=
  if ready.1.isOk then .ok ⟨ready.2, bound, thread, .empty⟩
  else .error (.init ready.2.result)

/-- Another thread may not use a bound handle. -/
def checkThread (h : Handle) (caller : Nat) : Except Error Unit :=
  if h.bound ∧ caller ≠ h.thread then .error .wrongThread else .ok ()

/-- Run a script; an empty one succeeds and leaves the engine alone. -/
def eval (h : Handle) (caller : Nat) (script : ByteArray) : Except Error Unit × Handle :=
  match h.checkThread caller with
  | .error e => (.error e, h)
  | .ok () =>
    if script.isEmpty then (.ok (), h)
    else
      let (status, engine) := h.engine.eval script
      (if status.isOk then .ok () else .error (.eval engine.result), { h with engine })

def evalAs (h : Handle) (caller : Nat) (script : ByteArray) (t : HostType) :
    Except Error HostValue × Handle :=
  match h.eval caller script with
  | (.error e, h) => (.error e, h)
  | (.ok (), h) =>
    let (value, engine) := h.engine.extract h.engine.result t
    (value, { h with engine })

def expand (h : Handle) (caller : Nat) (template : String) (args : Template.Args) :
    Except Error Unit × Handle :=
  match h.checkThread caller with
  | .error e => (.error e, h)
  | .ok () =>
    match Template.expandInto ByteArray.empty template args with
    | (written, none) => (.ok (), { h with buffer := written })
    | (written, some e) => (.error (.template e), { h with buffer := written })

def evalTemplate (h : Handle) (caller : Nat) (template : String) (args : Template.Args) :
    Except Error Unit × Handle :=
  match h.expand caller template args with
  | (.error e, h) => (.error e, h)
  | (.ok (), h) => h.eval caller h.buffer

def evalTemplateAs (h : Handle) (caller : Nat) (template : String) (args : Template.Args)
    (t : HostType) : Except Error HostValue × Handle :=
  match h.expand caller template args with
  | (.error e, h) => (.error e, h)
  | (.ok (), h) => h.evalAs caller h.buffer t

end Handle
end TclHost.Host
