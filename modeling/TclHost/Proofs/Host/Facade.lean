import TclHost.Host.Session
/-! # Sessions as the host sees them

A host sees what a session answers to one operation after the other.  The answers are those of an
engine alone: the buffer of a handle never matters, an operation after the first release has no
effect, and the filter is applied to each error once, at the very end.
-/
namespace TclHost.Host

/-! ## Operations -/

inductive Request where
  | eval (template : String) (args : Template.Args)
  | evalBytes (script : ByteArray)
  | evalAs (template : String) (args : Template.Args) (t : HostType)

inductive Reply where
  | done
  | value (v : HostValue)

/-- What a host can do with a session. -/
inductive Operation where
  | ask (request : Request)
  | release
  | isReleased

inductive Answer where
  | evaluated (reply : Except Error Reply)
  | released
  | isReleased (b : Bool)

/-- An error passes through a filter, and nothing else does. -/
def Answer.through (filter : Error → Error) : Answer → Answer
  | evaluated reply => evaluated (reply.mapError filter)
  | released => released
  | isReleased b => isReleased b

namespace Session

def ask (s : Session) (caller : Nat) : Request → Except Error Reply × Session
  | .eval template args => ((s.eval caller template args).1.map fun _ => .done,
      (s.eval caller template args).2)
  | .evalBytes script => ((s.evalBytes caller script).1.map fun _ => .done,
      (s.evalBytes caller script).2)
  | .evalAs template args t => ((s.evalAs caller template args t).1.map .value,
      (s.evalAs caller template args t).2)

def perform (s : Session) (caller : Nat) : Operation → Answer × Session
  | .ask request => (.evaluated (s.ask caller request).1, (s.ask caller request).2)
  | .release => (.released, s.release)
  | .isReleased => (.isReleased s.isReleased, s)

/-- Do one operation after the other, each of them from a thread of its own. -/
def performAll (s : Session) : List (Nat × Operation) → List Answer × Session
  | [] => ([], s)
  | (caller, op) :: ops =>
    ((s.perform caller op).1 :: ((s.perform caller op).2.performAll ops).1,
      ((s.perform caller op).2.performAll ops).2)

theorem performAll_append (s : Session) (ops later : List (Nat × Operation)) :
    s.performAll (ops ++ later) =
      ((s.performAll ops).1 ++ ((s.performAll ops).2.performAll later).1,
        ((s.performAll ops).2.performAll later).2) := by
  induction ops generalizing s with
  | nil => rfl
  | cons op ops ih =>
    rw [List.cons_append, performAll, ih]
    rfl

end Session

/-! ## The engine alone -/

/-- What a template with arguments is evaluated as: without positional arguments it is run as it
stands, and otherwise as it is expanded. -/
def scriptOf (template : String) : Template.Args → Except Template.Error ByteArray
  | .positional [] => .ok template.toUTF8
  | args => (Template.expand template args).map String.toUTF8

namespace Engine

def evalScript (e : Engine) (script : ByteArray) : Except Error Unit × Engine :=
  if script.isEmpty then (.ok (), e)
  else
    let (status, e) := e.eval script
    (if status.isOk then .ok () else .error (.eval e.result), e)

/-- Evaluate a script and read its result, which is read only if the evaluation succeeds. -/
def evalScriptAs (e : Engine) (t : HostType) (script : ByteArray) :
    Except Error HostValue × Engine :=
  match e.evalScript script with
  | (.error error, e) => (.error error, e)
  | (.ok (), e) => e.extract e.result t

def onScript {α : Type} (e : Engine) (script : Except Template.Error ByteArray)
    (go : Engine → ByteArray → Except Error α × Engine) : Except Error α × Engine :=
  match script with
  | .error error => (.error (.template error), e)
  | .ok script => go e script

def ask (e : Engine) : Request → Except Error Reply × Engine
  | .eval template args =>
    let (r, e) := e.onScript (scriptOf template args) evalScript
    (r.map fun _ => .done, e)
  | .evalBytes script =>
    let (r, e) := e.evalScript script
    (r.map fun _ => .done, e)
  | .evalAs template args t =>
    let (r, e) := e.onScript (scriptOf template args) (evalScriptAs · t)
    (r.map .value, e)

end Engine

def Operation.afterRelease : Operation → Answer
  | ask _ => .evaluated (.error .released)
  | release => .released
  | isReleased => .isReleased true

/-- The answers of an engine that some threads may use, and the engine that is left, if it has not
been released. -/
def reference (mayUse : Nat → Bool) : Engine → List (Nat × Operation) →
    List Answer × Option Engine
  | e, [] => ([], some e)
  | e, (caller, .ask request) :: ops =>
    let (reply, e) := if mayUse caller then e.ask request else (.error .wrongThread, e)
    let (answers, left) := reference mayUse e ops
    (.evaluated reply :: answers, left)
  | e, (_, .isReleased) :: ops =>
    let (answers, left) := reference mayUse e ops
    (.isReleased false :: answers, left)
  | _, (_, .release) :: ops => (.released :: ops.map (·.2.afterRelease), none)

/-! ## A session is its engine -/

namespace Handle

def mayUse (h : Handle) (caller : Nat) : Bool :=
  !(h.bound && caller != h.thread)

theorem checkThread_eq (h : Handle) (caller : Nat) :
    h.checkThread caller = if h.mayUse caller then .ok () else .error .wrongThread := by
  cases hb : h.bound <;> by_cases hc : caller = h.thread <;> simp [checkThread, mayUse, hb, hc]

/-- What a handle gives is what is expected of its engine, whatever the buffer holds then. -/
def Gives {α : Type} (h : Handle) (result : Except Error α × Handle)
    (expected : Except Error α × Engine) : Prop :=
  ∃ buffer, result = (expected.1, { h with engine := expected.2, buffer })

variable {α β : Type} {h : Handle} {caller : Nat}

theorem Gives.map {result : Except Error α × Handle} {expected : Except Error α × Engine}
    (hgives : h.Gives result expected) (f : α → β) :
    h.Gives (result.1.map f, result.2) (expected.1.map f, expected.2) := by
  obtain ⟨buffer, rfl⟩ := hgives
  exact ⟨buffer, rfl⟩

def onTemplate (h : Handle) (caller : Nat) (template : String) (args : Template.Args)
    (act : Handle → ByteArray → Except Error α × Handle) : Except Error α × Handle :=
  if Session.isBare args then act h template.toUTF8
  else match h.expand caller template args with
    | (.error error, h) => (.error error, h)
    | (.ok (), h) => act h h.buffer

def ask (h : Handle) (caller : Nat) : Request → Except Error Reply × Handle
  | .eval template args =>
    let (r, h) := h.onTemplate caller template args (·.eval caller)
    (r.map fun _ => .done, h)
  | .evalBytes script =>
    let (r, h) := h.eval caller script
    (r.map fun _ => .done, h)
  | .evalAs template args t =>
    let (r, h) := h.onTemplate caller template args (·.evalAs caller · t)
    (r.map .value, h)

section
variable (hmay : h.mayUse caller = true)
include hmay

theorem gives_eval (script : ByteArray) :
    h.Gives (h.eval caller script) (h.engine.evalScript script) := by
  refine ⟨h.buffer, ?_⟩
  rw [eval, checkThread_eq, if_pos hmay, Engine.evalScript]
  dsimp only
  split <;> rfl

theorem gives_evalAs (t : HostType) (script : ByteArray) :
    h.Gives (h.evalAs caller script t) (h.engine.evalScriptAs t script) := by
  obtain ⟨buffer, hgives⟩ := gives_eval hmay script
  refine ⟨buffer, ?_⟩
  rw [evalAs, hgives, Engine.evalScriptAs]
  rcases h.engine.evalScript script with ⟨_ | _, e⟩ <;> rfl

/-- Whatever the buffer held, a template that can be expanded replaces it. -/
theorem expand_of_mayUse (template : String) (args : Template.Args) :
    h.expand caller template args = match Template.expand template args with
      | .error error =>
        (.error (.template error),
          { h with buffer := (Template.expandInto ByteArray.empty template args).1 })
      | .ok text => (.ok (), { h with buffer := text.toUTF8 }) := by
  rw [expand, checkThread_eq, if_pos hmay, Template.expand, Template.expandInto_bytes]
  rcases Template.expandInto "" template args with ⟨text, _ | error⟩ <;> rfl

/-- A template is run as its script, through the buffer or not. -/
theorem gives_onTemplate (template : String) (args : Template.Args)
    (act : Handle → ByteArray → Except Error α × Handle)
    (go : Engine → ByteArray → Except Error α × Engine)
    (hact : ∀ h : Handle, h.mayUse caller = true → ∀ script,
      h.Gives (act h script) (go h.engine script)) :
    h.Gives (h.onTemplate caller template args act)
      (h.engine.onScript (scriptOf template args) go) := by
  have hexpand (hbare : Session.isBare args = false) :
      h.Gives (h.onTemplate caller template args act)
        (h.engine.onScript ((Template.expand template args).map String.toUTF8) go) := by
    rw [onTemplate, if_neg (by simp [hbare]), expand_of_mayUse hmay]
    cases Template.expand template args with
    | error error => exact ⟨_, rfl⟩
    | ok text => exact hact { h with buffer := text.toUTF8 } hmay text.toUTF8
  rcases args with (_ | ⟨arg, args⟩) | map
  · exact hact h hmay template.toUTF8
  · exact hexpand rfl
  · exact hexpand rfl

theorem gives_ask (request : Request) :
    h.Gives (h.ask caller request) (h.engine.ask request) := by
  cases request with
  | eval template args =>
    exact (gives_onTemplate hmay template args (·.eval caller) Engine.evalScript
      fun _ hmay => gives_eval hmay).map _
  | evalBytes script => exact (gives_eval hmay script).map _
  | evalAs template args t =>
    exact (gives_onTemplate hmay template args (·.evalAs caller · t) (Engine.evalScriptAs · t)
      fun _ hmay => gives_evalAs hmay t).map _

end

/-- To a thread that may not use it a handle answers that, and nothing happens. -/
theorem ask_of_not_mayUse (hmay : h.mayUse caller = false) (request : Request) :
    h.ask caller request = (.error .wrongThread, h) := by
  have hthread : h.checkThread caller = .error .wrongThread := by
    rw [checkThread_eq, hmay]
    rfl
  have heval (script : ByteArray) : h.eval caller script = (.error .wrongThread, h) := by
    rw [eval, hthread]
  have hevalAs (script : ByteArray) (t : HostType) :
      h.evalAs caller script t = (.error .wrongThread, h) := by
    rw [evalAs, heval]
  have hexpand (template : String) (args : Template.Args) :
      h.expand caller template args = (.error .wrongThread, h) := by
    rw [expand, hthread]
  cases request with
  | eval template args =>
    rw [ask, onTemplate, heval, hexpand, ite_self]
    rfl
  | evalBytes script =>
    rw [ask, heval]
    rfl
  | evalAs template args t =>
    rw [ask, onTemplate, hevalAs, hexpand, ite_self]
    rfl

end Handle

namespace Session

theorem mapError_map {α β : Type} (r : Except Error α) (f : α → β) (filter : Error → Error) :
    (r.mapError filter).map f = (r.map f).mapError filter := by
  cases r <;> rfl

/-- A session that has not been released asks its handle, and the filter comes last. -/
theorem ask_eq {s : Session} {h : Handle} (hs : s.handle = some h) (caller : Nat)
    (request : Request) : s.ask caller request =
      ((h.ask caller request).1.mapError (s.filter.getD id),
        { s with handle := some (h.ask caller request).2 }) := by
  have hwith {α : Type} (f : Handle → Except Error α × Handle) : s.withHandle f =
      ((f h).1.mapError (s.filter.getD id), { s with handle := some (f h).2 }) := by
    rw [withHandle, hs]
  cases request with
  | eval template args =>
    rw [ask, eval, hwith, mapError_map]
    rfl
  | evalBytes script =>
    rw [ask, evalBytes, hwith, mapError_map]
    rfl
  | evalAs template args t =>
    rw [ask, evalAs, hwith, mapError_map]
    rfl

theorem perform_of_released {s : Session} (hs : s.handle = none) (caller : Nat)
    (op : Operation) : s.perform caller op = (op.afterRelease.through (s.filter.getD id), s) := by
  obtain ⟨handle, filter⟩ := s
  cases hs
  cases op with
  | ask request => cases request <;> rfl
  | release => rfl
  | isReleased => rfl

theorem performAll_of_released {s : Session} (hs : s.handle = none)
    (ops : List (Nat × Operation)) : s.performAll ops =
      (ops.map fun op => op.2.afterRelease.through (s.filter.getD id), s) := by
  induction ops with
  | nil => rfl
  | cons op ops ih => rw [performAll, perform_of_released hs, ih, List.map_cons]

/-- Whatever is left in the buffer of its handle, a session answers one operation after the other
as its engine alone does, with the filter over each answer, and leaves the same engine; after the
first release nothing is left. -/
theorem performAll_eq_reference (h : Handle) (filter : Option (Error → Error))
    (ops : List (Nat × Operation)) :
    ((⟨some h, filter⟩ : Session).performAll ops).1 =
        (reference h.mayUse h.engine ops).1.map (Answer.through (filter.getD id)) ∧
      ((⟨some h, filter⟩ : Session).performAll ops).2.handle.map (·.engine) =
        (reference h.mayUse h.engine ops).2 ∧
      ((⟨some h, filter⟩ : Session).performAll ops).2.filter = filter := by
  induction ops generalizing h with
  | nil => exact ⟨rfl, rfl, rfl⟩
  | cons op ops ih =>
    obtain ⟨caller, request | _ | _⟩ := op
    · rw [performAll, perform, ask_eq rfl, reference]
      cases hmay : h.mayUse caller with
      | true =>
        obtain ⟨buffer, hgives⟩ := Handle.gives_ask hmay request
        obtain ⟨hanswers, hleft, hfilter⟩ :=
          ih { h with engine := (h.engine.ask request).2, buffer }
        rw [hgives]
        exact ⟨congrArg (_ :: ·) hanswers, hleft, hfilter⟩
      | false =>
        obtain ⟨hanswers, hleft, hfilter⟩ := ih h
        rw [Handle.ask_of_not_mayUse hmay]
        exact ⟨congrArg (_ :: ·) hanswers, hleft, hfilter⟩
    · rw [performAll, perform, performAll_of_released rfl, reference, List.map_cons, List.map_map]
      exact ⟨rfl, rfl, rfl⟩
    · obtain ⟨hanswers, hleft, hfilter⟩ := ih h
      rw [performAll, perform, reference]
      exact ⟨congrArg (_ :: ·) hanswers, hleft, hfilter⟩

end Session
end TclHost.Host
