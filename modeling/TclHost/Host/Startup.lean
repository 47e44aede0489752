import TclHost.Host.Handle
/-! # Start-up

Before an interpreter is handed out it runs the start-up file, if there is one, and then the
initial script.  The environment may name the file; otherwise it is looked for in the home
directory and then in the configuration directory.
-/
namespace TclHost.Host

structure Startup where
  initScript : String
  rcFile : Option String
  deriving DecidableEq, Repr

structure Environment where
  home : String
  configHome : Option String
  initScript : Option String
  rcFile : Option String
  deriving DecidableEq, Repr

def Environment.configDir (e : Environment) : String :=
  e.configHome.getD (joinPath e.home ".config")

/-- The places for a start-up file of the user, the preferred one first. -/
def Environment.rcCandidates (e : Environment) : List String :=
  [joinPath e.home ".tclshrc", joinPath (joinPath e.configDir "tclbind") "init.tcl"]

def Environment.userRc (e : Environment) (files : Files) : Option String :=
  e.rcCandidates.find? files.isFile

/-- The start-up that the environment asks for; an empty name means no start-up file. -/
def Startup.ofEnvironment (e : Environment) (files : Files) : Startup where
  initScript := e.initScript.getD ""
  rcFile := match e.rcFile with
    | some path => if path.isEmpty then none else some path
    | none => e.userRc files

def Startup.loadRc (s : Startup) (files : Files) : Except Error (Option String) :=
  match s.rcFile with
  | none => .ok none
  | some path =>
    match files.read path with
    | .ok text => .ok (some text)
    | .error e => .error (.config path e)

def Startup.run (s : Startup) (files : Files) (caller : Nat) (h : Handle) :
    Except Error Unit × Handle :=
  match s.loadRc files with
  | .error e => (.error e, h)
  | .ok rc =>
    match h.eval caller (rc.getD "").toUTF8 with
    | (.error e, h) => (.error e, h)
    | (.ok (), h) => h.eval caller s.initScript.toUTF8

end TclHost.Host
