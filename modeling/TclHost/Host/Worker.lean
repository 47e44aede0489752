import TclHost.Host.Session
/-! # Workers

A worker runs jobs on a session of its own, one after the other in the order in which they
were accepted.  Accepted jobs wait in a queue of bounded length, and a caller waits for room
in a full one.  A deadline bounds only how long the caller waits: an accepted job that misses
it still runs to its end, and later jobs wait for it; but a caller that gives up before there
was room leaves no job behind.  Time passes only where scripts sleep.
-/
namespace TclHost.Host

/-- How many accepted jobs may wait, besides the one that runs. -/
def queueCapacity : Nat := 64

/-- A session with the caller's clock and the time at which the last job ends. -/
structure Worker where
  session : Session
  now : Nat
  busyUntil : Nat
  /-- The times at which the jobs start that were waiting when the last one was accepted, the
  earliest first. -/
  starts : List Nat
  /-- What has been printed and not been taken yet, the newest first, with absolute times. -/
  printed : List Printed

namespace Worker

def effects (s : Session) : Effects :=
  (s.handle.map (·.engine.interp.effects)).getD .none

def clearEffects (s : Session) : Session :=
  { s with handle := s.handle.map fun h =>
      { h with engine := { h.engine with interp := { h.engine.interp with effects := .none } } } }

def ofSession (s : Session) : Worker :=
  let e := effects s
  ⟨clearEffects s, e.slept, e.slept, [], e.printed⟩

/-- The starts of the jobs that still wait. -/
def waiting (w : Worker) : List Nat :=
  w.starts.filter (w.now < ·)

/-- The time at which the queue has room for a job: a full one has it when the first job that
waits starts. -/
def roomAt (w : Worker) : Nat :=
  if w.waiting.length < queueCapacity then w.now else w.waiting.headD w.now

theorem now_lt_of_mem_waiting {w : Worker} {start : Nat} (h : start ∈ w.waiting) :
    w.now < start := by
  simpa using (List.mem_filter.1 h).2

/-- Room for a job is there now or later. -/
theorem now_le_roomAt (w : Worker) : w.now ≤ w.roomAt := by
  unfold roomAt
  split
  · exact Nat.le_refl _
  · cases h : w.waiting with
    | nil => exact Nat.le_refl _
    | cons start rest => exact Nat.le_of_lt (now_lt_of_mem_waiting (by simp [h]))

/-- Run an accepted job.  The answer comes with the time at which the job ends; the caller's
clock stands still. -/
def run {α : Type} (w : Worker) (job : Session → Except Error α × Session) :
    Except Error α × Nat × Worker :=
  let (answer, session) := job w.session
  let e := effects session
  let start := max w.roomAt w.busyUntil
  let finish := start + e.slept
  let printed := e.printed.map (fun p => { p with time := start + p.time }) ++ w.printed
  (answer, finish, ⟨clearEffects session, w.now, finish, w.waiting ++ [start], printed⟩)

/-- Ask for a job, and wait for its answer at most as long as the deadline says. -/
def call {α : Type} (w : Worker) (deadline : Option Nat)
    (job : Session → Except Error α × Session) : Except Error α × Worker :=
  match deadline with
  | none =>
    let (answer, finish, w) := w.run job
    (answer, { w with now := finish })
  | some d =>
    let limit := w.now + d
    if w.now < w.roomAt ∧ limit ≤ w.roomAt then (.error (.timeout d), { w with now := limit })
    else
      let (answer, finish, w) := w.run job
      if finish < limit then (answer, { w with now := finish })
      else (.error (.timeout d), { w with now := limit })

def takePrinted (w : Worker) : List Printed × Worker :=
  (w.printed.filter (·.time ≤ w.now), { w with printed := w.printed.filter (w.now < ·.time) })

def shutdown (w : Worker) : Worker :=
  { w with now := max w.now w.busyUntil }

end Worker
end TclHost.Host
