import Mathlib.Data.List.Nodup
import Mathlib.Logic.Relation
import TclHost.Host.Worker
import TclHost.Proofs.Host.Facade
/-! # Calls of a worker

Callers ask a worker at any time and in any order.  A call waits for room in the queue, its job is
accepted, waits in the queue, runs, and is answered.  A caller with a deadline may give up at any
moment on the way.  A job that has been accepted runs to its end all the same, once and in its turn;
a call that gives up while it waits for room never becomes a job.
-/
namespace TclHost.Host

/-! ## The exchange -/

structure Call where
  request : Request
  deadline? : Option Nat

inductive Outcome where
  | reply (reply : Except Error Reply)
  | timedOut (deadline : Nat)

/-- What has passed between the callers and a worker.  A call is known by its place among all
calls. -/
structure Exchange where
  calls : List Call
  /-- The calls that wait for room in the queue. -/
  waiting : List Nat
  /-- The calls whose jobs have been accepted so far, in that order. -/
  accepted : List Nat
  queue : List Nat
  running : Option Nat
  /-- The calls whose jobs have been run, and what they were answered. -/
  finished : List (Nat × Except Error Reply)
  /-- The calls that have returned to their callers. -/
  returned : List (Nat × Outcome)
  session : Session

namespace Exchange

def start (s : Session) : Exchange :=
  ⟨[], [], [], [], none, [], [], s⟩

/-- A step towards the end of a call that has been made: a call that waits finds room, or the
worker takes a job from the queue, or the one that it runs comes to its end. -/
inductive Work (worker : Nat) : Exchange → Exchange → Prop
  | accept {x : Exchange} {n : Nat} (hwaits : n ∈ x.waiting)
    (hroom : x.queue.length < queueCapacity) :
    Work worker x { x with
      waiting := x.waiting.erase n, accepted := x.accepted ++ [n], queue := x.queue ++ [n] }
  | take {x : Exchange} {n : Nat} {rest : List Nat} (hidle : x.running = none)
    (hqueue : x.queue = n :: rest) :
    Work worker x { x with queue := rest, running := some n }
  | finish {x : Exchange} {n : Nat} {c : Call} (hrunning : x.running = some n)
    (hcall : x.calls[n]? = some c) :
    Work worker x { x with
      running := none
      finished := x.finished ++ [(n, (x.session.ask worker c.request).1)]
      session := (x.session.ask worker c.request).2 }

/-- A step of the worker or of a caller.  Who has a deadline may give up before the job has been
accepted, while it waits or runs, and even when it has been answered. -/
inductive Step (worker : Nat) : Exchange → Exchange → Prop
  | work {x y : Exchange} : Work worker x y → Step worker x y
  | call (x : Exchange) (c : Call) :
    Step worker x { x with
      calls := x.calls ++ [c], waiting := x.waiting ++ [x.calls.length] }
  | receive {x : Exchange} {n : Nat} {r : Except Error Reply} (hanswer : (n, r) ∈ x.finished)
    (hopen : n ∉ x.returned.map (·.1)) :
    Step worker x { x with returned := x.returned ++ [(n, .reply r)] }
  | giveUp {x : Exchange} {n d : Nat} {c : Call} (hcall : x.calls[n]? = some c)
    (hdeadline : c.deadline? = some d) (hopen : n ∉ x.returned.map (·.1)) :
    Step worker x { x with
      waiting := x.waiting.erase n, returned := x.returned ++ [(n, .timedOut d)] }

/-- What can have passed with a worker that began with a session. -/
def Reachable (worker : Nat) (s : Session) (x : Exchange) : Prop :=
  Relation.ReflTransGen (Step worker) (start s) x

/-- The requests of calls, as a session is asked them by the worker. -/
def operations (worker : Nat) (calls : List Call) (ns : List Nat) : List (Nat × Operation) :=
  ns.filterMap fun n => calls[n]?.map fun c => (worker, .ask c.request)

theorem operations_append (worker : Nat) (calls : List Call) (ns ms : List Nat) :
    operations worker calls (ns ++ ms) =
      operations worker calls ns ++ operations worker calls ms :=
  List.filterMap_append

theorem operations_singleton (worker : Nat) {calls : List Call} {n : Nat} {c : Call}
    (h : calls[n]? = some c) : operations worker calls [n] = [(worker, .ask c.request)] := by
  simp [operations, h]

theorem operations_append_calls {worker : Nat} {calls : List Call} {ns : List Nat}
    (h : ∀ n ∈ ns, n < calls.length) (later : List Call) :
    operations worker (calls ++ later) ns = operations worker calls ns := by
  apply List.filterMap_congr
  intro n hn
  rw [List.getElem?_append_left (h n hn)]

/-! ## What every step preserves -/

/-- What is true of an exchange at all times. -/
structure Sound (worker : Nat) (s : Session) (x : Exchange) : Prop where
  order : x.accepted = x.finished.map (·.1) ++ (x.running.toList ++ x.queue)
  nodup : (x.accepted ++ x.waiting).Nodup
  known : ∀ n ∈ x.accepted ++ x.waiting, n < x.calls.length
  room : x.queue.length ≤ queueCapacity
  /-- The worker answers as a session that is asked by nobody else. -/
  answered : s.performAll (operations worker x.calls (x.finished.map (·.1))) =
    (x.finished.map fun f => .evaluated f.2, x.session)
  once : (x.returned.map (·.1)).Nodup
  replied : ∀ n r, (n, .reply r) ∈ x.returned → (n, r) ∈ x.finished
  timedOut : ∀ n d, (n, .timedOut d) ∈ x.returned →
    n ∉ x.waiting ∧ x.calls[n]?.bind (·.deadline?) = some d
  /-- A call that is neither a job nor waits has given up. -/
  unlost : ∀ n < x.calls.length, n ∈ x.accepted ++ x.waiting ∨
    ∃ d, (n, .timedOut d) ∈ x.returned

theorem sound_start (worker : Nat) (s : Session) : (start s).Sound worker s where
  order := rfl
  nodup := List.nodup_nil
  known _ hn := absurd hn List.not_mem_nil
  room := Nat.zero_le _
  answered := rfl
  once := List.nodup_nil
  replied _ _ h := absurd h List.not_mem_nil
  timedOut _ _ h := absurd h List.not_mem_nil
  unlost n h := absurd h (Nat.not_lt_zero n)

variable {worker : Nat} {s : Session} {x y : Exchange}

/-- A job that is accepted moves from those that wait to the end of the accepted ones. -/
theorem accept_perm {n : Nat} (h : n ∈ x.waiting) :
    (x.accepted ++ [n] ++ x.waiting.erase n).Perm (x.accepted ++ x.waiting) := by
  rw [List.append_assoc]
  exact (List.perm_cons_erase h).symm.append_left x.accepted

/-- Work changes neither the calls nor what has been returned, and no job appears or gets lost. -/
theorem Work.keeps (h : Work worker x y) : y.calls = x.calls ∧ y.returned = x.returned ∧
    (y.accepted ++ y.waiting).Perm (x.accepted ++ x.waiting) := by
  cases h with
  | accept hwaits => exact ⟨rfl, rfl, accept_perm hwaits⟩
  | take => exact ⟨rfl, rfl, .rfl⟩
  | finish => exact ⟨rfl, rfl, .rfl⟩

/-- One more job is answered as the session answers that has been asked for the others. -/
theorem answered_finish {n : Nat} {c : Call} (hcall : x.calls[n]? = some c)
    (h : s.performAll (operations worker x.calls (x.finished.map (·.1))) =
      (x.finished.map fun f => .evaluated f.2, x.session)) :
    s.performAll (operations worker x.calls
        ((x.finished ++ [(n, (x.session.ask worker c.request).1)]).map (·.1))) =
      ((x.finished ++ [(n, (x.session.ask worker c.request).1)]).map fun f => .evaluated f.2,
        (x.session.ask worker c.request).2) := by
  rw [List.map_append, List.map_append, operations_append, Session.performAll_append, h,
    List.map_singleton, List.map_singleton, operations_singleton worker hcall]
  rfl

theorem Sound.work (hx : x.Sound worker s) (h : Work worker x y) : y.Sound worker s := by
  obtain ⟨hcalls, hreturned, hperm⟩ := h.keeps
  have hmem (n : Nat) := hperm.mem_iff (a := n)
  have hwaiting (n : Nat) (hn : n ∈ y.waiting) : n ∈ x.waiting := by
    cases h with
    | accept => exact List.mem_of_mem_erase hn
    | take => exact hn
    | finish => exact hn
  have hfinished (f : Nat × Except Error Reply) (hf : f ∈ x.finished) : f ∈ y.finished := by
    cases h with
    | accept => exact hf
    | take => exact hf
    | finish => exact List.mem_append_left _ hf
  refine ⟨?_, hperm.nodup_iff.mpr hx.nodup, ?_, ?_, ?_, hreturned ▸ hx.once, ?_, ?_, ?_⟩
  · cases h with
    | accept => simp [hx.order]
    | take hidle hqueue => simp [hx.order, hidle, hqueue]
    | finish hrunning => simp [hx.order, hrunning]
  · intro n hn
    rw [hcalls]
    exact hx.known n ((hmem n).mp hn)
  · cases h with
    | accept hwaits hroom => simpa using Nat.succ_le_of_lt hroom
    | take hidle hqueue =>
      have hroom := hx.room
      rw [hqueue, List.length_cons] at hroom
      exact Nat.le_of_succ_le hroom
    | finish => exact hx.room
  · cases h with
    | accept => exact hx.answered
    | take => exact hx.answered
    | finish hrunning hcall => exact answered_finish hcall hx.answered
  · intro n r hn
    exact hfinished _ (hx.replied n r (hreturned ▸ hn))
  · intro n d hn
    obtain ⟨hout, hdeadline⟩ := hx.timedOut n d (hreturned ▸ hn)
    exact ⟨fun hin => hout (hwaiting n hin), hcalls ▸ hdeadline⟩
  · intro n hn
    rw [hmem, hreturned]
    exact hx.unlost n (hcalls ▸ hn)

theorem Sound.finished_lt (hx : x.Sound worker s) {n : Nat} (hn : n ∈ x.finished.map (·.1)) :
    n < x.calls.length := by
  apply hx.known
  rw [hx.order, List.append_assoc]
  exact List.mem_append_left _ hn

theorem Sound.timedOut_lt (hx : x.Sound worker s) {n d : Nat}
    (hn : (n, .timedOut d) ∈ x.returned) : n < x.calls.length := by
  obtain ⟨-, hdeadline⟩ := hx.timedOut n d hn
  by_contra hlength
  simp [List.getElem?_eq_none (Nat.not_lt.mp hlength)] at hdeadline

theorem Sound.length_notMem_returned (hx : x.Sound worker s) :
    x.calls.length ∉ x.returned.map (·.1) := by
  intro hmem
  obtain ⟨⟨n, outcome⟩, hn, hlength⟩ := List.mem_map.mp hmem
  apply Nat.ne_of_lt _ hlength
  cases outcome with
  | reply r => exact hx.finished_lt (List.mem_map_of_mem (hx.replied n r hn))
  | timedOut d => exact hx.timedOut_lt hn

theorem Sound.call (hx : x.Sound worker s) (c : Call) :
    ({ x with calls := x.calls ++ [c], waiting := x.waiting ++ [x.calls.length] } :
      Exchange).Sound worker s := by
  have hnew : x.calls.length ∉ x.accepted ++ x.waiting :=
    fun hn => Nat.lt_irrefl _ (hx.known _ hn)
  refine ⟨hx.order, ?_, ?_, hx.room, ?_, hx.once, hx.replied, ?_, ?_⟩
  · rw [← List.append_assoc, ← List.concat_eq_append]
    exact hx.nodup.concat hnew
  · intro n hn
    rw [← List.append_assoc, List.mem_append, List.mem_singleton] at hn
    rw [List.length_append, List.length_singleton]
    rcases hn with hn | rfl
    · exact Nat.lt_succ_of_lt (hx.known n hn)
    · exact Nat.lt_succ_self _
  · rw [operations_append_calls fun _ => hx.finished_lt]
    exact hx.answered
  · intro n d hn
    obtain ⟨hout, hdeadline⟩ := hx.timedOut n d hn
    have hn := hx.timedOut_lt hn
    rw [List.mem_append, List.mem_singleton, List.getElem?_append_left hn]
    exact ⟨by simp [hout, Nat.ne_of_lt hn], hdeadline⟩
  · intro n hn
    rw [List.length_append, List.length_singleton] at hn
    rw [← List.append_assoc, List.mem_append, List.mem_singleton]
    rcases Nat.lt_succ_iff_lt_or_eq.mp hn with hn | rfl
    · exact (hx.unlost n hn).imp_left .inl
    · exact .inl (.inr rfl)

theorem Sound.giveUp (hx : x.Sound worker s) {n d : Nat} {c : Call}
    (hcall : x.calls[n]? = some c) (hdeadline : c.deadline? = some d)
    (hopen : n ∉ x.returned.map (·.1)) :
    ({ x with
      waiting := x.waiting.erase n, returned := x.returned ++ [(n, .timedOut d)] } :
      Exchange).Sound worker s := by
  have hwaiting : x.waiting.Nodup := (List.nodup_append.mp hx.nodup).2.1
  have herase : (x.accepted ++ x.waiting.erase n).Sublist (x.accepted ++ x.waiting) :=
    (List.erase_sublist).append_left _
  refine ⟨hx.order, hx.nodup.sublist herase, fun m hm => hx.known m (herase.subset hm), hx.room,
    hx.answered, ?_, ?_, ?_, ?_⟩
  · rw [List.map_append, List.map_singleton, ← List.concat_eq_append]
    exact hx.once.concat hopen
  · intro m r hm
    exact hx.replied m r (by simpa using hm)
  · intro m d' hm
    rcases List.mem_append.mp hm with hm | hm
    · obtain ⟨hout, hdeadline⟩ := hx.timedOut m d' hm
      exact ⟨fun hin => hout (List.mem_of_mem_erase hin), hdeadline⟩
    · obtain ⟨rfl, rfl⟩ : m = n ∧ d' = d := by simpa using hm
      exact ⟨hwaiting.not_mem_erase, by simp [hcall, hdeadline]⟩
  · intro m hm
    by_cases hmn : m = n
    · exact .inr ⟨d, by simp [hmn]⟩
    · rcases hx.unlost m hm with hin | ⟨d', hin⟩
      · left
        rwa [List.mem_append, List.mem_erase_of_ne hmn, ← List.mem_append]
      · exact .inr ⟨d', List.mem_append_left _ hin⟩

theorem Sound.step (hx : x.Sound worker s) (h : Step worker x y) : y.Sound worker s := by
  cases h with
  | work h => exact hx.work h
  | call c => exact hx.call c
  | receive hanswer hopen =>
    refine ⟨hx.order, hx.nodup, hx.known, hx.room, hx.answered, ?_, ?_, ?_, ?_⟩
    · rw [List.map_append, List.map_singleton, ← List.concat_eq_append]
      exact hx.once.concat hopen
    · intro m r hm
      rcases List.mem_append.mp hm with hm | hm
      · exact hx.replied m r hm
      · obtain ⟨rfl, rfl⟩ : m = _ ∧ r = _ := by simpa using hm
        exact hanswer
    · intro m d hm
      exact hx.timedOut m d (by simpa using hm)
    · intro m hm
      exact (hx.unlost m hm).imp_right fun ⟨d, hd⟩ => ⟨d, List.mem_append_left _ hd⟩
  | giveUp hcall hdeadline hopen => exact hx.giveUp hcall hdeadline hopen

theorem Reachable.sound (h : Reachable worker s x) : x.Sound worker s := by
  induction h with
  | refl => exact sound_start worker s
  | tail _ hstep ih => exact ih.step hstep

theorem Reachable.work (h : Reachable worker s x)
    (hwork : Relation.ReflTransGen (Work worker) x y) : Reachable worker s y :=
  .trans h (hwork.lift id fun _ _ => Step.work)

/-! ## Where work leads -/

/-- How much is left to do: a call that waits still has to be accepted, taken and run. -/
def remaining (x : Exchange) : Nat :=
  3 * x.waiting.length + 2 * x.queue.length + x.running.toList.length

theorem Work.remaining_lt (h : Work worker x y) : y.remaining < x.remaining := by
  cases h with
  | accept hwaits =>
    have hlength := List.length_erase_of_mem hwaits
    have hpos := List.length_pos_of_mem hwaits
    simp only [remaining, List.length_append, List.length_singleton, hlength]
    omega
  | take hidle hqueue =>
    simp only [remaining, hidle, hqueue, List.length_cons, Option.toList_none, Option.toList_some,
      List.length_nil]
    omega
  | finish hrunning =>
    simp only [remaining, hrunning, Option.toList_none, Option.toList_some, List.length_cons,
      List.length_nil]
    omega

def IsIdle (x : Exchange) : Prop :=
  x.waiting = [] ∧ x.queue = [] ∧ x.running = none

theorem Sound.exists_work (hx : x.Sound worker s) (hidle : ¬x.IsIdle) : ∃ y, Work worker x y := by
  cases hrunning : x.running with
  | some n =>
    have hn : n < x.calls.length := by
      apply hx.known
      simp [hx.order, hrunning]
    exact ⟨_, .finish hrunning (List.getElem?_eq_getElem hn)⟩
  | none =>
    cases hqueue : x.queue with
    | cons n rest => exact ⟨_, .take hrunning hqueue⟩
    | nil =>
      obtain ⟨n, hn⟩ : ∃ n, n ∈ x.waiting := by
        apply List.exists_mem_of_ne_nil
        exact fun hwaiting => hidle ⟨hwaiting, hqueue, hrunning⟩
      exact ⟨_, .accept hn (by simp [hqueue, queueCapacity])⟩

/-- Work alone comes to an end, with everything done that was accepted or waited for room. -/
theorem Sound.exists_idle (hx : x.Sound worker s) :
    ∃ y, Relation.ReflTransGen (Work worker) x y ∧ y.Sound worker s ∧ y.IsIdle ∧
      y.calls = x.calls ∧ y.returned = x.returned ∧
      (y.finished.map (·.1)).Perm (x.accepted ++ x.waiting) := by
  induction hremaining : x.remaining using Nat.strongRecOn generalizing x with
  | ind k ih =>
    by_cases hidle : x.IsIdle
    · refine ⟨x, .refl, hx, hidle, rfl, rfl, ?_⟩
      obtain ⟨hwaiting, hqueue, hrunning⟩ := hidle
      simp [hx.order, hwaiting, hqueue, hrunning]
    · obtain ⟨z, hz⟩ := hx.exists_work hidle
      obtain ⟨hcalls, hreturned, hperm⟩ := hz.keeps
      obtain ⟨y, hwork, hy, hend, hcalls', hreturned', hperm'⟩ :=
        ih z.remaining (hremaining ▸ hz.remaining_lt) (hx.work hz) rfl
      exact ⟨y, .head hz hwork, hy, hend, hcalls'.trans hcalls, hreturned'.trans hreturned,
        hperm'.trans hperm⟩

theorem Sound.accepted_of_timedOut (hx : x.Sound worker s) {n d : Nat}
    (hn : (n, .timedOut d) ∈ x.returned) (h : Step worker x y) :
    (n, .timedOut d) ∈ y.returned ∧ (n ∈ y.accepted ↔ n ∈ x.accepted) := by
  obtain ⟨hout, -⟩ := hx.timedOut n d hn
  cases h with
  | work h =>
    obtain ⟨-, hreturned, -⟩ := h.keeps
    refine ⟨hreturned ▸ hn, ?_⟩
    cases h with
    | accept hwaits =>
      have hne : n ≠ _ := fun heq => hout (heq ▸ hwaits)
      simp [hne]
    | take => rfl
    | finish => rfl
  | call => exact ⟨hn, .rfl⟩
  | receive => exact ⟨List.mem_append_left _ hn, .rfl⟩
  | giveUp => exact ⟨List.mem_append_left _ hn, .rfl⟩

theorem Reachable.accepted_of_timedOut (hx : Reachable worker s x) {n d : Nat}
    (hn : (n, .timedOut d) ∈ x.returned) (h : Relation.ReflTransGen (Step worker) x y) :
    (n, .timedOut d) ∈ y.returned ∧ (n ∈ y.accepted ↔ n ∈ x.accepted) := by
  induction h with
  | refl => exact ⟨hn, .rfl⟩
  | tail hsteps hstep ih =>
    obtain ⟨hn, hsame⟩ := ih
    have hsound : Sound worker s _ := Reachable.sound (.trans hx hsteps)
    obtain ⟨hn, hsame'⟩ := hsound.accepted_of_timedOut hn hstep
    exact ⟨hn, hsame'.trans hsame⟩

def Holds (x : Exchange) (n : Nat) : Prop :=
  n ∈ x.queue ∨ x.running = some n ∨ n ∈ x.finished.map (·.1)

theorem Sound.holds_iff (hx : x.Sound worker s) (n : Nat) : x.Holds n ↔ n ∈ x.accepted := by
  rw [hx.order, Holds]
  simp only [List.mem_append, Option.mem_toList]
  tauto

/-- A call has been accepted or waits unless it has given up before it was accepted. -/
theorem Sound.mem_accepted_or_waiting_iff (hx : x.Sound worker s) (n : Nat) :
    n ∈ x.accepted ++ x.waiting ↔ n < x.calls.length ∧
      ((∃ d, (n, .timedOut d) ∈ x.returned) → n ∈ x.accepted) := by
  constructor
  · intro hn
    refine ⟨hx.known n hn, fun ⟨d, hd⟩ => ?_⟩
    exact (List.mem_append.mp hn).resolve_right (hx.timedOut n d hd).1
  · rintro ⟨hn, hgone⟩
    rcases hx.unlost n hn with hin | hd
    · exact hin
    · exact List.mem_append_left _ (hgone hd)

/-- Whatever the callers do, the jobs that a worker has accepted are run once each and in the order
in which they were accepted, and answered as a single session answers them in that order.  A call
that has given up has its job in the queue, running or finished from then on if that had been
accepted; if it had not, it never will be.  What is left to do comes to an end without the callers,
and then every call has been run except those that gave up before they were accepted. -/
theorem Reachable.accepted_run_once (h : Reachable worker s x) :
    x.accepted = x.finished.map (·.1) ++ (x.running.toList ++ x.queue) ∧ x.accepted.Nodup ∧
    x.queue.length ≤ queueCapacity ∧
    s.performAll (operations worker x.calls (x.finished.map (·.1))) =
      (x.finished.map fun f => .evaluated f.2, x.session) ∧
    (∀ n r, (n, .reply r) ∈ x.returned → (n, r) ∈ x.finished) ∧
    (∀ n d, (n, .timedOut d) ∈ x.returned → ∀ y, Relation.ReflTransGen (Step worker) x y →
      (y.Holds n ↔ n ∈ x.accepted)) ∧
    ∃ y, Relation.ReflTransGen (Work worker) x y ∧ y.IsIdle ∧ y.returned = x.returned ∧
      (y.finished.map (·.1)).Nodup ∧
      (∀ n, n ∈ y.finished.map (·.1) ↔ n < x.calls.length ∧
        ((∃ d, (n, .timedOut d) ∈ x.returned) → n ∈ x.accepted)) ∧
      y.session = (s.performAll (operations worker x.calls (y.finished.map (·.1)))).2 := by
  have hx := h.sound
  refine ⟨hx.order, (List.nodup_append.mp hx.nodup).1, hx.room, hx.answered, hx.replied, ?_, ?_⟩
  · intro n d hn y hy
    rw [(Reachable.sound (.trans h hy)).holds_iff n]
    exact (h.accepted_of_timedOut hn hy).2
  · obtain ⟨y, hwork, hy, hidle, hcalls, hreturned, hperm⟩ := hx.exists_idle
    refine ⟨y, hwork, hidle, hreturned, ?_, ?_, ?_⟩
    · exact hperm.nodup_iff.mpr hx.nodup
    · intro n
      rw [hperm.mem_iff, hx.mem_accepted_or_waiting_iff]
    · rw [← hcalls, hy.answered]

/-! ## A full queue -/

theorem erase_waiting (hnobody : x.waiting = []) (n : Nat) :
    (x.waiting ++ [n]).erase n = x.waiting := by
  simp [hnobody]

/-- If nobody waits and there is room, a call that is made can be accepted at once. -/
theorem Reachable.ask (h : Reachable worker s x) (c : Call) (hnobody : x.waiting = [])
    (hroom : x.queue.length < queueCapacity) :
    Reachable worker s { x with
      calls := x.calls ++ [c]
      accepted := x.accepted ++ [x.calls.length]
      queue := x.queue ++ [x.calls.length] } := by
  let called : Exchange :=
    { x with calls := x.calls ++ [c], waiting := x.waiting ++ [x.calls.length] }
  have hwaits : x.calls.length ∈ called.waiting := by simp [called]
  have haccept : Work worker called _ := .accept hwaits hroom
  have hdone : Reachable worker s _ := .tail (.tail h (.call x c)) (.work haccept)
  rwa [erase_waiting hnobody] at hdone

/-- If nobody waits, a call that is made can be given up without having been accepted. -/
theorem Reachable.abandon (h : Reachable worker s x) {c : Call} {d : Nat}
    (hnobody : x.waiting = []) (hdeadline : c.deadline? = some d) :
    Reachable worker s { x with
      calls := x.calls ++ [c], returned := x.returned ++ [(x.calls.length, .timedOut d)] } := by
  let called : Exchange :=
    { x with calls := x.calls ++ [c], waiting := x.waiting ++ [x.calls.length] }
  have hcall : called.calls[x.calls.length]? = some c := List.getElem?_concat_length
  have hgiveUp : Step worker called _ := .giveUp hcall hdeadline h.sound.length_notMem_returned
  have hdone : Reachable worker s _ := .tail (.tail h (.call x c)) hgiveUp
  rwa [erase_waiting hnobody] at hdone

/-- A first job runs, and a number of others wait in the queue. -/
def congested (first later : Call) (s : Session) (n : Nat) : Exchange :=
  { start s with
    calls := first :: List.replicate n later
    accepted := List.range (n + 1)
    queue := List.range' 1 n
    running := some 0 }

theorem reachable_congested (worker : Nat) (first later : Call) (s : Session) {n : Nat}
    (hn : n ≤ queueCapacity) : Reachable worker s (congested first later s n) := by
  induction n with
  | zero =>
    have hfirst : Reachable worker s _ :=
      Reachable.ask (.refl : Reachable worker s (start s)) first rfl (Nat.zero_lt_succ _)
    exact .tail hfirst (.work (.take rfl rfl))
  | succ n ih =>
    have hroom : (congested first later s n).queue.length < queueCapacity := by
      rw [congested, List.length_range']
      exact hn
    have hnext := (ih (Nat.le_of_succ_le hn)).ask later rfl hroom
    simpa [congested, List.range_succ, List.range'_concat, List.replicate_succ',
      Nat.add_comm 1 n] using hnext

def newSession : Session :=
  ⟨some ⟨(Engine.create 1).init, false, 0, .empty⟩, none⟩

def hasty (script : String) : Call :=
  ⟨.eval script (.positional []), some 1⟩

def crowd : Exchange :=
  congested (hasty "after 2000") (hasty "incr n") newSession queueCapacity

def crowdLeft : Exchange :=
  { crowd with returned := [(1, .timedOut 1)] }

theorem reachable_crowdLeft : Reachable 0 newSession crowdLeft := by
  have hcrowd : Reachable 0 newSession crowd := reachable_congested 0 _ _ _ (Nat.le_refl _)
  have hcall : crowd.calls[1]? = some (hasty "incr n") := rfl
  exact .tail hcrowd (.giveUp hcall rfl List.not_mem_nil)

/-- The job of a call that has given up in the queue can always be run to its end. -/
theorem accepted_run_once_crowdLeft : Reachable 0 newSession crowdLeft ∧
    ∃ y, Relation.ReflTransGen (Work 0) crowdLeft y ∧ y.IsIdle ∧ 1 ∈ y.finished.map (·.1) := by
  obtain ⟨-, -, -, -, -, -, y, hwork, hidle, -, -, hfinished, -⟩ :=
    reachable_crowdLeft.accepted_run_once
  refine ⟨reachable_crowdLeft, y, hwork, hidle, (hfinished 1).mpr ⟨?_, fun _ => ?_⟩⟩
  · simp [crowdLeft, crowd, congested, queueCapacity]
  · simp [crowdLeft, crowd, congested, queueCapacity]

/-- The queue is full, and a caller who waited for room has given up. -/
def crowdedOut : Exchange :=
  { crowd with
    calls := crowd.calls ++ [hasty "set dropped 1"]
    returned := [(65, .timedOut 1)] }

/-- It is possible that a call has returned because of its deadline, and that its job is neither in
the queue nor running nor finished. -/
theorem crowdedOut_dropped : Reachable 0 newSession crowdedOut ∧
    (65, .timedOut 1) ∈ crowdedOut.returned ∧ crowdedOut.queue.length = queueCapacity ∧
    ¬crowdedOut.Holds 65 := by
  have hcrowd : Reachable 0 newSession crowd := reachable_congested 0 _ _ _ (Nat.le_refl _)
  have hlast : (hasty "set dropped 1").deadline? = some 1 := rfl
  refine ⟨hcrowd.abandon rfl hlast, by simp [crowdedOut], ?_, ?_⟩
  · simp [crowdedOut, crowd, congested]
  · simp [Holds, crowdedOut, crowd, congested, start, queueCapacity]

end Exchange
end TclHost.Host
