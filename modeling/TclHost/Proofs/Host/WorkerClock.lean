import TclHost.Proofs.Host.TypedResult
import TclHost.Proofs.Host.WorkerQueue
/-! # A worker with a clock

A worker with a clock knows at once when a job that it accepts will start and end.  What one caller
sees of it, who makes one call after the other, is what can pass with a worker that takes its jobs
from the queue and finishes them step by step: the times of the jobs that are not finished tell
which of them are in the queue.
-/
namespace TclHost.Host

/-! ## Answers do not depend on effects -/

namespace Engine
variable {e e' : Engine}

theorem Same.evalScript (h : e.Same e') (script : ByteArray) :
    (e.evalScript script).1 = (e'.evalScript script).1 ∧
      (e.evalScript script).2.Same (e'.evalScript script).2 := by
  obtain ⟨hstatus, hsame⟩ := h.toSameState.eval script
  unfold Engine.evalScript
  split
  · exact ⟨rfl, h⟩
  · dsimp only
    rw [hstatus, hsame.result]
    exact ⟨rfl, hsame⟩

theorem Same.evalScriptAs (h : e.Same e') (t : HostType) (script : ByteArray) :
    (e.evalScriptAs t script).1 = (e'.evalScriptAs t script).1 ∧
      (e.evalScriptAs t script).2.Same (e'.evalScriptAs t script).2 := by
  obtain ⟨hend, hsame⟩ := h.evalScript script
  unfold Engine.evalScriptAs
  rcases hr : e.evalScript script with ⟨r, e₁⟩
  rcases hr' : e'.evalScript script with ⟨r', e₁'⟩
  rw [hr, hr'] at hend hsame
  cases hend
  cases r with
  | error error => exact ⟨rfl, hsame⟩
  | ok done =>
    dsimp only at hsame ⊢
    rw [← hsame.result]
    exact hsame.extract e₁.result t

theorem Same.ask (h : e.Same e') (request : Request) :
    (e.ask request).1 = (e'.ask request).1 ∧ (e.ask request).2.Same (e'.ask request).2 := by
  cases request with
  | evalBytes script =>
    obtain ⟨hend, hsame⟩ := h.evalScript script
    exact ⟨congrArg (Except.map _) hend, hsame⟩
  | eval template args =>
    rw [Engine.ask, Engine.ask]
    cases scriptOf template args with
    | error error => exact ⟨rfl, h⟩
    | ok script =>
      obtain ⟨hend, hsame⟩ := h.evalScript script
      exact ⟨congrArg (Except.map _) hend, hsame⟩
  | evalAs template args t =>
    rw [Engine.ask, Engine.ask]
    cases scriptOf template args with
    | error error => exact ⟨rfl, h⟩
    | ok script =>
      obtain ⟨hend, hsame⟩ := h.evalScriptAs t script
      exact ⟨congrArg (Except.map _) hend, hsame⟩

end Engine

namespace Session

/-- A session without what does not matter to its answers: effects, and what is in the buffer. -/
def silent (s : Session) : Session :=
  { s with handle := s.handle.map fun h =>
      { h with engine := { h.engine with interp := h.engine.interp.silent }, buffer := .empty } }

theorem silent_clearEffects (s : Session) : (Worker.clearEffects s).silent = s.silent := by
  obtain ⟨handle, filter⟩ := s
  cases handle <;> rfl

/-- Handles that are alike but for effects and buffer answer alike, and stay alike. -/
theorem silent_ask_some {h h' : Handle} {filter : Option (Error → Error)}
    (hengine : h.engine.Same h'.engine) (hbound : h.bound = h'.bound)
    (hthread : h.thread = h'.thread) (caller : Nat) (request : Request) :
    ((⟨some h, filter⟩ : Session).ask caller request).1 =
        ((⟨some h', filter⟩ : Session).ask caller request).1 ∧
      ((⟨some h, filter⟩ : Session).ask caller request).2.silent =
        ((⟨some h', filter⟩ : Session).ask caller request).2.silent := by
  have hsilent {e e' : Engine} (hsame : e.Same e') (buffer buffer' : ByteArray) :
      (⟨some { h with engine := e, buffer }, filter⟩ : Session).silent =
        (⟨some { h' with engine := e', buffer := buffer' }, filter⟩ : Session).silent := by
    simp only [silent, Option.map_some, hsame.interp, hsame.rounds, hsame.result, hbound, hthread]
  have hmay' : h'.mayUse caller = h.mayUse caller := by
    rw [Handle.mayUse, Handle.mayUse, hbound, hthread]
  rw [ask_eq rfl, ask_eq rfl]
  cases hmay : h.mayUse caller with
  | false =>
    rw [Handle.ask_of_not_mayUse hmay, Handle.ask_of_not_mayUse (hmay'.trans hmay)]
    exact ⟨rfl, hsilent hengine h.buffer h'.buffer⟩
  | true =>
    obtain ⟨buffer, hgives⟩ := Handle.gives_ask hmay request
    obtain ⟨buffer', hgives'⟩ := Handle.gives_ask (hmay'.trans hmay) request
    obtain ⟨hend, hsame⟩ := hengine.ask request
    rw [hgives, hgives', hend]
    exact ⟨rfl, hsilent hsame buffer buffer'⟩

/-- Sessions that are alike but for effects and buffer answer alike, and stay alike. -/
theorem silent_ask {s s' : Session} (h : s.silent = s'.silent) (caller : Nat)
    (request : Request) : (s.ask caller request).1 = (s'.ask caller request).1 ∧
      (s.ask caller request).2.silent = (s'.ask caller request).2.silent := by
  obtain ⟨handle, filter⟩ := s
  obtain ⟨handle', filter'⟩ := s'
  simp only [silent, mk.injEq] at h
  obtain ⟨hhandles, rfl⟩ := h
  rcases handle with _ | h <;> rcases handle' with _ | h'
  · exact ⟨rfl, rfl⟩
  · cases hhandles
  · cases hhandles
  · simp only [Option.map_some, Option.some_inj, Handle.mk.injEq, Engine.mk.injEq] at hhandles
    obtain ⟨⟨hinterp, hresult, hrounds⟩, hbound, hthread, -⟩ := hhandles
    exact silent_ask_some ⟨⟨hinterp, hrounds⟩, hresult⟩ hbound hthread caller request

end Session

/-! ## Schedules -/

/-- A job that is not finished yet, and when it starts and ends. -/
structure Slot where
  call : Nat
  start : Nat
  finish : Nat

/-- Jobs run one after the other, and the last of them ends at a time at the latest. -/
structure Schedule (slots : List Slot) (last : Nat) : Prop where
  order : slots.Pairwise fun a b => a.finish ≤ b.start
  ends : ∀ slot ∈ slots, slot.start ≤ slot.finish ∧ slot.finish ≤ last

theorem Schedule.tail {slot : Slot} {slots : List Slot} {last : Nat}
    (h : Schedule (slot :: slots) last) : Schedule slots last :=
  ⟨h.order.tail, fun _ hs => h.ends _ (List.mem_cons_of_mem _ hs)⟩

theorem Schedule.concat {slots : List Slot} {last : Nat} (h : Schedule slots last) {slot : Slot}
    (hstart : last ≤ slot.start) (hend : slot.start ≤ slot.finish) :
    Schedule (slots ++ [slot]) slot.finish where
  order := by
    rw [List.pairwise_append]
    refine ⟨h.order, List.pairwise_singleton _ _, fun a ha b hb => ?_⟩
    rw [List.mem_singleton] at hb
    exact hb ▸ Nat.le_trans (h.ends a ha).2 hstart
  ends a ha := by
    rcases List.mem_append.mp ha with ha | ha
    · have hbounds := h.ends a ha
      omega
    · obtain rfl := List.mem_singleton.mp ha
      exact ⟨hend, Nat.le_refl _⟩

theorem Schedule.unfinished {slot : Slot} {slots : List Slot} {now last : Nat}
    (h : Schedule (slot :: slots) last) (hfinish : now < slot.finish) :
    ∀ later ∈ slot :: slots, now < later.finish := by
  intro later hlater
  rcases List.mem_cons.mp hlater with rfl | hmem
  · exact hfinish
  · have horder := (List.pairwise_cons.mp h.order).1 later hmem
    have hbounds := h.ends later hlater
    omega

theorem Schedule.filter_start {slot : Slot} {slots : List Slot} {now last : Nat}
    (h : Schedule (slot :: slots) last) (hfinish : now < slot.finish) :
    slots.filter (now < ·.start) = slots := by
  apply List.filter_eq_self.mpr
  intro later hlater
  have horder := (List.pairwise_cons.mp h.order).1 later hlater
  simp only [decide_eq_true_eq]
  omega

namespace Exchange

/-- The jobs that are not finished are those of a schedule, and none runs that has not started by
a time. -/
structure Pending (now : Nat) (slots : List Slot) (x : Exchange) : Prop where
  jobs : slots.map (·.call) = x.running.toList ++ x.queue
  started : ∀ n, x.running = some n → ∀ slot ∈ slots.head?, slot.start ≤ now

/-- The jobs that are not finished, at a time: those in the queue are the ones that start
later. -/
structure Timed (now : Nat) (slots : List Slot) (x : Exchange) : Prop
    extends Pending now slots x where
  queue : x.queue = (slots.filter (now < ·.start)).map (·.call)
  unfinished : ∀ slot ∈ slots, now < slot.finish

variable {worker now last : Nat} {s : Session} {x y : Exchange} {slots : List Slot}

theorem Pending.mono (h : x.Pending now slots) {later : Nat} (hle : now ≤ later) :
    x.Pending later slots :=
  ⟨h.jobs, fun n hn slot hslot => Nat.le_trans (h.started n hn slot hslot) hle⟩

theorem Timed.congr (h : x.Timed now slots) (hrunning : y.running = x.running)
    (hqueue : y.queue = x.queue) : y.Timed now slots :=
  ⟨⟨by rw [h.jobs, hrunning, hqueue], by rw [hrunning]; exact h.started⟩, hqueue ▸ h.queue,
    h.unfinished⟩

theorem Pending.concat (h : x.Pending now slots) (slot : Slot)
    (hqueue : y.queue = x.queue ++ [slot.call]) (hrunning : y.running = x.running) :
    y.Pending now (slots ++ [slot]) where
  jobs := by rw [List.map_append, h.jobs, hqueue, hrunning, List.append_assoc, List.map_singleton]
  started n hn first hfirst := by
    rw [hrunning] at hn
    cases slots with
    | nil => simpa [hn] using h.jobs
    | cons head rest => exact h.started n hn first hfirst

structure Proceeds (worker : Nat) (x y : Exchange) : Prop where
  work : Relation.ReflTransGen (Work worker) x y
  calls : y.calls = x.calls
  waiting : y.waiting = x.waiting
  accepted : y.accepted = x.accepted
  returned : y.returned = x.returned

theorem Proceeds.refl (x : Exchange) : Proceeds worker x x :=
  ⟨.refl, rfl, rfl, rfl, rfl⟩

theorem Proceeds.trans {z : Exchange} (h : Proceeds worker x y) (h' : Proceeds worker y z) :
    Proceeds worker x z :=
  ⟨h.work.trans h'.work, h'.calls.trans h.calls, h'.waiting.trans h.waiting,
    h'.accepted.trans h.accepted, h'.returned.trans h.returned⟩

theorem exists_taken_first (worker : Nat) {n : Nat} {ns : List Nat}
    (h : n :: ns = x.running.toList ++ x.queue) :
    ∃ y, Proceeds worker x y ∧ y.running = some n ∧ y.queue = ns := by
  cases hrunning : x.running with
  | some m =>
    rw [hrunning, Option.toList_some, List.singleton_append, List.cons_eq_cons] at h
    exact ⟨x, .refl x, h.1 ▸ hrunning, h.2.symm⟩
  | none =>
    rw [hrunning, Option.toList_none, List.nil_append] at h
    exact ⟨_, ⟨.single (.take hrunning h.symm), rfl, rfl, rfl, rfl⟩, rfl, rfl⟩

theorem Sound.exists_finished (hx : x.Sound worker s) {n : Nat} {ns : List Nat}
    (h : n :: ns = x.running.toList ++ x.queue) :
    ∃ y, Proceeds worker x y ∧ y.running = none ∧ y.queue = ns := by
  have hn : n < x.calls.length := by
    apply hx.known
    rw [hx.order, ← h]
    simp
  obtain ⟨z, hz, hrunning, hqueue⟩ := exists_taken_first worker h
  have hcall : z.calls[n]? = some x.calls[n] := by
    rw [hz.calls, List.getElem?_eq_getElem hn]
  exact ⟨_, hz.trans ⟨.single (.finish hrunning hcall), rfl, rfl, rfl, rfl⟩, rfl, hqueue⟩

theorem Sound.proceeds (hx : x.Sound worker s) (h : Proceeds worker x y) : y.Sound worker s := by
  obtain ⟨hwork, -, -, -, -⟩ := h
  induction hwork with
  | refl => exact hx
  | tail _ hstep ih => exact ih.work hstep

/-- If the first job ends later, it is the only one that may have to be taken by now. -/
theorem Pending.exists_taken {slot : Slot} (h : x.Pending now (slot :: slots))
    (hslots : Schedule (slot :: slots) last) (hfinish : now < slot.finish) :
    ∃ y, Proceeds worker x y ∧ y.Timed now (slot :: slots) := by
  have hjobs : slot.call :: slots.map (·.call) = x.running.toList ++ x.queue := h.jobs
  have hqueued := hslots.filter_start hfinish
  have hunfinished := hslots.unfinished hfinish
  by_cases hstart : slot.start ≤ now
  · obtain ⟨y, hy, hrunning, hqueue⟩ := exists_taken_first worker hjobs
    refine ⟨y, hy, ⟨?_, ?_⟩, ?_, hunfinished⟩
    · simp [hrunning, hqueue]
    · simpa using fun _ _ => hstart
    · rw [List.filter_cons_of_neg (by simpa using hstart), hqueued, hqueue]
  · have hrunning : x.running = none := by
      by_contra hne
      obtain ⟨n, hn⟩ := Option.ne_none_iff_exists'.mp hne
      exact hstart (h.started n hn slot rfl)
    refine ⟨x, .refl x, h, ?_, hunfinished⟩
    rw [List.filter_cons_of_pos (by simpa using hstart), hqueued, List.map_cons, hjobs, hrunning]
    rfl

/-- Up to a time, a worker can take and finish just the jobs that start and end by then. -/
theorem Sound.exists_timed (hx : x.Sound worker s) (hslots : Schedule slots last)
    (hpending : x.Pending now slots) :
    ∃ y left, Proceeds worker x y ∧ y.Timed now left ∧ Schedule left last ∧
      left.filter (now < ·.start) = slots.filter (now < ·.start) := by
  induction slots generalizing x with
  | nil =>
    obtain ⟨-, hqueue⟩ := List.append_eq_nil_iff.mp hpending.jobs.symm
    exact ⟨x, [], .refl x, ⟨hpending, hqueue, fun _ h => absurd h List.not_mem_nil⟩, hslots, rfl⟩
  | cons slot slots ih =>
    by_cases hfinish : slot.finish ≤ now
    · obtain ⟨hends, -⟩ := hslots.ends slot List.mem_cons_self
      obtain ⟨z, hz, hrunning, hqueue⟩ := hx.exists_finished hpending.jobs
      have hrest : z.Pending now slots := ⟨by simp [hrunning, hqueue], by simp [hrunning]⟩
      obtain ⟨y, left, hy, htimed, hleft, hstarts⟩ := ih (hx.proceeds hz) hslots.tail hrest
      have hpast : ¬now < slot.start := Nat.not_lt.mpr (Nat.le_trans hends hfinish)
      refine ⟨y, left, hz.trans hy, htimed, hleft, ?_⟩
      rw [hstarts, List.filter_cons_of_neg (by simpa using hpast)]
    · obtain ⟨y, hy, htimed⟩ := hpending.exists_taken hslots (Nat.not_le.mp hfinish)
      exact ⟨y, slot :: slots, hy, htimed, hslots, rfl⟩

/-- A call that is made while nobody waits is accepted at a time when there is room, and its job
comes behind the others. -/
theorem Reachable.exists_accepted (h : Reachable worker s x) (hnobody : x.waiting = [])
    (hslots : Schedule slots last) (hpending : x.Pending now slots)
    (hroom : (slots.filter (now < ·.start)).length < queueCapacity) (c : Call) (slot : Slot)
    (hcall : slot.call = x.calls.length) (hstart : last ≤ slot.start)
    (hend : slot.start ≤ slot.finish) :
    ∃ y left, Reachable worker s y ∧ y.calls = x.calls ++ [c] ∧ y.waiting = [] ∧
      y.accepted = x.accepted ++ [x.calls.length] ∧ y.returned = x.returned ∧
      y.Timed now left ∧ Schedule left slot.finish ∧
      left.filter (now < ·.start) = (slots ++ [slot]).filter (now < ·.start) := by
  obtain ⟨z, before, hz, htimed, hbefore, hstarts⟩ :=
    h.sound.exists_timed hslots hpending
  have hqueue : z.queue.length < queueCapacity := by
    rwa [htimed.queue, hstarts, List.length_map]
  have haccepted : Reachable worker s _ :=
    (h.work hz.work).ask c (hz.waiting.trans hnobody) hqueue
  have hbehind : Pending now (before ++ [slot]) _ :=
    htimed.toPending.concat slot (y := { z with
      calls := z.calls ++ [c]
      accepted := z.accepted ++ [z.calls.length]
      queue := z.queue ++ [z.calls.length] }) (by rw [hcall, hz.calls]) rfl
  obtain ⟨y, left, hy, hleft, hschedule, hstarts'⟩ :=
    haccepted.sound.exists_timed (hbefore.concat hstart hend) hbehind
  refine ⟨y, left, haccepted.work hy.work, ?_, ?_, ?_, ?_, hleft, hschedule, ?_⟩
  · rw [hy.calls, hz.calls]
  · rw [hy.waiting, hz.waiting, hnobody]
  · rw [hy.accepted, hz.accepted, hz.calls]
  · rw [hy.returned, hz.returned]
  · rw [hstarts', List.filter_append, List.filter_append, hstarts]

/-- When all jobs are finished, the last one has been answered as the session answers that the
others have left. -/
theorem Sound.answer_of_last (hx : x.Sound worker s) {ns : List Nat} {n : Nat} {c : Call}
    (haccepted : x.accepted = ns ++ [n]) (hrunning : x.running = none) (hqueue : x.queue = [])
    (hcall : x.calls[n]? = some c) :
    (n, ((s.performAll (operations worker x.calls ns)).2.ask worker c.request).1) ∈
      x.finished := by
  have horder : x.finished.map (·.1) = ns ++ [n] := by
    rw [← haccepted, hx.order, hrunning, hqueue]
    exact (List.append_nil _).symm
  have hlast := operations_singleton worker hcall
  obtain ⟨before, rest, hfinished, -, hrest⟩ := List.map_eq_append_iff.mp horder
  obtain ⟨⟨m, r⟩, rfl, rfl⟩ := List.map_eq_singleton_iff.mp hrest
  have hanswered := congrArg Prod.fst hx.answered
  rw [horder, operations_append, hlast, Session.performAll_append, hfinished, List.map_append]
    at hanswered
  obtain ⟨-, hr⟩ := List.append_inj' hanswered rfl
  have hr : ((s.performAll (operations worker x.calls ns)).2.ask worker c.request).1 = r := by
    simpa [Session.performAll, Session.perform] using hr
  rw [hr, hfinished]
  exact List.mem_append_right _ (List.mem_singleton_self _)

/-! ## One caller -/

end Exchange

def Outcome.answer : Outcome → Except Error Reply
  | reply r => r
  | timedOut d => .error (.timeout d)

namespace Worker

/-- Make one call after the other, and the worker's thread asks its session. -/
def callAll (thread : Nat) (w : Worker) : List Call → List (Except Error Reply) × Worker
  | [] => ([], w)
  | c :: calls =>
    let (r, w) := w.call c.deadline? (·.ask thread c.request)
    let (rs, w) := callAll thread w calls
    (r :: rs, w)

/-- A worker with a clock is in step with an exchange in which nobody waits for room: it has worked
out what the jobs that have been accepted will leave, and when those in the queue will start. -/
structure Follows (thread : Nat) (s : Session) (w : Worker) (x : Exchange) : Prop where
  reachable : Exchange.Reachable thread s x
  nobody : x.waiting = []
  session : w.session.silent =
    (s.performAll (Exchange.operations thread x.calls x.accepted)).2.silent
  timed : ∃ slots, x.Timed w.now slots ∧ Schedule slots w.busyUntil ∧
    w.waiting = (slots.filter (w.now < ·.start)).map (·.start)

theorem follows_ofSession (thread : Nat) (s : Session) :
    (ofSession s).Follows thread s (.start s) where
  reachable := .refl
  nobody := rfl
  session := s.silent_clearEffects
  timed := ⟨[], ⟨⟨rfl, fun _ h => nomatch h⟩, rfl, fun _ h => absurd h List.not_mem_nil⟩,
    ⟨.nil, fun _ h => absurd h List.not_mem_nil⟩, rfl⟩

theorem filter_later {α : Type} (time : α → Nat) (as : List α) {now later : Nat}
    (h : now ≤ later) : (as.filter (now < time ·)).filter (later < time ·) =
      as.filter (later < time ·) := by
  rw [List.filter_filter]
  apply List.filter_congr
  intro a _
  simp only [← Bool.decide_and, decide_eq_decide]
  omega

/-- The starts that are waited for later are among those that are waited for now. -/
theorem waiting_later (w : Worker) {later : Nat} (h : w.now ≤ later) :
    ({ w with now := later } : Worker).waiting = w.waiting.filter (later < ·) := by
  exact (filter_later id w.starts h).symm

theorem length_waiting_roomAt_lt (w : Worker) (h : w.waiting.length ≤ queueCapacity) :
    (w.waiting.filter (w.roomAt < ·)).length < queueCapacity := by
  by_cases hroom : w.waiting.length < queueCapacity
  · exact Nat.lt_of_le_of_lt (List.length_filter_le _ _) hroom
  · cases hwaiting : w.waiting with
    | nil => simp [hwaiting, queueCapacity] at hroom
    | cons start starts =>
      have hfirst : w.roomAt = start := by
        rw [roomAt, if_neg hroom, hwaiting]
        rfl
      rw [hwaiting, List.length_cons] at h
      rw [hfirst, List.filter_cons_of_neg (by simp)]
      exact Nat.lt_of_le_of_lt (List.length_filter_le _ _) h

variable {thread : Nat} {s : Session} {w : Worker} {x : Exchange}

theorem Follows.congr (h : w.Follows thread s x) {y : Exchange}
    (hreachable : Exchange.Reachable thread s y) (hwaiting : y.waiting = x.waiting)
    (hrunning : y.running = x.running) (hqueue : y.queue = x.queue)
    (haccepted : Exchange.operations thread y.calls y.accepted =
      Exchange.operations thread x.calls x.accepted) : w.Follows thread s y := by
  obtain ⟨slots, htimed, hslots, hstarts⟩ := h.timed
  refine ⟨hreachable, hwaiting.trans h.nobody, ?_, slots, htimed.congr hrunning hqueue, hslots,
    hstarts⟩
  rw [haccepted]
  exact h.session

/-- The jobs that start later than later are among those that start later than now. -/
theorem starts_later (slots : List Slot) {now later : Nat} (h : now ≤ later) :
    ((slots.filter (now < ·.start)).map (·.start)).filter (later < ·) =
      (slots.filter (later < ·.start)).map (·.start) := by
  rw [List.filter_map]
  exact congrArg (List.map _) (filter_later Slot.start slots h)

/-- A worker stays in step while time passes. -/
theorem Follows.later (h : w.Follows thread s x) {later : Nat} (hlater : w.now ≤ later) :
    ∃ y, x.Proceeds thread y ∧ ({ w with now := later } : Worker).Follows thread s y := by
  obtain ⟨slots, htimed, hslots, hwaiting⟩ := h.timed
  obtain ⟨y, left, hy, hleft, hschedule, hstarts⟩ :=
    h.reachable.sound.exists_timed hslots (htimed.toPending.mono hlater)
  refine ⟨y, hy, h.reachable.work hy.work, hy.waiting.trans h.nobody, ?_,
    left, hleft, hschedule, ?_⟩
  · rw [hy.calls, hy.accepted]
    exact h.session
  · rw [w.waiting_later hlater, hwaiting, hstarts, starts_later slots hlater]

/-- When all jobs have ended, they have been taken from the queue and finished. -/
theorem Follows.idle (h : w.Follows thread s x) (hend : w.busyUntil ≤ w.now) :
    x.running = none ∧ x.queue = [] := by
  obtain ⟨slots, htimed, hslots, -⟩ := h.timed
  cases slots with
  | nil =>
    obtain ⟨hrunning, hqueue⟩ := List.append_eq_nil_iff.mp htimed.jobs.symm
    exact ⟨Option.toList_eq_nil_iff.mp hrunning, hqueue⟩
  | cons slot slots =>
    have hunfinished := htimed.unfinished slot List.mem_cons_self
    have hbounds := hslots.ends slot List.mem_cons_self
    omega

/-- An accepted job is worked out as it will be answered when its turn comes. -/
theorem Follows.ask (h : w.Follows thread s x) (request : Request) :
    (w.session.ask thread request).1 = ((s.performAll
        (Exchange.operations thread x.calls x.accepted)).2.ask thread request).1 ∧
      (clearEffects (w.session.ask thread request).2).silent = ((s.performAll
        (Exchange.operations thread x.calls x.accepted)).2.ask thread request).2.silent := by
  rw [Session.silent_clearEffects]
  exact Session.silent_ask h.session thread request

/-- A worker that accepts a job when there is room stays in step. -/
theorem Follows.exists_accepted (h : w.Follows thread s x) (c : Call) :
    ∃ y, ({ (w.run (·.ask thread c.request)).2.2 with now := w.roomAt } : Worker).Follows
        thread s y ∧ y.calls = x.calls ++ [c] ∧ y.returned = x.returned ∧
      y.accepted = x.accepted ++ [x.calls.length] := by
  obtain ⟨slots, htimed, hslots, hwaiting⟩ := h.timed
  have hx := h.reachable.sound
  have hfull : w.waiting.length ≤ queueCapacity := by
    have hroom := hx.room
    rwa [htimed.queue, List.length_map, ← List.length_map (·.start), ← hwaiting] at hroom
  have hroom : (slots.filter (w.roomAt < ·.start)).length < queueCapacity := by
    have hlength := w.length_waiting_roomAt_lt hfull
    rwa [hwaiting, starts_later slots w.now_le_roomAt, List.length_map] at hlength
  let start := max w.roomAt w.busyUntil
  let finish := start + (effects (w.session.ask thread c.request).2).slept
  obtain ⟨y, left, hy, hcalls, hnobody, haccepted, hreturned, hleft, hschedule, hstarts⟩ :=
    h.reachable.exists_accepted h.nobody hslots (htimed.toPending.mono w.now_le_roomAt) hroom c
      ⟨x.calls.length, start, finish⟩ rfl (Nat.le_max_right _ _) (Nat.le_add_right _ _)
  refine ⟨y, ⟨hy, hnobody, ?_, left, hleft, hschedule, ?_⟩, hcalls, hreturned, haccepted⟩
  · have hknown : ∀ n ∈ x.accepted, n < x.calls.length :=
      fun n hn => hx.known n (List.mem_append_left _ hn)
    have hcall : (x.calls ++ [c])[x.calls.length]? = some c := List.getElem?_concat_length
    rw [hcalls, haccepted, Exchange.operations_append, Exchange.operations_append_calls hknown,
      Exchange.operations_singleton thread hcall, Session.performAll_append]
    exact (h.ask c.request).2
  · have hunrolled : ({ (w.run (·.ask thread c.request)).2.2 with now := w.roomAt } :
        Worker).waiting = (w.waiting ++ [start]).filter (w.roomAt < ·) := rfl
    rw [hunrolled, hstarts, List.filter_append, List.filter_append, List.map_append, hwaiting,
      starts_later slots w.now_le_roomAt]
    congr 1
    by_cases hlate : w.roomAt < start <;> simp [hlate]

theorem Follows.exists_answered (h : w.Follows thread s x) (c : Call) :
    ∃ y, ({ (w.run (·.ask thread c.request)).2.2 with
        now := (w.run (·.ask thread c.request)).2.1 } : Worker).Follows thread s y ∧
      y.calls = x.calls ++ [c] ∧
      y.returned = x.returned ++ [(x.calls.length, .reply (w.run (·.ask thread c.request)).1)] := by
  obtain ⟨z, hz, hcalls, hreturned, haccepted⟩ := h.exists_accepted c
  have hroom : w.roomAt ≤ (w.run (·.ask thread c.request)).2.1 :=
    Nat.le_trans (Nat.le_max_left _ _) (Nat.le_add_right _ _)
  obtain ⟨y, hy, hend⟩ := hz.later hroom
  have hsound := hend.reachable.sound
  have hcall : y.calls[x.calls.length]? = some c := by
    rw [hy.calls, hcalls]
    exact List.getElem?_concat_length
  obtain ⟨hrunning, hqueue⟩ := hend.idle (Nat.le_refl _)
  have hknown : ∀ n ∈ x.accepted, n < x.calls.length :=
    fun n hn => h.reachable.sound.known n (List.mem_append_left _ hn)
  have hanswer := hsound.answer_of_last (hy.accepted.trans haccepted) hrunning hqueue hcall
  rw [hy.calls, hcalls, Exchange.operations_append_calls hknown, ← (h.ask c.request).1] at hanswer
  have hopen : x.calls.length ∉ y.returned.map (·.1) := by
    rw [hy.returned, hreturned]
    exact h.reachable.sound.length_notMem_returned
  have hreceive : Exchange.Reachable thread s _ := hend.reachable.tail (.receive hanswer hopen)
  refine ⟨_, hend.congr hreceive rfl rfl rfl rfl, hy.calls.trans hcalls, ?_⟩
  rw [hy.returned, hreturned]
  rfl

theorem Follows.exists_left (h : w.Follows thread s x) {c : Call} {d limit : Nat}
    (hdeadline : c.deadline? = some d) (hlimit : w.roomAt ≤ limit) :
    ∃ y, ({ (w.run (·.ask thread c.request)).2.2 with now := limit } : Worker).Follows
        thread s y ∧ y.calls = x.calls ++ [c] ∧
      y.returned = x.returned ++ [(x.calls.length, .timedOut d)] := by
  obtain ⟨z, hz, hcalls, hreturned, -⟩ := h.exists_accepted c
  obtain ⟨y, hy, hend⟩ := hz.later hlimit
  have hcall : y.calls[x.calls.length]? = some c := by
    rw [hy.calls, hcalls]
    exact List.getElem?_concat_length
  have hopen : x.calls.length ∉ y.returned.map (·.1) := by
    rw [hy.returned, hreturned]
    exact h.reachable.sound.length_notMem_returned
  have hgone : Exchange.Reachable thread s _ :=
    hend.reachable.tail (.giveUp hcall hdeadline hopen)
  have hnobody : y.waiting.erase x.calls.length = y.waiting := by
    rw [hend.nobody]
    rfl
  refine ⟨_, hend.congr hgone hnobody rfl rfl rfl, hy.calls.trans hcalls, ?_⟩
  rw [hy.returned, hreturned]

theorem Follows.exists_abandoned (h : w.Follows thread s x) {c : Call} {d limit : Nat}
    (hdeadline : c.deadline? = some d) (hlimit : w.now ≤ limit) :
    ∃ y, ({ w with now := limit } : Worker).Follows thread s y ∧ y.calls = x.calls ++ [c] ∧
      y.returned = x.returned ++ [(x.calls.length, .timedOut d)] := by
  have hknown : ∀ n ∈ x.accepted, n < x.calls.length :=
    fun n hn => h.reachable.sound.known n (List.mem_append_left _ hn)
  have hgone := h.congr (h.reachable.abandon h.nobody hdeadline) rfl rfl rfl
    (Exchange.operations_append_calls hknown [c])
  obtain ⟨y, hy, hend⟩ := hgone.later hlimit
  exact ⟨y, hend, hy.calls, hy.returned⟩

/-- A worker stays in step from call to call, and what it returns is what the exchange returns. -/
theorem Follows.call (h : w.Follows thread s x) (c : Call) :
    ∃ y outcome, (w.call c.deadline? (·.ask thread c.request)).2.Follows thread s y ∧
      y.calls = x.calls ++ [c] ∧ y.returned = x.returned ++ [(x.calls.length, outcome)] ∧
      outcome.answer = (w.call c.deadline? (·.ask thread c.request)).1 := by
  cases hdeadline : c.deadline? with
  | none =>
    obtain ⟨y, hy, hcalls, hreturned⟩ := h.exists_answered c
    exact ⟨y, _, hy, hcalls, hreturned, rfl⟩
  | some d =>
    simp only [Worker.call]
    split
    · obtain ⟨y, hy, hcalls, hreturned⟩ := h.exists_abandoned hdeadline (Nat.le_add_right w.now d)
      exact ⟨y, _, hy, hcalls, hreturned, rfl⟩
    · next hroom =>
      split
      · obtain ⟨y, hy, hcalls, hreturned⟩ := h.exists_answered c
        exact ⟨y, _, hy, hcalls, hreturned, rfl⟩
      · have hlimit : w.roomAt ≤ w.now + d := by
          have hnow := w.now_le_roomAt
          omega
        obtain ⟨y, hy, hcalls, hreturned⟩ := h.exists_left hdeadline hlimit
        exact ⟨y, _, hy, hcalls, hreturned, rfl⟩

theorem Follows.callAll (h : w.Follows thread s x) (calls : List Call) :
    ∃ y outcomes, (w.callAll thread calls).2.Follows thread s y ∧ y.calls = x.calls ++ calls ∧
      y.returned = x.returned ++ outcomes ∧
      outcomes.map (·.1) = List.range' x.calls.length calls.length ∧
      outcomes.map (·.2.answer) = (w.callAll thread calls).1 := by
  induction calls generalizing w x with
  | nil => exact ⟨x, [], h, (List.append_nil _).symm, (List.append_nil _).symm, rfl, rfl⟩
  | cons c calls ih =>
    obtain ⟨z, outcome, hz, hcalls, hreturned, hanswer⟩ := h.call c
    obtain ⟨y, outcomes, hy, hcalls', hreturned', hnumbers, hanswers⟩ := ih hz
    refine ⟨y, (x.calls.length, outcome) :: outcomes, hy, ?_, ?_, ?_, ?_⟩
    · rw [hcalls', hcalls, List.append_assoc, List.singleton_append]
    · rw [hreturned', hreturned, List.append_assoc, List.singleton_append]
    · rw [hcalls, List.length_append, List.length_singleton] at hnumbers
      rw [List.map_cons, hnumbers, List.length_cons, List.range'_succ]
    · rw [List.map_cons, hanswer, hanswers]
      rfl

/-- Whatever one caller asks of a worker with a clock, one call after the other, can pass in an
exchange in just that way: there the calls return in their order with the same answers, and the
worker's session holds what the jobs that were accepted leave. -/
theorem exists_exchange (thread : Nat) (s : Session) (calls : List Call) :
    ∃ x, Exchange.Reachable thread s x ∧ x.calls = calls ∧
      x.returned.map (·.1) = List.range calls.length ∧
      x.returned.map (·.2.answer) = ((ofSession s).callAll thread calls).1 ∧
      ((ofSession s).callAll thread calls).2.session.silent =
        (s.performAll (Exchange.operations thread calls x.accepted)).2.silent := by
  obtain ⟨x, outcomes, hx, hcalls, hreturned, hnumbers, hanswers⟩ :=
    (follows_ofSession thread s).callAll calls
  have hcalls : x.calls = calls := hcalls
  have hreturned : x.returned = outcomes := hreturned
  refine ⟨x, hx.reachable, hcalls, ?_, ?_, ?_⟩
  · rw [hreturned, hnumbers]
    exact List.range_eq_range'.symm
  · rw [hreturned, hanswers]
  · rw [hx.session, hcalls]

end Worker
end TclHost.Host
