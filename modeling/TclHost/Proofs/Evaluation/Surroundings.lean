import TclHost.Proofs.Evaluation.Nesting
/-! # Evaluation in other surroundings

A command sees neither the frames further out nor the level.  From two states that differ in these
alone, a script ends alike and makes the same changes, as long as neither run is refused at the
limit of nesting.  A run is not refused anywhere if it would be the same whatever was done at the
limit, which is so exactly if a mark that is left there never shows.
-/
namespace TclHost

namespace Interp

/-- The second state has the same own part and the same effects as the first one, and its level is
further down by a number. -/
structure Beside (down : Nat) (s t : Interp) : Prop where
  own : s.own = t.own
  effects : s.effects = t.effects
  level : t.level = s.level + down

variable {down : Nat} {s t : Interp}

theorem Beside.change (h : Beside down s t) {f : Interp → Interp} (hf : IsLocal f) :
    Beside down (f s) (f t) where
  own := hf.own_congr h.own
  effects := hf.effects s t h.effects
  level := by rw [(hf.outside s).level, (hf.outside t).level, h.level]

theorem Beside.pushFrame (h : Beside down s t) (frame : Frame) :
    Beside down (s.pushFrame frame) (t.pushFrame frame) where
  own := by
    obtain ⟨hglobal, -, hprocs⟩ := own_eq_iff.mp h.own
    exact own_eq_iff.mpr ⟨hglobal, rfl, hprocs⟩
  effects := h.effects
  level := h.level

theorem Beside.enter (h : Beside down s t) : Beside down s.enter t.enter :=
  ⟨h.own, h.effects, by rw [Interp.enter, Interp.enter, h.level, Nat.add_right_comm]⟩

end Interp

open Interp

/-- Two evaluations end alike and change the same from states that lie beside each other, and
neither of them changes what is not its own. -/
def Eval.AgreesBeside {α : Type} (down : Nat) (m m' : Eval α) : Prop :=
  ∀ s t : Interp, Beside down s t →
    (m s).1 = (m' t).1 ∧ Beside down (m s).2 (m' t).2 ∧ s.SameOutside (m s).2 ∧
      t.SameOutside (m' t).2

open Eval

variable {down : Nat}

theorem Eval.AgreesBeside.bind {α β : Type} {m m' : Eval α} {f f' : α → Eval β}
    (h : m.AgreesBeside down m') (hf : ∀ a, (f a).AgreesBeside down (f' a)) :
    (m >>= f).AgreesBeside down (m' >>= f') := by
  intro s t hst
  obtain ⟨hend, hbeside, hleft, hright⟩ := h s t hst
  rw [bind_apply, bind_apply]
  rcases hm : m s with ⟨r, s'⟩
  rcases hm' : m' t with ⟨r', t'⟩
  rw [hm, hm'] at hend hbeside
  rw [hm] at hleft
  rw [hm'] at hright
  cases hend
  cases r with
  | error e => exact ⟨rfl, hbeside, hleft, hright⟩
  | ok a =>
    obtain ⟨hend', hbeside', hleft', hright'⟩ := hf a s' t' hbeside
    exact ⟨hend', hbeside', hleft.trans hleft', hright.trans hright'⟩

/-- A frame in front hides the others, and when it is gone these are as they were. -/
theorem Eval.AgreesBeside.framed {α : Type} {m m' : Eval α} (frame : Frame)
    (h : m.AgreesBeside down m') :
    (m.framed frame).AgreesBeside down (m'.framed frame) := by
  intro s t hst
  obtain ⟨hend, hbeside, hleft, hright⟩ := h _ _ (hst.pushFrame frame)
  have hs : ((m.framed frame) s).2.frames = s.frames := hleft.popFrame_frames
  have ht : ((m'.framed frame) t).2.frames = t.frames := hright.popFrame_frames
  obtain ⟨hglobal, -, hprocs⟩ := own_eq_iff.mp hbeside.own
  obtain ⟨-, hhead, -⟩ := own_eq_iff.mp hst.own
  have hfront : ((m.framed frame) s).2.frames.take 1 = ((m'.framed frame) t).2.frames.take 1 := by
    rw [hs, ht, hhead]
  exact ⟨hend, ⟨own_eq_iff.mpr ⟨hglobal, hfront, hprocs⟩, hbeside.effects, hbeside.level⟩,
    hleft.popFrame, hright.popFrame⟩

/-- Agreement from states beside each other is respected by all that commands are made of. -/
theorem congruence_agreesBeside : Congruence (AgreesBeside down) where
  pure _ s t hst := ⟨rfl, hst, .refl s, .refl t⟩
  throw _ s t hst := ⟨rfl, hst, .refl s, .refl t⟩
  bind := AgreesBeside.bind
  attempt h s t hst := by
    obtain ⟨hend, hrest⟩ := h s t hst
    exact ⟨congrArg Except.ok hend, hrest⟩
  look {α f f'} hf hf' h s t hst := by
    have hsame : f' s = f' t := by rw [← hf' s, hst.own, hf' t]
    have hend := h s s t hst
    rw [hsame] at hend
    exact hend
  change hf s t hst := ⟨rfl, hst.change hf, hf.outside s, hf.outside t⟩
  framed := AgreesBeside.framed

/-- Going one level further down and coming back changes neither what is one's own nor the
effects. -/
theorem Interp.Beside.leave {s t u v : Interp} (h : Beside down u v)
    (hs : s.enter.SameOutside u) (hst : Beside down s t) (ht : t.enter.SameOutside v) :
    Beside down u.leave v.leave ∧ s.SameOutside u.leave ∧ t.SameOutside v.leave := by
  have hu : s.SameOutside u.leave := hs.leave
  have hv : t.SameOutside v.leave := ht.leave
  exact ⟨⟨h.own, h.effects, by rw [hu.level, hv.level, hst.level]⟩, hu, hv⟩

/-! ## Other frames further out -/

theorem Eval.AgreesBeside.nest {α : Type} {m m' : Eval α} (h : m.AgreesBeside 0 m') :
    m.nest.AgreesBeside 0 m'.nest := by
  intro s t hst
  by_cases hlimit : s.level < maxNesting
  · have hlimit' : t.level < maxNesting := by rwa [hst.level]
    obtain ⟨hend, hbeside, hleft, hright⟩ := h _ _ hst.enter
    rw [nest_apply m hlimit, nest_apply m' hlimit']
    exact ⟨hend, hbeside.leave hleft hst hright⟩
  · have hlimit' : ¬t.level < maxNesting := by rwa [hst.level]
    rw [nest_at_limit m (Nat.not_lt.mp hlimit), nest_at_limit m' (Nat.not_lt.mp hlimit')]
    exact ⟨rfl, hst, .refl s, .refl t⟩

/-- Frames further out do not matter to a run. -/
theorem envWith_agreesBeside (rounds levels : Nat) :
    (envWith rounds levels).Related (AgreesBeside 0) (envWith rounds levels) := by
  have hA : Congruence (AgreesBeside 0) := congruence_agreesBeside
  induction levels with
  | zero => exact ⟨fun _ => hA.fail _, fun _ => hA.fail _, rfl⟩
  | succ levels ih =>
    constructor
    · exact fun script => (related_runCommands hA ih (related_invoke hA ih) "" script).nest
    · exact fun cs => (related_runText hA ih (related_invoke hA ih) "" cs).nest
    · rfl

/-! ## Runs within the limit -/

/-- Evaluate one level further down and come back, or do something else at the limit. -/
def Eval.nestOr {α : Type} (m atLimit : Eval α) : Eval α :=
  fun s =>
    if s.level < maxNesting then
      let (r, t) := m s.enter
      (r, t.leave)
    else atLimit s

/-- What runs scripts as `envWith` does, except that another way to run them takes over at the
limit. -/
def envOr (atLimit : Env) (rounds : Nat) : (levels : Nat) → Env
  | 0 => { atLimit with rounds }
  | levels + 1 =>
    let env := envOr atLimit rounds levels
    ⟨fun script => (Script.runCommands env (invoke env) "" script).nestOr (atLimit.run script),
      fun cs => (Script.runText env (invoke env) "" cs).nestOr (atLimit.runText cs), rounds⟩

theorem envOr_runText (atLimit : Env) (rounds levels : Nat) (cs : List Char) :
    (envOr atLimit rounds (levels + 1)).runText cs =
      (Script.runText (envOr atLimit rounds levels) (invoke (envOr atLimit rounds levels)) ""
        cs).nestOr (atLimit.runText cs) :=
  rfl

/-- A run from a state is nowhere refused at the limit: whatever was done there instead, the run
would be the same. -/
def WithinLimit {α : Type} (rounds : Nat) (run : Env → Eval α) (s : Interp) : Prop :=
  ∀ atLimit, run (envOr atLimit rounds maxNesting) s = run (Env.top rounds) s

theorem envOr_refusing (rounds levels : Nat) :
    envOr (envWith rounds 0) rounds levels = envWith rounds levels := by
  induction levels with
  | zero => rfl
  | succ levels ih =>
    rw [envOr, ih]
    rfl

theorem Eval.nestOr_apply {α : Type} (m atLimit : Eval α) {s : Interp}
    (hs : s.level < maxNesting) : m.nestOr atLimit s = ((m s.enter).1, (m s.enter).2.leave) := by
  simp only [nestOr, if_pos hs]
  rfl

theorem Eval.nestOr_at_limit {α : Type} (m atLimit : Eval α) {s : Interp}
    (hs : maxNesting ≤ s.level) : m.nestOr atLimit s = atLimit s := by
  simp only [nestOr, if_neg (Nat.not_lt.mpr hs)]

def Eval.above {α : Type} (m : Eval α) : Eval α :=
  fun s => ((m s.leave).1, (m s.leave).2.enter)

theorem Eval.AgreesBeside.above {α : Type} {m : Eval α} (h : m.AgreesBeside 0 m) :
    m.AgreesBeside 1 m.above := by
  intro s t hst
  have hlevel : t.leave.level = s.level := by rw [Interp.leave, hst.level, Nat.add_sub_cancel]
  have hbeside : Beside 0 s t.leave := ⟨hst.own, hst.effects, hlevel⟩
  obtain ⟨hend, hbeside, hleft, hright⟩ := h s t.leave hbeside
  refine ⟨hend, ⟨hbeside.own, hbeside.effects, ?_⟩, hleft,
    ⟨hright.depth, hright.outer, hright.links, ?_⟩⟩
  · exact congrArg (· + 1) hbeside.level
  · have hback : (m t.leave).2.level + 1 = t.level := by
      rw [hright.level, hlevel, hst.level]
    exact hback

theorem Eval.AgreesBeside.nestOr {α : Type} {m m' k atLimit : Eval α} (hk : k = m.nest)
    (h : m.AgreesBeside 1 m') (hlimit : k.AgreesBeside 1 atLimit) :
    k.AgreesBeside 1 (m'.nestOr atLimit) := by
  intro s t hst
  by_cases ht : t.level < maxNesting
  · have hs : s.level < maxNesting := by
      have hlevel := hst.level
      omega
    obtain ⟨hend, hbeside, hleft, hright⟩ := h _ _ hst.enter
    rw [hk, nest_apply m hs, nestOr_apply m' atLimit ht]
    exact ⟨hend, hbeside.leave hleft hst hright⟩
  · rw [nestOr_at_limit m' atLimit (Nat.not_lt.mp ht)]
    exact hlimit s t hst

def Env.above (env : Env) : Env :=
  ⟨fun script => (env.run script).above, fun cs => (env.runText cs).above, env.rounds⟩

/-- With one more level to go at the limit, everything runs one level further down as it runs
here. -/
theorem envOr_above_agreesBeside (rounds levels : Nat) :
    (Env.top rounds).Related (AgreesBeside 1)
      (envOr (Env.top rounds).above rounds levels) := by
  have hA : Congruence (AgreesBeside 1) := congruence_agreesBeside
  have hself : (Env.top rounds).Related (AgreesBeside 0) (Env.top rounds) :=
    envWith_agreesBeside rounds maxNesting
  have habove : (Env.top rounds).Related (AgreesBeside 1) (Env.top rounds).above :=
    ⟨fun script => (hself.run script).above, fun cs => (hself.runText cs).above, rfl⟩
  induction levels with
  | zero => exact ⟨habove.run, habove.runText, rfl⟩
  | succ levels ih =>
    constructor
    · exact fun script => .nestOr (Env.top_run rounds script)
        (related_runCommands hA ih (related_invoke hA ih) "" script) (habove.run script)
    · exact fun cs => .nestOr (Env.top_runText rounds cs)
        (related_runText hA ih (related_invoke hA ih) "" cs) (habove.runText cs)
    · rfl

/-! ### A mark at the limit -/

/-- At the limit, refuse and leave a frame behind. -/
def marking (rounds : Nat) : Env :=
  let refuse : Eval String := do
    modify (·.pushFrame ⟨∅, ∅⟩)
    Eval.fail .tooManyNested
  ⟨fun _ => refuse, fun _ => refuse, rounds⟩

/-- No frame is lost, and unless one is left behind the other evaluation does the same. -/
def Eval.SameUnlessMarked {α : Type} (m m' : Eval α) : Prop :=
  ∀ s : Interp, s.frames.length ≤ (m s).2.frames.length ∧
    ((m s).2.frames.length = s.frames.length → m s = m' s)

theorem Eval.sameUnlessMarked_self {α : Type} {m : Eval α}
    (h : ∀ s : Interp, s.SameOutside (m s).2) : m.SameUnlessMarked m :=
  fun s => ⟨Nat.le_of_eq (h s).depth.symm, fun _ => rfl⟩

theorem Eval.SameUnlessMarked.bind {α β : Type} {m m' : Eval α} {f f' : α → Eval β}
    (h : m.SameUnlessMarked m') (hf : ∀ a, (f a).SameUnlessMarked (f' a)) :
    (m >>= f).SameUnlessMarked (m' >>= f') := by
  intro s
  obtain ⟨hdepth, hsame⟩ := h s
  rw [bind_apply, bind_apply]
  rcases hm : m s with ⟨r, t⟩
  rw [hm] at hdepth hsame
  cases r with
  | error e =>
    refine ⟨hdepth, fun heq => ?_⟩
    rw [← hsame heq]
  | ok a =>
    obtain ⟨hdepth', hsame'⟩ := hf a t
    refine ⟨Nat.le_trans hdepth hdepth', fun heq => ?_⟩
    have heqt : t.frames.length = s.frames.length :=
      Nat.le_antisymm (heq ▸ hdepth') hdepth
    rw [← hsame heqt]
    exact hsame' (heq.trans heqt.symm)

theorem Eval.SameUnlessMarked.framed {α : Type} {m m' : Eval α} (frame : Frame)
    (h : m.SameUnlessMarked m') : (m.framed frame).SameUnlessMarked (m'.framed frame) := by
  intro s
  obtain ⟨hdepth, hsame⟩ := h (s.pushFrame frame)
  have hpush : (s.pushFrame frame).frames.length = s.frames.length + 1 := rfl
  have hpop : ((m.framed frame) s).2.frames.length =
    (m (s.pushFrame frame)).2.frames.length - 1 := List.length_tail
  constructor
  · omega
  · intro heq
    have hunmarked : (m (s.pushFrame frame)).2.frames.length =
        (s.pushFrame frame).frames.length := by omega
    rw [Eval.framed, Eval.framed, hsame hunmarked]

theorem congruence_sameUnlessMarked : Congruence SameUnlessMarked where
  pure _ := sameUnlessMarked_self .refl
  throw _ := sameUnlessMarked_self .refl
  bind := SameUnlessMarked.bind
  attempt h s := by
    obtain ⟨hdepth, hsame⟩ := h s
    refine ⟨hdepth, fun heq => ?_⟩
    have hattempt {α : Type} (m : Eval α) : m.attempt s = (.ok (m s).1, (m s).2) := rfl
    rw [hattempt, hattempt, hsame heq]
  look _ _ h s := h s s
  change hf := sameUnlessMarked_self hf.outside
  framed := SameUnlessMarked.framed

theorem Eval.SameUnlessMarked.nestOr {α : Type} {m m' k k' : Eval α}
    (h : m.SameUnlessMarked m') (hk : k.SameUnlessMarked k') :
    (m.nestOr k).SameUnlessMarked (m'.nestOr k') := by
  intro s
  by_cases hs : s.level < maxNesting
  · obtain ⟨hdepth, hsame⟩ := h s.enter
    rw [nestOr_apply m k hs, nestOr_apply m' k' hs]
    refine ⟨hdepth, fun heq => ?_⟩
    rw [hsame heq]
  · rw [nestOr_at_limit m k (Nat.not_lt.mp hs), nestOr_at_limit m' k' (Nat.not_lt.mp hs)]
    exact hk s

/-- A run that leaves no mark is the same whatever is done at the limit. -/
theorem envOr_marking_sameUnlessMarked (atLimit : Env) (rounds levels : Nat) :
    (envOr (marking rounds) rounds levels).Related SameUnlessMarked
      (envOr atLimit rounds levels) := by
  have hA := congruence_sameUnlessMarked
  have hmark (m' : Eval String) : SameUnlessMarked (((marking rounds).run [])) m' := by
    intro s
    have hmarked : ((marking rounds).run [] s).2.frames.length = s.frames.length + 1 := rfl
    exact ⟨by omega, fun heq => by omega⟩
  induction levels with
  | zero => exact ⟨fun _ => hmark _, fun _ => hmark _, rfl⟩
  | succ levels ih =>
    constructor
    · exact fun script =>
        (related_runCommands hA ih (related_invoke hA ih) "" script).nestOr (hmark _)
    · exact fun cs => (related_runText hA ih (related_invoke hA ih) "" cs).nestOr (hmark _)
    · rfl

/-- A command runs within the limit exactly if no mark would be left at the limit. -/
theorem withinLimit_invoke_iff (rounds : Nat) (words : List String) (s : Interp) :
    WithinLimit rounds (invoke · words) s ↔
      (invoke (envOr (marking rounds) rounds maxNesting) words s).2.frames.length =
        s.frames.length := by
  constructor
  · intro h
    have hself := envWith_agreesAt_self rounds maxNesting s.level
    have hsame := h (marking rounds)
    dsimp only at hsame
    rw [hsame]
    exact (agreesAt_invoke hself words s rfl).2.depth
  · intro hunmarked atLimit
    have hsame (atLimit : Env) : invoke (envOr (marking rounds) rounds maxNesting) words s =
        invoke (envOr atLimit rounds maxNesting) words s :=
      (related_invoke congruence_sameUnlessMarked
        (envOr_marking_sameUnlessMarked atLimit rounds maxNesting) words s).2 hunmarked
    dsimp only
    rw [← hsame atLimit, hsame (envWith rounds 0), envOr_refusing, Env.top]

end TclHost
