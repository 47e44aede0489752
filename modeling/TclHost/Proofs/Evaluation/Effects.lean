import TclHost.Proofs.Evaluation.Nesting
/-! # Effects do not matter to a run

What has been printed, and how long a script has slept, is seen by the outside alone.  From two
states that differ in nothing else, a script ends alike, and the states that it leaves differ in
nothing else again.
-/
namespace TclHost

/-- From states that differ at most in their effects, two evaluations end alike and leave such
states. -/
def Eval.AgreesSilently {α : Type} (m m' : Eval α) : Prop :=
  ∀ s t : Interp, s.silent = t.silent →
    (m s).1 = (m' t).1 ∧ (m s).2.silent = (m' t).2.silent

open Eval

theorem Eval.AgreesSilently.bind {α β : Type} {m m' : Eval α} {f f' : α → Eval β}
    (h : m.AgreesSilently m') (hf : ∀ a, (f a).AgreesSilently (f' a)) :
    (m >>= f).AgreesSilently (m' >>= f') := by
  intro s t hst
  obtain ⟨hend, hsilent⟩ := h s t hst
  rw [bind_apply, bind_apply]
  rcases hm : m s with ⟨r, s'⟩
  rcases hm' : m' t with ⟨r', t'⟩
  rw [hm, hm'] at hend hsilent
  cases hend
  cases r with
  | ok a => exact hf a s' t' hsilent
  | error e => exact ⟨rfl, hsilent⟩

/-- Agreement up to effects is respected by all that commands are made of. -/
theorem congruence_agreesSilently : Congruence AgreesSilently where
  pure _ _ _ hst := ⟨rfl, hst⟩
  throw _ _ _ hst := ⟨rfl, hst⟩
  bind := AgreesSilently.bind
  attempt h s t hst := ⟨congrArg Except.ok (h s t hst).1, (h s t hst).2⟩
  look {α f f'} hf hf' h s t hst := by
    have hsame : f' s = f' t := by rw [← hf' s, Interp.own_congr_silent hst, hf' t]
    have hend := h s s t hst
    rw [hsame] at hend
    exact hend
  change hf _ _ hst := ⟨rfl, hf.silent_congr hst⟩
  framed frame h s t hst := by
    obtain ⟨hend, hsilent⟩ :=
      h (s.pushFrame frame) (t.pushFrame frame) (congrArg (Interp.pushFrame frame) hst)
    exact ⟨hend, congrArg Interp.popFrame hsilent⟩

theorem Eval.AgreesSilently.nest {α : Type} {m m' : Eval α} (h : m.AgreesSilently m') :
    m.nest.AgreesSilently m'.nest := by
  intro s t hst
  have hlevel : s.level = t.level := by
    have hsilent := congrArg Interp.level hst
    exact hsilent
  by_cases hlimit : s.level < maxNesting
  · obtain ⟨hend, hsilent⟩ := h s.enter t.enter (congrArg Interp.enter hst)
    rw [nest_apply m hlimit, nest_apply m' (hlevel ▸ hlimit)]
    exact ⟨hend, congrArg Interp.leave hsilent⟩
  · rw [nest_at_limit m (Nat.not_lt.mp hlimit),
      nest_at_limit m' (hlevel ▸ Nat.not_lt.mp hlimit)]
    exact ⟨rfl, hst⟩

theorem envWith_agreesSilently (rounds levels : Nat) :
    (envWith rounds levels).Related AgreesSilently (envWith rounds levels) := by
  have hA := congruence_agreesSilently
  induction levels with
  | zero => exact ⟨fun _ => hA.fail _, fun _ => hA.fail _, rfl⟩
  | succ levels ih =>
    constructor
    · exact fun script => (related_runCommands hA ih (related_invoke hA ih) "" script).nest
    · exact fun cs => (related_runText hA ih (related_invoke hA ih) "" cs).nest
    · rfl

/-- Running a text takes states that differ at most in their effects to such states. -/
theorem Env.top_eval_silent (rounds : Nat) (text : String) {s t : Interp}
    (hst : s.silent = t.silent) :
    ((Env.top rounds).eval text s).1 = ((Env.top rounds).eval text t).1 ∧
      ((Env.top rounds).eval text s).2.silent = ((Env.top rounds).eval text t).2.silent :=
  (envWith_agreesSilently rounds maxNesting).eval text s t hst

end TclHost
