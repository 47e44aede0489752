import TclHost.Proofs.Evaluation.Agreement
/-! # What commands are made of

Commands are put together from a few operations: ending with a value or an exit, going on behind
another evaluation, catching its exit, looking at a part of the state, changing the state, and
running something in a frame of its own.  A relation between evaluations that respects these
operations is respected by every command.  Three such relations matter here: agreement at a level,
agreement up to effects, and agreement from states beside each other.  They respect commands
because these look only at what is their own, which is neither an effect nor the level nor a frame
further out.
-/
namespace TclHost

namespace Interp

/-- The state with nothing printed and nothing slept. -/
def silent (s : Interp) : Interp :=
  { s with effects := .none }

/-- What a command can look at: the global frame, the innermost frame and the procedures. -/
def own (s : Interp) : Interp :=
  { s with frames := s.frames.take 1, effects := .none, level := 0 }

@[simp]
theorem own_own (s : Interp) : s.own.own = s.own := by
  rw [own, own, List.take_take]
  rfl

theorem own_eq_iff {s t : Interp} : s.own = t.own ↔
    s.global = t.global ∧ s.frames.take 1 = t.frames.take 1 ∧ s.procs = t.procs := by
  simp only [own, mk.injEq, and_true]

theorem own_congr_silent {s t : Interp} (h : s.silent = t.silent) : s.own = t.own := by
  have hown := congrArg own h
  exact hown

/-- States with the same own part and the same frames further out differ at most in their effects
and their level. -/
theorem silent_congr_own {s t : Interp} (h : s.own = t.own) (htail : s.frames.tail = t.frames.tail)
    (hlevel : s.level = t.level) : s.silent = t.silent := by
  obtain ⟨hglobal, hhead, hprocs⟩ := own_eq_iff.mp h
  have hframes : s.frames = t.frames := by
    rw [← List.take_append_drop 1 s.frames, ← List.take_append_drop 1 t.frames, List.drop_one,
      List.drop_one, hhead, htail]
  simp only [silent, hglobal, hframes, hprocs, hlevel]

@[simp]
theorem procs_own (s : Interp) : s.own.procs = s.procs :=
  rfl

theorem place_own (s : Interp) (name : String) : s.own.place name = s.place name := by
  obtain ⟨global, frames, procs, effects, level⟩ := s
  cases frames <;> rfl

@[simp]
theorem get?_own (s : Interp) (name : String) : s.own.get? name = s.get? name := by
  rw [get?, get?, place_own]
  obtain ⟨global, frames, procs, effects, level⟩ := s
  cases frames <;> rfl

@[simp]
theorem read_own (s : Interp) (name : String) : s.own.read name = s.read name := by
  rw [read, read, get?_own]

/-- A linked name of the innermost frame stands for the global variable of the same name. -/
def KeepsNames (s : Interp) : Prop :=
  ∀ name target, s.top.links.get? name = some target → target = name

theorem KeepsNames.congr {s t : Interp} (h : s.KeepsNames) (hlinks : t.top.links = s.top.links) :
    t.KeepsNames := by
  intro name target htarget
  rw [hlinks] at htarget
  exact h name target htarget

/-- A change of the state that leaves alone what is not a command's own, and that depends on that
alone. -/
structure IsLocal (f : Interp → Interp) : Prop where
  outside : ∀ s : Interp, s.SameOutside (f s)
  own : ∀ s : Interp, (f s.own).own = (f s).own
  /-- What becomes of the effects depends on the effects alone. -/
  effects : ∀ s t : Interp, s.effects = t.effects → (f s).effects = (f t).effects
  names : ∀ s : Interp, s.KeepsNames → (f s).KeepsNames

theorem IsLocal.own_congr {f : Interp → Interp} (h : IsLocal f) {s t : Interp}
    (hst : s.own = t.own) : (f s).own = (f t).own := by
  rw [← h.own s, hst, h.own t]

theorem IsLocal.silent_congr {f : Interp → Interp} (h : IsLocal f) {s t : Interp}
    (hst : s.silent = t.silent) : (f s).silent = (f t).silent := by
  have hframes : s.frames = t.frames := by
    have hsilent := congrArg Interp.frames hst
    exact hsilent
  have hlevel : s.level = t.level := by
    have hsilent := congrArg Interp.level hst
    exact hsilent
  apply silent_congr_own (h.own_congr (own_congr_silent hst))
  · rw [(h.outside s).outer, (h.outside t).outer, hframes]
  · rw [(h.outside s).level, (h.outside t).level, hlevel]

theorem isLocal_id : IsLocal id :=
  ⟨SameOutside.refl, own_own, fun _ _ h => h, fun _ h => h⟩

theorem IsLocal.comp {f g : Interp → Interp} (hg : IsLocal g) (hf : IsLocal f) :
    IsLocal (g ∘ f) where
  outside s := (hf.outside s).trans (hg.outside (f s))
  own s := hg.own_congr (hf.own s)
  effects s t h := hg.effects _ _ (hf.effects s t h)
  names s h := hg.names _ (hf.names s h)

theorem isLocal_foldl {α : Type} {step : Interp → α → Interp} (h : ∀ a, IsLocal (step · a))
    (as : List α) : IsLocal fun s => as.foldl step s := by
  induction as with
  | nil => exact isLocal_id
  | cons a as ih => exact ih.comp (h a)

theorem own_mapInner (s : Interp) (f : Table String → Table String) :
    (s.own.mapInner f).own = (s.mapInner f).own := by
  obtain ⟨global, frames, procs, effects, level⟩ := s
  cases frames <;> rfl

theorem effects_mapInner (s : Interp) (f : Table String → Table String) :
    (s.mapInner f).effects = s.effects := by
  unfold mapInner
  split <;> rfl

theorem links_mapGlobals (s : Interp) (f : Table String → Table String) :
    (s.mapGlobals f).top.links = s.top.links := by
  obtain ⟨global, frames, procs, effects, level⟩ := s
  cases frames <;> rfl

theorem links_mapInner (s : Interp) (f : Table String → Table String) :
    (s.mapInner f).top.links = s.top.links := by
  obtain ⟨global, frames, procs, effects, level⟩ := s
  cases frames <;> rfl

theorem isLocal_set (name value : String) : IsLocal (·.set name value) where
  outside s := s.sameOutside_set name value
  own s := by
    rw [set, set, place_own]
    cases s.place name with
    | global key => exact own_own (s.mapGlobals (·.set key value))
    | inner key => exact s.own_mapInner _
  effects s t h := by
    have heffects (s : Interp) : (s.set name value).effects = s.effects := by
      rw [set]
      cases s.place name with
      | global key => rfl
      | inner key => exact s.effects_mapInner _
    rw [heffects, heffects, h]
  names s h := by
    rw [set]
    cases s.place name with
    | global key => exact h.congr (s.links_mapGlobals (·.set key value))
    | inner key => exact h.congr (s.links_mapInner _)

theorem isLocal_linkGlobal (name : String) : IsLocal (·.linkGlobal name) where
  outside s := s.sameOutside_linkGlobal name
  own s := by
    obtain ⟨global, frames, procs, effects, level⟩ := s
    cases frames <;> rfl
  effects s t h := by
    have heffects (s : Interp) : (s.linkGlobal name).effects = s.effects := by
      unfold linkGlobal
      split <;> rfl
    rw [heffects, heffects, h]
  names s h := by
    obtain ⟨global, frames, procs, effects, level⟩ := s
    cases frames with
    | nil => exact h
    | cons frame frames =>
      intro key target htarget
      simp only [linkGlobal, top, Table.get?_set] at htarget
      split at htarget
      · next hkey => rw [← Option.some.inj htarget, hkey]
      · exact h key target htarget

theorem isLocal_procs (f : Table Procedure → Table Procedure) :
    IsLocal fun s => { s with procs := f s.procs } where
  outside _ := ⟨rfl, rfl, rfl, rfl⟩
  own s := own_own { s with procs := f s.procs }
  effects _ _ h := h
  names _ h := h

theorem isLocal_effects (f : Effects → Effects) :
    IsLocal fun s => { s with effects := f s.effects } where
  outside _ := ⟨rfl, rfl, rfl, rfl⟩
  own := own_own
  effects _ _ h := congrArg f h
  names _ h := h

theorem unset_own (s : Interp) (name : String) :
    (s.own.unset name).map own = (s.unset name).map own := by
  rw [unset, unset, place_own]
  cases s.place name with
  | global key =>
    dsimp only
    have hglobal : s.own.global = s.global := rfl
    rw [hglobal]
    split
    · exact congrArg Except.ok (own_own (s.mapGlobals _))
    · rfl
  | inner key =>
    dsimp only
    have hinner : s.own.inner = s.inner := by
      obtain ⟨global, frames, procs, effects, level⟩ := s
      cases frames <;> rfl
    rw [hinner]
    split
    · exact congrArg Except.ok (s.own_mapInner _)
    · rfl

def unsetOrKeep (s : Interp) (name : String) : Interp :=
  (s.unset name).toOption.getD s

theorem own_unsetOrKeep (s : Interp) (name : String) : (s.unsetOrKeep name).own =
    ((s.unset name).map own).toOption.getD s.own := by
  rw [unsetOrKeep]
  cases s.unset name <;> rfl

theorem effects_unsetOrKeep (s : Interp) (name : String) :
    (s.unsetOrKeep name).effects = s.effects := by
  rw [unsetOrKeep, unset]
  cases s.place name with
  | global key =>
    dsimp only
    split <;> rfl
  | inner key =>
    dsimp only
    split
    · exact s.effects_mapInner _
    · rfl

theorem isLocal_unsetOrKeep (name : String) : IsLocal (·.unsetOrKeep name) where
  outside s := by
    rw [unsetOrKeep]
    cases h : s.unset name with
    | ok t => exact sameOutside_unset h
    | error e => exact .refl s
  own s := by
    rw [own_unsetOrKeep, own_unsetOrKeep, unset_own, own_own]
  effects s t h := by
    rw [effects_unsetOrKeep, effects_unsetOrKeep, h]
  names s h := by
    rw [unsetOrKeep, unset]
    cases s.place name with
    | global key =>
      dsimp only
      split
      · exact h.congr (s.links_mapGlobals _)
      · exact h
    | inner key =>
      dsimp only
      split
      · exact h.congr (s.links_mapInner _)
      · exact h

end Interp

namespace Eval

/-- An evaluation with a frame of its own in front, which is taken away however it ends. -/
def framed {α : Type} (frame : Frame) (m : Eval α) : Eval α := fun s =>
  ((m (s.pushFrame frame)).1, (m (s.pushFrame frame)).2.popFrame)

/-- A relation between evaluations that respects what commands are made of. -/
structure Congruence (A : ∀ {α : Type}, Eval α → Eval α → Prop) : Prop where
  pure {α : Type} (a : α) : A (pure a : Eval α) (pure a)
  throw {α : Type} (e : Exit) : A (throw e : Eval α) (throw e)
  bind {α β : Type} {m m' : Eval α} {f f' : α → Eval β} :
    A m m' → (∀ a, A (f a) (f' a)) → A (m >>= f) (m' >>= f')
  attempt {α : Type} {m m' : Eval α} : A m m' → A m.attempt m'.attempt
  /-- What is done with the state depends on its own part alone. -/
  look {α : Type} {f f' : Interp → Eval α} :
    (∀ s, f s.own = f s) → (∀ s, f' s.own = f' s) → (∀ s, A (f s) (f' s)) →
    A (get >>= f) (get >>= f')
  change {f : Interp → Interp} : Interp.IsLocal f → A (modify f : Eval Unit) (modify f)
  framed {α : Type} {m m' : Eval α} (frame : Frame) :
    A m m' → A (m.framed frame) (m'.framed frame)

variable {A : ∀ {α : Type}, Eval α → Eval α → Prop} {α : Type}

theorem Congruence.ite (_ : Congruence A) {c : Prop} [Decidable c] {m m' k k' : Eval α}
    (h : A m m') (hk : A k k') : A (if c then m else k) (if c then m' else k') := by
  by_cases hc : c
  · simpa only [if_pos hc] using h
  · simpa only [if_neg hc] using hk

variable (hA : Congruence A)
include hA

theorem Congruence.fail (e : CommandError) : A (Eval.fail e : Eval α) (Eval.fail e) :=
  hA.throw _

theorem Congruence.ofExcept {ε : Type} (cause : ε → CommandError) (r : Except ε α) :
    A (Eval.ofExcept cause r) (Eval.ofExcept cause r) := by
  cases r with
  | ok a => exact hA.pure a
  | error e => exact hA.fail _

theorem Congruence.getVar (name : String) : A (Eval.getVar name) (Eval.getVar name) := by
  have hown (s : Interp) : (Eval.ofExcept id (s.own.read name) : Eval String) =
      Eval.ofExcept id (s.read name) := by
    rw [s.read_own]
  exact hA.look hown hown fun _ => hA.ofExcept _ _

theorem Congruence.setVar (name value : String) :
    A (Eval.setVar name value) (Eval.setVar name value) :=
  hA.bind (hA.change (Interp.isLocal_set name value)) fun _ => hA.pure _

end Eval
end TclHost
