import TclHost.Interp.State
/-! # What an evaluation leaves alone

Only the global variables and the innermost frame belong to a running command.  The number of
frames, the frames further out, the links of the global frame and the level are those of its caller.  Two evaluations agree at
a level if they end alike from every state at it and keep to this.
-/
namespace TclHost

namespace Interp

/-- The second state differs from the first one at most in its global variables, its innermost
frame if that one is not the global one, its procedures and its effects. -/
structure SameOutside (s t : Interp) : Prop where
  depth : t.frames.length = s.frames.length
  outer : t.frames.tail = s.frames.tail
  links : t.global.links = s.global.links
  level : t.level = s.level

theorem SameOutside.refl (s : Interp) : s.SameOutside s :=
  ⟨rfl, rfl, rfl, rfl⟩

theorem SameOutside.trans {s t u : Interp} (h : s.SameOutside t) (h' : t.SameOutside u) :
    s.SameOutside u :=
  ⟨h'.depth.trans h.depth, h'.outer.trans h.outer, h'.links.trans h.links, h'.level.trans h.level⟩

theorem sameOutside_mapGlobals (s : Interp) (f : Table String → Table String) :
    s.SameOutside (s.mapGlobals f) :=
  ⟨rfl, rfl, rfl, rfl⟩

theorem sameOutside_mapInner (s : Interp) (f : Table String → Table String) :
    s.SameOutside (s.mapInner f) := by
  unfold mapInner
  split
  · exact s.sameOutside_mapGlobals f
  · next h => exact ⟨by simp [h], by simp [h], rfl, rfl⟩

theorem sameOutside_set (s : Interp) (name value : String) :
    s.SameOutside (s.set name value) := by
  unfold set
  split
  · exact s.sameOutside_mapGlobals _
  · exact s.sameOutside_mapInner _

theorem sameOutside_unset {s t : Interp} {name : String} (h : s.unset name = .ok t) :
    s.SameOutside t := by
  cases hp : s.place name <;> simp only [unset, hp] at h <;> split at h
  · cases h
    exact s.sameOutside_mapGlobals _
  · cases h
  · cases h
    exact s.sameOutside_mapInner _
  · cases h

/-- A link is made in the frame of a call only. -/
theorem sameOutside_linkGlobal (s : Interp) (name : String) :
    s.SameOutside (s.linkGlobal name) := by
  unfold linkGlobal
  split
  · exact SameOutside.refl s
  · next h => exact ⟨by simp [h], by simp [h], rfl, rfl⟩

/-- A frame that has been put in front is gone again, and the others are as they were. -/
theorem SameOutside.popFrame_frames {s t : Interp} {frame : Frame}
    (h : (s.pushFrame frame).SameOutside t) : t.popFrame.frames = s.frames :=
  h.outer

theorem SameOutside.links_top_popFrame {s t : Interp} {frame : Frame}
    (h : (s.pushFrame frame).SameOutside t) : t.popFrame.top.links = s.top.links := by
  rw [top, top, h.popFrame_frames]
  split
  · exact h.links
  · rfl

/-- What runs in a frame of its own leaves alone what its caller leaves alone. -/
theorem SameOutside.popFrame {s t : Interp} {frame : Frame}
    (h : (s.pushFrame frame).SameOutside t) : s.SameOutside t.popFrame :=
  ⟨congrArg List.length h.popFrame_frames, congrArg List.tail h.popFrame_frames, h.links, h.level⟩

theorem SameOutside.leave {s t : Interp} (h : s.enter.SameOutside t) : s.SameOutside t.leave :=
  ⟨h.depth, h.outer, h.links, congrArg (· - 1) h.level⟩

end Interp

namespace Eval

variable {α β : Type} {level : Nat}

theorem bind_apply (m : Eval α) (f : α → Eval β) (s : Interp) :
    (m >>= f) s = match m s with
      | (.ok a, t) => f a t
      | (.error e, t) => (.error e, t) := by
  have hbind : (m >>= f) s = (ExceptT.bindCont f (m s).1 : StateM Interp _) (m s).2 := rfl
  rw [hbind]
  rcases m s with ⟨_ | _, t⟩ <;> rfl

/-- From every state at the level, two evaluations end alike and leave alone what is not theirs. -/
def AgreesAt (level : Nat) (m m' : Eval α) : Prop :=
  ∀ s, s.level = level → m s = m' s ∧ s.SameOutside (m s).2

/-- An evaluation agrees with itself if it leaves alone what is not its own. -/
theorem agreesAt_self {m : Eval α} (h : ∀ s : Interp, s.SameOutside (m s).2) :
    m.AgreesAt level m :=
  fun s _ => ⟨rfl, h s⟩

theorem agreesAt_pure (a : α) : (pure a : Eval α).AgreesAt level (pure a) :=
  agreesAt_self fun s => Interp.SameOutside.refl s

theorem agreesAt_throw (e : Exit) : (throw e : Eval α).AgreesAt level (throw e) :=
  agreesAt_self fun s => Interp.SameOutside.refl s

theorem agreesAt_fail (e : CommandError) : (fail e : Eval α).AgreesAt level (fail e) :=
  agreesAt_throw _

theorem AgreesAt.bind {m m' : Eval α} {f f' : α → Eval β} (h : m.AgreesAt level m')
    (hf : ∀ a, (f a).AgreesAt level (f' a)) : (m >>= f).AgreesAt level (m' >>= f') := by
  intro s hs
  obtain ⟨heq, hsame⟩ := h s hs
  rw [bind_apply, bind_apply, ← heq]
  rcases hm : m s with ⟨_ | a, t⟩
  · rw [hm] at hsame
    exact ⟨rfl, hsame⟩
  · rw [hm] at hsame
    obtain ⟨heq', hsame'⟩ := hf a t (hsame.level.trans hs)
    exact ⟨heq', hsame.trans hsame'⟩

theorem AgreesAt.attempt {m m' : Eval α} (h : m.AgreesAt level m') :
    m.attempt.AgreesAt level m'.attempt := by
  intro s hs
  obtain ⟨heq, hsame⟩ := h s hs
  have hattempt (k : Eval α) : k.attempt s = (.ok (k s).1, (k s).2) := rfl
  rw [hattempt, hattempt, ← heq]
  exact ⟨rfl, hsame⟩

end Eval
end TclHost
