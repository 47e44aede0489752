import Mathlib.Order.Bounds.Defs
import TclHost.Proofs.Evaluation.Failure
import TclHost.Proofs.Evaluation.Nesting
import TclHost.Proofs.TclList.Nested
/-! # Rounds of a loop over lists

In front of each round the variables are given the next elements.  The lists were read before the
first round, so that a body can spoil neither them nor the place in them, and the next round gives
the variables their values again, wherever these live by then.  That different variables live at
different places is not obvious: a body may link names to global variables, but only a name to the
variable of that name.
-/
namespace TclHost

open Eval

/-! ## Places of variables -/

namespace Interp

theorem append_splitArray (cs : List Char) : (splitArray cs).1 ++ (splitArray cs).2 = cs := by
  rw [splitArray]
  split
  · exact List.takeWhile_append_dropWhile
  · exact List.append_nil cs

variable {s : Interp} {name other : String}

theorem KeepsNames.place (hs : s.KeepsNames) (hname : globalName? name = none) :
    s.place name = .global name ∨ s.place name = .inner name := by
  rw [Interp.place, hname]
  dsimp only
  split
  · next target htarget =>
    obtain rfl := hs _ target htarget
    rw [← String.ofList_append, append_splitArray, String.ofList_toList]
    exact .inl rfl
  · split
    · exact .inl rfl
    · exact .inr rfl

theorem KeepsNames.place_ne (hs : s.KeepsNames) (hname : globalName? name = none)
    (hother : globalName? other = none) (hne : name ≠ other) : s.place name ≠ s.place other := by
  rcases hs.place hname with h | h <;> rcases hs.place hother with h' | h' <;> simp [h, h', hne]

theorem get?_set_of_ne (value : String) (hne : s.place name ≠ s.place other) :
    (s.set name value).get? other = s.get? other := by
  have hinner (hframes : s.frames = []) (name : String) : ∃ key, s.place name = .global key := by
    rw [Interp.place]
    cases globalName? name with
    | none =>
      simp only [hframes]
      split <;> exact ⟨_, rfl⟩
    | some key => exact ⟨key, rfl⟩
  rw [get?, get?, place_set, set]
  cases hp : s.place name with
  | global key =>
    cases hp' : s.place other with
    | global key' =>
      have hkey : key' ≠ key := fun heq => hne (by rw [hp, hp', heq])
      simp [mapGlobals, hkey]
    | inner key' =>
      obtain ⟨global, frames, procs, effects, level⟩ := s
      cases frames with
      | nil =>
        obtain ⟨key, hkey⟩ := hinner rfl other
        cases hkey.symm.trans hp'
      | cons frame frames => rfl
  | inner key =>
    obtain ⟨global, frames, procs, effects, level⟩ := s
    cases frames with
    | nil =>
      obtain ⟨key, hkey⟩ := hinner rfl name
      cases hkey.symm.trans hp
    | cons frame frames =>
      cases hp' : Interp.place ⟨global, frame :: frames, procs, effects, level⟩ other with
      | global key' => rfl
      | inner key' =>
        have hkey : key' ≠ key := fun heq => hne (by rw [hp, hp', heq])
        simp [mapInner, inner, top, hkey]

def setAll (s : Interp) (entries : List (String × String)) : Interp :=
  entries.foldl (fun s entry => s.set entry.1 entry.2) s

theorem setAll_cons (s : Interp) (entry : String × String) (entries : List (String × String)) :
    s.setAll (entry :: entries) = (s.set entry.1 entry.2).setAll entries :=
  rfl

theorem KeepsNames.set (hs : s.KeepsNames) (name value : String) : (s.set name value).KeepsNames :=
  (isLocal_set name value).names s hs

theorem KeepsNames.setAll (hs : s.KeepsNames) (entries : List (String × String)) :
    (s.setAll entries).KeepsNames := by
  induction entries generalizing s with
  | nil => exact hs
  | cons entry entries ih => exact ih (hs.set entry.1 entry.2)

theorem KeepsNames.get?_setAll_of_not_mem (hs : s.KeepsNames) {entries : List (String × String)}
    (hplain : ∀ entry ∈ entries, globalName? entry.1 = none) (hother : globalName? other = none)
    (hmem : other ∉ entries.map Prod.fst) : (s.setAll entries).get? other = s.get? other := by
  induction entries generalizing s with
  | nil => rfl
  | cons entry entries ih =>
    rw [List.forall_mem_cons] at hplain
    rw [List.map_cons, List.mem_cons, not_or] at hmem
    rw [setAll_cons, ih (hs.set _ _) hplain.2 hmem.2]
    exact get?_set_of_ne _ (hs.place_ne hplain.1 hother (Ne.symm hmem.1))

theorem KeepsNames.get?_setAll (hs : s.KeepsNames) {entries : List (String × String)}
    (hplain : ∀ entry ∈ entries, globalName? entry.1 = none)
    (hnodup : (entries.map Prod.fst).Nodup) :
    ∀ entry ∈ entries, (s.setAll entries).get? entry.1 = some entry.2 := by
  induction entries generalizing s with
  | nil => simp
  | cons entry entries ih =>
    rw [List.forall_mem_cons] at hplain ⊢
    rw [List.map_cons, List.nodup_cons] at hnodup
    rw [setAll_cons]
    constructor
    · rw [(hs.set _ _).get?_setAll_of_not_mem hplain.2 hplain.1 hnodup.1]
      exact s.get?_set_self _ _
    · exact ih (hs.set _ _) hplain.2 hnodup.2

end Interp

/-! ### Names in a run -/

/-- An evaluation leaves alone what is not its own, and it links names to variables of the same
name only. -/
def Eval.KeepsNames {α : Type} (m : Eval α) : Prop :=
  ∀ s : Interp, s.SameOutside (m s).2 ∧ (s.KeepsNames → (m s).2.KeepsNames)

theorem Eval.KeepsNames.bind {α β : Type} {m : Eval α} {f : α → Eval β} (h : m.KeepsNames)
    (hf : ∀ a, (f a).KeepsNames) : (m >>= f).KeepsNames := by
  intro s
  obtain ⟨hsame, hnames⟩ := h s
  rw [bind_apply]
  rcases hm : m s with ⟨_ | a, t⟩
  · rw [hm] at hsame hnames
    exact ⟨hsame, hnames⟩
  · rw [hm] at hsame hnames
    obtain ⟨hsame', hnames'⟩ := hf a t
    exact ⟨hsame.trans hsame', hnames' ∘ hnames⟩

/-- When a frame is taken away again, the others have the links that they had. -/
theorem Eval.KeepsNames.framed {α : Type} {m : Eval α} (frame : Frame) (h : m.KeepsNames) :
    (m.framed frame).KeepsNames := by
  intro s
  obtain ⟨hsame, -⟩ := h (s.pushFrame frame)
  exact ⟨hsame.popFrame, fun hs => hs.congr hsame.links_top_popFrame⟩

theorem congruence_keepsNames : Congruence fun m _ => m.KeepsNames where
  pure _ s := ⟨.refl s, id⟩
  throw _ s := ⟨.refl s, id⟩
  bind := KeepsNames.bind
  attempt h := h
  look _ _ h s := h s s
  change hf s := ⟨hf.outside s, hf.names s⟩
  framed := KeepsNames.framed

theorem Eval.KeepsNames.nest {α : Type} {m : Eval α} (h : m.KeepsNames) : m.nest.KeepsNames := by
  intro s
  by_cases hlimit : s.level < maxNesting
  · obtain ⟨hsame, hnames⟩ := h s.enter
    rw [nest_apply m hlimit]
    exact ⟨hsame.leave, hnames⟩
  · rw [nest_at_limit m (Nat.not_lt.mp hlimit)]
    exact congruence_keepsNames.fail .tooManyNested s

theorem envWith_keepsNames (rounds levels : Nat) :
    (envWith rounds levels).Related (fun m _ => m.KeepsNames) (envWith rounds levels) := by
  have hA := congruence_keepsNames
  induction levels with
  | zero => exact ⟨fun _ => hA.fail _, fun _ => hA.fail _, rfl⟩
  | succ levels ih =>
    -- the second of the two evaluations does not matter, so that it cannot be inferred
    let action := invoke (envWith rounds levels)
    constructor
    · exact fun script => (@related_runCommands _ _ _ hA ih action action (related_invoke hA ih) ""
        script).nest
    · exact fun cs => (@related_runText _ _ _ hA ih action action (related_invoke hA ih) "" cs).nest
    · rfl

theorem Interp.keepsNames_fresh : Interp.fresh.KeepsNames := by
  intro name target htarget
  rw [Interp.fresh, Interp.top, Table.get?_empty] at htarget
  cases htarget

namespace Command

/-! ## Elements of a round -/

/-- The variables of one list with their values in a round. -/
def Binding.entries (b : Binding) : List (String × String) :=
  b.1.zip (b.2.takeD b.1.length "")

def Binding.rest (b : Binding) : Binding :=
  (b.1, b.2.drop b.1.length)

theorem Binding.map_fst_entries (b : Binding) : b.entries.map Prod.fst = b.1 :=
  List.map_fst_zip (List.takeD_length _ _ _).ge

theorem assignRound_eq (s : Interp) (names items : List String) :
    assignRound s names items = s.setAll (names.zip (items.takeD names.length "")) := by
  induction names generalizing s items with
  | nil => rfl
  | cons name names ih =>
    rw [assignRound, ih, List.length_cons, List.takeD_succ, List.zip_cons_cons, Interp.setAll_cons]

theorem assignRounds_eq (s : Interp) (bindings : List Binding) :
    bindings.foldl (fun s b => assignRound s b.1 b.2) s =
      s.setAll (bindings.flatMap Binding.entries) := by
  induction bindings generalizing s with
  | nil => rfl
  | cons b bindings ih =>
    rw [List.foldl_cons, ih, assignRound_eq, List.flatMap_cons, Interp.setAll, Interp.setAll,
      Interp.setAll, List.foldl_append]
    rfl

section
variable {α : Type} (a : α)

theorem takeD_add (m n : Nat) (items : List α) :
    items.takeD (m + n) a = items.takeD m a ++ (items.drop m).takeD n a := by
  induction m generalizing items with
  | zero => simp
  | succ m ih =>
    rw [Nat.add_right_comm, List.takeD_succ, List.takeD_succ, ih, List.drop_tail]
    rfl

theorem takeD_of_le {n : Nat} {items : List α} (h : items.length ≤ n) :
    items.takeD n a = items ++ List.replicate (n - items.length) a := by
  obtain ⟨k, rfl⟩ := Nat.exists_eq_add_of_le h
  rw [takeD_add, List.takeD_eq_take _ le_rfl, List.take_length, List.drop_length, List.takeD_nil,
    Nat.add_sub_cancel_left]

end

theorem map_fst_entries_flatMap (bindings : List Binding) :
    (bindings.flatMap Binding.entries).map Prod.fst = bindings.flatMap Prod.fst := by
  rw [List.map_flatMap]
  exact congrArg (bindings.flatMap ·) (funext Binding.map_fst_entries)

/-- At the start of a round the variables of a list have its next elements. -/
theorem get?_entries {s : Interp} (hs : s.KeepsNames) {bindings : List Binding}
    (hnodup : (bindings.flatMap Prod.fst).Nodup)
    (hplain : ∀ name ∈ bindings.flatMap Prod.fst, Interp.globalName? name = none) :
    ∀ b ∈ bindings, b.1.map (s.setAll (bindings.flatMap Binding.entries)).get? =
      (b.2.takeD b.1.length "").map some := by
  have hnames := map_fst_entries_flatMap bindings
  have hkeys : ∀ entry ∈ bindings.flatMap Binding.entries, Interp.globalName? entry.1 = none :=
    fun entry hentry => hplain entry.1 (hnames ▸ List.mem_map_of_mem hentry)
  have hvalue := hs.get?_setAll hkeys (hnames ▸ hnodup)
  intro b hb
  have hentries : ∀ entry ∈ b.entries,
      (s.setAll (bindings.flatMap Binding.entries)).get? entry.1 = some entry.2 :=
    fun entry hentry => hvalue entry (List.mem_flatMap_of_mem hb hentry)
  have hsnd : b.entries.map Prod.snd = b.2.takeD b.1.length "" :=
    List.map_snd_zip (List.takeD_length _ _ _).le
  calc b.1.map (s.setAll (bindings.flatMap Binding.entries)).get?
      = b.entries.map fun entry =>
          (s.setAll (bindings.flatMap Binding.entries)).get? entry.1 := by
        conv_lhs => rw [← b.map_fst_entries, List.map_map]
        rfl
    _ = b.entries.map (some ∘ Prod.snd) := List.map_congr_left hentries
    _ = (b.2.takeD b.1.length "").map some := by rw [← hsnd, List.map_map]

/-! ## Rounds -/

/-- One run of the body of a loop: the state that it starts from, how it ends, and the state that
it leaves. -/
structure BodyRun where
  start : Interp
  exit : Except Exit String
  stop : Interp

/-- After a run of the body there is a next round. -/
def BodyRun.GoesOn (r : BodyRun) : Prop :=
  (∃ value, r.exit = .ok value) ∨ r.exit = .error .continued

structure IsRound (env : Env) (body : List Char) (names : List String) (s : Interp) (r : BodyRun) :
    Prop where
  start : ∃ entries, entries.map Prod.fst = names ∧ r.start = s.setAll entries
  run : env.runText body r.start = (r.exit, r.stop)

/-- How a loop of so many rounds runs from a state, and how it ends: each round begins where the one
before it has stopped. -/
inductive Rounds (env : Env) (body : List Char) (names : List String) :
    Nat → Interp → List BodyRun → Except Exit String × Interp → Prop
  | done {s : Interp} : Rounds env body names 0 s [] (.ok "", s)
  | next {left : Nat} {s : Interp} {r : BodyRun} {runs : List BodyRun}
      {outcome : Except Exit String × Interp} (hround : IsRound env body names s r)
      (hgoes : r.GoesOn) (hrest : Rounds env body names left r.stop runs outcome) :
      Rounds env body names (left + 1) s (r :: runs) outcome
  | broke {left : Nat} {s : Interp} {r : BodyRun} (hround : IsRound env body names s r)
      (hexit : r.exit = .error .broke) :
      Rounds env body names (left + 1) s [r] (.ok "", r.stop)
  | left {left : Nat} {s : Interp} {r : BodyRun} {exit : Exit}
      (hround : IsRound env body names s r) (hexit : r.exit = .error exit)
      (hcontinued : exit ≠ .continued) (hbroke : exit ≠ .broke) :
      Rounds env body names (left + 1) s [r] (.error exit, r.stop)

section
variable {env : Env} {body : List Char} {names : List String} {left : Nat} {s : Interp}
  {runs : List BodyRun} {outcome : Except Exit String × Interp}

/-- If every run of the body goes on, there are all rounds, and the loop ends normally. -/
theorem Rounds.all (h : Rounds env body names left s runs outcome)
    (hgoes : ∀ r ∈ runs, r.GoesOn) : runs.length = left ∧ outcome.1 = .ok "" := by
  induction h with
  | done => exact ⟨rfl, rfl⟩
  | next hround hfirst hrest ih =>
    obtain ⟨hlength, hend⟩ := ih fun r hr => hgoes r (List.mem_cons_of_mem _ hr)
    exact ⟨congrArg (· + 1) hlength, hend⟩
  | broke hround hexit =>
    exact absurd (hgoes _ List.mem_cons_self) (by simp [BodyRun.GoesOn, hexit])
  | left hround hexit hcontinued hbroke =>
    exact absurd (hgoes _ List.mem_cons_self) (by simp [BodyRun.GoesOn, hexit, hcontinued])

theorem Rounds.of_broke (h : Rounds env body names left s runs outcome) {i : Nat} {r : BodyRun}
    (hr : runs[i]? = some r) (hbroke : r.exit = .error .broke) :
    runs.length = i + 1 ∧ outcome.1 = .ok "" := by
  induction h generalizing i with
  | done => cases hr
  | next hround hfirst hrest ih =>
    cases i with
    | zero =>
      cases hr
      exact absurd hfirst (by simp [BodyRun.GoesOn, hbroke])
    | succ i =>
      obtain ⟨hlength, hend⟩ := ih hr
      exact ⟨congrArg (· + 1) hlength, hend⟩
  | broke hround hexit =>
    cases i with
    | zero => exact ⟨rfl, rfl⟩
    | succ i => cases hr
  | left hround hexit hcontinued hne =>
    cases i with
    | zero =>
      cases hr
      exact absurd (Except.error.inj (hexit.symm.trans hbroke)) hne
    | succ i => cases hr

end

section
variable {env : Env} {body : List Char}

theorem eachRound_succ (env : Env) (body : List Char) (rounds : Nat) (bindings : List Binding)
    (s : Interp) : eachRound env body (rounds + 1) bindings s =
      match env.runText body (s.setAll (bindings.flatMap Binding.entries)) with
      | (.ok _, t) | (.error .continued, t) =>
        eachRound env body rounds (bindings.map Binding.rest) t
      | (.error .broke, t) => (.ok "", t)
      | (.error exit, t) => (.error exit, t) := by
  rw [← assignRounds_eq]
  generalize hstart : bindings.foldl (fun s b => assignRound s b.1 b.2) s = start
  have hmodify : (modify fun s => bindings.foldl (fun s b => assignRound s b.1 b.2) s : Eval Unit)
      s = (.ok (), start) := congrArg (Prod.mk _) hstart
  have hattempt : (env.runText body).attempt start =
      (.ok (env.runText body start).1, (env.runText body start).2) := rfl
  rw [eachRound, bind_apply, hmodify]
  dsimp only
  rw [bind_apply, loopBody, bind_apply, hattempt]
  dsimp only
  rcases env.runText body start with ⟨(_ | _ | _ | _ | _) | _, t⟩ <;> rfl

/-- Round after round, the elements of each list come one after the other. -/
theorem eachRound_rounds (hbody : (env.runText body).KeepsNames) {bindings : List Binding}
    (hnodup : (bindings.flatMap Prod.fst).Nodup)
    (hplain : ∀ name ∈ bindings.flatMap Prod.fst, Interp.globalName? name = none) {s : Interp}
    (hs : s.KeepsNames) (rounds : Nat) :
    ∃ runs, Rounds env body (bindings.flatMap Prod.fst) rounds s runs
        (eachRound env body rounds bindings s) ∧
      ∀ b ∈ bindings, (runs.flatMap fun r => b.1.map r.start.get?) =
        (b.2.takeD (runs.length * b.1.length) "").map some := by
  induction rounds generalizing bindings s with
  | zero => exact ⟨[], .done, by simp⟩
  | succ rounds ih =>
    have hnames := map_fst_entries_flatMap bindings
    have hfirst := get?_entries hs hnodup hplain
    rw [eachRound_succ]
    have hstart := hs.setAll (bindings.flatMap Binding.entries)
    generalize hset : s.setAll (bindings.flatMap Binding.entries) = start at hfirst hstart
    have hstop := (hbody start).2 hstart
    rcases hrun : env.runText body start with ⟨exit, stop⟩
    have hround : IsRound env body (bindings.flatMap Prod.fst) s ⟨start, exit, stop⟩ :=
      ⟨⟨_, hnames, hset.symm⟩, hrun⟩
    rw [hrun] at hstop
    have hnext (hgoes : BodyRun.GoesOn ⟨start, exit, stop⟩) :
        ∃ runs, Rounds env body (bindings.flatMap Prod.fst) (rounds + 1) s runs
            (eachRound env body rounds (bindings.map Binding.rest) stop) ∧
          ∀ b ∈ bindings, (runs.flatMap fun r => b.1.map r.start.get?) =
            (b.2.takeD (runs.length * b.1.length) "").map some := by
      have hrest : (bindings.map Binding.rest).flatMap Prod.fst = bindings.flatMap Prod.fst :=
        List.flatMap_map ..
      obtain ⟨runs, hruns, hvalues⟩ := ih (hrest ▸ hnodup) (hrest ▸ hplain) hstop
      refine ⟨_ :: runs, .next hround hgoes (hrest ▸ hruns), fun b hb => ?_⟩
      have hlater := hvalues b.rest (List.mem_map_of_mem hb)
      rw [List.flatMap_cons, hfirst b hb, List.length_cons, Nat.succ_mul, Nat.add_comm, takeD_add,
        List.map_append]
      exact congrArg _ hlater
    have hlast (r : BodyRun) (hr : r.start = start) : ∀ b ∈ bindings,
        ([r].flatMap fun r => b.1.map r.start.get?) =
          (b.2.takeD ([r].length * b.1.length) "").map some := by
      intro b hb
      rw [List.flatMap_singleton, hr, hfirst b hb, List.length_singleton, Nat.one_mul]
    rcases exit with (message | value | _ | _ | _) | value
    · exact ⟨_, .left hround rfl nofun nofun, hlast _ rfl⟩
    · exact ⟨_, .left hround rfl nofun nofun, hlast _ rfl⟩
    · exact ⟨_, .broke hround rfl, hlast _ rfl⟩
    · exact hnext (.inr rfl)
    · exact ⟨_, .left hround rfl nofun nofun, hlast _ rfl⟩
    · exact hnext (.inl ⟨value, rfl⟩)

end

/-! ## The number of rounds -/

theorem ceil_le_iff {length stride rounds : Nat} (hstride : 0 < stride) :
    (length + stride - 1) / stride ≤ rounds ↔ length ≤ rounds * stride := by
  rw [Nat.div_le_iff_le_mul_add_pred hstride, Nat.mul_comm]
  omega

theorem foldl_max_le_iff (bindings : List Binding) (start rounds : Nat) :
    bindings.foldl (fun n b => max n ((b.2.length + b.1.length - 1) / b.1.length)) start ≤ rounds ↔
      start ≤ rounds ∧
        ∀ b ∈ bindings, (b.2.length + b.1.length - 1) / b.1.length ≤ rounds := by
  induction bindings generalizing start with
  | nil => simp
  | cons b bindings ih => rw [List.foldl_cons, ih, List.forall_mem_cons, max_le_iff, and_assoc]

/-- The rounds are as many as it takes to use up all lists. -/
theorem isLeast_roundCount {bindings : List Binding} (hvars : ∀ b ∈ bindings, b.1 ≠ []) :
    IsLeast {rounds | ∀ b ∈ bindings, b.2.length ≤ rounds * b.1.length} (roundCount bindings) := by
  have hiff (rounds : Nat) : roundCount bindings ≤ rounds ↔
      ∀ b ∈ bindings, b.2.length ≤ rounds * b.1.length := by
    rw [roundCount, foldl_max_le_iff, and_iff_right (Nat.zero_le _)]
    exact forall₂_congr fun b hb => ceil_le_iff (List.length_pos_iff.mpr (hvars b hb))
  exact ⟨(hiff _).mp le_rfl, fun rounds hrounds => (hiff rounds).mpr hrounds⟩

/-! ## The loop -/

/-- The names and the list of each pair are read as these variables and elements. -/
abbrev ReadAs (pairs : List (String × String)) (bindings : List Binding) : Prop :=
  List.Forall₂ (fun p b => TclList.parse p.1 = .ok b.1 ∧ TclList.parse p.2 = .ok b.2) pairs bindings

theorem readBindings_of_readAs {pairs : List (String × String)} {bindings : List Binding}
    (h : ReadAs pairs bindings) (hvars : ∀ b ∈ bindings, b.1 ≠ []) (s : Interp) :
    readBindings (flatten pairs) s = (.ok bindings, s) := by
  induction h with
  | nil => rfl
  | @cons p b pairs bindings hp hrest ih =>
    rw [List.forall_mem_cons] at hvars
    have htail := ih hvars.2
    obtain ⟨vars, items⟩ := b
    obtain ⟨var, vars, rfl⟩ := List.exists_cons_of_ne_nil hvars.1
    simp only [flatten, List.flatMap_cons, List.cons_append, List.nil_append, readBindings_cons,
      hp.1, hp.2]
    rw [flatten] at htail
    rw [bind_apply, htail]
    rfl

theorem forEach_of_readAs (env : Env) {pairs : List (String × String)} {bindings : List Binding}
    (hpairs : pairs ≠ []) (h : ReadAs pairs bindings) (hvars : ∀ b ∈ bindings, b.1 ≠ [])
    (body : String) (s : Interp) : forEach env (flatten pairs ++ [body]) s =
      eachRound env body.toList (roundCount bindings) bindings s := by
  have hlength : (flatten pairs).length = 2 * pairs.length := by
    simp [flatten, List.length_flatMap, Nat.mul_comm]
  have hpos := List.length_pos_iff.mpr hpairs
  have hcount : ¬((flatten pairs ++ [body]).length < 3 ∨
      (flatten pairs ++ [body]).length % 2 = 0) := by
    rw [List.length_append, hlength, List.length_singleton]
    omega
  simp only [forEach, List.getLast?_concat, List.dropLast_concat, if_neg hcount]
  rw [bind_apply, readBindings_of_readAs h hvars]

/-- A loop over lists visits every element once and in order.  There are as many rounds as it takes
to use up all lists, and what the variables of a list are at the start of the body, one round after
the other, are the elements of the list and empty values behind them, whatever the body does.  After
a body that breaks there is no other round. -/
theorem forEach_visits (rounds levels : Nat) {pairs : List (String × String)}
    {bindings : List Binding} (hpairs : pairs ≠ []) (hread : ReadAs pairs bindings)
    (hvars : ∀ b ∈ bindings, b.1 ≠ []) (hnodup : (bindings.flatMap Prod.fst).Nodup)
    (hplain : ∀ name ∈ bindings.flatMap Prod.fst, Interp.globalName? name = none) (body : String)
    {s : Interp} (hs : s.KeepsNames) :
    ∃ total runs,
      IsLeast {rounds | ∀ b ∈ bindings, b.2.length ≤ rounds * b.1.length} total ∧
      Rounds (envWith rounds levels) body.toList (bindings.flatMap Prod.fst) total s runs
        (forEach (envWith rounds levels) (flatten pairs ++ [body]) s) ∧
      (∀ b ∈ bindings, (runs.flatMap fun r => b.1.map r.start.get?) =
        (b.2.takeD (runs.length * b.1.length) "").map some) ∧
      ((∀ r ∈ runs, r.GoesOn) → runs.length = total ∧
        (forEach (envWith rounds levels) (flatten pairs ++ [body]) s).1 = .ok "" ∧
        ∀ b ∈ bindings, (runs.flatMap fun r => b.1.map r.start.get?) =
          (b.2 ++ List.replicate (total * b.1.length - b.2.length) "").map some) ∧
      ∀ i r, runs[i]? = some r → r.exit = .error .broke → runs.length = i + 1 ∧
        (forEach (envWith rounds levels) (flatten pairs ++ [body]) s).1 = .ok "" := by
  have hleast := isLeast_roundCount hvars
  have hbody : ((envWith rounds levels).runText body.toList).KeepsNames :=
    (envWith_keepsNames rounds levels).runText body.toList
  obtain ⟨runs, hruns, hvalues⟩ := eachRound_rounds hbody hnodup hplain hs (roundCount bindings)
  rw [forEach_of_readAs _ hpairs hread hvars]
  refine ⟨_, runs, hleast, hruns, hvalues, fun hgoes => ?_, fun i r hr => hruns.of_broke hr⟩
  obtain ⟨hlength, hend⟩ := hruns.all hgoes
  refine ⟨hlength, hend, fun b hb => ?_⟩
  rw [hvalues b hb, hlength, takeD_of_le _ (hleast.1 b hb)]

/-- Three elements for two variables and one element for a third variable. -/
theorem forEach_visits_twoLists :
    let bindings : List Binding := [(["a", "b"], ["1", "2", "3"]), (["c"], ["x"])]
    let args := flatten [("a b", "1 2 3"), ("c", "x")] ++ ["set a $b; continue"]
    ReadAs [("a b", "1 2 3"), ("c", "x")] bindings ∧ Interp.fresh.KeepsNames ∧
      ∃ total runs,
        IsLeast {rounds | ∀ b ∈ bindings, b.2.length ≤ rounds * b.1.length} total ∧
        Rounds (envWith 1 2) "set a $b; continue".toList ["a", "b", "c"] total .fresh runs
          (forEach (envWith 1 2) args .fresh) ∧
        (∀ b ∈ bindings, (runs.flatMap fun r => b.1.map r.start.get?) =
          (b.2.takeD (runs.length * b.1.length) "").map some) ∧
        ((∀ r ∈ runs, r.GoesOn) → runs.length = total ∧
          (forEach (envWith 1 2) args .fresh).1 = .ok "" ∧
          ∀ b ∈ bindings, (runs.flatMap fun r => b.1.map r.start.get?) =
            (b.2 ++ List.replicate (total * b.1.length - b.2.length) "").map some) ∧
        ∀ i r, runs[i]? = some r → r.exit = .error .broke → runs.length = i + 1 ∧
          (forEach (envWith 1 2) args .fresh).1 = .ok "" := by
  intro bindings args
  have hread : ReadAs [("a b", "1 2 3"), ("c", "x")] bindings :=
    .cons ⟨TclList.parse_of_eq_format (by decide), TclList.parse_of_eq_format (by decide)⟩
      (.cons ⟨TclList.parse_of_eq_format (by decide), TclList.parse_of_eq_format (by decide)⟩ .nil)
  exact ⟨hread, Interp.keepsNames_fresh, forEach_visits 1 2 (by simp) hread (by decide) (by decide)
    (by decide) "set a $b; continue" Interp.keepsNames_fresh⟩

end Command

end TclHost
