import TclHost.Proofs.Evaluation.Congruence
import TclHost.Interp.Eval
/-! # What a failed command leaves behind

A builtin command that evaluates nothing checks and reads first and writes last.  So an exit leaves
the state as it was, whatever the exit is.  Removing several variables is the exception: it goes
from name to name, and the names in front of the missing one are gone.  A loop over lists reads all
of them before its first round.
-/
namespace TclHost

namespace Eval

variable {α β : Type}

/-- An evaluation looks at the state and leaves it as it is. -/
def Looks (m : Eval α) : Prop :=
  ∀ s : Interp, (m s).2 = s

def Succeeds (m : Eval α) : Prop :=
  ∀ s : Interp, ∃ a t, m s = (.ok a, t)

/-- An evaluation that ends with an exit leaves the state as it was. -/
def ExitsClean (m : Eval α) : Prop :=
  ∀ {s t : Interp} {exit : Exit}, m s = (.error exit, t) → t = s

theorem Looks.exitsClean {m : Eval α} (h : m.Looks) : m.ExitsClean := by
  intro s t exit hm
  simpa [hm] using h s

theorem Succeeds.exitsClean {m : Eval α} (h : m.Succeeds) : m.ExitsClean := by
  intro s t exit hm
  obtain ⟨a, u, hok⟩ := h s
  cases hok.symm.trans hm

theorem looks_pure (a : α) : (pure a : Eval α).Looks :=
  fun _ => rfl

theorem looks_throw (e : Exit) : (throw e : Eval α).Looks :=
  fun _ => rfl

theorem looks_fail (e : CommandError) : (fail e : Eval α).Looks :=
  looks_throw _

theorem looks_ofExcept {ε : Type} (cause : ε → CommandError) (r : Except ε α) :
    (ofExcept cause r).Looks := by
  cases r with
  | ok a => exact looks_pure a
  | error e => exact looks_fail _

theorem succeeds_setVar (name value : String) : (setVar name value).Succeeds :=
  fun s => ⟨value, s.set name value, rfl⟩

theorem Looks.bind_exitsClean {m : Eval α} {f : α → Eval β} (h : m.Looks)
    (hf : ∀ a, (f a).ExitsClean) : (m >>= f).ExitsClean := by
  intro s t exit hbind
  have hs := h s
  rw [bind_apply] at hbind
  rcases hm : m s with ⟨e | a, u⟩
  · rw [hm] at hs hbind
    cases hbind
    exact hs
  · rw [hm] at hs hbind
    obtain rfl : u = s := hs
    exact hf a hbind

theorem Looks.bind {m : Eval α} {f : α → Eval β} (h : m.Looks) (hf : ∀ a, (f a).Looks) :
    (m >>= f).Looks := by
  intro s
  have hs := h s
  rw [bind_apply]
  rcases hm : m s with ⟨e | a, u⟩
  · rw [hm] at hs
    exact hs
  · rw [hm] at hs
    obtain rfl : u = s := hs
    exact hf a u

theorem succeeds_modify_bind (f : Interp → Interp) (a : α) :
    (modify f >>= fun _ => pure a : Eval α).Succeeds :=
  fun s => ⟨a, f s, rfl⟩

theorem get_bind_exitsClean {f : Interp → Eval α} (h : ∀ s, (f s).ExitsClean) :
    (get >>= f).ExitsClean :=
  fun hm => h _ hm

end Eval

namespace Command

open Eval

variable {env : Env}

/-- The builtin commands that evaluate scripts or expressions. -/
def evaluators : List String :=
  ["catch", "eval", "expr", "for", "foreach", "if", "while"]

/-! ### Variables and procedures -/

theorem exitsClean_set (args : List String) : (set env args).ExitsClean := by
  unfold set
  split
  · exact get_bind_exitsClean fun s => (looks_ofExcept _ _).exitsClean
  · exact (succeeds_setVar _ _).exitsClean
  · exact (looks_fail _).exitsClean

theorem exitsClean_incrBy (name : String) (amount : Int64) : (incrBy name amount).ExitsClean := by
  apply get_bind_exitsClean
  intro s
  cases s.get? name with
  | some v => exact (looks_ofExcept _ _).bind_exitsClean fun _ => (succeeds_setVar _ _).exitsClean
  | none => exact (succeeds_setVar _ _).exitsClean

theorem exitsClean_incr (args : List String) : (incr env args).ExitsClean := by
  unfold incr
  split
  · exact exitsClean_incrBy _ _
  · exact (looks_ofExcept _ _).bind_exitsClean fun _ => exitsClean_incrBy _ _
  · exact (looks_fail _).exitsClean

theorem exitsClean_append (args : List String) : (append env args).ExitsClean := by
  cases args with
  | nil => exact (looks_fail _).exitsClean
  | cons name pieces => exact get_bind_exitsClean fun s => (succeeds_setVar _ _).exitsClean

theorem exitsClean_lappend (args : List String) : (lappend env args).ExitsClean := by
  cases args with
  | nil => exact (looks_fail _).exitsClean
  | cons name items =>
    apply get_bind_exitsClean
    intro s
    cases s.get? name with
    | some v => exact (looks_ofExcept _ _).bind_exitsClean fun _ => (succeeds_setVar _ _).exitsClean
    | none => exact (succeeds_setVar _ _).exitsClean

theorem exitsClean_global (args : List String) : (global env args).ExitsClean :=
  (succeeds_modify_bind _ _).exitsClean

/-- The parameters are read before the procedure is defined. -/
theorem exitsClean_proc (args : List String) : (proc env args).ExitsClean := by
  unfold proc
  split
  · exact (looks_ofExcept _ _).bind_exitsClean fun _ => (succeeds_modify_bind _ _).exitsClean
  · exact (looks_fail _).exitsClean

/-! ### Lists, texts and the outside -/

theorem looks_llength (args : List String) : (llength env args).Looks := by
  unfold llength
  split
  · exact (looks_ofExcept _ _).bind fun _ => looks_pure _
  · exact looks_fail _

theorem looks_lindex (args : List String) : (lindex env args).Looks := by
  cases args with
  | nil => exact looks_fail _
  | cons items specs => exact looks_ofExcept _ _

theorem looks_lrange (args : List String) : (lrange env args).Looks := by
  unfold lrange
  split
  · exact (looks_ofExcept _ _).bind fun _ => (looks_ofExcept _ _).bind fun _ => looks_pure _
  · exact looks_fail _

theorem looks_join (args : List String) : (join env args).Looks := by
  unfold join
  split
  · exact (looks_ofExcept _ _).bind fun _ => looks_pure _
  · exact (looks_ofExcept _ _).bind fun _ => looks_pure _
  · exact looks_fail _

theorem looks_split (args : List String) : (split env args).Looks := by
  unfold split
  split
  · exact looks_pure _
  · exact looks_pure _
  · exact looks_fail _

theorem looks_string (args : List String) : (string env args).Looks := by
  cases args with
  | nil => exact looks_fail _
  | cons sub args => exact looks_ofExcept _ _

theorem looks_info (args : List String) : (info env args).Looks :=
  fun s => looks_ofExcept _ _ s

theorem exitsClean_after (args : List String) : (after env args).ExitsClean := by
  unfold after
  split
  · exact (looks_ofExcept _ _).bind_exitsClean fun _ => (succeeds_modify_bind _ _).exitsClean
  · exact (looks_fail _).exitsClean

theorem exitsClean_print (name text : String) : (print name text).ExitsClean := by
  unfold print
  split
  · exact (succeeds_modify_bind _ _).exitsClean
  · exact (looks_fail _).exitsClean

theorem exitsClean_printArgs (ending : String) (args : List String) :
    (printArgs ending args).ExitsClean := by
  unfold printArgs
  split
  · exact exitsClean_print _ _
  · exact exitsClean_print _ _
  · exact (looks_fail _).exitsClean

theorem exitsClean_puts (args : List String) : (puts env args).ExitsClean := by
  unfold puts
  split
  · exact exitsClean_printArgs _ _
  · exact exitsClean_printArgs _ _

/-! ### Exits -/

theorem looks_breakLoop (args : List String) : (breakLoop env args).Looks := by
  cases args with
  | nil => exact looks_throw _
  | cons arg args => exact looks_fail _

theorem looks_continueLoop (args : List String) : (continueLoop env args).Looks := by
  cases args with
  | nil => exact looks_throw _
  | cons arg args => exact looks_fail _

theorem looks_returnValue (args : List String) : (returnValue env args).Looks := by
  unfold returnValue
  split
  · exact looks_throw _
  · exact looks_throw _
  · exact looks_fail _

theorem looks_error (args : List String) : (error env args).Looks := by
  unfold error
  split
  · exact looks_throw _
  · exact looks_throw _
  · exact looks_throw _
  · exact looks_fail _

/-- A builtin command that evaluates nothing, and does not remove variables, leaves no trace where
it ends with an exit. -/
theorem exitsClean_of_mem_actions : ∀ entry ∈ actions, entry.1 ∉ "unset" :: evaluators →
    ∀ args, (entry.2 env args).ExitsClean := by
  simp only [actions, List.forall_mem_cons]
  refine ⟨fun _ => exitsClean_after, fun _ => exitsClean_append,
    fun _ args => (looks_breakLoop args).exitsClean, fun h => absurd (by decide) h,
    fun _ args => (looks_pure _).exitsClean, fun _ args => (looks_continueLoop args).exitsClean,
    fun _ args => (looks_error args).exitsClean, fun h => absurd (by decide) h,
    fun h => absurd (by decide) h, fun h => absurd (by decide) h, fun h => absurd (by decide) h,
    fun _ => exitsClean_global, fun h => absurd (by decide) h, fun _ => exitsClean_incr,
    fun _ args => (looks_join args).exitsClean, fun _ => exitsClean_lappend,
    fun _ args => (looks_lindex args).exitsClean, fun _ args => (looks_pure _).exitsClean,
    fun _ args => (looks_llength args).exitsClean, fun _ args => (looks_lrange args).exitsClean,
    fun _ => exitsClean_proc, fun _ => exitsClean_puts,
    fun _ args => (looks_returnValue args).exitsClean, fun _ => exitsClean_set,
    fun _ args => (looks_split args).exitsClean, fun _ args => (looks_string args).exitsClean,
    fun h => absurd (by decide) h, fun h => absurd (by decide) h,
    fun _ hmem => (List.not_mem_nil hmem).elim⟩

theorem exitsClean_of_action? {name : String} {action : Action} (h : action? name = some action)
    (hname : name ∉ "unset" :: evaluators) (args : List String) : (action env args).ExitsClean := by
  unfold action? at h
  split at h
  · cases h
    exact (looks_info args).exitsClean
  · obtain ⟨front, back, heq, -⟩ := List.lookup_eq_some_iff.mp h
    exact exitsClean_of_mem_actions (name, action) (heq ▸ by simp) hname args

/-! ### Several variables -/

theorem unsetEach_of_ok (complain : Bool) {name : String} {s t : Interp} (h : s.unset name = .ok t)
    (names : List String) : unsetEach complain (name :: names) s = unsetEach complain names t := by
  have hget : (get : Eval Interp) s = (.ok s, s) := rfl
  rw [unsetEach, bind_apply, hget]
  simp only [h]
  rfl

theorem unsetEach_of_error (complain : Bool) {name : String} {s : Interp} {e : CommandError}
    (h : s.unset name = .error e) (names : List String) :
    unsetEach complain (name :: names) s =
      if complain then (.error (.error e.message), s) else unsetEach complain names s := by
  have hget : (get : Eval Interp) s = (.ok s, s) := rfl
  rw [unsetEach, bind_apply, hget]
  simp only [h]
  cases complain <;> rfl

/-- Removing variables one after the other ends with an exit at the first one that is missing, if
complaints are on; the ones in front of it are gone. -/
theorem unsetEach_eq_error {complain : Bool} {names : List String} {s t : Interp} {exit : Exit}
    (h : unsetEach complain names s = (.error exit, t)) :
    complain = true ∧ ∃ removed missing rest e, names = removed ++ missing :: rest ∧
      unsetEach true removed s = (.ok "", t) ∧ t.unset missing = .error e ∧
      exit = .error e.message := by
  induction names generalizing s with
  | nil => cases h
  | cons name names ih =>
    cases hname : s.unset name with
    | ok u =>
      rw [unsetEach_of_ok complain hname] at h
      obtain ⟨hcomplain, removed, missing, rest, e, rfl, hremoved, hmissing, hexit⟩ := ih h
      refine ⟨hcomplain, name :: removed, missing, rest, e, rfl, ?_, hmissing, hexit⟩
      rw [unsetEach_of_ok true hname, hremoved]
    | error e =>
      rw [unsetEach_of_error complain hname] at h
      cases complain with
      | true =>
        cases h
        exact ⟨rfl, [], name, names, e, rfl, rfl, hname, rfl⟩
      | false =>
        have hcomplain := (ih h).1
        cases hcomplain

/-- What the names in front of the missing one remove is removed, and nothing else. -/
theorem unset_eq_error {args : List String} {s t : Interp} {exit : Exit}
    (h : unset env args s = (.error exit, t)) :
    args.head? ≠ some "-nocomplain" ∧ ∃ removed missing rest e, args = removed ++ missing :: rest ∧
      unset env removed s = (.ok "", t) ∧ t.unset missing = .error e ∧
      exit = .error e.message := by
  unfold unset at h
  split at h
  · have hcomplain := (unsetEach_eq_error h).1
    cases hcomplain
  · next hplain =>
    obtain ⟨-, removed, missing, rest, e, rfl, hremoved, hmissing, hexit⟩ := unsetEach_eq_error h
    have hhead : (removed ++ missing :: rest).head? ≠ some "-nocomplain" := by
      intro hhead
      obtain ⟨names, hnames⟩ := List.head?_eq_some_iff.mp hhead
      exact hplain names hnames
    refine ⟨hhead, removed, missing, rest, e, rfl, ?_, hmissing, hexit⟩
    rw [← hremoved]
    unfold unset
    split
    · exact absurd rfl hhead
    · rfl

/-! ### Loops over lists -/

/-- Variable names that cannot be read or are none, or a list that cannot be read. -/
def Unreadable (names list : String) : Prop :=
  (∃ e, TclList.parse names = .error e) ∨ TclList.parse names = .ok [] ∨
    ∃ e, TclList.parse list = .error e

def flatten (pairs : List (String × String)) : List String :=
  pairs.flatMap fun p => [p.1, p.2]

/-- Arguments that a loop over lists cannot take: their number is wrong, or some pair of names and
a list is unreadable. -/
def Refused (args : List String) : Prop :=
  args.length < 3 ∨ args.length % 2 = 0 ∨
    ∃ pairs body, args = flatten pairs ++ [body] ∧ ∃ p ∈ pairs, Unreadable p.1 p.2

theorem readBindings_cons (names list : String) (args : List String) (s : Interp) :
    readBindings (names :: list :: args) s =
      match TclList.parse names, TclList.parse list with
      | .error e, _ => (.error (.error e.message), s)
      | .ok [], _ => (.error (.error CommandError.emptyVarList.message), s)
      | .ok _, .error e => (.error (.error e.message), s)
      | .ok vars, .ok items => (readBindings args >>= fun bindings =>
          pure ((vars, items) :: bindings)) s := by
  rw [readBindings]
  cases TclList.parse names with
  | error e => rfl
  | ok vars =>
    cases vars with
    | nil => rfl
    | cons var vars => cases TclList.parse list <;> rfl

theorem readBindings_of_unreadable {pairs : List (String × String)}
    (h : ∃ p ∈ pairs, Unreadable p.1 p.2) :
    ∃ message, ∀ s, readBindings (flatten pairs) s = (.error (.error message), s) := by
  induction pairs with
  | nil => simp at h
  | cons p pairs ih =>
    simp only [flatten, List.flatMap_cons, List.cons_append, List.nil_append, readBindings_cons]
    cases hnames : TclList.parse p.1 with
    | error e => exact ⟨e.message, fun s => rfl⟩
    | ok vars =>
      cases vars with
      | nil => exact ⟨CommandError.emptyVarList.message, fun s => rfl⟩
      | cons var vars =>
        cases hlist : TclList.parse p.2 with
        | error e => exact ⟨e.message, fun s => rfl⟩
        | ok items =>
          have hreadable : ¬Unreadable p.1 p.2 := by simp [Unreadable, hnames, hlist]
          obtain ⟨message, hrest⟩ := ih (by simpa [hreadable] using h)
          refine ⟨message, fun s => ?_⟩
          have hs := hrest s
          rw [flatten] at hs
          dsimp only
          rw [bind_apply, hs]

/-- A loop that cannot take its arguments fails before it assigns or evaluates anything: the state
is as it was, and what could run its body does not matter. -/
theorem forEach_of_refused {args : List String} (h : Refused args) :
    ∃ message, ∀ env s, forEach env args s = (.error (.error message), s) := by
  by_cases hcount : args.length < 3 ∨ args.length % 2 = 0
  · refine ⟨(CommandError.wrongArgs forEach.forEachUsage).message, fun env s => ?_⟩
    simp only [forEach, if_pos hcount]
    cases args.getLast? <;> rfl
  · have hpairs := h
    simp only [Refused, ← or_assoc, hcount, false_or] at hpairs
    obtain ⟨pairs, body, rfl, hbad⟩ := hpairs
    obtain ⟨message, hmessage⟩ := readBindings_of_unreadable hbad
    refine ⟨message, fun env s => ?_⟩
    simp only [forEach, List.getLast?_concat, List.dropLast_concat, if_neg hcount]
    rw [bind_apply, hmessage]

/-! ### All commands -/

/-- A builtin command that evaluates nothing and ends with an exit has left variables, links and
procedures as they were, effects and level included.  Only removing several variables has done
something: what removing the names in front of the missing one does.  A loop over lists that cannot
take its arguments fails from every state, and leaves it as it was. -/
theorem exits_leave_state :
    (∀ name action, action? name = some action → name ∉ "unset" :: evaluators →
      ∀ env args s exit t, action env args s = (.error exit, t) → t = s) ∧
    (∀ env args s exit t, unset env args s = (.error exit, t) →
      args.head? ≠ some "-nocomplain" ∧
        ∃ removed missing rest e, args = removed ++ missing :: rest ∧
          unset env removed s = (.ok "", t) ∧ t.unset missing = .error e ∧
          exit = .error e.message) ∧
    ∀ args, Refused args →
      ∃ message, ∀ env s, forEach env args s = (.error (.error message), s) := by
  refine ⟨?_, ?_, ?_⟩
  · intro name action haction hname env args s exit t hexit
    exact exitsClean_of_action? haction hname args hexit
  · intro env args s exit t hexit
    exact unset_eq_error hexit
  · intro args hrefused
    exact forEach_of_refused hrefused

def oneVariable : Interp :=
  Interp.fresh.set "n" "1"

def oneVariableLess : Interp :=
  oneVariable.mapGlobals fun vars => vars.keep fun key => !Interp.isRemovedWith "n" key

theorem not_mem_keys_oneVariableLess (key : String) :
    key ∉ oneVariableLess.global.vars.keys := by
  have hvars : oneVariableLess.global.vars =
      ((∅ : Table String).set "n" "1").keep fun key => !Interp.isRemovedWith "n" key := rfl
  rw [Table.mem_keys_iff, hvars, Table.get?_keep, Table.get?_set, Table.get?_empty]
  by_cases hkey : key = "n" <;> simp [hkey, Interp.isRemovedWith]

theorem unset_oneVariableLess :
    oneVariableLess.unset "m" = .error (.noVariableToUnset "m") := by
  have hplace : oneVariableLess.place "m" = .global "m" := rfl
  rw [Interp.unset, hplace]
  dsimp only
  rw [if_neg]
  rw [List.any_eq_true]
  rintro ⟨key, hkey, -⟩
  exact not_mem_keys_oneVariableLess key hkey

/-- An increment that is no integer is not added; of two variables the one that is there is gone;
and a loop whose second names are none does nothing for its first ones. -/
theorem exits_leave_state_oneVariable :
    (∃ exit t, incr (Env.top 1) ["n", "x"] oneVariable = (.error exit, t) ∧ t = oneVariable) ∧
    (∃ exit, unset (Env.top 1) ["n", "m"] oneVariable = (.error exit, oneVariableLess) ∧
      ∃ removed missing rest e, ["n", "m"] = removed ++ missing :: rest ∧
        unset (Env.top 1) removed oneVariable = (.ok "", oneVariableLess) ∧
        oneVariableLess.unset missing = .error e ∧ exit = .error e.message) ∧
    ∃ message, ∀ env s,
      forEach env ["a", "1 2", "", "3", "set r 1"] s = (.error (.error message), s) := by
  have hincr : incr (Env.top 1) ["n", "x"] oneVariable =
      (.error (.error (Number.Error.notInteger "x" false).message), oneVariable) := rfl
  have hremoved : oneVariable.unset "n" = .ok oneVariableLess := rfl
  have hunset : unset (Env.top 1) ["n", "m"] oneVariable =
      (.error (.error (CommandError.noVariableToUnset "m").message), oneVariableLess) := by
    change unsetEach true ["n", "m"] oneVariable = _
    rw [unsetEach_of_ok true hremoved, unsetEach_of_error true unset_oneVariableLess, if_pos rfl]
  have hempty : TclList.parse "" = .ok [] := by
    rw [TclList.parse, String.toList_empty, TclList.elements]
    rfl
  have hrefused : Refused ["a", "1 2", "", "3", "set r 1"] :=
    .inr (.inr ⟨[("a", "1 2"), ("", "3")], "set r 1", rfl, ("", "3"), by simp, .inr (.inl hempty)⟩)
  refine ⟨⟨_, _, hincr, ?_⟩, ⟨_, hunset, ?_⟩, ?_⟩
  · exact exits_leave_state.1 "incr" incr rfl (by decide) _ _ _ _ _ hincr
  · exact (exits_leave_state.2.1 _ _ _ _ _ hunset).2
  · exact exits_leave_state.2.2 _ hrefused

end Command
end TclHost
