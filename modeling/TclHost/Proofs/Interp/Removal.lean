import TclHost.Interp.Command.Variable
import TclHost.Proofs.Evaluation.Agreement
/-! # Removing variables

With a variable go all keys that begin with its key and an opening parenthesis and end with a
closing one.  Elsewhere a key belongs to an array by its first parenthesis.  The two notions agree
on a key without a parenthesis, which is that of a scalar or of a whole array; with a key that has
one, keys go that are elements of another array.
-/
namespace TclHost.Interp

/-- Where a table of variables is: it is the global one, or that of a frame, counted from the
innermost one. -/
inductive Home where
  | global
  | frame (i : Nat)
  deriving DecidableEq

def tableAt (s : Interp) : Home → Table String
  | .global => s.global.vars
  | .frame i => ((s.frames[i]?).map (·.vars)).getD ∅

def home (s : Interp) (name : String) : Home :=
  match s.place name, s.frames with
  | .inner _, _ :: _ => .frame 0
  | _, _ => .global

def key (s : Interp) (name : String) : String :=
  match s.place name with
  | .global key | .inner key => key

theorem get?_eq_tableAt (s : Interp) (name : String) :
    s.get? name = (s.tableAt (s.home name)).get? (s.key name) := by
  rw [get?, home, key]
  cases s.place name with
  | global key => rfl
  | inner key =>
    obtain ⟨global, frames, procs, effects, level⟩ := s
    cases frames <;> rfl

structure SameButVariables (s t : Interp) : Prop where
  links : t.frames.map (·.links) = s.frames.map (·.links)
  globalLinks : t.global.links = s.global.links
  procs : t.procs = s.procs
  effects : t.effects = s.effects
  level : t.level = s.level

/-- The keys of the table of a variable that pass a test are removed with it, and nothing else
changes; it is an error if the table has no such key, and then nothing changes at all. -/
structure Removes (s : Interp) (name : String) (gone : String → Bool) : Prop where
  removed (h : ∃ k, gone k = true ∧ ((s.tableAt (s.home name)).get? k).isSome) :
    ∃ t, s.unset name = .ok t ∧ s.SameButVariables t ∧
      ∀ home k, (t.tableAt home).get? k =
        if home = s.home name ∧ gone k = true then none else (s.tableAt home).get? k
  refused (h : ¬∃ k, gone k = true ∧ ((s.tableAt (s.home name)).get? k).isSome) :
    s.unset name = .error (.noVariableToUnset name) ∧
      Command.unsetEach true [name] s =
        (.error (.error (CommandError.noVariableToUnset name).message), s)

def removeAt (s : Interp) (name : String) (gone : String → Bool) : Interp :=
  let remove (t : Table String) := t.keep fun k => !gone k
  match s.place name with
  | .global _ => s.mapGlobals remove
  | .inner _ => s.mapInner remove

theorem sameButVariables_removeAt (s : Interp) (name : String) (gone : String → Bool) :
    s.SameButVariables (s.removeAt name gone) := by
  rw [removeAt]
  cases s.place name with
  | global key => exact ⟨rfl, rfl, rfl, rfl, rfl⟩
  | inner key =>
    obtain ⟨global, frames, procs, effects, level⟩ := s
    cases frames <;> exact ⟨rfl, rfl, rfl, rfl, rfl⟩

theorem get?_keep_not (t : Table String) (gone : String → Bool) (k : String) :
    (t.keep fun k => !gone k).get? k = if gone k = true then none else t.get? k := by
  rw [Table.get?_keep]
  cases gone k <;> rfl

theorem get?_tableAt_removeAt (s : Interp) (name : String) (gone : String → Bool) (other : Home)
    (k : String) : ((s.removeAt name gone).tableAt other).get? k =
      if other = s.home name ∧ gone k = true then none else (s.tableAt other).get? k := by
  rw [removeAt, home]
  obtain ⟨global, frames, procs, effects, level⟩ := s
  cases place _ name with
  | global key =>
    cases other with
    | global => simpa [tableAt, mapGlobals] using get?_keep_not global.vars gone k
    | frame i => simp [tableAt, mapGlobals]
  | inner key =>
    cases frames with
    | nil =>
      cases other with
      | global => simpa [tableAt, mapInner, mapGlobals] using get?_keep_not global.vars gone k
      | frame i => simp [tableAt, mapInner, mapGlobals]
    | cons frame frames =>
      cases other with
      | global => simp [tableAt, mapInner]
      | frame i =>
        cases i with
        | zero => simpa [tableAt, mapInner] using get?_keep_not frame.vars gone k
        | succ i => simp [tableAt, mapInner]

theorem unset_eq (s : Interp) (name : String) :
    s.unset name =
      if (s.tableAt (s.home name)).keys.any (isRemovedWith (s.key name)) then
        .ok (s.removeAt name (isRemovedWith (s.key name)))
      else .error (.noVariableToUnset name) := by
  rw [unset, removeAt, home, key]
  cases s.place name with
  | global key => rfl
  | inner key =>
    obtain ⟨global, frames, procs, effects, level⟩ := s
    cases frames <;> rfl

theorem any_keys_iff (t : Table String) (gone : String → Bool) :
    t.keys.any gone = true ↔ ∃ k, gone k = true ∧ (t.get? k).isSome := by
  rw [List.any_eq_true]
  constructor
  · rintro ⟨k, hk, hgone⟩
    exact ⟨k, hgone, (t.mem_keys_iff k).mp hk⟩
  · rintro ⟨k, hgone, hk⟩
    exact ⟨k, (t.mem_keys_iff k).mpr hk, hgone⟩

/-- In every state, the keys that begin and end as those of elements go with a variable. -/
theorem removes_isRemovedWith (s : Interp) (name : String) :
    s.Removes name (isRemovedWith (s.key name)) := by
  have hunset := s.unset_eq name
  constructor
  · intro h
    rw [if_pos ((any_keys_iff _ _).mpr h)] at hunset
    exact ⟨_, hunset, s.sameButVariables_removeAt name _, s.get?_tableAt_removeAt name _⟩
  · intro h
    rw [if_neg (mt (any_keys_iff _ _).mp h)] at hunset
    have hget : (get : Eval Interp) s = (.ok s, s) := rfl
    refine ⟨hunset, ?_⟩
    rw [Command.unsetEach, Eval.bind_apply, hget]
    simp only [hunset]
    rfl

/-- What is removed is settled by the state before and the state after. -/
theorem Removes.agree {s : Interp} {name : String} {gone gone' : String → Bool}
    (h : s.Removes name gone) (h' : s.Removes name gone') {k : String}
    (hk : ((s.tableAt (s.home name)).get? k).isSome) (hgone : gone k = true) :
    gone' k = true := by
  obtain ⟨t, ht, -, htable⟩ := h.removed ⟨k, hgone, hk⟩
  by_cases hany : ∃ k, gone' k = true ∧ ((s.tableAt (s.home name)).get? k).isSome
  · obtain ⟨t', ht', -, htable'⟩ := h'.removed hany
    cases ht.symm.trans ht'
    have hnone : (t.tableAt (s.home name)).get? k = none := by
      rw [htable, if_pos ⟨rfl, hgone⟩]
    rw [htable'] at hnone
    cases hkept : gone' k with
    | true => rfl
    | false =>
      rw [if_neg (by simp [hkept])] at hnone
      rw [hnone] at hk
      cases hk
  · have hboth := ht.symm.trans (h'.refused hany).1
    cases hboth

theorem Removes.congr {s : Interp} {name : String} {gone gone' : String → Bool}
    (h : s.Removes name gone)
    (hagree : ∀ k, ((s.tableAt (s.home name)).get? k).isSome → gone' k = gone k) :
    s.Removes name gone' := by
  have hany : (∃ k, gone' k = true ∧ ((s.tableAt (s.home name)).get? k).isSome) ↔
      ∃ k, gone k = true ∧ ((s.tableAt (s.home name)).get? k).isSome := by
    constructor
    · rintro ⟨k, hgone, hk⟩
      exact ⟨k, hagree k hk ▸ hgone, hk⟩
    · rintro ⟨k, hgone, hk⟩
      exact ⟨k, (hagree k hk).symm ▸ hgone, hk⟩
  constructor
  · intro h'
    obtain ⟨t, ht, hsame, htable⟩ := h.removed (hany.mp h')
    refine ⟨t, ht, hsame, ?_⟩
    intro home k
    rw [htable]
    by_cases hhome : home = s.home name
    · subst hhome
      cases hk : (s.tableAt (s.home name)).get? k with
      | none => simp
      | some v => rw [hagree k (by simp [hk])]
    · simp [hhome]
  · exact fun h' => h.refused (mt hany.mpr h')

/-! ## Arrays -/

/-- A key is that of a variable or, if that one is no element itself, of an element of the array
of its name. -/
def isVariableOrElement (name key : String) : Bool :=
  key == name || (splitArray name.toList).2.isEmpty && (splitArray key.toList).1 == name.toList

/-- A key is that of another one with an index behind it. -/
def hasIndexAfter (name key : String) : Bool :=
  key.startsWith (name ++ "(") && key.endsWith ')'

theorem hasIndexAfter_iff {name key : String} : hasIndexAfter name key = true ↔
    ∃ cs, key.toList = name.toList ++ '(' :: cs ∧ cs.getLast? = some ')' := by
  have hprefix : (name ++ "(").toList = name.toList ++ ['('] := String.toList_append
  rw [hasIndexAfter, Bool.and_eq_true, String.startsWith_string_iff,
    String.endsWith_char_eq_getLast?, beq_iff_eq, hprefix]
  constructor
  · rintro ⟨⟨cs, hcs⟩, hlast⟩
    refine ⟨cs, by simp [← hcs], ?_⟩
    rw [← hcs, List.getLast?_append, List.getLast?_concat] at hlast
    cases hend : cs.getLast? with
    | none =>
      rw [hend] at hlast
      cases hlast
    | some c =>
      rw [hend] at hlast
      exact hlast
  · rintro ⟨cs, hcs, hlast⟩
    refine ⟨⟨cs, by simp [hcs]⟩, ?_⟩
    rw [hcs, List.getLast?_append, List.getLast?_cons, hlast]
    rfl

theorem splitArray_of_not_mem {cs : List Char} (h : '(' ∉ cs) : splitArray cs = (cs, []) :=
  if_neg fun hboth => h (by simpa using hboth.2)

/-- A key is split at its first parenthesis, if it ends with a closing one. -/
theorem splitArray_append {base cs : List Char} (h : '(' ∉ base) :
    splitArray (base ++ '(' :: cs) =
      if cs.getLast? = some ')' then (base, '(' :: cs) else (base ++ '(' :: cs, []) := by
  have hbase : ∀ c ∈ base, (c != '(') = true := by
    intro c hc
    simp only [bne_iff_ne]
    rintro rfl
    exact h hc
  have hlast : ('(' :: cs).getLast? = some ')' ↔ cs.getLast? = some ')' := by
    rw [List.getLast?_cons]
    cases cs.getLast? <;> simp
  have hopen : ∀ c ∈ ('(' :: cs).head?, (c != '(') = false := by simp
  obtain ⟨htake, hdrop⟩ := Text.span_append hbase hopen
  rw [splitArray, htake, hdrop]
  simp [hlast]

/-- A name that has a parenthesis is the first part of no key but itself. -/
theorem eq_of_fst_splitArray {name cs : List Char} (h : '(' ∈ name)
    (hname : (splitArray cs).1 = name) : cs = name := by
  by_cases hmem : '(' ∈ cs
  · obtain ⟨base, ds, rfl, hbase⟩ := List.eq_append_cons_of_mem hmem
    rw [splitArray_append hbase] at hname
    split at hname
    · rw [← hname] at h
      exact absurd h hbase
    · exact hname
  · rw [splitArray_of_not_mem hmem] at hname
    exact hname

/-- Behind a name without a parenthesis, an index makes an element of the array of that name. -/
theorem fst_splitArray_eq_iff {name key : String} (h : '(' ∉ name.toList) :
    (splitArray key.toList).1 = name.toList ↔ key = name ∨ hasIndexAfter name key = true := by
  rw [hasIndexAfter_iff, ← String.toList_inj]
  constructor
  · intro hname
    by_cases hmem : '(' ∈ key.toList
    · obtain ⟨base, cs, hkey, hbase⟩ := List.eq_append_cons_of_mem hmem
      rw [hkey, splitArray_append hbase] at hname
      split at hname
      · next hlast => exact .inr ⟨cs, by rw [hkey, ← hname], hlast⟩
      · exact .inl (hkey.trans hname)
    · rw [splitArray_of_not_mem hmem] at hname
      exact .inl hname
  · rintro (hname | ⟨cs, hkey, hlast⟩)
    · rw [hname, splitArray_of_not_mem h]
    · rw [hkey, splitArray_append h, if_pos hlast]

theorem isVariableOrElement_eq_isRemovedWith {name : String} (h : '(' ∉ name.toList)
    (key : String) : isVariableOrElement name key = isRemovedWith name key := by
  have hsplit := splitArray_of_not_mem h
  have helement : ((splitArray key.toList).1 == name.toList) =
      (key == name || hasIndexAfter name key) := by
    rw [Bool.eq_iff_iff]
    simpa using fst_splitArray_eq_iff h
  rw [isVariableOrElement, isRemovedWith, hsplit, helement, ← hasIndexAfter]
  cases key == name <;> simp

/-- A name with a parenthesis is that of no array: only the variable itself has its name. -/
theorem isVariableOrElement_of_mem {name : String} (h : '(' ∈ name.toList) (key : String) :
    isVariableOrElement name key = (key == name) := by
  rw [Bool.eq_iff_iff, isVariableOrElement]
  simp only [Bool.or_eq_true, Bool.and_eq_true, beq_iff_eq]
  constructor
  · rintro (hkey | ⟨-, hkey⟩)
    · exact hkey
    · exact String.toList_inj.mp (eq_of_fst_splitArray h hkey)
  · exact .inl

/-- In every state the keys that are that of a variable, or that one with an index behind it, are
removed with the variable.  These are the variable and the elements of its array, and nothing else,
exactly if its key has no parenthesis or its table has no key that is that one with an index behind
it. -/
theorem removes_variableOrElement_iff (s : Interp) (name : String) :
    s.Removes name (isRemovedWith (s.key name)) ∧
      (s.Removes name (isVariableOrElement (s.key name)) ↔
        ('(' ∈ (s.key name).toList → ∀ k, ((s.tableAt (s.home name)).get? k).isSome →
          hasIndexAfter (s.key name) k = false)) := by
  have hremoves := s.removes_isRemovedWith name
  refine ⟨hremoves, ?_⟩
  constructor
  · intro h hmem k hk
    cases hindex : hasIndexAfter (s.key name) k with
    | false => rfl
    | true =>
      have hgone : isRemovedWith (s.key name) k = true := by
        rw [isRemovedWith, ← hasIndexAfter, hindex, Bool.or_true]
      have hsame := hremoves.agree h hk hgone
      rw [isVariableOrElement_of_mem hmem, beq_iff_eq] at hsame
      obtain ⟨cs, hcs, -⟩ := hasIndexAfter_iff.mp hindex
      rw [hsame] at hcs
      simp at hcs
  · intro h
    by_cases hmem : '(' ∈ (s.key name).toList
    · refine hremoves.congr ?_
      intro k hk
      rw [isVariableOrElement_of_mem hmem, isRemovedWith, ← hasIndexAfter, h hmem k hk,
        Bool.or_false]
    · exact hremoves.congr fun k _ => isVariableOrElement_eq_isRemovedWith hmem k

/-- Two elements of one array; the index of the second one is that of the first one with a further
one behind it. -/
def twoElements : Interp :=
  (Interp.fresh.set "a(x)" "1").set "a(x)(y)" "2"

theorem place_of_frames_eq_nil {s : Interp} (h : s.frames = []) (hlinks : s.global.links = ∅)
    {name : String} (hname : globalName? name = none) :
    s.place name = .global name ∧ s.home name = .global ∧ s.key name = name := by
  have hplace : s.place name = .global name := by
    simp only [place, hname, top, h, hlinks, Table.get?_empty]
  rw [home, key, hplace]
  exact ⟨rfl, rfl, rfl⟩

/-- Removing the first element of the array takes the second one along. -/
theorem unset_takes_other_element :
    splitArray "a(x)".toList = ("a".toList, "(x)".toList) ∧
      splitArray "a(x)(y)".toList = ("a".toList, "(x)(y)".toList) ∧
      twoElements.get? "a(x)(y)" = some "2" ∧
      ∃ t, twoElements.unset "a(x)" = .ok t ∧ t.get? "a(x)(y)" = none := by
  have hfirst : globalName? "a(x)" = none := by decide
  have hsecond : globalName? "a(x)(y)" = none := by decide
  obtain ⟨-, hhome, hkey⟩ := place_of_frames_eq_nil (s := twoElements) rfl rfl hfirst
  have hstored : (twoElements.tableAt .global).get? "a(x)(y)" = some "2" := by
    rw [twoElements, set, set, (place_of_frames_eq_nil rfl rfl hfirst).1,
      (place_of_frames_eq_nil rfl rfl hsecond).1, tableAt]
    simp [mapGlobals]
  have hgone : isRemovedWith "a(x)" "a(x)(y)" = true := by
    have hindex : hasIndexAfter "a(x)" "a(x)(y)" = true :=
      hasIndexAfter_iff.mpr ⟨"y)".toList, by decide, by decide⟩
    rw [isRemovedWith, ← hasIndexAfter, hindex, Bool.or_true]
  have hremoves := twoElements.removes_isRemovedWith "a(x)"
  rw [hkey] at hremoves
  obtain ⟨t, ht, hsame, htable⟩ := hremoves.removed ⟨_, hgone, by rw [hhome, hstored]; rfl⟩
  have hframes : t.frames = [] := List.map_eq_nil_iff.mp hsame.links
  obtain ⟨-, hhome', hkey'⟩ := place_of_frames_eq_nil hframes hsame.globalLinks hsecond
  refine ⟨by decide, by decide, ?_, t, ht, ?_⟩
  · obtain ⟨-, hhome'', hkey''⟩ := place_of_frames_eq_nil (s := twoElements) rfl rfl hsecond
    rw [get?_eq_tableAt, hhome'', hkey'', hstored]
  · rw [get?_eq_tableAt, hhome', hkey', htable, if_pos ⟨hhome.symm, hgone⟩]

end TclHost.Interp
