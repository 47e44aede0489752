import TclHost.Text.Delimited
/-! # Balanced texts

A delimited text ends at the first closing character that closes nothing in front of it.  The text
in front of that character is balanced, and a balanced text is all that a search for a closing
character passes over.
-/
namespace TclHost.Text

/-- Closing characters close what has been opened in front of them, and nothing is left open; a
backslash takes the next character out.  Where nothing nests, because both characters are the same
one, that one does not occur. -/
inductive Balanced (opening closing : Char) : List Char → Prop
  | nil : Balanced opening closing []
  | escaped (c : Char) {cs : List Char} (h : Balanced opening closing cs) :
    Balanced opening closing ('\\' :: c :: cs)
  | other {c : Char} {cs : List Char} (hb : c ≠ '\\') (ho : c ≠ opening) (hc : c ≠ closing)
    (h : Balanced opening closing cs) : Balanced opening closing (c :: cs)
  | nested {inner cs : List Char} (hne : opening ≠ closing) (hinner : Balanced opening closing inner)
    (h : Balanced opening closing cs) : Balanced opening closing (opening :: inner ++ closing :: cs)

def BalancedTo (opening closing : Char) : (depth : Nat) → List Char → Prop
  | 0, cs => Balanced opening closing cs
  | depth + 1, cs => ∃ inner rest, cs = inner ++ closing :: rest ∧
    Balanced opening closing inner ∧ BalancedTo opening closing depth rest

variable {opening closing : Char} {depth : Nat} {cs inner rest : List Char}

theorem BalancedTo.append {front : List Char} (h : BalancedTo opening closing depth cs)
    (hfront : ∀ ds, Balanced opening closing ds → Balanced opening closing (front ++ ds)) :
    BalancedTo opening closing depth (front ++ cs) := by
  cases depth with
  | zero => exact hfront cs h
  | succ depth =>
    obtain ⟨inner, rest, rfl, hinner, hrest⟩ := h
    exact ⟨front ++ inner, rest, (List.append_assoc ..).symm, hfront inner hinner, hrest⟩

theorem balancedTo_of_closeAt? (h : closeAt? opening closing depth cs = some (inner, rest)) :
    BalancedTo opening closing depth inner := by
  fun_induction closeAt? opening closing depth cs generalizing inner rest with
  | case1 => cases h
  | case2 => cases h
  | case3 depth d ds ih =>
    obtain ⟨r, hr, he⟩ := Option.map_eq_some_iff.mp h
    cases he
    have hfront : ∀ ds, Balanced opening closing ds → Balanced opening closing (['\\', d] ++ ds) :=
      fun _ => .escaped d
    exact (ih hr).append hfront
  | case4 cs hb =>
    cases h
    exact .nil
  | case5 cs depth hb ih =>
    obtain ⟨r, hr, he⟩ := Option.map_eq_some_iff.mp h
    cases he
    exact ⟨[], r.1, rfl, .nil, ih hr⟩
  | case6 depth c cs hb hc ih =>
    obtain ⟨r, hr, he⟩ := Option.map_eq_some_iff.mp h
    cases he
    have hr := ih hr
    by_cases ho : c = opening
    · -- what is opened here is closed in front of the next text
      rw [if_pos ho] at hr
      obtain ⟨nested, left, hleft, hnested, hrest⟩ := hr
      have hfront : ∀ ds, Balanced opening closing ds →
          Balanced opening closing ((opening :: nested ++ [closing]) ++ ds) := by
        intro ds hds
        simpa using Balanced.nested (ho ▸ hc) hnested hds
      simpa [hleft, ho] using hrest.append hfront
    · rw [if_neg ho] at hr
      have hfront : ∀ ds, Balanced opening closing ds → Balanced opening closing ([c] ++ ds) :=
        fun _ => .other hb ho hc
      exact hr.append hfront

theorem Balanced.closeAt?_append (hopening : opening ≠ '\\') (hclosing : closing ≠ '\\')
    (h : Balanced opening closing inner) (depth : Nat) (rest : List Char) :
    closeAt? opening closing depth (inner ++ rest) =
      (closeAt? opening closing depth rest).map fun r => (inner ++ r.1, r.2) := by
  induction h generalizing depth rest with
  | nil => simp
  | escaped c _ ih =>
    rw [List.cons_append, List.cons_append, closeAt?_backslash, ih]
    simp [Function.comp_def]
  | other hb ho hc _ ih =>
    rw [List.cons_append, closeAt?_other opening depth hb hc, if_neg ho, ih]
    simp [Function.comp_def]
  | @nested inner cs hne _ _ ihinner ih =>
    rw [List.cons_append, List.cons_append, closeAt?_other opening depth hopening hne, if_pos rfl,
      List.append_assoc, ihinner, List.cons_append, closeAt?_closing_succ opening hclosing, ih]
    simp [Function.comp_def]

/-- A delimited text is a balanced one with a closing character behind it. -/
theorem closeAt?_eq_some_iff (hopening : opening ≠ '\\') (hclosing : closing ≠ '\\') :
    closeAt? opening closing 0 cs = some (inner, rest) ↔
      Balanced opening closing inner ∧ cs = inner ++ closing :: rest := by
  constructor
  · intro h
    exact ⟨balancedTo_of_closeAt? h, (closeAt?_append h).symm⟩
  · rintro ⟨h, rfl⟩
    rw [h.closeAt?_append hopening hclosing, closeAt?_closing_zero opening hclosing]
    simp

end TclHost.Text
