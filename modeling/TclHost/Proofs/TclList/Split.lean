import TclHost.Interp.Command.List
import TclHost.Interp.Eval
import TclHost.Proofs.TclList.RoundTrip
/-! # Splitting and joining

A text that is split holds its parts in order, with one separator between each two of them, and
lists keep the parts whatever they hold.  So the separators put back between the parts give the text
again, and joining is the inverse of splitting wherever the separator to put back is known: with one
separator, or with none.  The empty text is special in that it has no part at all.
-/
namespace TclHost.TclList

open Command

/-- A text is made of parts and of separators, one between each two neighbouring parts. -/
inductive Woven : List (List Char) → List Char → List Char → Prop
  | empty : Woven [] [] []
  | last (part : List Char) : Woven [part] [] part
  | next (part : List Char) (separator : Char) {following text separators : List Char}
    {parts : List (List Char)} (h : Woven (following :: parts) separators text) :
    Woven (part :: following :: parts) (separator :: separators) (part ++ separator :: text)

/-! ### Cutting a text -/

theorem cutAt_eq_splitOnP (isSeparator : Char → Bool) (cs : List Char) :
    cutAt isSeparator cs = cs.splitOnP isSeparator := by
  induction cs with
  | nil => rfl
  | cons c cs ih =>
    obtain ⟨part, parts, hparts⟩ :=
      List.exists_cons_of_ne_nil (List.splitOnP_ne_nil isSeparator cs)
    rw [cutAt, List.splitOnP_cons_eq_if_modifyHead, ih, hparts, List.modifyHead_cons]

/-- A separator ends an empty part, and any other character belongs to the part behind it. -/
theorem exists_cutAt_cons (isSeparator : Char → Bool) (c : Char) (cs : List Char) :
    ∃ part parts, cutAt isSeparator cs = part :: parts ∧ cutAt isSeparator (c :: cs) =
      if isSeparator c then [] :: part :: parts else (c :: part) :: parts := by
  obtain ⟨part, parts, hparts⟩ := List.exists_cons_of_ne_nil (List.splitOnP_ne_nil isSeparator cs)
  rw [← cutAt_eq_splitOnP] at hparts
  exact ⟨part, parts, hparts, by rw [cutAt, hparts]⟩

/-- A cut text is woven of its parts and the separators that occur in it. -/
theorem woven_cutAt (isSeparator : Char → Bool) (cs : List Char) :
    Woven (cutAt isSeparator cs) (cs.filter isSeparator) cs := by
  induction cs with
  | nil => exact .last []
  | cons c cs ih =>
    obtain ⟨part, parts, hparts, hcut⟩ := exists_cutAt_cons isSeparator c cs
    rw [hparts] at ih
    rw [hcut]
    cases hc : isSeparator c with
    | true =>
      rw [if_pos rfl, List.filter_cons_of_pos hc]
      exact .next [] c ih
    | false =>
      rw [if_neg Bool.false_ne_true, List.filter_cons_of_neg (by simp [hc])]
      generalize cs.filter isSeparator = separators at ih
      cases ih with
      | last => exact .last (c :: _)
      | next _ separator h => exact .next (c :: _) separator h

theorem isSeparator_of_mem_cutAt {isSeparator : Char → Bool} {cs : List Char} :
    ∀ part ∈ cutAt isSeparator cs, ∀ c ∈ part, isSeparator c = false := by
  induction cs with
  | nil => exact List.forall_mem_singleton.mpr (List.forall_mem_nil _)
  | cons c cs ih =>
    obtain ⟨part, parts, hparts, hcut⟩ := exists_cutAt_cons isSeparator c cs
    rw [hparts] at ih
    rw [hcut]
    cases hc : isSeparator c with
    | true => exact List.forall_mem_cons.mpr ⟨List.forall_mem_nil _, ih⟩
    | false =>
      obtain ⟨hpart, hothers⟩ := List.forall_mem_cons.mp ih
      exact List.forall_mem_cons.mpr ⟨List.forall_mem_cons.mpr ⟨hc, hpart⟩, hothers⟩

/-! ### Parts of a text -/

theorem toList_map_ofList (css : List (List Char)) :
    (css.map String.ofList).map String.toList = css := by
  simp [Function.comp_def]

theorem splitText_of_ne_empty {separators : String} (hseparators : separators ≠ "")
    {text : String} (htext : text ≠ "") :
    (splitText text separators).map String.toList =
      cutAt separators.toList.contains text.toList := by
  rw [splitText, if_neg (by simpa using htext), if_neg (by simpa using hseparators),
    toList_map_ofList]

/-- Without separators the parts are the characters, also those of the empty text. -/
theorem splitText_without (text : String) :
    splitText text "" = text.toList.map Char.toString := by
  rw [splitText]
  split
  · next h =>
    rw [String.isEmpty_iff.mp h]
    rfl
  · rfl

theorem woven_splitText (text : String) {separators : String} (h : separators ≠ "") :
    Woven ((splitText text separators).map String.toList)
      (text.toList.filter separators.toList.contains) text.toList := by
  by_cases htext : text = ""
  · rw [htext]
    exact .empty
  · rw [splitText_of_ne_empty h htext]
    exact woven_cutAt _ _

theorem not_mem_of_mem_splitText {text separators : String} (h : separators ≠ "") :
    ∀ part ∈ splitText text separators, ∀ c ∈ part.toList, c ∉ separators.toList := by
  by_cases htext : text = ""
  · rw [htext]
    exact List.forall_mem_nil _
  · intro part hpart c hc
    have hmem := List.mem_map_of_mem (f := String.toList) hpart
    rw [splitText_of_ne_empty h htext] at hmem
    simpa using isSeparator_of_mem_cutAt _ hmem c hc

theorem intercalate_splitText_singleton (text : String) (c : Char) :
    c.toString.intercalate (splitText text c.toString) = text := by
  by_cases htext : text = ""
  · rw [htext]
    rfl
  · have hcontains : c.toString.toList.contains = (· == c) := by
      funext x
      rw [Bool.eq_iff_iff]
      simp [Char.toString]
    rw [← String.toList_inj, String.toList_intercalate,
      splitText_of_ne_empty (by simp [Char.toString]) htext, cutAt_eq_splitOnP, hcontains,
      ← List.splitOn_eq_splitOnP]
    simp [Char.toString, List.intercalate_splitOn]

theorem intercalate_characters (cs : List Char) :
    [].intercalate (cs.map fun c => [c]) = cs := by
  induction cs with
  | nil => rfl
  | cons c cs ih =>
    cases cs with
    | nil => rfl
    | cons d ds =>
      simp only [List.map_cons] at ih ⊢
      rw [List.intercalate_cons_cons, ih]
      rfl

theorem intercalate_splitText_without (text : String) :
    "".intercalate (splitText text "") = text := by
  have hcharacters : String.toList ∘ Char.toString = fun c => [c] := by
    funext c
    simp [Char.toString]
  rw [splitText_without, ← String.toList_inj, String.toList_intercalate, List.map_map, hcharacters]
  exact intercalate_characters text.toList

/-! ### Commands -/

theorem split_eq (env : Env) (s : Interp) (text separators : String) :
    split env [text, separators] s = (.ok (format (splitText text separators)), s) :=
  rfl

theorem join_format (env : Env) (s : Interp) (items : List String) (separator : String) :
    join env [format items, separator] s = (.ok (separator.intercalate items), s) := by
  rw [join, parse_of_eq_format rfl]
  rfl

/-- What a text is split into is a list of its parts.  No part holds a separator, and the separators
of the text put back between the parts give the text; without separators the parts are the
characters.  With a single separator, or with none, joining gives the text again. -/
theorem split_join_inverse (env : Env) (s : Interp) :
    (∀ text separators, separators ≠ "" → ∃ written parts,
      split env [text, separators] s = (.ok written, s) ∧ parse written = .ok parts ∧
      (∀ part ∈ parts, ∀ c ∈ part.toList, c ∉ separators.toList) ∧
      Woven (parts.map String.toList) (text.toList.filter separators.toList.contains)
        text.toList) ∧
    (∀ text (separator : Char), ∃ written,
      split env [text, separator.toString] s = (.ok written, s) ∧
      join env [written, separator.toString] s = (.ok text, s)) ∧
    ∀ text, ∃ written, split env [text, ""] s = (.ok written, s) ∧
      parse written = .ok (text.toList.map Char.toString) ∧
      join env [written, ""] s = (.ok text, s) := by
  refine ⟨?_, ?_, ?_⟩
  · intro text separators h
    exact ⟨_, _, split_eq env s text separators, parse_of_eq_format rfl,
      not_mem_of_mem_splitText h, woven_splitText text h⟩
  · intro text separator
    refine ⟨_, split_eq env s text _, ?_⟩
    rw [join_format, intercalate_splitText_singleton]
  · intro text
    refine ⟨_, split_eq env s text "", ?_, ?_⟩
    · rw [splitText_without]
      exact parse_of_eq_format rfl
    · rw [join_format, intercalate_splitText_without]

/-- A text that is cut at commas and opening braces, with nothing between the two. -/
theorem split_join_inverse_braces :
    ",\x7b" ≠ "" ∧ ∃ written parts,
      split (Env.top 0) ["a\x7b,\x7db", ",\x7b"] Interp.fresh = (.ok written, Interp.fresh) ∧
      parse written = .ok parts ∧
      (∀ part ∈ parts, ∀ c ∈ part.toList, c ∉ ",\x7b".toList) ∧
      Woven (parts.map String.toList) ['{', ','] "a\x7b,\x7db".toList :=
  ⟨by decide, (split_join_inverse (Env.top 0) Interp.fresh).1 "a\x7b,\x7db" ",\x7b" (by decide)⟩

end TclHost.TclList
