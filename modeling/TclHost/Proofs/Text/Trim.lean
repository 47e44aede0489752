import Mathlib.Data.List.Basic
import Mathlib.Data.List.TakeWhile
import TclHost.Text.Blank
/-! # Trimming

A text is its trimmed middle with white space on both sides, and the middle is all of it exactly if
the text neither begins nor ends with white space.
-/
namespace TclHost.Text

theorem dropWhile_eq_self_iff {p : Char → Bool} {cs : List Char} :
    cs.dropWhile p = cs ↔ cs.head?.any p = false := by
  cases cs with
  | nil => simp
  | cons c cs =>
    cases hc : p c with
    | false => simp [hc]
    | true =>
      have hlength := (List.dropWhile_sublist p (l := cs)).length_le
      rw [List.dropWhile_cons_of_pos hc, List.head?_cons, Option.any_some, hc]
      refine iff_of_false (fun h => ?_) Bool.noConfusion
      rw [h, List.length_cons] at hlength
      omega

theorem dropEndWhile_eq_self_iff {p : Char → Bool} {cs : List Char} :
    dropEndWhile p cs = cs ↔ cs.getLast?.any p = false := by
  rw [dropEndWhile, List.reverse_eq_iff, dropWhile_eq_self_iff, List.head?_reverse]

theorem exists_eq_trim_append (cs : List Char) :
    ∃ front back, cs = front ++ trim cs ++ back ∧ (∀ c ∈ front, isBlank c = true) ∧
      ∀ c ∈ back, isBlank c = true := by
  refine ⟨cs.takeWhile isBlank, ((cs.dropWhile isBlank).reverse.takeWhile isBlank).reverse, ?_,
    fun c hc => List.mem_takeWhile_imp hc, fun c hc => ?_⟩
  · have h := congrArg List.reverse
      (List.takeWhile_append_dropWhile (p := isBlank) (l := (cs.dropWhile isBlank).reverse))
    rw [List.reverse_append, List.reverse_reverse] at h
    rw [List.append_assoc, trim, trimWhile, dropEndWhile, h, List.takeWhile_append_dropWhile]
  · exact List.mem_takeWhile_imp (List.mem_reverse.mp hc)

theorem trim_sublist (cs : List Char) : (trim cs).Sublist cs := by
  obtain ⟨front, back, hcs, -⟩ := exists_eq_trim_append cs
  exact List.IsInfix.sublist ⟨front, back, hcs.symm⟩

/-- Trimming leaves a text alone exactly if it has a blank at neither end. -/
theorem trim_eq_self_iff (cs : List Char) :
    trim cs = cs ↔ cs.head?.any isBlank = false ∧ cs.getLast?.any isBlank = false := by
  rw [← dropWhile_eq_self_iff, ← dropEndWhile_eq_self_iff, trim, trimWhile]
  constructor
  · intro h
    have hlength : cs.length ≤ (cs.dropWhile isBlank).length := by
      have hle := (List.dropWhile_sublist isBlank (l := (cs.dropWhile isBlank).reverse)).length_le
      rw [← List.length_reverse, ← dropEndWhile, h, List.length_reverse] at hle
      exact hle
    have hsublist := List.dropWhile_sublist isBlank (l := cs)
    have hfront := hsublist.eq_of_length (hsublist.length_le.antisymm hlength)
    rw [hfront] at h
    exact ⟨hfront, h⟩
  · rintro ⟨hfront, hback⟩
    rw [hfront, hback]

theorem trim_append {front core back : List Char} (hfront : ∀ c ∈ front, isBlank c = true)
    (hcore : ∀ c ∈ core, isBlank c = false) (hback : ∀ c ∈ back, isBlank c = true) :
    trim (front ++ core ++ back) = core := by
  have hbehind : dropEndWhile isBlank (core ++ back) = dropEndWhile isBlank core := by
    rw [dropEndWhile, List.reverse_append,
      List.dropWhile_append_of_pos fun c hc => hback c (List.mem_reverse.mp hc), dropEndWhile]
  have hback' : back.dropWhile isBlank = [] := List.dropWhile_eq_nil_iff.mpr hback
  have hcore' := trim_eq hcore
  rw [trim, trimWhile] at hcore' ⊢
  rw [List.append_assoc, List.dropWhile_append_of_pos hfront]
  cases core with
  | nil => simp [hback', dropEndWhile]
  | cons c cs =>
    have hc : ¬isBlank c = true := by simp [hcore c List.mem_cons_self]
    rw [List.dropWhile_cons_of_neg hc] at hcore'
    rw [List.cons_append, List.dropWhile_cons_of_neg hc, ← List.cons_append, hbehind, hcore']

end TclHost.Text
