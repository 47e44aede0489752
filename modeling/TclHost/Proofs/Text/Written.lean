import TclHost.Text.Delimited
import TclHost.Text.Escape
/-! # Texts written with backslash sequences

A text writes a value if it gives each character of the value as it stands, where that is plain,
or as a backslash sequence.  Every reader for which the plain characters have no meaning of
their own finds the value and goes on behind the text.
-/
namespace TclHost.Text

/-- The first text writes the second one; only plain characters stand for themselves, and no
sequence starts with a line end. -/
inductive Written (plain : Char → Bool) : List Char → List Char → Prop
  | nil : Written plain [] []
  | literal {c : Char} {q v : List Char} : plain c = true → Written plain q v →
      Written plain (c :: q) (c :: v)
  | escape {c d : Char} {ds q v : List Char} : d ≠ '\n' → (∀ x ∈ ds, plain x = true) →
      (∀ rest, Escape.read (d :: (ds ++ rest)) = (c, rest)) → Written plain q v →
      Written plain ('\\' :: d :: (ds ++ q)) (c :: v)

namespace Written

variable {plain : Char → Bool} {q v : List Char}

theorem of_all (h : ∀ c ∈ v, plain c = true) : Written plain v v := by
  induction v with
  | nil => exact nil
  | cons c v ih => exact literal (h c (by simp)) (ih fun x hx => h x (by simp [hx]))

theorem append {q' v' : List Char} (h : Written plain q v) (h' : Written plain q' v') :
    Written plain (q ++ q') (v ++ v') := by
  induction h with
  | nil => exact h'
  | literal hc _ ih => exact literal hc ih
  | escape hd hds hread _ ih => simpa using escape hd hds hread ih

/-- Characters that are each written by a text are together written by the joined texts. -/
theorem flatMap {encode : Char → List Char} (h : ∀ c ∈ v, Written plain (encode c) [c]) :
    Written plain (v.flatMap encode) v := by
  induction v with
  | nil => exact nil
  | cons c v ih => exact (h c (by simp)).append (ih fun x hx => h x (by simp [hx]))

theorem head {c : Char} (h : Written plain (c :: q) v) : plain c = true ∨ c = '\\' := by
  cases h with
  | literal hc _ => exact .inl hc
  | escape => exact .inr rfl

theorem ne_nil (h : Written plain q v) (hv : v ≠ []) : q ≠ [] := by
  cases h with
  | nil => exact hv
  | literal => simp
  | escape => simp

/-- Replacing the sequences of a written text gives the value. -/
theorem readUntil (h : Written plain q v) {stop : Char → Bool} (hb : stop '\\' = false)
    (hp : ∀ c, plain c = true → stop c = false ∧ c ≠ '\\') (rest : List Char) :
    Escape.readUntil stop (q ++ rest) =
      (v ++ (Escape.readUntil stop rest).1, (Escape.readUntil stop rest).2) := by
  induction h with
  | nil => rfl
  | literal hc _ ih =>
    obtain ⟨hstop, hne⟩ := hp _ hc
    rw [List.cons_append, Escape.readUntil]
    simp [hstop, hne, ih]
  | @escape c d ds q v _ _ hread _ ih =>
    rw [List.cons_append, Escape.readUntil]
    simp only [hb, Bool.false_eq_true, if_false, if_true, List.cons_append, List.append_assoc,
      hread, ih]

theorem closeAt? (h : Written plain q v) {opening closing : Char}
    (hp : ∀ c, plain c = true → c ≠ opening ∧ c ≠ closing ∧ c ≠ '\\') (depth : Nat)
    (rest : List Char) :
    Text.closeAt? opening closing depth (q ++ rest) =
      (Text.closeAt? opening closing depth rest).map fun r => (q ++ r.1, r.2) := by
  induction h with
  | nil => simp
  | literal hc _ ih =>
    obtain ⟨ho, hcl, hb⟩ := hp _ hc
    rw [List.cons_append, closeAt?_other opening depth hb hcl, if_neg ho, ih]
    simp [Function.comp_def]
  | escape _ hds _ _ ih =>
    rw [List.cons_append, List.cons_append, List.append_assoc, closeAt?_backslash,
      closeAt?_of_append depth (fun x hx => hp x (hds x hx)), ih]
    simp [Function.comp_def]

end Written

def spaced (qs : List (List Char)) : List Char :=
  qs.flatMap (' ' :: ·)

/-- Texts joined by spaces are the first one and the others with a space in front of each. -/
theorem toList_intercalate_space (q : String) (qs : List String) :
    (" ".intercalate (q :: qs)).toList = q.toList ++ spaced (qs.map String.toList) := by
  induction qs generalizing q with
  | nil => simp [spaced]
  | cons r qs ih =>
    rw [String.intercalate_cons_cons, String.toList_append, ih]
    simp [spaced]

/-- The space in front of the first text is the only one that does not belong to joined texts. -/
theorem toList_intercalate (ss : List String) :
    (" ".intercalate ss).toList = (spaced (ss.map String.toList)).tail := by
  cases ss with
  | nil => rfl
  | cons s ss =>
    rw [toList_intercalate_space]
    rfl

theorem spaced_append (qs rs : List (List Char)) : spaced (qs ++ rs) = spaced qs ++ spaced rs :=
  List.flatMap_append

end TclHost.Text
