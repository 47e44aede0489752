/-! # Delimited texts

A text between an opening and a closing character ends where every opening one has been
closed again; a backslash takes the next character out of the count.  Lists, scripts and
expressions all delimit their braced texts by this rule.
-/
namespace TclHost.Text

/-- Split after the character that closes the last of `depth + 1` open ones: what stands before
it, and what follows it.  Where both characters are the same one, nothing nests. -/
def closeAt? (opening closing : Char) : (depth : Nat) → List Char → Option (List Char × List Char)
  | _, [] => none
  | depth, c :: cs =>
    if c = '\\' then
      match cs with
      | [] => none
      | d :: ds => (closeAt? opening closing depth ds).map fun r => (c :: d :: r.1, r.2)
    else if c = closing then
      match depth with
      | 0 => some ([], cs)
      | depth + 1 => (closeAt? opening closing depth cs).map fun r => (c :: r.1, r.2)
    else
      (closeAt? opening closing (if c = opening then depth + 1 else depth) cs).map fun r =>
        (c :: r.1, r.2)

theorem closeAt?_backslash (opening closing : Char) (depth : Nat) (d : Char) (ds : List Char) :
    closeAt? opening closing depth ('\\' :: d :: ds) =
      (closeAt? opening closing depth ds).map fun r => ('\\' :: d :: r.1, r.2) := by
  rw [closeAt?.eq_def]
  rfl

theorem closeAt?_closing_zero (opening : Char) {closing : Char} (hb : closing ≠ '\\')
    (cs : List Char) : closeAt? opening closing 0 (closing :: cs) = some ([], cs) := by
  rw [closeAt?.eq_def]
  simp [hb]

theorem closeAt?_closing_succ (opening : Char) {closing : Char} (hb : closing ≠ '\\')
    (depth : Nat) (cs : List Char) :
    closeAt? opening closing (depth + 1) (closing :: cs) =
      (closeAt? opening closing depth cs).map fun r => (closing :: r.1, r.2) := by
  rw [closeAt?.eq_def]
  simp [hb]

theorem closeAt?_other (opening : Char) {closing c : Char} (depth : Nat) (hb : c ≠ '\\')
    (hc : c ≠ closing) (cs : List Char) :
    closeAt? opening closing depth (c :: cs) =
      (closeAt? opening closing (if c = opening then depth + 1 else depth) cs).map fun r =>
        (c :: r.1, r.2) := by
  rw [closeAt?.eq_def]
  simp [hb, hc]

theorem closeAt?_of_append {opening closing : Char} (depth : Nat) {cs : List Char}
    (h : ∀ c ∈ cs, c ≠ opening ∧ c ≠ closing ∧ c ≠ '\\') (rest : List Char) :
    closeAt? opening closing depth (cs ++ rest) =
      (closeAt? opening closing depth rest).map fun r => (cs ++ r.1, r.2) := by
  induction cs with
  | nil => simp
  | cons c cs ih =>
    obtain ⟨ho, hc, hb⟩ := h c (by simp)
    rw [List.cons_append, closeAt?_other opening depth hb hc, if_neg ho,
      ih fun x hx => h x (by simp [hx])]
    simp [Function.comp_def]

/-- The text before the closing character, that character and what follows are the whole. -/
theorem closeAt?_append {opening closing : Char} {depth : Nat} {cs inner rest : List Char}
    (h : closeAt? opening closing depth cs = some (inner, rest)) :
    inner ++ closing :: rest = cs := by
  fun_induction closeAt? opening closing depth cs generalizing inner rest with
  | case1 => simp at h
  | case2 => simp at h
  | case3 depth d ds ih =>
    obtain ⟨r, hr, he⟩ := Option.map_eq_some_iff.mp h
    cases he
    simp [ih hr]
  | case4 cs =>
    cases h
    rfl
  | case5 cs hc depth ih =>
    obtain ⟨r, hr, he⟩ := Option.map_eq_some_iff.mp h
    cases he
    simp [ih hr]
  | case6 depth c cs _ _ ih =>
    obtain ⟨r, hr, he⟩ := Option.map_eq_some_iff.mp h
    cases he
    simp [ih hr]

theorem closeAt?_length_lt {opening closing : Char} {depth : Nat} {cs inner rest : List Char}
    (h : closeAt? opening closing depth cs = some (inner, rest)) : rest.length < cs.length := by
  rw [← closeAt?_append h]
  simp only [List.length_append, List.length_cons]
  omega

/-- A run of characters ends in front of one that does not belong to it, whatever follows. -/
theorem takeWhile_append_cons {p : Char → Bool} {s : Char} (hp : p s = false)
    (cs more : List Char) : (cs ++ s :: more).takeWhile p = cs.takeWhile p := by
  induction cs with
  | nil => simp [hp]
  | cons c cs ih => by_cases hc : p c <;> simp [hc, ih]

theorem dropWhile_append_cons {p : Char → Bool} {s : Char} (hp : p s = false)
    (cs more : List Char) : (cs ++ s :: more).dropWhile p = cs.dropWhile p ++ s :: more := by
  induction cs with
  | nil => simp [hp]
  | cons c cs ih => by_cases hc : p c <;> simp [hc, ih]

/-- A run of characters of a kind that ends with the text or in front of one of another kind. -/
theorem span_append {p : Char → Bool} {front rest : List Char} (hfront : ∀ c ∈ front, p c = true)
    (hrest : ∀ c ∈ rest.head?, p c = false) :
    (front ++ rest).takeWhile p = front ∧ (front ++ rest).dropWhile p = rest := by
  rw [List.takeWhile_append_of_pos hfront, List.dropWhile_append_of_pos hfront]
  cases rest with
  | nil => simp
  | cons c rest => simp [hrest c rfl]

theorem span_bne {c : Char} {front : List Char} (h : c ∉ front) (rest : List Char) :
    (front ++ c :: rest).takeWhile (· != c) = front ∧
      (front ++ c :: rest).dropWhile (· != c) = c :: rest := by
  have hfront : ∀ d ∈ front, (d != c) = true := by
    intro d hd
    simpa using fun heq : d = c => h (heq ▸ hd)
  exact span_append hfront (by simp)

theorem dropWhile_bne_eq_nil_iff {c : Char} {cs : List Char} :
    cs.dropWhile (· != c) = [] ↔ c ∉ cs := by
  induction cs with
  | nil => simp
  | cons d cs ih =>
    by_cases hd : d = c
    · simp [hd]
    · simpa [hd, Ne.symm hd] using ih

theorem not_mem_takeWhile_bne (c : Char) (cs : List Char) : c ∉ cs.takeWhile (· != c) := by
  intro hc
  simpa using List.all_eq_true.mp List.all_takeWhile c hc

theorem eq_of_dropWhile_bne {c d : Char} {cs rest : List Char}
    (h : cs.dropWhile (· != c) = d :: rest) : d = c := by
  have hhead := List.head?_dropWhile_not (· != c) cs
  rw [h] at hhead
  exact bne_eq_false_iff_eq.mp hhead

/-- What follows the first character that ends a run is less than the whole. -/
theorem length_lt_of_dropWhile {p : Char → Bool} {c : Char} {cs rest : List Char}
    (h : cs.dropWhile p = c :: rest) : rest.length < cs.length := by
  have hle := (List.dropWhile_sublist p (l := cs)).length_le
  rw [h, List.length_cons] at hle
  exact hle

/-- What closes in a text closes in a longer one. -/
theorem closeAt?_append_of_eq_some {opening closing : Char} {depth : Nat}
    {cs inner rest : List Char} (h : closeAt? opening closing depth cs = some (inner, rest))
    (more : List Char) :
    closeAt? opening closing depth (cs ++ more) = some (inner, rest ++ more) := by
  fun_induction closeAt? opening closing depth cs generalizing inner rest with
  | case1 => cases h
  | case2 => cases h
  | case3 depth d ds ih =>
    obtain ⟨r, hr, he⟩ := Option.map_eq_some_iff.mp h
    cases he
    simp only [List.cons_append, closeAt?_backslash, ih hr, Option.map_some]
  | case4 cs hb =>
    cases h
    exact closeAt?_closing_zero opening hb _
  | case5 cs depth hb ih =>
    obtain ⟨r, hr, he⟩ := Option.map_eq_some_iff.mp h
    cases he
    rw [List.cons_append, closeAt?_closing_succ opening hb, ih hr]
    rfl
  | case6 depth c cs hb hc ih =>
    obtain ⟨r, hr, he⟩ := Option.map_eq_some_iff.mp h
    cases he
    rw [List.cons_append, closeAt?_other opening depth hb hc, ih hr]
    rfl

/-- What closes in a text, but not with its end, closes where that end is cut off. -/
theorem closeAt?_of_append_eq_some {opening closing : Char} {depth : Nat}
    {cs inner rest : List Char} {z : Char}
    (h : closeAt? opening closing depth (cs ++ [z]) = some (inner, rest)) (hrest : rest ≠ []) :
    ∃ ys, rest = ys ++ [z] ∧ closeAt? opening closing depth cs = some (inner, ys) := by
  fun_induction closeAt? opening closing depth cs generalizing inner rest with
  | case1 =>
    have := closeAt?_length_lt h
    exact absurd (List.eq_nil_of_length_eq_zero (by simpa using this)) hrest
  | case2 =>
    rw [List.cons_append, List.nil_append, closeAt?_backslash] at h
    simp [closeAt?] at h
  | case3 depth d ds ih =>
    rw [List.cons_append, List.cons_append, closeAt?_backslash] at h
    obtain ⟨r, hr, he⟩ := Option.map_eq_some_iff.mp h
    cases he
    obtain ⟨ys, hys, hclose⟩ := ih hr hrest
    exact ⟨ys, hys, by rw [hclose]; rfl⟩
  | case4 cs hb =>
    rw [List.cons_append, closeAt?_closing_zero opening hb] at h
    cases h
    exact ⟨cs, rfl, rfl⟩
  | case5 cs depth hb ih =>
    rw [List.cons_append, closeAt?_closing_succ opening hb] at h
    obtain ⟨r, hr, he⟩ := Option.map_eq_some_iff.mp h
    cases he
    obtain ⟨ys, hys, hclose⟩ := ih hr hrest
    exact ⟨ys, hys, by rw [hclose]; rfl⟩
  | case6 depth c cs hb hc ih =>
    rw [List.cons_append, closeAt?_other opening depth hb hc] at h
    obtain ⟨r, hr, he⟩ := Option.map_eq_some_iff.mp h
    cases he
    obtain ⟨ys, hys, hclose⟩ := ih hr hrest
    exact ⟨ys, hys, by rw [hclose]; rfl⟩

/-- The same split with the characters already passed, the last one first.  It needs no more
room for a long text than for a short one. -/
def closeAfter? (opening closing : Char) :
    (depth : Nat) → (passed : List Char) → List Char → Option (List Char × List Char)
  | _, _, [] => none
  | depth, passed, c :: cs =>
    if c = '\\' then
      match cs with
      | [] => none
      | d :: ds => closeAfter? opening closing depth (d :: c :: passed) ds
    else if c = closing then
      match depth with
      | 0 => some (passed.reverse, cs)
      | depth + 1 => closeAfter? opening closing depth (c :: passed) cs
    else closeAfter? opening closing (if c = opening then depth + 1 else depth) (c :: passed) cs

theorem closeAfter?_eq (opening closing : Char) (depth : Nat) (passed cs : List Char) :
    closeAfter? opening closing depth passed cs =
      (closeAt? opening closing depth cs).map fun r => (passed.reverse ++ r.1, r.2) := by
  fun_induction closeAt? opening closing depth cs generalizing passed <;> unfold closeAfter? <;>
    simp_all [Function.comp_def]

def delimited? (opening closing : Char) (cs : List Char) : Option (List Char × List Char) :=
  closeAfter? opening closing 0 [] cs

@[simp] theorem delimited?_eq (opening closing : Char) (cs : List Char) :
    delimited? opening closing cs = closeAt? opening closing 0 cs := by
  simp [delimited?, closeAfter?_eq]

def braced? (cs : List Char) : Option (List Char × List Char) :=
  delimited? '{' '}' cs

theorem braced?_eq (cs : List Char) : braced? cs = closeAt? '{' '}' 0 cs :=
  delimited?_eq '{' '}' cs

end TclHost.Text
