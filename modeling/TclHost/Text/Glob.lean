import TclHost.Text.Case
/-! # Glob patterns

A pattern is read from left to right into atoms, and a text matches if it can be cut into
consecutive pieces that match the atoms in order.
-/
namespace TclHost.Text.Glob

inductive ClassItem where
  | single (c : Char)
  /-- The characters from one end to the other, whichever end comes first. -/
  | range (a b : Char)
  deriving DecidableEq, Repr

inductive Atom where
  /-- Any text. -/
  | anyText
  /-- Any one character. -/
  | anyChar
  /-- The character itself. -/
  | exactly (c : Char)
  /-- One character of a class. -/
  | oneOf (items : List ClassItem)
  /-- A class that is not closed matches nothing. -/
  | unclosed
  deriving DecidableEq, Repr

def classItems : List Char → List ClassItem
  | a :: '-' :: b :: cs => .range a b :: classItems cs
  | c :: cs => .single c :: classItems cs
  | [] => []

def ClassItem.includes (c : Char) : ClassItem → Bool
  | .single d => c == d
  | .range a b => (a ≤ c && c ≤ b) || (b ≤ c && c ≤ a)

/-- Read a pattern into its atoms; a run of stars is one atom. -/
def atoms (pattern : List Char) : List Atom :=
  match pattern with
  | [] => []
  | c :: cs =>
    if c = '*' then .anyText :: atoms (cs.dropWhile (· == '*'))
    else if c = '?' then .anyChar :: atoms cs
    else if c = '[' then
      match _h : cs.dropWhile (· != ']') with
      | [] => [.unclosed]
      | _ :: rest => .oneOf (classItems (cs.takeWhile (· != ']'))) :: atoms rest
    else if c = '\\' then
      match cs with
      | [] => [.exactly '\\']
      | d :: ds => .exactly d :: atoms ds
    else .exactly c :: atoms cs
termination_by pattern.length
decreasing_by
  · have := (List.dropWhile_sublist (· == '*') (l := cs)).length_le
    simp only [List.length_cons]
    omega
  · simp
  · have := (List.dropWhile_sublist (· != ']') (l := cs)).length_le
    rw [_h] at this
    simp only [List.length_cons] at this ⊢
    omega
  · simp only [List.length_cons]
    omega
  · simp

/-- Some end of the text, the whole and the empty one included, passes the test. -/
def anySuffix (test : List Char → Bool) : List Char → Bool
  | [] => test []
  | c :: cs => test (c :: cs) || anySuffix test cs

def Atom.admits (c : Char) : Atom → Bool
  | .anyText | .anyChar => true
  | .exactly d => d == c
  | .oneOf items => items.any (·.includes c)
  | .unclosed => false

def matchAtoms : List Atom → List Char → Bool
  | [], cs => cs.isEmpty
  | a :: as, cs =>
    if a = .anyText then anySuffix (matchAtoms as) cs
    else match cs with
      | [] => false
      | c :: cs => a.admits c && matchAtoms as cs

inductive Trial where
  | matched
  /-- The atoms do not match here, but they may match a later end of the text. -/
  | mismatch
  /-- The text is too short: the atoms match none of its later ends either. -/
  | exhausted
  deriving DecidableEq, Repr

/-- Try the ends of a text in order, until one matches or the text is exhausted. -/
def trialOfEnds (trial : List Char → Trial) : List Char → Trial
  | [] => if trial [] = .matched then .matched else .exhausted
  | c :: cs =>
    match trial (c :: cs) with
    | .mismatch => trialOfEnds trial cs
    | decided => decided

/-- Try atoms at the front of a text.  Once the text is exhausted behind a star, no earlier star
is tried at a later place. -/
def trialOf : List Atom → List Char → Trial
  | [], [] => .matched
  | [], _ :: _ => .mismatch
  | .anyText :: as, cs => trialOfEnds (trialOf as) cs
  | _ :: _, [] => .exhausted
  | a :: as, c :: cs => if a.admits c then trialOf as cs else .mismatch

/-- What the trial of all ends says, if the trial of one end says what it should. -/
theorem trialOfEnds_spec {trial : List Char → Trial} {test : List Char → Bool}
    (hmatched : ∀ cs, trial cs = .matched ↔ test cs = true)
    (hexhausted : ∀ cs, trial cs = .exhausted → anySuffix test cs = false) (cs : List Char) :
    (trialOfEnds trial cs = .matched ↔ anySuffix test cs = true) ∧
      (trialOfEnds trial cs = .exhausted ↔ anySuffix test cs = false) := by
  induction cs with
  | nil =>
    have := hmatched []
    by_cases h : trial [] = .matched <;> simp_all [trialOfEnds, anySuffix]
  | cons c cs ih =>
    have hm := hmatched (c :: cs)
    have he := hexhausted (c :: cs)
    cases h : trial (c :: cs) with
    | matched =>
      simp only [trialOfEnds, h, anySuffix]
      simp_all
    | mismatch =>
      simp only [trialOfEnds, h, anySuffix]
      simp_all
    | exhausted =>
      simp only [trialOfEnds, h, anySuffix]
      simp_all [anySuffix]

/-- A trial finds a match exactly if there is one, and says that a text is exhausted only if no
end of it is matched. -/
theorem trialOf_spec (as : List Atom) (cs : List Char) :
    (trialOf as cs = .matched ↔ matchAtoms as cs = true) ∧
      (trialOf as cs = .exhausted → anySuffix (matchAtoms as) cs = false) := by
  induction as generalizing cs with
  | nil => cases cs <;> simp [trialOf, matchAtoms]
  | cons a as ih =>
    have hends := trialOfEnds_spec (fun cs => (ih cs).1) (fun cs => (ih cs).2)
    by_cases ha : a = .anyText
    · subst ha
      have hm (cs : List Char) : matchAtoms (.anyText :: as) cs = anySuffix (matchAtoms as) cs := by
        simp [matchAtoms]
      have ht : trialOf (.anyText :: as) cs = trialOfEnds (trialOf as) cs := by
        cases cs <;> rfl
      have hstar (cs : List Char) (h : anySuffix (matchAtoms as) cs = false) :
          anySuffix (matchAtoms (.anyText :: as)) cs = false := by
        induction cs with
        | nil => simpa [anySuffix, hm] using h
        | cons c cs ihc =>
          have := h
          simp only [anySuffix, Bool.or_eq_false_iff] at this
          simp [anySuffix, hm, this, ihc this.2]
      rw [ht, hm]
      exact ⟨(hends cs).1, fun h => hstar cs ((hends cs).2.1 h)⟩
    · cases cs with
      | nil =>
        cases a <;> simp_all [trialOf, matchAtoms, anySuffix]
      | cons c cs =>
        have ht : trialOf (a :: as) (c :: cs)
            = if a.admits c then trialOf as cs else .mismatch := by
          cases a <;> first | rfl | exact absurd rfl ha
        have hm (c : Char) (cs : List Char) :
            matchAtoms (a :: as) (c :: cs) = (a.admits c && matchAtoms as cs) := by
          simp [matchAtoms, ha]
        have hskip (cs : List Char) (h : anySuffix (matchAtoms as) cs = false) (c : Char) :
            anySuffix (matchAtoms (a :: as)) (c :: cs) = false := by
          induction cs generalizing c with
          | nil => simp_all [anySuffix, matchAtoms]
          | cons d cs ihc =>
            simp only [anySuffix, Bool.or_eq_false_iff] at h
            rw [anySuffix, hm, h.1, ihc h.2]
            simp
        rw [ht, hm]
        by_cases hc : a.admits c = true
        · simp only [hc, if_true, Bool.true_and]
          exact ⟨(ih cs).1, fun h => hskip cs ((ih cs).2 h) c⟩
        · simp [hc]

theorem trialOf_eq_matched_iff (as : List Atom) (cs : List Char) :
    trialOf as cs = .matched ↔ matchAtoms as cs = true :=
  (trialOf_spec as cs).1

/-- Match a text against a pattern; if case does not matter both are lower-cased first. -/
def isMatch (pattern text : String) (nocase : Bool) : Bool :=
  let fold (s : String) := (if nocase then lower s else s).toList
  trialOf (atoms (fold pattern)) (fold text) = .matched

end TclHost.Text.Glob
