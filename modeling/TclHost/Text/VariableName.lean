import TclHost.Text.Digit
/-! # Variable names in references

After a dollar sign, a name is a run of ASCII letters, digits, underscores and double colons.
-/
namespace TclHost.Text

def isNameChar (c : Char) : Bool :=
  isAsciiLetter c || isAsciiDigit c || c == '_'

def splitName : List Char → List Char × List Char
  | [] => ([], [])
  | c :: cs =>
    if isNameChar c then
      let r := splitName cs
      (c :: r.1, r.2)
    else if c = ':' then
      match cs with
      | ':' :: ds =>
        let r := splitName ds
        (c :: ':' :: r.1, r.2)
      | _ => ([], c :: cs)
    else ([], c :: cs)

theorem splitName_nameChar {c : Char} (h : isNameChar c = true) (cs : List Char) :
    splitName (c :: cs) = (c :: (splitName cs).1, (splitName cs).2) := by
  rw [splitName.eq_def]
  simp [h]

theorem splitName_colons (cs : List Char) :
    splitName (':' :: ':' :: cs) = (':' :: ':' :: (splitName cs).1, (splitName cs).2) := by
  rw [splitName.eq_def]
  simp [isNameChar, isAsciiLetter, isAsciiDigit]

/-- A name ends at any other character, and at a colon that is not doubled. -/
theorem splitName_stop {c : Char} {cs : List Char} (h : isNameChar c = false)
    (hcolon : c = ':' → cs.head? ≠ some ':') : splitName (c :: cs) = ([], c :: cs) := by
  rw [splitName.eq_def]
  simp only [h, Bool.false_eq_true, if_false]
  split
  · split
    · simp_all
    · rfl
  · rfl

/-- A name ends in front of a character that no name has, whatever follows. -/
theorem splitName_append_cons {s : Char} (hname : isNameChar s = false) (hcolon : s ≠ ':')
    (cs more : List Char) :
    splitName (cs ++ s :: more) = ((splitName cs).1, (splitName cs).2 ++ s :: more) := by
  fun_induction splitName cs with
  | case1 => exact splitName_stop hname fun h => absurd h hcolon
  | case2 c cs hc r ih => rw [List.cons_append, splitName_nameChar hc, ih]
  | case3 cs hc r ih => rw [List.cons_append, List.cons_append, splitName_colons, ih]
  | case4 cs =>
    have hdouble : ∀ ds, cs ≠ ':' :: ds := by assumption
    refine splitName_stop rfl fun _ => ?_
    cases cs with
    | nil => simpa using hcolon
    | cons d cs =>
      rintro ⟨⟩
      exact hdouble cs rfl
  | case5 c cs hc h => exact splitName_stop (by simpa using hc) fun heq => absurd heq h

theorem splitName_append (cs : List Char) : (splitName cs).1 ++ (splitName cs).2 = cs := by
  fun_induction splitName cs <;> simp_all
  all_goals assumption

theorem ne_brace_of_splitName {cs : List Char} (hname : (splitName cs).1 ≠ []) (ds : List Char) :
    cs ≠ '{' :: ds := by
  rintro rfl
  exact hname (by rw [splitName_stop (by decide) (fun h => absurd h (by decide))])

theorem splitName_fst (cs : List Char) : splitName (splitName cs).1 = ((splitName cs).1, []) := by
  fun_induction splitName cs with
  | case1 => rfl
  | case2 c cs hc r ih => rw [splitName_nameChar hc, ih]
  | case3 cs hc r ih => rw [splitName_colons, ih]
  | case4 => rfl
  | case5 => rfl

theorem splitName_snd_length_le (cs : List Char) : (splitName cs).2.length ≤ cs.length := by
  have := congrArg List.length (splitName_append cs)
  simp only [List.length_append] at this
  omega

end TclHost.Text
