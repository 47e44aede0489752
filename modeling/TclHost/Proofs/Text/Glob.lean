import Mathlib.Data.List.Forall2
import Mathlib.Data.List.TakeWhile
import TclHost.Text.Delimited
import TclHost.Text.Glob
/-! # What a glob pattern matches

A pattern is read from left to right into atoms, in one way only.  It matches a text if the text can
be cut into pieces, one for each atom and in the order of the atoms, so that each piece is what its
atom stands for.  The trial of a pattern gives up early where it can, but finds such a cut whenever
there is one.
-/
namespace TclHost.Text.Glob

def isMark (c : Char) : Bool :=
  c == '*' || c == '?' || c == '[' || c == '\\'

/-- A class is read into its members: three characters with a hyphen in the middle are a range, and
any other character is listed as it stands. -/
inductive ReadsClass : List Char → List ClassItem → Prop
  | nil : ReadsClass [] []
  | range (a b : Char) {cs : List Char} {items : List ClassItem} (h : ReadsClass cs items) :
    ReadsClass (a :: '-' :: b :: cs) (.range a b :: items)
  | single {c : Char} {cs : List Char} {items : List ClassItem} (hc : ∀ b ds, cs ≠ '-' :: b :: ds)
    (h : ReadsClass cs items) : ReadsClass (c :: cs) (.single c :: items)

inductive Reads : List Char → List Atom → Prop
  | nil : Reads [] []
  | star {stars cs : List Char} {as : List Atom} (hstars : ∀ c ∈ stars, c = '*')
    (hend : cs.head? ≠ some '*') (h : Reads cs as) : Reads ('*' :: (stars ++ cs)) (.anyText :: as)
  | question {cs : List Char} {as : List Atom} (h : Reads cs as) :
    Reads ('?' :: cs) (.anyChar :: as)
  | bracket {inside cs : List Char} {items : List ClassItem} {as : List Atom}
    (hinside : ']' ∉ inside) (hitems : ReadsClass inside items) (h : Reads cs as) :
    Reads ('[' :: (inside ++ ']' :: cs)) (.oneOf items :: as)
  | unclosed {cs : List Char} (hcs : ']' ∉ cs) : Reads ('[' :: cs) [.unclosed]
  | escaped (c : Char) {cs : List Char} {as : List Atom} (h : Reads cs as) :
    Reads ('\\' :: c :: cs) (.exactly c :: as)
  | lastBackslash : Reads ['\\'] [.exactly '\\']
  | plain {c : Char} {cs : List Char} {as : List Atom} (hc : isMark c = false) (h : Reads cs as) :
    Reads (c :: cs) (.exactly c :: as)

/-- A class member stands for a character: for the one that it lists, or for any between the ends of
its range, whichever end comes first. -/
inductive ClassItem.Covers (c : Char) : ClassItem → Prop
  | single : Covers c (.single c)
  | upward {a b : Char} (ha : a ≤ c) (hb : c ≤ b) : Covers c (.range a b)
  | downward {a b : Char} (hb : b ≤ c) (ha : c ≤ a) : Covers c (.range a b)

/-- An atom stands for a piece of a text.  A class that is not closed stands for none. -/
inductive Atom.Matches : Atom → List Char → Prop
  | anyText (piece : List Char) : Matches .anyText piece
  | anyChar (c : Char) : Matches .anyChar [c]
  | exactly (c : Char) : Matches (.exactly c) [c]
  | oneOf {items : List ClassItem} {item : ClassItem} {c : Char} (hitem : item ∈ items)
    (hc : item.Covers c) : Matches (.oneOf items) [c]

/-- A text can be cut into pieces that atoms stand for, in their order. -/
def Cuts (as : List Atom) (cs : List Char) : Prop :=
  ∃ pieces, List.Forall₂ Atom.Matches as pieces ∧ pieces.flatten = cs

/-! ### Reading a pattern -/

theorem classItems_single {c : Char} {cs : List Char} (hc : ∀ b ds, cs ≠ '-' :: b :: ds) :
    classItems (c :: cs) = .single c :: classItems cs := by
  rw [classItems]
  simpa using hc

theorem readsClass_iff {cs : List Char} {items : List ClassItem} :
    ReadsClass cs items ↔ items = classItems cs := by
  constructor
  · intro h
    induction h with
    | nil => rfl
    | range a b _ ih => rw [classItems, ih]
    | single hc _ ih => rw [classItems_single hc, ih]
  · rintro rfl
    fun_induction classItems cs with
    | case1 a b cs ih => exact .range a b ih
    | case2 c cs hc ih => exact .single (by simpa using hc) ih
    | case3 => exact .nil

theorem atoms_star {stars cs : List Char} (hstars : ∀ c ∈ stars, c = '*')
    (hend : cs.head? ≠ some '*') : atoms ('*' :: (stars ++ cs)) = .anyText :: atoms cs := by
  have hfront : ∀ c ∈ stars, (c == '*') = true := by simpa using hstars
  have hrest : ∀ c ∈ cs.head?, (c == '*') = false := by
    rintro c hc
    rw [beq_eq_false_iff_ne]
    rintro rfl
    exact hend hc
  rw [atoms.eq_def]
  dsimp only
  rw [if_pos rfl, (span_append hfront hrest).2]

theorem atoms_question (cs : List Char) : atoms ('?' :: cs) = .anyChar :: atoms cs := by
  rw [atoms.eq_def]
  rfl

theorem atoms_bracket {inside : List Char} (hinside : ']' ∉ inside) (cs : List Char) :
    atoms ('[' :: (inside ++ ']' :: cs)) = .oneOf (classItems inside) :: atoms cs := by
  obtain ⟨htake, hdrop⟩ := span_bne hinside cs
  rw [atoms.eq_def]
  dsimp only
  rw [if_neg (by decide), if_neg (by decide), if_pos rfl]
  split
  · next h =>
    rw [hdrop] at h
    cases h
  · next h =>
    rw [hdrop] at h
    cases h
    rw [htake]

theorem atoms_unclosed {cs : List Char} (hcs : ']' ∉ cs) : atoms ('[' :: cs) = [.unclosed] := by
  have hdrop := dropWhile_bne_eq_nil_iff.mpr hcs
  rw [atoms.eq_def]
  dsimp only
  rw [if_neg (by decide), if_neg (by decide), if_pos rfl]
  split
  · rfl
  · next h =>
    rw [hdrop] at h
    cases h

theorem atoms_plain {c : Char} (hc : isMark c = false) (cs : List Char) :
    atoms (c :: cs) = .exactly c :: atoms cs := by
  simp only [isMark, Bool.or_eq_false_iff, beq_eq_false_iff_ne] at hc
  rw [atoms.eq_def]
  dsimp only
  rw [if_neg hc.1.1.1, if_neg hc.1.1.2, if_neg hc.1.2, if_neg hc.2]

theorem Reads.of_star {cs : List Char} {as : List Atom} (h : Reads (cs.dropWhile (· == '*')) as) :
    Reads ('*' :: cs) (.anyText :: as) := by
  have hstars : ∀ c ∈ cs.takeWhile (· == '*'), c = '*' := fun c hc =>
    beq_iff_eq.mp (List.mem_takeWhile_imp (p := (· == '*')) hc)
  have hend : (cs.dropWhile (· == '*')).head? ≠ some '*' := by
    intro heq
    have hnot := List.head?_dropWhile_not (· == '*') cs
    rw [heq] at hnot
    cases hnot
  have hread := Reads.star hstars hend h
  rwa [List.takeWhile_append_dropWhile] at hread

theorem Reads.of_bracket {c : Char} {cs rest : List Char} {as : List Atom}
    (hrest : cs.dropWhile (· != ']') = c :: rest) (h : Reads rest as) :
    Reads ('[' :: cs) (.oneOf (classItems (cs.takeWhile (· != ']'))) :: as) := by
  obtain rfl := eq_of_dropWhile_bne hrest
  have hread := Reads.bracket (not_mem_takeWhile_bne ']' cs) (readsClass_iff.mpr rfl) h
  rwa [← hrest, List.takeWhile_append_dropWhile] at hread

theorem reads_atoms (cs : List Char) : Reads cs (atoms cs) := by
  fun_induction atoms cs with
  | case1 => exact .nil
  | case2 cs ih => exact .of_star ih
  | case3 cs _ ih => exact .question ih
  | case4 cs hopen => exact .unclosed (dropWhile_bne_eq_nil_iff.mp hopen)
  | case5 cs _ rest hclose _ _ ih => exact .of_bracket hclose ih
  | case6 => exact .lastBackslash
  | case7 c cs _ _ _ ih => exact .escaped c ih
  | case8 c cs hstar hquestion hbracket hbackslash ih =>
    exact .plain (by simp [isMark, hstar, hquestion, hbracket, hbackslash]) ih

/-- A pattern is read in one way only. -/
theorem reads_iff {cs : List Char} {as : List Atom} : Reads cs as ↔ as = atoms cs := by
  constructor
  · intro h
    induction h with
    | nil => rw [atoms]
    | star hstars hend _ ih => rw [atoms_star hstars hend, ih]
    | question _ ih => rw [atoms_question, ih]
    | bracket hinside hitems _ ih => rw [atoms_bracket hinside, ← readsClass_iff.mp hitems, ih]
    | unclosed hcs => rw [atoms_unclosed hcs]
    | escaped c _ ih =>
      rw [atoms, if_neg (by decide), if_neg (by decide), if_neg (by decide), if_pos rfl, ih]
    | lastBackslash =>
      rw [atoms, if_neg (by decide), if_neg (by decide), if_neg (by decide), if_pos rfl]
    | plain hc _ ih => rw [atoms_plain hc, ih]
  · rintro rfl
    exact reads_atoms cs

/-! ### Matching atoms -/

theorem includes_iff {c : Char} {item : ClassItem} : item.includes c = true ↔ item.Covers c := by
  constructor
  · intro h
    cases item with
    | single d =>
      obtain rfl : c = d := beq_iff_eq.mp h
      exact .single
    | range a b =>
      simp only [ClassItem.includes, Bool.or_eq_true, Bool.and_eq_true, decide_eq_true_eq] at h
      rcases h with ⟨ha, hb⟩ | ⟨hb, ha⟩
      · exact .upward ha hb
      · exact .downward hb ha
  · intro h
    cases h with
    | single => exact beq_self_eq_true c
    | upward ha hb => simp [ClassItem.includes, ha, hb]
    | downward hb ha => simp [ClassItem.includes, hb, ha]

theorem matches_iff {a : Atom} (ha : a ≠ .anyText) {piece : List Char} :
    a.Matches piece ↔ ∃ c, piece = [c] ∧ a.admits c = true := by
  constructor
  · intro h
    cases h with
    | anyText => exact absurd rfl ha
    | anyChar c => exact ⟨c, rfl, rfl⟩
    | exactly c => exact ⟨c, rfl, beq_self_eq_true c⟩
    | @oneOf _ item c hitem hc =>
      exact ⟨c, rfl, List.any_eq_true.mpr ⟨item, hitem, includes_iff.mpr hc⟩⟩
  · rintro ⟨c, rfl, hc⟩
    cases a with
    | anyText => exact absurd rfl ha
    | anyChar => exact .anyChar c
    | exactly d =>
      obtain rfl : d = c := beq_iff_eq.mp hc
      exact .exactly d
    | oneOf items =>
      obtain ⟨item, hitem, hincludes⟩ := List.any_eq_true.mp hc
      exact .oneOf hitem (includes_iff.mp hincludes)
    | unclosed => cases hc

theorem anySuffix_iff {test : List Char → Bool} {cs : List Char} :
    anySuffix test cs = true ↔ ∃ front back, cs = front ++ back ∧ test back = true := by
  induction cs with
  | nil => simp [anySuffix]
  | cons c cs ih =>
    rw [anySuffix, Bool.or_eq_true, ih]
    constructor
    · rintro (h | ⟨front, back, rfl, h⟩)
      · exact ⟨[], c :: cs, rfl, h⟩
      · exact ⟨c :: front, back, rfl, h⟩
    · rintro ⟨front, back, hcs, h⟩
      cases front with
      | nil => exact .inl (hcs ▸ h)
      | cons d front =>
        cases hcs
        exact .inr ⟨front, back, rfl, h⟩

theorem cuts_nil {cs : List Char} : Cuts [] cs ↔ cs = [] := by
  constructor
  · rintro ⟨pieces, hpieces, rfl⟩
    cases hpieces
    rfl
  · rintro rfl
    exact ⟨[], .nil, rfl⟩

/-- The first atom stands for the front of the text, and the others cut the rest. -/
theorem cuts_cons {a : Atom} {as : List Atom} {cs : List Char} :
    Cuts (a :: as) cs ↔ ∃ front back, cs = front ++ back ∧ a.Matches front ∧ Cuts as back := by
  constructor
  · rintro ⟨pieces, hpieces, rfl⟩
    cases hpieces with
    | cons hfirst hothers => exact ⟨_, _, rfl, hfirst, _, hothers, rfl⟩
  · rintro ⟨front, _, rfl, hfirst, pieces, hothers, rfl⟩
    exact ⟨front :: pieces, .cons hfirst hothers, rfl⟩

/-- Atoms match a text if it can be cut into pieces that they stand for. -/
theorem matchAtoms_iff {as : List Atom} {cs : List Char} :
    matchAtoms as cs = true ↔ Cuts as cs := by
  induction as generalizing cs with
  | nil => rw [matchAtoms, List.isEmpty_iff, cuts_nil]
  | cons a as ih =>
    rw [matchAtoms.eq_def, cuts_cons]
    dsimp only
    by_cases ha : a = .anyText
    · subst ha
      rw [if_pos rfl, anySuffix_iff]
      constructor
      · rintro ⟨front, back, hcs, h⟩
        exact ⟨front, back, hcs, .anyText front, ih.mp h⟩
      · rintro ⟨front, back, hcs, -, h⟩
        exact ⟨front, back, hcs, ih.mpr h⟩
    · rw [if_neg ha]
      simp only [matches_iff ha]
      cases cs with
      | nil => simp
      | cons c cs =>
        rw [Bool.and_eq_true, ih]
        constructor
        · rintro ⟨hc, h⟩
          exact ⟨[c], cs, rfl, ⟨c, rfl, hc⟩, h⟩
        · rintro ⟨_, back, hcs, ⟨d, rfl, hd⟩, h⟩
          cases hcs
          exact ⟨hd, h⟩

/-! ### Escaped texts -/

def escape (cs : List Char) : List Char :=
  cs.flatMap fun c => if isMark c then ['\\', c] else [c]

theorem reads_escape (cs : List Char) : Reads (escape cs) (cs.map .exactly) := by
  induction cs with
  | nil => exact .nil
  | cons c cs ih =>
    rw [escape, List.flatMap_cons]
    split
    · exact .escaped c ih
    · next hc => exact .plain (by simpa using hc) ih

theorem cuts_map_exactly {cs ds : List Char} : Cuts (cs.map .exactly) ds ↔ ds = cs := by
  induction cs generalizing ds with
  | nil => exact cuts_nil
  | cons c cs ih =>
    rw [List.map_cons, cuts_cons]
    constructor
    · rintro ⟨front, back, rfl, hc, hback⟩
      cases hc
      rw [ih.mp hback]
      rfl
    · rintro rfl
      exact ⟨[c], cs, rfl, .exactly c, ih.mpr rfl⟩

/-- Every pattern is read into atoms in exactly one way, and it matches a text if and only if the
text can be cut into pieces that these atoms stand for; if case does not matter, both are
lower-cased before.  A text whose marks are all escaped matches itself and no other text. -/
theorem isMatch_iff_cuts :
    (∀ pattern : List Char, ∃! as, Reads pattern as) ∧
    (∀ pattern text, isMatch pattern text false = true ↔
      ∃ as, Reads pattern.toList as ∧ Cuts as text.toList) ∧
    (∀ pattern text, isMatch pattern text true = true ↔
      ∃ as, Reads (lower pattern).toList as ∧ Cuts as (lower text).toList) ∧
    ∀ s text, isMatch (String.ofList (escape s.toList)) text false = true ↔ text = s := by
  have hmatch (cs ds : List Char) : trialOf (atoms cs) ds = .matched ↔
      ∃ as, Reads cs as ∧ Cuts as ds := by
    simp only [trialOf_eq_matched_iff, matchAtoms_iff, reads_iff, exists_eq_left]
  refine ⟨?_, ?_, ?_, ?_⟩
  · exact fun pattern => ⟨_, reads_atoms pattern, fun as h => reads_iff.mp h⟩
  · intro pattern text
    simp only [isMatch, Bool.false_eq_true, if_false, decide_eq_true_eq, hmatch]
  · intro pattern text
    simp only [isMatch, if_true, decide_eq_true_eq, hmatch]
  · intro s text
    simp only [isMatch, Bool.false_eq_true, if_false, decide_eq_true_eq, String.toList_ofList]
    rw [trialOf_eq_matched_iff, ← reads_iff.mp (reads_escape s.toList), matchAtoms_iff,
      cuts_map_exactly, String.toList_inj]

end TclHost.Text.Glob
