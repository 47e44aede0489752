import TclHost.Proofs.Template.Padding
/-! # The form of a directive

A directive has flags, a width that does not start with a zero, a precision behind a point, and a
letter.  The parts are found from left to right: a zero in front of the width is a flag, and nothing
else can be taken for two parts.  The shape admits digits of every script, of which the counts keep
the ASCII ones, so that no other digit is left in the form.
-/
namespace TclHost.Template

open Text

/-! ## Parts of a directive -/

def DirectiveParts.point (p : DirectiveParts) : List Char :=
  match p.precision with
  | none => []
  | some ds => '.' :: ds

/-- A text is written with these parts, where the counts have digits of some kind. -/
structure DirectiveParts.Spells (isDigit : Char → Bool) (p : DirectiveParts) (source : List Char) :
    Prop where
  text : source = '%' :: (p.flags ++ (p.width ++ (p.point ++ [p.verb])))
  flags : ∀ c ∈ p.flags, isFlag c = true
  width : ∀ c ∈ p.width, isDigit c = true
  width_head : p.width.head? ≠ some '0'
  precision : ∀ ds ∈ p.precision, ∀ c ∈ ds, isDigit c = true
  verb : isAsciiLetter p.verb = true

def DirectiveParts.directive (p : DirectiveParts) : Directive where
  minus := p.flags.contains '-'
  plus := p.flags.contains '+'
  space := p.flags.contains ' '
  zero := p.flags.contains '0'
  sharp := p.flags.contains '#'
  width := if p.width = [] then none else some (numeral 10 p.width)
  precision := p.precision.map (numeral 10)
  verb := p.verb

/-- The only digit that is a flag is zero. -/
theorem isFlag_of_isDecimalDigit {c : Char} (h : isDecimalDigit c = true) (hzero : c ≠ '0') :
    isFlag c = false := by
  simp only [isFlag, Bool.or_eq_false_iff, beq_eq_false_iff_ne]
  refine ⟨⟨⟨⟨?_, ?_⟩, ?_⟩, ?_⟩, hzero⟩ <;>
  · rintro rfl
    revert h
    decide

section
variable {p : DirectiveParts} {source : List Char}

theorem head_point (hverb : isAsciiLetter p.verb = true) :
    ∀ c ∈ (p.point ++ [p.verb]).head?, isFlag c = false ∧ isDecimalDigit c = false := by
  intro c hc
  rw [DirectiveParts.point] at hc
  split at hc
  · cases hc
    exact not_flag_nor_digit_of_letter hverb
  · cases hc
    decide

theorem DirectiveParts.Spells.splitDirective? (h : p.Spells isDecimalDigit source) :
    splitDirective? source = some p := by
  obtain ⟨flags, width, precision, verb⟩ := p
  obtain ⟨rfl, hflags, hwidth, hhead, hprecision, hverb⟩ := h
  have hpoint := head_point hverb
  dsimp only at hflags hwidth hhead hprecision hverb
  have hbehind : ∀ c ∈ (width ++ (DirectiveParts.point ⟨flags, width, precision, verb⟩ ++
      [verb])).head?, isFlag c = false := by
    intro c hc
    cases width with
    | nil => exact (hpoint c hc).1
    | cons d ds =>
      cases hc
      exact isFlag_of_isDecimalDigit (hwidth c List.mem_cons_self) fun hd => hhead (by simp [hd])
  obtain ⟨hflags', hrest⟩ := span_append hflags hbehind
  obtain ⟨hwidth', hrest'⟩ := span_append hwidth fun c hc => (hpoint c hc).2
  rw [Template.splitDirective?]
  dsimp only
  rw [hflags', hrest, hwidth', hrest']
  cases precision with
  | none =>
    have hdot : verb ≠ '.' := by
      rintro rfl
      cases hverb
    simp [DirectiveParts.point, hdot, hverb]
  | some ds =>
    have hletter : ∀ c ∈ [verb].head?, isDecimalDigit c = false := by
      rintro c ⟨⟩
      exact (not_flag_nor_digit_of_letter hverb).2
    obtain ⟨htake, hdrop⟩ := span_append (hprecision ds rfl) hletter
    simp [DirectiveParts.point, htake, hdrop, hverb]

theorem spells_of_splitDirective? (h : splitDirective? source = some p) :
    p.Spells isDecimalDigit source := by
  rw [splitDirective?.eq_def] at h
  split at h
  · next cs =>
    dsimp only at h
    have hflags := List.takeWhile_append_dropWhile (p := isFlag) (l := cs)
    have hnoFlag := List.head?_dropWhile_not isFlag cs
    generalize cs.dropWhile isFlag = rest at h hflags hnoFlag
    have hwidth := List.takeWhile_append_dropWhile (p := isDecimalDigit) (l := rest)
    have hhead : (rest.takeWhile isDecimalDigit).head? ≠ some '0' := by
      intro hzero
      rw [List.head?_takeWhile, Option.filter_eq_some_iff] at hzero
      rw [hzero.1] at hnoFlag
      cases hnoFlag
    generalize rest.dropWhile isDecimalDigit = tail at h hwidth
    have hspells (precision : Option (List Char)) {verb : Char}
        (htail : tail = DirectiveParts.point ⟨[], [], precision, verb⟩ ++ [verb])
        (hdigits : ∀ ds ∈ precision, ∀ c ∈ ds, isDecimalDigit c = true)
        (hverb : isAsciiLetter verb = true) :
        DirectiveParts.Spells isDecimalDigit
          ⟨cs.takeWhile isFlag, rest.takeWhile isDecimalDigit, precision, verb⟩ ('%' :: cs) := by
      refine ⟨?_, List.all_eq_true.mp List.all_takeWhile, List.all_eq_true.mp List.all_takeWhile,
        hhead, hdigits, hverb⟩
      rw [htail] at hwidth
      exact congrArg _ ((congrArg _ hwidth).trans hflags).symm
    split at h
    · next verb hverb =>
      split at h
      · next hletter =>
        cases h
        split at hverb
        · next after =>
          have hafter := List.takeWhile_append_dropWhile (p := isDecimalDigit) (l := after)
          dsimp only at hverb
          rw [hverb] at hafter
          refine hspells _ (congrArg _ hafter.symm) ?_ hletter
          rintro ds ⟨⟩
          exact List.all_eq_true.mp List.all_takeWhile
        · exact hspells none hverb (by simp) hletter
      · cases h
    · cases h
  · cases h

end

/-! ## Counts -/

/-- A count is read where all digits are ASCII digits and their number is not too large. -/
theorem count?_eq_some_iff {ds : List Char} {n : Nat} :
    count? ds = some n ↔
      ((∀ c ∈ ds, isAsciiDigit c = true) ∧ numeral 10 ds ≤ maxCount) ∧ numeral 10 ds = n := by
  rw [count?, Option.ite_none_right_eq_some, List.all_eq_true, Option.some_inj]

theorem width_eq_some_iff {ds : List Char} {width : Option Nat} :
    (if ds.isEmpty then some none else (count? ds).map some) = some width ↔
      ((∀ c ∈ ds, isAsciiDigit c = true) ∧ numeral 10 ds ≤ maxCount) ∧
        (if ds = [] then none else some (numeral 10 ds)) = width := by
  cases ds with
  | nil => simp [numeral, numeralFrom]
  | cons c cs =>
    simp only [List.isEmpty_cons, Bool.false_eq_true, if_false, reduceCtorEq,
      Option.map_eq_some_iff, count?_eq_some_iff]
    constructor
    · rintro ⟨n, ⟨hcount, rfl⟩, rfl⟩
      exact ⟨hcount, rfl⟩
    · rintro ⟨hcount, rfl⟩
      exact ⟨_, ⟨hcount, rfl⟩, rfl⟩

theorem precision_eq_some_iff {places : Option (List Char)} {precision : Option Nat} :
    (places.elim (some none) fun ds => (count? ds).map some) = some precision ↔
      (∀ ds ∈ places, (∀ c ∈ ds, isAsciiDigit c = true) ∧ numeral 10 ds ≤ maxCount) ∧
        places.map (numeral 10) = precision := by
  cases places with
  | none => simp
  | some ds =>
    simp only [Option.elim_some, Option.map_eq_some_iff, count?_eq_some_iff, Option.mem_def,
      Option.some.injEq, forall_eq', Option.map_some]
    constructor
    · rintro ⟨n, ⟨hcount, rfl⟩, rfl⟩
      exact ⟨hcount, rfl⟩
    · rintro ⟨hcount, rfl⟩
      exact ⟨_, ⟨hcount, rfl⟩, rfl⟩

structure DirectiveParts.Counts (p : DirectiveParts) : Prop where
  width : (∀ c ∈ p.width, isAsciiDigit c = true) ∧ numeral 10 p.width ≤ maxCount
  precision : ∀ ds ∈ p.precision, (∀ c ∈ ds, isAsciiDigit c = true) ∧ numeral 10 ds ≤ maxCount

theorem counts?_eq_some_iff {p : DirectiveParts} {width precision : Option Nat} :
    p.counts? = some (width, precision) ↔
      p.Counts ∧ p.directive.width = width ∧ p.directive.precision = precision := by
  simp only [counts?_eq, Option.bind_eq_some_iff, Option.map_eq_some_iff, width_eq_some_iff,
    precision_eq_some_iff, Prod.mk.injEq]
  constructor
  · rintro ⟨w, ⟨hwidth, hw⟩, q, ⟨hprecision, hq⟩, rfl, rfl⟩
    exact ⟨⟨hwidth, hprecision⟩, hw, hq⟩
  · rintro ⟨⟨hwidth, hprecision⟩, hw, hq⟩
    exact ⟨_, ⟨hwidth, hw⟩, _, ⟨hprecision, hq⟩, rfl, rfl⟩

/-! ## Directives -/

theorem parse_eq_ok_iff {source : String} {d : Directive} :
    Directive.parse source = .ok d ↔
      ∃ p : DirectiveParts, p.Spells isDecimalDigit source.toList ∧ p.Counts ∧ p.directive = d := by
  constructor
  · intro h
    rw [Directive.parse] at h
    split at h
    · cases h
    · next p hp =>
      split at h
      · cases h
      · next width precision hsome =>
        obtain ⟨hcounts, rfl, rfl⟩ := counts?_eq_some_iff.mp hsome
        cases h
        exact ⟨p, spells_of_splitDirective? hp, hcounts, rfl⟩
  · rintro ⟨p, hspells, hcounts, rfl⟩
    have hcounts' := counts?_eq_some_iff.mpr ⟨hcounts, rfl, rfl⟩
    simp only [Directive.parse, hspells.splitDirective?, hcounts']
    rfl

namespace DirectiveParts.Spells
variable {p p' : DirectiveParts} {source : List Char}

theorem unicode (h : p.Spells isAsciiDigit source) : p.Spells isDecimalDigit source where
  text := h.text
  flags := h.flags
  width c hc := isDecimalDigit_of_isAsciiDigit (h.width c hc)
  width_head := h.width_head
  precision ds hds c hc := isDecimalDigit_of_isAsciiDigit (h.precision ds hds c hc)
  verb := h.verb

theorem ascii (h : p.Spells isDecimalDigit source) (hcounts : p.Counts) :
    p.Spells isAsciiDigit source where
  text := h.text
  flags := h.flags
  width := hcounts.width.1
  width_head := h.width_head
  precision ds hds := (hcounts.precision ds hds).1
  verb := h.verb

/-- A text has its parts in one way only. -/
theorem unique (h : p.Spells isAsciiDigit source) (h' : p'.Spells isAsciiDigit source) : p = p' :=
  Option.some.inj (h.unicode.splitDirective?.symm.trans h'.unicode.splitDirective?)

theorem toNat_lt (h : p.Spells isAsciiDigit source) : ∀ c ∈ source, c.toNat < 128 := by
  have hflag {c : Char} (hc : isFlag c = true) : c.toNat < 128 := by
    simp only [isFlag, Bool.or_eq_true, beq_iff_eq] at hc
    rcases hc with (((rfl | rfl) | rfl) | rfl) | rfl <;> decide
  have hdigit {c : Char} (hc : isAsciiDigit c = true) : c.toNat < 128 := by
    have := toNat_of_isAsciiDigit hc
    omega
  have hpoint : ∀ c ∈ p.point, c.toNat < 128 := by
    rw [DirectiveParts.point]
    cases hplaces : p.precision with
    | none => simp
    | some ds =>
      intro c hc
      rcases List.mem_cons.mp hc with rfl | hc
      · decide
      · exact hdigit (h.precision ds hplaces c hc)
  rw [h.text]
  intro c hc
  simp only [List.mem_cons, List.mem_append, List.not_mem_nil, or_false] at hc
  rcases hc with rfl | hc | hc | hc | rfl
  · decide
  · exact hflag (h.flags c hc)
  · exact hdigit (h.width c hc)
  · exact hpoint c hc
  · have := toNat_of_isAsciiLetter h.verb
    omega

theorem getLast? (h : p.Spells isAsciiDigit source) : source.getLast? = some p.verb := by
  rw [h.text, ← List.append_assoc, ← List.append_assoc, ← List.cons_append,
    List.getLast?_append_cons]
  rfl

end DirectiveParts.Spells

/-- Exactly the texts with the parts of a directive and with counts up to a million are read, which
gives the directive with these parts, and there is one way only to find them.  So there are no
characters but those of ASCII, and the last one is a letter. -/
theorem directive_read_iff (source : String) :
    (∀ d : Directive, Directive.parse source = .ok d ↔
      ∃ p : DirectiveParts, p.Spells isAsciiDigit source.toList ∧ numeral 10 p.width ≤ 1000000 ∧
        (∀ ds ∈ p.precision, numeral 10 ds ≤ 1000000) ∧ p.directive = d) ∧
    Set.Subsingleton {p : DirectiveParts | p.Spells isAsciiDigit source.toList} ∧
    ∀ d : Directive, Directive.parse source = .ok d →
      (∀ c ∈ source.toList, c.toNat < 128) ∧
        ∃ c, source.toList.getLast? = some c ∧ isAsciiLetter c = true := by
  refine ⟨fun d => ⟨fun h => ?_, ?_⟩, fun p hp p' hp' => hp.unique hp', fun d h => ?_⟩
  · obtain ⟨p, hspells, hcounts, hd⟩ := parse_eq_ok_iff.mp h
    exact ⟨p, hspells.ascii hcounts, hcounts.width.2, fun ds hds => (hcounts.precision ds hds).2,
      hd⟩
  · rintro ⟨p, hspells, hwidth, hprecision, hd⟩
    exact parse_eq_ok_iff.mpr ⟨p, hspells.unicode,
      ⟨⟨hspells.width, hwidth⟩, fun ds hds => ⟨hspells.precision ds hds, hprecision ds hds⟩⟩, hd⟩
  · obtain ⟨p, hspells, hcounts, -⟩ := parse_eq_ok_iff.mp h
    have hascii := hspells.ascii hcounts
    exact ⟨hascii.toNat_lt, p.verb, hascii.getLast?, hascii.verb⟩

end TclHost.Template
