import TclHost.Interp.Command.Control
import TclHost.Proofs.TclList.Weight
import TclHost.Proofs.Text.Trim
/-! # Joining lists

Before lists are joined, white space around each of them is dropped: all Unicode white space, even
that which belongs to an element at the edge of its list.  A list that begins and ends without any
is joined as it stands; otherwise what is joined weighs less than the elements, so that they cannot
all be read back.
-/
namespace TclHost.TclList

open Text

/-! ### Trimming -/

theorem length_le_weight_of_blank {cs : List Char} (h : ∀ c ∈ cs, isBlank c = true) :
    cs.length ≤ weight false cs := by
  induction cs with
  | nil => exact Nat.le_refl _
  | cons c cs ih =>
    have hcs := ih fun x hx => h x (List.mem_cons_of_mem c hx)
    have hle := weight_false_le (c == '\\') cs
    simp only [weight, h c List.mem_cons_self, List.length_cons, Bool.toNat_true]
    omega

theorem weight_trim_le (cs : List Char) :
    weight false (trim cs) + cs.length ≤ weight false cs + (trim cs).length := by
  obtain ⟨front, back, hcs, hfront, hback⟩ := exists_eq_trim_append cs
  have hsplit := weight_append_le false (front ++ trim cs) back
  have hsplit' := weight_append_le false front (trim cs)
  have hfront' := length_le_weight_of_blank hfront
  have hback' := length_le_weight_of_blank hback
  have hlength := congrArg List.length hcs
  rw [List.length_append, List.length_append] at hlength
  rw [← hcs] at hsplit
  omega

theorem weight_trim_lt {cs : List Char} (h : trim cs ≠ cs) :
    weight false (trim cs) < weight false cs := by
  have hle := weight_trim_le cs
  have hsublist := trim_sublist cs
  have hlength : (trim cs).length < cs.length :=
    lt_of_le_of_ne hsublist.length_le fun heq => h (hsublist.eq_of_length heq)
  omega

/-! ### Edges of a list -/

/-- White space that does not separate the elements of a list. -/
def isHidden (c : Char) : Bool :=
  isBlank c && !isListSpace c

def inBraces (cs : List Char) : Bool :=
  cs.isEmpty || ((cs.any isSpecial || cs.head? == some '#') && canBrace cs)

def looseFront (cs : List Char) : Bool :=
  !inBraces cs && cs.head?.any isHidden

def looseBack (cs : List Char) : Bool :=
  !inBraces cs && cs.getLast?.any fun c => isHidden c || c == ' '

theorem flatMap_escapeChar_of_bare {cs : List Char} (h : ∀ c ∈ cs, isSpecial c = false) :
    cs.flatMap escapeChar = cs := by
  induction cs with
  | nil => rfl
  | cons c cs ih =>
    rw [List.flatMap_cons, escapeChar_of_not_isSpecial (h c List.mem_cons_self),
      ih fun x hx => h x (List.mem_cons_of_mem c hx)]
    rfl

theorem quoteChars_eq (cs : List Char) :
    quoteChars cs = if inBraces cs then '{' :: cs ++ ['}'] else cs.flatMap escapeChar := by
  unfold quoteChars inBraces
  cases cs with
  | nil => rfl
  | cons c cs =>
    cases hspecial : (c :: cs).any isSpecial with
    | true => simp
    | false =>
      have hbare : ∀ x ∈ c :: cs, isSpecial x = false := by simpa using hspecial
      rw [flatMap_escapeChar_of_bare hbare]
      by_cases hnumber : (c :: cs).head? = some '#' <;> simp_all

theorem edges_escapeChar (c : Char) :
    (escapeChar c).head?.any isBlank = isHidden c ∧
      (escapeChar c).getLast?.any isBlank = (isHidden c || c == ' ') := by
  cases hc : isSpecial c with
  | true =>
    exact of_isSpecial (p := fun c => (escapeChar c).head?.any isBlank = isHidden c ∧
      (escapeChar c).getLast?.any isBlank = (isHidden c || c == ' ')) (by decide) hc
  | false =>
    have hspace : isListSpace c = false := isListSpace_of_not_isSpecial (by simp [hc])
    have hne : c ≠ ' ' := by
      rintro rfl
      cases hspace
    simp [escapeChar_of_not_isSpecial hc, isHidden, hspace, hne]

theorem edges_quoteChars (cs : List Char) :
    (quoteChars cs).head?.any isBlank = looseFront cs ∧
      (quoteChars cs).getLast?.any isBlank = looseBack cs := by
  rw [quoteChars_eq, looseFront, looseBack]
  cases hbraces : inBraces cs with
  | true =>
    rw [if_pos rfl, List.getLast?_concat]
    exact ⟨rfl, rfl⟩
  | false =>
    have hne : cs ≠ [] := by
      rintro rfl
      cases hbraces
    have hform (c : Char) : escapeChar c ≠ [] :=
      (written_escapeChar c).ne_nil (List.cons_ne_nil c [])
    rw [if_neg Bool.false_ne_true, Bool.not_false, Bool.true_and, Bool.true_and]
    constructor
    · obtain ⟨c, cs, rfl⟩ := List.exists_cons_of_ne_nil hne
      rw [List.flatMap_cons, List.head?_append_of_ne_nil _ (hform c), (edges_escapeChar c).1]
      rfl
    · obtain ⟨front, c, rfl⟩ := List.eq_nil_or_concat cs |>.resolve_left hne
      rw [List.concat_eq_append, List.flatMap_append, List.flatMap_singleton,
        List.getLast?_append_of_ne_nil _ (hform c),
        (edges_escapeChar c).2, List.getLast?_concat]
      rfl

/-- No white space around the written list belongs to an element. -/
def isTight (items : List String) : Bool :=
  !(items.head?.any fun x => looseFront x.toList) &&
    !(items.getLast?.any fun x => looseBack x.toList)

theorem toList_format_eq (items : List String) :
    (format items).toList = (spaced (items.map fun x => quoteChars x.toList)).tail := by
  rw [format, toList_intercalate, List.map_map]
  congr 2
  simp [Function.comp_def, quote]

/-- Texts joined by spaces begin as the first one and end as the last one. -/
theorem edges_spaced {qs : List (List Char)} (h : ∀ q ∈ qs, q ≠ []) :
    (spaced qs).tail.head? = qs.head?.bind List.head? ∧
      (spaced qs).tail.getLast? = qs.getLast?.bind List.getLast? := by
  constructor
  · cases qs with
    | nil => rfl
    | cons q qs =>
      exact List.head?_append_of_ne_nil q (h q List.mem_cons_self)
  · obtain rfl | ⟨front, q, rfl⟩ := List.eq_nil_or_concat qs
    · rfl
    · obtain ⟨before, hbefore⟩ : ∃ before, (spaced (front ++ [q])).tail = before ++ q := by
        cases front with
        | nil => exact ⟨[], by simp [spaced]⟩
        | cons r front => exact ⟨r ++ spaced front ++ [' '], by simp [spaced]⟩
      rw [List.concat_eq_append, hbefore, List.getLast?_append_of_ne_nil _ (h q (by simp)),
        List.getLast?_concat]
      rfl

theorem quoteChars_ne_nil (cs : List Char) : quoteChars cs ≠ [] := by
  obtain ⟨c, tail, hq, -⟩ := readElement_quoteChars cs
  rw [hq]
  exact List.cons_ne_nil c tail

theorem trim_format_iff (items : List String) :
    trim (format items).toList = (format items).toList ↔ isTight items = true := by
  have hform : ∀ q ∈ items.map fun x => quoteChars x.toList, q ≠ [] := by
    intro q hq
    obtain ⟨x, -, rfl⟩ := List.mem_map.mp hq
    exact quoteChars_ne_nil _
  obtain ⟨hfront, hback⟩ := edges_spaced hform
  rw [trim_eq_self_iff, toList_format_eq, hfront, hback, List.head?_map, List.getLast?_map, isTight]
  simp only [← (edges_quoteChars _).1, ← (edges_quoteChars _).2]
  cases items.head? <;> cases items.getLast? <;> simp

/-! ### Joining -/

def joined (args : List String) : List (List Char) :=
  (args.map fun a => trim a.toList).filter fun cs => !cs.isEmpty

theorem joined_cons (arg : String) (args : List String) :
    joined (arg :: args) = joined [arg] ++ joined args := by
  rw [joined, List.map_cons, ← List.singleton_append, List.filter_append]
  rfl

theorem toList_concatTexts (args : List String) :
    (Command.concatTexts args).toList = (spaced (joined args)).tail := by
  have hempty (cs : List Char) : (String.ofList cs).isEmpty = cs.isEmpty := by
    rw [Bool.eq_iff_iff]
    simp
  rw [Command.concatTexts, toList_intercalate, joined]
  simp [List.filter_map, Function.comp_def, hempty]

/-- A list without white space around it is joined as it stands. -/
theorem spaced_joined_format {items : List String} (h : isTight items = true) :
    spaced (joined [format items]) = spaced (items.map fun x => quoteChars x.toList) := by
  have htrim := (trim_format_iff items).mpr h
  cases items with
  | nil => rfl
  | cons x items =>
    have hne : (format (x :: items)).toList ≠ [] := by
      rw [toList_format]
      exact List.append_ne_nil_of_left_ne_nil (quoteChars_ne_nil _) _
    have hjoined : joined [format (x :: items)] = [(format (x :: items)).toList] := by
      rw [joined, List.map_singleton, htrim]
      exact List.filter_cons_of_pos (by simpa using hne)
    rw [hjoined, toList_format_eq]
    exact List.append_nil _

theorem concatTexts_format {lists : List (List String)}
    (h : ∀ items ∈ lists, isTight items = true) :
    Command.concatTexts (lists.map format) = format lists.flatten := by
  rw [← String.toList_inj, toList_concatTexts, toList_format_eq]
  congr 1
  induction lists with
  | nil => rfl
  | cons items lists ih =>
    have hitems := spaced_joined_format (h items List.mem_cons_self)
    have hlists := ih fun l hl => h l (List.mem_cons_of_mem items hl)
    rw [List.map_cons, joined_cons, spaced_append, hitems, hlists, List.flatten_cons,
      List.map_append, spaced_append]

/-! ### Weighing what is joined -/

theorem itemsWeight_append (xs ys : List (List Char)) :
    itemsWeight (xs ++ ys) = itemsWeight xs + itemsWeight ys := by
  induction xs with
  | nil => exact (Nat.zero_add _).symm
  | cons x xs ih =>
    rw [List.cons_append, itemsWeight, itemsWeight, ih]
    omega

theorem itemsWeight_joined_singleton_le (arg : String) :
    itemsWeight (joined [arg]) ≤ weight false (trim arg.toList) + 1 := by
  rw [joined, List.map_singleton, List.filter_singleton]
  cases (trim arg.toList).isEmpty with
  | true => exact Nat.zero_le _
  | false => exact Nat.le_refl _

theorem weight_format (x : String) (items : List String) :
    weight false (format (x :: items)).toList + 1
      = itemsWeight ((x :: items).map String.toList) := by
  have htail := weight_listSpace (c := ' ') (by decide) false (format (x :: items)).toList
  rw [← htail, ← itemsWeight_map_quoteChars, ← weight_spaced, toList_format_eq, List.map_map]
  rfl

/-- What is joined of a list weighs no more than its elements, and less if white space around it is
dropped. -/
theorem itemsWeight_joined_format (items : List String) :
    itemsWeight (joined [format items]) ≤ itemsWeight (items.map String.toList) ∧
      (isTight items = false →
        itemsWeight (joined [format items]) < itemsWeight (items.map String.toList)) := by
  cases items with
  | nil => exact ⟨Nat.le_refl _, nofun⟩
  | cons x items =>
    have hjoined := itemsWeight_joined_singleton_le (format (x :: items))
    have htrim := weight_trim_le (format (x :: items)).toList
    have hlength := (trim_sublist (format (x :: items)).toList).length_le
    have hform := weight_format x items
    refine ⟨by omega, fun hloose => ?_⟩
    have hlt := weight_trim_lt fun heq =>
      Bool.false_ne_true (hloose.symm.trans ((trim_format_iff (x :: items)).mp heq))
    omega

/-- Joined lists weigh no more than all their elements, and less if white space around one of them
is dropped. -/
theorem itemsWeight_joined_le (lists : List (List String)) :
    itemsWeight (joined (lists.map format)) ≤ itemsWeight (lists.flatten.map String.toList) ∧
      ((∃ items ∈ lists, isTight items = false) →
        itemsWeight (joined (lists.map format)) <
          itemsWeight (lists.flatten.map String.toList)) := by
  induction lists with
  | nil => exact ⟨Nat.le_refl _, nofun⟩
  | cons items lists ih =>
    obtain ⟨hitems, hitems'⟩ := itemsWeight_joined_format items
    obtain ⟨hlists, hlists'⟩ := ih
    rw [List.map_cons, joined_cons, List.flatten_cons, List.map_append, itemsWeight_append,
      itemsWeight_append]
    refine ⟨by omega, ?_⟩
    rintro ⟨loose, hmem, hloose⟩
    rcases List.mem_cons.mp hmem with rfl | hmem
    · have hlt := hitems' hloose
      omega
    · have hlt := hlists' ⟨loose, hmem, hloose⟩
      omega

/-- The space in front of the first text does not matter to a reader of elements. -/
theorem elements_tail_spaced (qs : List (List Char)) :
    elements (spaced qs).tail = elements (spaced qs) := by
  cases qs with
  | nil => rfl
  | cons q qs =>
    have hcons : spaced (q :: qs) = ' ' :: (q ++ spaced qs) := rfl
    rw [hcons, elements, dif_pos (by decide), List.tail_cons]

/-- What is read of joined texts weighs no more than they do. -/
theorem itemsWeight_of_parse {args items : List String}
    (h : parse (Command.concatTexts args) = .ok items) :
    itemsWeight (items.map String.toList) ≤ itemsWeight (joined args) := by
  rw [parse, toList_concatTexts, elements_tail_spaced] at h
  cases hread : elements (spaced (joined args)) with
  | error e =>
    rw [hread] at h
    cases h
  | ok css =>
    rw [hread] at h
    cases h
    have hle := (itemsWeight_le hread).2 (separated_spaced _)
    rw [weight_spaced] at hle
    simpa [Function.comp_def] using hle

/-- Joined lists are read as all their elements exactly if no list begins or ends with white space
that belongs to an element. -/
theorem parse_concatTexts_iff (lists : List (List String)) :
    parse (Command.concatTexts (lists.map format)) = .ok lists.flatten ↔
      ∀ items ∈ lists, isTight items = true := by
  constructor
  · intro h items hmem
    have hle := itemsWeight_of_parse h
    cases hloose : isTight items with
    | true => rfl
    | false =>
      have hlt := (itemsWeight_joined_le lists).2 ⟨items, hmem, hloose⟩
      omega
  · intro h
    rw [concatTexts_format h]
    exact parse_of_eq_format rfl

/-- A space behind a backslash is dropped at the end of a list, so that the next list continues the
element, and an element that is no more than a no-break space is dropped as a whole. -/
theorem parse_concatTexts_merged_and_dropped :
    parse (Command.concatTexts ([["\x7b "], ["b"]].map format)) = .ok ["\x7b b"] ∧
      parse (Command.concatTexts ([["\u00a0"]].map format)) = .ok [] := by
  have hmerged : Command.concatTexts ([["\x7b "], ["b"]].map format) = format ["\x7b b"] := by
    decide
  have hdropped : Command.concatTexts ([["\u00a0"]].map format) = format [] := by decide
  rw [hmerged, hdropped]
  exact ⟨parse_of_eq_format rfl, parse_of_eq_format rfl⟩

end TclHost.TclList
