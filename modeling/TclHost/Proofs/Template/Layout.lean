import TclHost.Template.Expansion
import TclHost.Text.Delimited
/-! # What a template expands to

A template alternates literal texts and placeholders, and may break off in a placeholder that is
never closed.  Each placeholder expands on its own: of the others only the number of nameless ones
in front of it matters, and of the arguments only the one that it names.  The expansion of the
template is the expansions of the placeholders between the literal texts, up to the first
placeholder that fails.
-/
namespace TclHost.Template

open Text

structure Slot where
  literal : List Char
  body : List Char
  literal_inert : ¬['%', '{'] <:+: literal
  body_open : '}' ∉ body

namespace Slot

/-- The name of the argument is what stands in front of the first percent sign. -/
def name (slot : Slot) : String :=
  String.ofList (slot.body.takeWhile (· != '%'))

def directive? (slot : Slot) : Option String :=
  match slot.body.dropWhile (· != '%') with
  | [] => none
  | directive => some (String.ofList directive)

def text (slot : Slot) : List Char :=
  slot.literal ++ '%' :: '{' :: (slot.body ++ ['}'])

end Slot

/-- A template cut into its placeholders, the literal texts in front of them, the last literal text,
and what stands behind it in a placeholder without an end, if there is one. -/
structure Layout where
  slots : List Slot
  last : List Char
  open? : Option (List Char)
  last_inert : ¬['%', '{'] <:+: last
  open_open : ∀ tail ∈ open?, '}' ∉ tail

/-- The argument that a name stands for behind a number of placeholders without a name. -/
def argument (args : Args) (earlier : Nat) (name : String) : Except Error Arg :=
  match args with
  | .positional list =>
    if name.isEmpty then list[earlier]?.elim (.error (.noArgument earlier list.length)) .ok
    else if name.toList.all isAsciiDigit then
      let index := numeral 10 name.toList
      if 2 ^ 64 ≤ index then .error (.indexTooLarge name)
      else list[index]?.elim (.error (.indexOutOfRange index list.length)) .ok
    else .error (.namedWithPositional name list.length)
  | .named map =>
    if name.isEmpty then .error .implicitWithNamed
    else if name.toList.all isAsciiDigit then .error (.positionalWithNamed name)
    else (map.lookup name).elim (.error (.missingName name)) .ok

def Slot.outcome (slot : Slot) (args : Args) (earlier : Nat) : Except Error String := do
  insertion slot.directive? (← argument args earlier slot.name)

def slotOutcomes (args : Args) (earlier : Nat) (slots : List Slot) : List (Except Error String) :=
  slots.mapIdx fun i slot =>
    slot.outcome args (earlier + (slots.take i).countP (·.name.isEmpty))

/-- The literal texts with an expansion behind each, up to where the expansions end. -/
def interleave : List (List Char) → List String → String
  | l :: ls, e :: es => String.ofList l ++ (e ++ interleave ls es)
  | l :: _, [] => String.ofList l
  | [], _ => ""

namespace Layout

def openText (layout : Layout) : List Char :=
  layout.open?.elim [] fun tail => '%' :: '{' :: tail

def openOutcomes (layout : Layout) : List (Except Error String) :=
  layout.open?.toList.map fun tail =>
    .error (.unterminated (String.ofList ('%' :: '{' :: tail)))

def text (layout : Layout) : String :=
  String.ofList (layout.slots.flatMap Slot.text ++ (layout.last ++ layout.openText))

def literals (layout : Layout) : List (List Char) :=
  layout.slots.map Slot.literal ++ [layout.last]

def outcomes (layout : Layout) (args : Args) : List (Except Error String) :=
  slotOutcomes args 0 layout.slots ++ layout.openOutcomes

end Layout

/-! ## Cutting a template -/

theorem pieces_of_ne {c : Char} {cs : List Char} (h : c = '%' → cs.head? ≠ some '{') :
    pieces (c :: cs) = .literal c :: pieces cs := by
  rw [pieces.eq_def]
  split
  · next heq =>
    cases heq
    exact absurd rfl (h rfl)
  · next heq =>
    cases heq
    rfl
  · next heq => cases heq

theorem pieces_literal {literal rest : List Char} (h : ¬['%', '{'] <:+: literal)
    (hrest : rest.head? ≠ some '{') :
    pieces (literal ++ rest) = literal.map .literal ++ pieces rest := by
  induction literal with
  | nil => rfl
  | cons c cs ih =>
    have htail : ¬['%', '{'] <:+: cs := fun hin => h (hin.trans (List.suffix_cons c cs).isInfix)
    have hc : c = '%' → (cs ++ rest).head? ≠ some '{' := by
      rintro rfl
      cases cs with
      | nil => exact hrest
      | cons d ds =>
        rintro ⟨rfl⟩
        exact h ⟨[], ds, rfl⟩
    rw [List.cons_append, pieces_of_ne hc, ih htail]
    rfl

theorem pieces_placeholder {body : List Char} (h : '}' ∉ body) (rest : List Char) :
    pieces ('%' :: '{' :: (body ++ '}' :: rest)) = .ofBody body :: pieces rest := by
  obtain ⟨htake, hdrop⟩ := span_bne h rest
  rw [pieces]
  split
  · next hnil => cases hnil.symm.trans hdrop
  · next hcons =>
    cases hcons.symm.trans hdrop
    rw [htake]

theorem pieces_unterminated {tail : List Char} (h : '}' ∉ tail) :
    pieces ('%' :: '{' :: tail) = [.unterminated ('%' :: '{' :: tail)] := by
  have hdrop := dropWhile_bne_eq_nil_iff.mpr h
  rw [pieces]
  split
  · rfl
  · next hcons => cases hcons.symm.trans hdrop

/-! ## Expanding the pieces -/

/-- Finding the argument and counting on are two things. -/
theorem resolve_eq (args : Args) (counter : Nat) (name : String) :
    resolve name args counter = (argument args counter name).map fun arg =>
      (arg, if name.isEmpty then counter + 1 else counter) := by
  unfold resolve argument
  by_cases hname : name.isEmpty
  · simp only [if_pos hname]
    cases args with
    | named map => rfl
    | positional list =>
      dsimp only
      cases list[counter]? <;> rfl
  · simp only [if_neg hname]
    by_cases hdigits : name.toList.all isAsciiDigit
    · simp only [if_pos hdigits]
      cases args with
      | named map => rfl
      | positional list =>
        dsimp only
        split
        · rfl
        · cases list[numeral 10 name.toList]? <;> rfl
    · simp only [if_neg hdigits]
      cases args with
      | named map =>
        dsimp only
        cases map.lookup name <;> rfl
      | positional list => rfl

theorem expandPieces_literal (args : Args) (counter : Nat) (written : String)
    (literal : List Char) (ps : List Piece) :
    expandPieces args counter written (literal.map .literal ++ ps) =
      expandPieces args counter (written ++ String.ofList literal) ps := by
  induction literal generalizing written with
  | nil => simp
  | cons c cs ih =>
    have happend : Buffer.append written c.toString ++ String.ofList cs =
        written ++ String.ofList (c :: cs) := by
      apply String.toList_injective
      simp
    rw [List.map_cons, List.cons_append, expandPieces, ih, happend]

theorem Slot.ofBody_body (slot : Slot) : Piece.ofBody slot.body =
    .placeholder (slot.body.takeWhile (· != '%')) (slot.directive?.map String.toList) := by
  rw [Piece.ofBody, directive?]
  cases h : slot.body.dropWhile (· != '%') with
  | nil =>
    have hbody := List.takeWhile_append_dropWhile (p := (· != '%')) (l := slot.body)
    rw [h, List.append_nil] at hbody
    rw [hbody]
    rfl
  | cons c cs => simp

theorem Slot.expandPieces_ofBody (slot : Slot) (args : Args) (counter : Nat) (written : String)
    (ps : List Piece) :
    expandPieces args counter written (.ofBody slot.body :: ps) =
      match slot.outcome args counter with
      | .ok s => expandPieces args (if slot.name.isEmpty then counter + 1 else counter)
          (written ++ s) ps
      | .error e => (written, some e) := by
  have hdirective : (slot.directive?.map String.toList).map String.ofList = slot.directive? := by
    simp
  rw [ofBody_body, expandPieces, resolve_eq, hdirective, outcome, name]
  cases argument args counter (String.ofList (slot.body.takeWhile (· != '%'))) with
  | error e => rfl
  | ok arg =>
    simp only [Except.map, Except.bind, bind]
    cases insertion slot.directive? arg <;> rfl

/-! ## Layouts -/

theorem slotOutcomes_cons (args : Args) (earlier : Nat) (slot : Slot) (slots : List Slot) :
    slotOutcomes args earlier (slot :: slots) = slot.outcome args earlier ::
      slotOutcomes args (if slot.name.isEmpty then earlier + 1 else earlier) slots := by
  rw [slotOutcomes, List.mapIdx_cons, slotOutcomes]
  congr 1
  apply congrArg (List.mapIdx · slots)
  funext i next
  rw [List.take_succ_cons, List.countP_cons]
  split
  · congr 1
    omega
  · rfl

/-- The literal texts with what is behind each, up to where that ends or fails. -/
def fill : List (List Char) → List (Except Error String) → String × Option Error
  | l :: ls, .ok e :: outcomes =>
    (String.ofList l ++ (e ++ (fill ls outcomes).1), (fill ls outcomes).2)
  | l :: _, .error e :: _ => (String.ofList l, some e)
  | l :: _, [] => (String.ofList l, none)
  | [], _ => ("", none)

theorem fill_map_ok (literals : List (List Char)) (texts : List String) :
    fill literals (texts.map .ok) = (interleave literals texts, none) := by
  induction literals generalizing texts with
  | nil => rfl
  | cons l ls ih =>
    cases texts with
    | nil => rfl
    | cons e es => rw [List.map_cons, fill, ih, interleave]

theorem fill_map_ok_append_error {literals : List (List Char)} {texts : List String}
    (h : texts.length < literals.length) (e : Error) (later : List (Except Error String)) :
    fill literals (texts.map .ok ++ .error e :: later) = (interleave literals texts, some e) := by
  induction literals generalizing texts with
  | nil => cases h
  | cons l ls ih =>
    cases texts with
    | nil => rfl
    | cons e es =>
      rw [List.map_cons, List.cons_append, fill, ih (Nat.lt_of_succ_lt_succ h), interleave]

namespace Layout

/-- What is written behind the last literal text is one piece, if there is anything. -/
theorem pieces_openText (layout : Layout) : pieces layout.openText =
    layout.open?.toList.map fun tail => .unterminated ('%' :: '{' :: tail) := by
  unfold openText
  cases h : layout.open? with
  | none => simp [pieces]
  | some tail => exact pieces_unterminated (layout.open_open tail h)

theorem expandPieces_last (layout : Layout) (args : Args) (counter : Nat) (written : String) :
    expandPieces args counter written (pieces (layout.last ++ layout.openText)) =
      (fill [layout.last] layout.openOutcomes).map (written ++ ·) id := by
  have hopen : layout.openText.head? ≠ some '{' := by
    unfold openText
    cases layout.open? <;> simp
  rw [pieces_literal layout.last_inert hopen, expandPieces_literal, pieces_openText, openOutcomes]
  cases layout.open? <;> rfl

/-- Every placeholder and the literal text in front of it are done with before the next ones. -/
theorem expandPieces_slots (layout : Layout) (args : Args) (counter : Nat) (written : String)
    (slots : List Slot) :
    expandPieces args counter written
        (pieces (slots.flatMap Slot.text ++ (layout.last ++ layout.openText))) =
      (fill (slots.map Slot.literal ++ [layout.last])
        (slotOutcomes args counter slots ++ layout.openOutcomes)).map (written ++ ·) id := by
  induction slots generalizing counter written with
  | nil => exact layout.expandPieces_last args counter written
  | cons slot slots ih =>
    have htext (rest : List Char) : slot.text ++ rest =
        slot.literal ++ '%' :: '{' :: (slot.body ++ '}' :: rest) := by
      simp [Slot.text]
    rw [List.flatMap_cons, List.append_assoc, htext, pieces_literal slot.literal_inert (by simp),
      expandPieces_literal, pieces_placeholder slot.body_open, slot.expandPieces_ofBody,
      slotOutcomes_cons, List.map_cons, List.cons_append, List.cons_append]
    cases slot.outcome args counter with
    | error e => rfl
    | ok s =>
      dsimp only
      rw [ih, fill]
      simp [Prod.map, String.append_assoc]

theorem expandInto_eq_fill (layout : Layout) (args : Args) :
    expandInto "" layout.text args = fill layout.literals (layout.outcomes args) := by
  have hslots := layout.expandPieces_slots args 0 "" layout.slots
  simp only [String.empty_append] at hslots
  rw [expandInto, text, String.toList_ofList]
  exact hslots

theorem length_outcomes_le (layout : Layout) (args : Args) :
    (layout.outcomes args).length ≤ layout.literals.length := by
  have hopen : layout.openOutcomes.length ≤ 1 := by
    unfold openOutcomes
    cases layout.open? <;> simp
  simp only [outcomes, slotOutcomes, literals, List.length_append, List.length_mapIdx,
    List.length_map, List.length_singleton]
  omega

/-! ### Every text has a layout -/

theorem inert_cons {c : Char} {cs : List Char} (hc : c = '%' → cs.head? ≠ some '{')
    (h : ¬['%', '{'] <:+: cs) : ¬['%', '{'] <:+: c :: cs := by
  rw [List.infix_cons_iff]
  rintro (⟨rest, hrest⟩ | hin)
  · cases hrest
    exact hc rfl rfl
  · exact h hin

/-- A character that opens no placeholder belongs to the first literal text. -/
theorem exists_text_cons {c : Char} (layout : Layout)
    (hc : c = '%' → layout.text.toList.head? ≠ some '{') :
    ∃ layout' : Layout, layout'.text.toList = c :: layout.text.toList := by
  obtain ⟨slots, last, open?, last_inert, open_open⟩ := layout
  cases slots with
  | nil =>
    have hlast : c = '%' → last.head? ≠ some '{' := by
      intro hp hhead
      obtain ⟨ds, rfl⟩ := List.head?_eq_some_iff.mp hhead
      exact hc hp (by simp [text])
    exact ⟨⟨[], c :: last, open?, inert_cons hlast last_inert, open_open⟩, by
      simp [text, openText]⟩
  | cons slot slots =>
    have hliteral : c = '%' → slot.literal.head? ≠ some '{' := by
      intro hp hhead
      obtain ⟨ds, hds⟩ := List.head?_eq_some_iff.mp hhead
      exact hc hp (by simp [text, Slot.text, hds])
    let slot' : Slot :=
      ⟨c :: slot.literal, slot.body, inert_cons hliteral slot.literal_inert, slot.body_open⟩
    exact ⟨⟨slot' :: slots, last, open?, last_inert, open_open⟩, by
      simp [text, openText, Slot.text, slot']⟩

theorem exists_text_eq (template : List Char) :
    ∃ layout : Layout, layout.text.toList = template := by
  have hnil : ¬['%', '{'] <:+: ([] : List Char) := by simp
  fun_induction pieces template with
  | case1 cs hdrop =>
    have htail : '}' ∉ cs := dropWhile_bne_eq_nil_iff.mp hdrop
    exact ⟨⟨[], [], some cs, hnil, by simpa using htail⟩, by simp [text, openText]⟩
  | case2 cs c rest hdrop ih =>
    obtain ⟨layout, hlayout⟩ := ih
    have hc : c = '}' := eq_of_dropWhile_bne hdrop
    have hcs := List.takeWhile_append_dropWhile (p := (· != '}')) (l := cs)
    rw [hdrop, hc] at hcs
    let slot : Slot := ⟨[], cs.takeWhile (· != '}'), hnil, not_mem_takeWhile_bne '}' cs⟩
    refine ⟨⟨slot :: layout.slots, layout.last, layout.open?, layout.last_inert,
      layout.open_open⟩, ?_⟩
    have htext : slot.text ++ layout.text.toList = '%' :: '{' :: cs := by
      rw [hlayout, ← hcs]
      simp [slot, Slot.text]
    rw [← htext]
    simp [text, openText]
  | case3 c cs hopen ih =>
    obtain ⟨layout, rfl⟩ := ih
    refine exists_text_cons layout ?_
    rintro rfl hhead
    obtain ⟨ds, hds⟩ := List.head?_eq_some_iff.mp hhead
    exact hopen ds rfl hds
  | case4 => exact ⟨⟨[], [], none, hnil, by simp⟩, rfl⟩

/-- A template with one placeholder, which stands between two letters; a second placeholder may be
broken off behind them. -/
def oneSlot (broken : Bool) : Layout where
  slots := [⟨['a'], [], by decide, by decide⟩]
  last := ['b']
  open? := if broken then some ['1'] else none
  last_inert := by decide
  open_open := by cases broken <;> simp

def noText : ByteArray :=
  ⟨#[0xff]⟩

end Layout

end TclHost.Template
