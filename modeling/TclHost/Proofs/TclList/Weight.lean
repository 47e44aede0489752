import TclHost.Proofs.TclList.RoundTrip
/-! # What a list weighs

Each element weighs one, each blank in it one, and each visible character that needs no quoting one
if it stands behind a backslash.  Counted in the same way, a text weighs at least as much as the
elements that it is read as, apart from the one for the first of them: white space pays for the
element behind it, and a backslash sequence for the character that it stands for.  A list as it is
written weighs no more than that.
-/
namespace TclHost.TclList

open Text

def isInk (c : Char) : Bool :=
  !isSpecial c && !isBlank c

/-- The blanks of a text, and its visible characters behind a backslash that need no quoting, where
a backslash may stand in front of the text. -/
def weight (escaped : Bool) : List Char → Nat
  | [] => 0
  | c :: cs => (isBlank c).toNat + (escaped && isInk c).toNat + weight (c == '\\') cs

def itemsWeight : List (List Char) → Nat
  | [] => 0
  | x :: items => weight false x + 1 + itemsWeight items

theorem of_isSpecial {p : Char → Prop}
    (h : p ' ' ∧ p '\t' ∧ p '\n' ∧ p '\r' ∧ p '\x0b' ∧ p '\x0c' ∧ p '{' ∧ p '}' ∧ p '[' ∧ p ']' ∧
      p '$' ∧ p '"' ∧ p ';' ∧ p '\\') {c : Char} (hc : isSpecial c = true) : p c := by
  simp only [isSpecial, isListSpace, Bool.or_eq_true, beq_iff_eq, or_assoc] at hc
  rcases hc with rfl | rfl | rfl | rfl | rfl | rfl | rfl | rfl | rfl | rfl | rfl | rfl | rfl | rfl
  all_goals simp only [h]

/-! ### Weights of texts -/

theorem isInk_of_isSpecial {c : Char} (h : isSpecial c = true) : isInk c = false := by
  simp [isInk, h]

theorem isInk_of_isBlank {c : Char} (h : isBlank c = true) : isInk c = false := by
  simp [isInk, h]

theorem weight_backslash (escaped : Bool) (cs : List Char) :
    weight escaped ('\\' :: cs) = weight true cs := by
  simp [weight, show isBlank '\\' = false by decide, show isInk '\\' = false by decide]

theorem weight_listSpace {c : Char} (hc : isListSpace c = true) (escaped : Bool) (cs : List Char) :
    weight escaped (c :: cs) = weight false cs + 1 := by
  have hblank : isBlank c = true := isBlank_of_isListSpace hc
  have hne : (c == '\\') = false := by
    rw [beq_eq_false_iff_ne]
    rintro rfl
    cases hc
  simp [weight, hblank, isInk_of_isBlank hblank, hne, Nat.add_comm]

/-- A character of an element weighs at most one, wherever it stands. -/
theorem weight_char_le (escaped : Bool) (c : Char) :
    (isBlank c).toNat + (escaped && isInk c).toNat ≤ 1 := by
  cases hc : isBlank c with
  | true => simp [isInk_of_isBlank hc]
  | false =>
    rw [Bool.toNat_false, Nat.zero_add]
    exact Bool.toNat_le _

theorem weight_false_le (escaped : Bool) (cs : List Char) :
    weight false cs ≤ weight escaped cs := by
  cases cs with
  | nil => exact Nat.le_refl _
  | cons c cs => simp [weight]

theorem weight_le_succ (escaped : Bool) (cs : List Char) :
    weight escaped cs ≤ weight false cs + 1 := by
  cases cs with
  | nil => exact Nat.zero_le _
  | cons c cs =>
    have h := (escaped && isInk c).toNat_le
    simp only [weight, Bool.false_and, Bool.toNat_false]
    omega

theorem weight_append_le (escaped : Bool) (xs ys : List Char) :
    weight escaped xs + weight false ys ≤ weight escaped (xs ++ ys) := by
  induction xs generalizing escaped with
  | nil =>
    have h := weight_false_le escaped ys
    simpa [weight] using h
  | cons x xs ih =>
    have h := ih (x == '\\')
    rw [List.cons_append, weight, weight]
    omega

theorem weight_suffix_le {xs ys : List Char} (h : xs <:+ ys) :
    weight false xs ≤ weight false ys := by
  obtain ⟨front, rfl⟩ := h
  have h := weight_append_le false front xs
  omega

/-- A text weighs as much as its two sides of a character that weighs nothing behind a backslash. -/
theorem weight_append_cons {z : Char} (hz : isInk z = false) (escaped : Bool) (xs ys : List Char) :
    weight escaped (xs ++ z :: ys) = weight escaped xs + weight false (z :: ys) := by
  induction xs generalizing escaped with
  | nil => simp [weight, hz]
  | cons x xs ih =>
    rw [List.cons_append, weight, weight, ih]
    omega

/-! ### Reading -/

theorem hexValue?_of_not_isInk {c : Char} (h : isInk c = false) : hexValue? c = none := by
  cases hspecial : isSpecial c with
  | true => exact of_isSpecial (p := fun c => hexValue? c = none) (by decide) hspecial
  | false =>
    have hblank : isBlank c = true := by simpa [isInk, hspecial] using h
    have hrange (low high : Char) (hlow : 0x21 ≤ low.toNat) (hhigh : high.toNat ≤ 0x7E) :
        (decide (low ≤ c) && decide (c ≤ high)) = false := by
      rw [← Bool.not_eq_true, Bool.and_eq_true, decide_eq_true_iff, decide_eq_true_iff]
      rintro ⟨hlow', hhigh'⟩
      have hvisible := isBlank_of_visible (Nat.le_trans hlow hlow') (Nat.le_trans hhigh' hhigh)
      rw [hblank] at hvisible
      cases hvisible
    rw [hexValue?, hrange '0' '9' (by decide) (by decide), hrange 'a' 'f' (by decide) (by decide),
      hrange 'A' 'F' (by decide) (by decide)]
    rfl

/-- A backslash in front of any other character makes no letter or number of it. -/
theorem read_of_not_isInk {d : Char} (h : isInk d = false) (cs : List Char) :
    Escape.read (d :: cs) = (d, cs) ∨
      d = '\n' ∧ Escape.read (d :: cs) = (' ', cs.dropWhile fun s => s == ' ' || s == '\t') := by
  have hletter : Escape.letter? d = none := by
    unfold Escape.letter?
    split <;> first | rfl | exact absurd h (by decide)
  have hlimit : Escape.hexLimit? d = none := by
    unfold Escape.hexLimit?
    split <;> first | rfl | exact absurd h (by decide)
  by_cases hd : d = '\n'
  · subst hd
    exact .inr ⟨rfl, rfl⟩
  · left
    rw [Escape.read, hletter]
    simp [hd, hlimit, isDigitOf, digitValue?, hexValue?_of_not_isInk h]

/-- What follows a sequence stands at the end of what followed its backslash. -/
theorem read_suffix (d : Char) (cs : List Char) : (Escape.read (d :: cs)).2 <:+ cs := by
  have htake (radix limit : Nat) : (Escape.takeDigits radix limit cs).2 <:+ cs :=
    ⟨_, Escape.takeDigits_append radix limit cs⟩
  simp only [Escape.read]
  split
  · exact List.suffix_rfl
  · split
    · exact List.dropWhile_suffix _
    · split
      · next limit _ =>
        rw [Escape.readHex]
        split
        · exact List.suffix_rfl
        · next heq =>
          have h := htake 16 limit
          rwa [heq] at h
      · split
        · exact htake 8 2
        · exact List.suffix_rfl

/-- A sequence weighs at least as much as the character that it stands for. -/
theorem weight_read_le {cs out rest : List Char} (escaped : Bool)
    (h : ∀ escaped, weight escaped out + weight false rest
      ≤ weight escaped (Escape.read cs).2) :
    weight escaped ((Escape.read cs).1 :: out) + weight false rest
      ≤ weight escaped ('\\' :: cs) := by
  rw [weight_backslash]
  cases cs with
  | nil => simpa only [Escape.read, weight_backslash] using h true
  | cons d cs =>
    cases hd : isInk d with
    | true =>
      -- the sequence weighs one for its first character, and what it stands for no more
      have hsuffix := weight_suffix_le (read_suffix d cs)
      have hsequence : weight false cs + 1 ≤ weight true (d :: cs) := by
        have := weight_false_le (d == '\\') cs
        simp only [weight, hd, Bool.and_self, Bool.toNat_true]
        omega
      by_cases hc : (Escape.read (d :: cs)).1 = '\\'
      · have hout := h true
        have hsucc := weight_le_succ true (Escape.read (d :: cs)).2
        rw [hc, weight_backslash]
        omega
      · have hout := h false
        have hchar := weight_char_le escaped (Escape.read (d :: cs)).1
        rw [weight, beq_false_of_ne hc]
        omega
    | false =>
      obtain hread | ⟨rfl, hread⟩ := read_of_not_isInk hd cs
      · have hout := h (d == '\\')
        rw [hread] at hout ⊢
        simp only [weight, hd, Bool.and_false, Bool.toNat_false] at hout ⊢
        omega
      · have hsuffix := weight_suffix_le
          (List.dropWhile_suffix (l := cs) fun s => s == ' ' || s == '\t')
        have hout := h false
        rw [hread] at hout ⊢
        dsimp only at hout ⊢
        rw [weight_listSpace (by decide), weight_listSpace (by decide)]
        omega

theorem weight_readUntil_le (stop : Char → Bool) (escaped : Bool) (cs : List Char) :
    weight escaped (Escape.readUntil stop cs).1 + weight false (Escape.readUntil stop cs).2
      ≤ weight escaped cs := by
  fun_induction Escape.readUntil stop cs generalizing escaped with
  | case1 => simp [weight]
  | case2 c cs h =>
    rw [weight, Nat.zero_add]
    exact weight_false_le escaped _
  | case3 cs _ _ ih => exact weight_read_le escaped ih
  | case4 c cs _ _ r ih =>
    have h : weight (c == '\\') r.1 + weight false r.2 ≤ weight (c == '\\') cs := ih _
    simp only [weight]
    omega

theorem separated_of_separated_eq_ok {error : String → Error} {element rest : List Char}
    {r : List Char × List Char} (h : separated error element rest = .ok r) : Separated rest := by
  intro c hc
  obtain ⟨tail, rfl⟩ := List.head?_eq_some_iff.mp hc
  cases hspace : isListSpace c with
  | true => rfl
  | false => simp [separated, hspace] at h

theorem separated_readUntil (cs : List Char) :
    Separated (Escape.readUntil isListSpace cs).2 := by
  fun_induction Escape.readUntil isListSpace cs with
  | case1 => simp [Separated]
  | case2 c cs h => simp [Separated, h]
  | case3 cs _ _ ih => exact ih
  | case4 c cs _ _ _ ih => exact ih

/-- The text of an element weighs at least as much as the element, and white space or nothing
follows it. -/
theorem weight_readElement_le {c : Char} {cs element rest : List Char}
    (h : readElement c cs = .ok (element, rest)) :
    weight false element + weight false rest ≤ weight false (c :: cs) ∧ Separated rest := by
  have htail : weight false cs ≤ weight false (c :: cs) := weight_suffix_le (List.suffix_cons c cs)
  unfold readElement at h
  split at h
  · split at h
    · cases h
    · next inner _ hb =>
      cases separated_eq_ok h
      rw [braced?_eq] at hb
      have hclosed := weight_append_cons (z := '}') (by decide) false element rest
      have hrest := weight_suffix_le (List.suffix_cons '}' rest)
      rw [closeAt?_append hb] at hclosed
      exact ⟨by omega, separated_of_separated_eq_ok h⟩
  · split at h
    · split at h
      · cases h
      · next quote _ hq =>
        cases separated_eq_ok h
        have hread := weight_readUntil_le (· == '"') false cs
        rw [hq] at hread
        have hrest := weight_suffix_le (List.suffix_cons quote rest)
        dsimp only at hread
        exact ⟨by omega, separated_of_separated_eq_ok h⟩
    · have hread := weight_readUntil_le isListSpace false (c :: cs)
      have hseparated := separated_readUntil (c :: cs)
      rw [Except.ok.inj h] at hread hseparated
      exact ⟨hread, hseparated⟩

/-- The elements of a text weigh one more than the text at most, and no more than the text if white
space pays for the first one. -/
theorem itemsWeight_le {cs : List Char} {items : List (List Char)} (h : elements cs = .ok items) :
    itemsWeight items ≤ weight false cs + 1 ∧
      (Separated cs → itemsWeight items ≤ weight false cs) := by
  fun_induction elements cs generalizing items with
  | case1 =>
    cases h
    exact ⟨Nat.zero_le _, fun _ => Nat.zero_le _⟩
  | case2 c cs hc ih =>
    have hspace := weight_listSpace hc false cs
    have := (ih h).1
    exact ⟨by omega, fun _ => by omega⟩
  | case3 => cases h
  | case4 c cs hc r hr ih =>
    obtain ⟨hle, hseparated⟩ := weight_readElement_le hr
    cases hothers : elements r.2 with
    | error e =>
      rw [hothers] at h
      cases h
    | ok others =>
      rw [hothers] at h
      cases h
      have hrest := (ih hothers).2 hseparated
      rw [itemsWeight]
      exact ⟨by omega, fun hfirst => absurd (hfirst c rfl) hc⟩

/-! ### Writing -/

/-- Behind its backslash the form of a special character weighs as much as that character. -/
theorem escapeChar_special {c : Char} (hc : isSpecial c = true) :
    ∃ d, escapeChar c = ['\\', d] ∧ (isBlank d).toNat + (isInk d).toNat = (isBlank c).toNat ∧
      (d == '\\') = (c == '\\') :=
  ⟨(controlLetter? c).getD c, of_isSpecial (p := fun c =>
    escapeChar c = ['\\', (controlLetter? c).getD c] ∧
      (isBlank ((controlLetter? c).getD c)).toNat + (isInk ((controlLetter? c).getD c)).toNat
        = (isBlank c).toNat ∧
      ((controlLetter? c).getD c == '\\') = (c == '\\')) (by decide) hc⟩

theorem weight_escapeChar_append (escaped : Bool) (c : Char) (cs : List Char) :
    weight escaped (escapeChar c ++ cs)
      = (isBlank c).toNat + (escaped && isInk c).toNat + weight (c == '\\') cs := by
  cases hc : isSpecial c with
  | false =>
    rw [escapeChar_of_not_isSpecial hc]
    rfl
  | true =>
    obtain ⟨d, hform, hweight, hbackslash⟩ := escapeChar_special hc
    rw [hform, List.cons_append, weight_backslash, List.cons_append, weight, Bool.true_and, hweight,
      hbackslash, isInk_of_isSpecial hc, Bool.and_false]
    rfl

theorem weight_flatMap_escapeChar (escaped : Bool) (cs : List Char) :
    weight escaped (cs.flatMap escapeChar) = weight escaped cs := by
  induction cs generalizing escaped with
  | nil => rfl
  | cons c cs ih => rw [List.flatMap_cons, weight_escapeChar_append, ih, weight]

theorem weight_quoteChars (cs : List Char) : weight false (quoteChars cs) = weight false cs := by
  unfold quoteChars
  split
  · next h =>
    cases List.isEmpty_iff.mp h
    rfl
  · split
    · rfl
    · split
      · have hclosed := weight_append_cons (z := '}') (by decide) false cs []
        exact (Nat.zero_add _).trans hclosed
      · exact weight_flatMap_escapeChar false cs

theorem itemsWeight_map_quoteChars (items : List (List Char)) :
    itemsWeight (items.map quoteChars) = itemsWeight items := by
  induction items with
  | nil => rfl
  | cons x items ih => rw [List.map_cons, itemsWeight, itemsWeight, weight_quoteChars, ih]

/-- Texts in front of each of which stands a space weigh as much as if they were elements. -/
theorem weight_spaced (qs : List (List Char)) : weight false (spaced qs) = itemsWeight qs := by
  induction qs with
  | nil => rfl
  | cons q qs ih =>
    have hcons : spaced (q :: qs) = ' ' :: (q ++ spaced qs) := rfl
    have hsplit : weight false (q ++ spaced qs) = weight false q + weight false (spaced qs) := by
      cases qs with
      | nil => simp [spaced, weight]
      | cons r qs => exact weight_append_cons (by decide) false q _
    rw [hcons, weight_listSpace (by decide), hsplit, ih, itemsWeight]
    omega

end TclHost.TclList
