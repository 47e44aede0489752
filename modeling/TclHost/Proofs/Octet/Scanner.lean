import TclHost.Octet.Scanner
import TclHost.Proofs.Octet.Position
import TclHost.Proofs.Script.Grammar
import TclHost.Proofs.TclList.RoundTrip
/-! # Octet scanners and readers of characters

At a boundary an octet scanner does what the reader of characters does with the text behind it: it
is never halted, it takes the same, and the boundary at which it ends is that of the same rest.
-/
namespace TclHost.Octet

open Text Script

/-! ## Tests for ASCII characters -/

theorem isAscii_isListSpace : IsAscii isListSpace := by
  intro c hc
  simp only [isListSpace, Bool.or_eq_true, beq_iff_eq] at hc
  rcases hc with ((((rfl | rfl) | rfl) | rfl) | rfl) | rfl <;> decide

theorem isAscii_isWordEnd (nested : Bool) : IsAscii (isWordEnd nested) := by
  intro c hc
  simp only [isWordEnd, Bool.or_eq_true, Bool.and_eq_true, beq_iff_eq] at hc
  rcases hc with ((((rfl | rfl) | rfl) | rfl) | rfl) | ⟨-, rfl⟩ <;> decide

theorem isAscii_range {a z : Char} (hz : z.toNat < 128) :
    IsAscii fun c => decide (a ≤ c) && decide (c ≤ z) := by
  intro c hc
  simp only [Bool.and_eq_true, decide_eq_true_eq, Char.le_def, UInt32.le_iff_toNat_le] at hc
  exact Nat.lt_of_le_of_lt hc.2 hz

theorem isAscii_isAsciiDigit : IsAscii isAsciiDigit :=
  isAscii_range (by decide)

theorem isAscii_isAsciiLetter : IsAscii isAsciiLetter :=
  (isAscii_range (by decide)).or (isAscii_range (by decide))

theorem isAscii_isNameChar : IsAscii isNameChar :=
  (isAscii_isAsciiLetter.or isAscii_isAsciiDigit).or (isAscii_beq (by decide))

theorem isAscii_isDigitOf (radix : Nat) : IsAscii (isDigitOf radix) := by
  intro c hc
  have hrange {a z : Char} (hz : z.toNat < 128) (h : (decide (a ≤ c) && decide (c ≤ z)) = true) :
      c.toNat < 128 := isAscii_range hz c h
  simp only [isDigitOf, digitValue?, Option.isSome_filter, hexValue?] at hc
  split at hc
  · next h => exact hrange (by decide) h
  · split at hc
    · next h => exact hrange (by decide) h
    · split at hc
      · next h => exact hrange (by decide) h
      · cases hc

theorem isAscii_blank : IsAscii fun c => c == ' ' || c == '\t' :=
  (isAscii_beq (by decide)).or (isAscii_beq (by decide))

/-! ## Backslash sequences -/

namespace At
variable {text cs : List Char} {p : Nat}

theorem digits (h : At text p cs) (radix limit : Nat) :
    digits text radix limit p =
      ((Escape.takeDigits radix limit cs).1,
        p + Utf8.size (Escape.takeDigits radix limit cs).1) := by
  induction limit generalizing p cs with
  | zero => rfl
  | succ limit ih =>
    cases cs with
    | nil =>
      rw [Octet.digits, h.octet?_nil]
      rfl
    | cons c cs =>
      obtain ⟨o, ho, hstands⟩ := h.exists_octet
      rw [Octet.digits, ho]
      simp only [hstands.test_eq (isAscii_isDigitOf radix), Escape.takeDigits]
      by_cases hc : isDigitOf radix c = true
      · have hascii := isAscii_isDigitOf radix c hc
        have hoc : o = c := hstands.eq_of_lt hascii
        rw [if_pos hc, if_pos hc, ih (h.next_ascii hascii), hoc, add_size_cons hascii]
      · rw [if_neg hc, if_neg hc]
        rfl

theorem takeDigits (h : At text p cs) (radix limit : Nat) :
    At text (p + Utf8.size (Escape.takeDigits radix limit cs).1)
      (Escape.takeDigits radix limit cs).2 :=
  h.append_of_eq (Escape.takeDigits_append radix limit cs)

end At

theorem letter?_of_le {c : Char} (h : 128 ≤ c.toNat) : Escape.letter? c = none := by
  unfold Escape.letter?
  split <;> first | rfl | exact absurd h (by decide)

theorem hexLimit?_of_le {c : Char} (h : 128 ≤ c.toNat) : Escape.hexLimit? c = none := by
  unfold Escape.hexLimit?
  split <;> first | rfl | exact absurd h (by decide)

/-- What is none for all characters beyond ASCII is given for ASCII characters only. -/
theorem lt_of_eq_some {β : Type} {f : Char → Option β} {c : Char} {b : β}
    (hf : ∀ d : Char, 128 ≤ d.toNat → f d = none) (h : f c = some b) : c.toNat < 128 := by
  refine Nat.lt_of_not_le fun hc => ?_
  rw [hf c hc] at h
  cases h

namespace At
variable {text cs : List Char} {p : Nat}

theorem hexEscape (h : At text p cs) (letter : Char) (limit : Nat) :
    ∃ q, (hexEscape text p limit).getD (letter, p) = ((Escape.readHex letter limit cs).1, q) ∧
      At text q (Escape.readHex letter limit cs).2 := by
  have hdigits := h.digits 16 limit
  have hrest := h.takeDigits 16 limit
  rw [Octet.hexEscape, Escape.readHex, hdigits]
  rcases hr : Escape.takeDigits 16 limit cs with ⟨_ | ⟨d, ds⟩, rest⟩
  · exact ⟨p, rfl, h⟩
  · rw [hr] at hrest
    exact ⟨_, rfl, hrest⟩

theorem backslash (h : At text p ('\\' :: cs)) :
    ∃ q, backslash text p = .ok ((Escape.read cs).1, q) ∧ At text q (Escape.read cs).2 := by
  have hp := h.next_ascii (by decide)
  cases cs with
  | nil =>
    rw [Octet.backslash, hp.octet?_nil]
    simp only [hp.pass]
    exact ⟨_, rfl, hp⟩
  | cons c ds =>
    obtain ⟨o, ho, hstands⟩ := hp.exists_octet
    simp only [Octet.backslash, ho, hstands.congr fun _ => letter?_of_le, Escape.read]
    cases hletter : Escape.letter? c with
    | some image =>
      have hnext := hp.next_ascii (lt_of_eq_some (fun _ => letter?_of_le) hletter)
      simp only [hnext.pass]
      exact ⟨_, rfl, hnext⟩
    | none =>
      simp only [hstands.eq_iff (a := '\n') (by decide), beq_iff_eq]
      by_cases hline : c = '\n'
      · have hnext := (hp.next_ascii (hline ▸ by decide)).runEnd isAscii_blank
        rw [if_pos hline, if_pos hline]
        simp only [hnext.pass]
        exact ⟨_, rfl, hnext⟩
      rw [if_neg hline, if_neg hline, hstands.congr fun _ => hexLimit?_of_le]
      cases hlimit : Escape.hexLimit? c with
      | some limit =>
        have hascii := lt_of_eq_some (fun _ => hexLimit?_of_le) hlimit
        obtain ⟨q, hq, hrest⟩ := (hp.next_ascii hascii).hexEscape c limit
        simp only [hstands.eq_of_lt hascii, hq, hrest.pass]
        exact ⟨_, rfl, hrest⟩
      | none =>
        simp only [hstands.test_eq (isAscii_isDigitOf 8)]
        by_cases hdigit : isDigitOf 8 c = true
        · have hrest := hp.takeDigits 8 3
          have htake : Escape.takeDigits 8 3 (c :: ds) =
              (c :: (Escape.takeDigits 8 2 ds).1, (Escape.takeDigits 8 2 ds).2) :=
            if_pos hdigit
          rw [htake] at hrest
          rw [if_pos hdigit, if_pos hdigit, hp.digits, htake]
          simp only [hrest.pass]
          exact ⟨_, rfl, hrest⟩
        · rw [if_neg hdigit, if_neg hdigit]
          simp only [hp.behind]
          simp only [bind, Except.bind, List.head?_cons, Option.getD_some, hp.next.pass]
          exact ⟨_, rfl, hp.next⟩

end At

/-! ## Delimited texts, comments, separators and names -/

section
variable {text : List Char} {opening close : Char}

theorem overlooks_closing (hopening : opening.toNat < 128) (hclose : close.toNat < 128)
    (depth : Nat) : Overlooks text (closing text opening close depth) := by
  intro p o ho hbeyond
  have hb : o ≠ '\\' := ne_of_le hbeyond (by decide)
  rw [closing_eq, ho]
  simp only [hb, ne_of_le hbeyond hopening, ne_of_le hbeyond hclose, if_false]

theorem overlooks_skipComment : Overlooks text (skipComment text) := by
  intro p o ho hbeyond
  have hb : o ≠ '\\' := ne_of_le hbeyond (by decide)
  have hline : o ≠ '\n' := ne_of_le hbeyond (by decide)
  rw [skipComment_eq, ho]
  simp only [hb, hline, if_false]

end

theorem skipSeparators_cons (c : Char) (cs : List Char) :
    Script.skipSeparators (c :: cs) =
      if isWordEnd false c then Script.skipSeparators cs
      else if c = '\\' ∧ cs.head? = some '\n' then Script.skipSeparators cs.tail else c :: cs := by
  rw [Script.skipSeparators.eq_def]
  rcases cs with _ | ⟨d, ds⟩
  · simp
  · by_cases hd : d = '\n' <;> simp [hd]

theorem skipBlanks_cons (c : Char) (cs : List Char) :
    Script.skipBlanks (c :: cs) =
      if c == ' ' || c == '\t' || c == '\r' then Script.skipBlanks cs
      else if c = '\\' ∧ cs.head? = some '\n' then Script.skipBlanks cs.tail else c :: cs := by
  rw [Script.skipBlanks.eq_def]
  rcases cs with _ | ⟨d, ds⟩
  · simp
  · by_cases hd : d = '\n' <;> simp [hd]

theorem map_size_append (p : Nat) (front : List Char) (r? : Option (List Char × List Char)) :
    (r?.map fun r => (front ++ r.1, r.2)).map (fun r => p + Utf8.size r.1) =
      r?.map fun r => p + Utf8.size front + Utf8.size r.1 := by
  rw [Option.map_map]
  congr 1
  funext r
  exact (congrArg (p + ·) (Utf8.size_append ..)).trans (Nat.add_assoc ..).symm

namespace At
variable {text cs : List Char} {p : Nat}

/-- A backslash at the very end takes an octet along that is not there. -/
theorem octet?_behind_last (h : At text p ['\\']) : octet? text (p + 2) = none := by
  have hsize := (h.next_ascii (by decide)).size_eq
  refine octet?_of_le ?_
  rw [← hsize, Utf8.size]
  omega

theorem closing {opening close : Char} {depth : Nat} (hopening : opening.toNat < 128)
    (hclose : close.toNat < 128) (h : At text p cs) :
    closing text opening close depth p =
      (closeAt? opening close depth cs).map fun r => p + Utf8.size r.1 := by
  have hover (depth : Nat) : Overlooks text (Octet.closing text opening close depth) :=
    overlooks_closing hopening hclose depth
  fun_induction closeAt? opening close depth cs generalizing p with
  | case1 depth =>
    rw [closing_eq, h.octet?_nil]
    rfl
  | case2 depth =>
    rw [closing_eq, h.octet?_ascii (by decide)]
    simp only [if_true]
    rw [closing_eq, h.octet?_behind_last]
    rfl
  | case3 depth d ds ih =>
    have hnext := h.next_ascii (by decide)
    rw [closing_eq, h.octet?_ascii (by decide)]
    simp only [if_true]
    have hmid : p + Utf8.size ['\\', d] = p + 1 + d.utf8Size := (Nat.add_assoc ..).symm
    rw [(hover depth).next hnext, ih hnext.next, ← hmid]
    exact (map_size_append p ['\\', d] _).symm
  | case4 cs hb =>
    rw [closing_eq, h.octet?_ascii hclose]
    simp only [hb, if_false, if_true]
    rfl
  | case5 cs depth hb ih =>
    rw [closing_eq, h.octet?_ascii hclose]
    simp only [hb, if_false, if_true]
    rw [ih (h.next_ascii hclose), ← utf8Size_of_lt hclose]
    exact (map_size_append p [close] _).symm
  | case6 depth c cs hb hc ih =>
    obtain ⟨o, ho, hstands⟩ := h.exists_octet
    rw [closing_eq, ho]
    simp only [hstands.eq_iff (a := '\\') (by decide), hstands.eq_iff hclose,
      hstands.eq_iff hopening, hb, hc, if_false]
    rw [(hover _).next h, ih h.next]
    exact (map_size_append p [c] _).symm

theorem matchingBrace (h : At text p ('{' :: cs)) :
    matchingBrace text p = (closeAt? '{' '}' 0 cs).map fun r => p + 1 + Utf8.size r.1 :=
  (h.next_ascii (by decide)).closing (by decide) (by decide)

theorem closed {opening close : Char} {depth : Nat} {inner rest : List Char}
    (hclose : close.toNat < 128) (hinner : closeAt? opening close depth cs = some (inner, rest))
    (h : At text p cs) : At text (p + Utf8.size inner + 1) rest :=
  (h.append_of_eq (closeAt?_append hinner)).next_ascii hclose

theorem skipComment (h : At text p cs) :
    At text (skipComment text p) (Script.skipComment cs) := by
  fun_induction Script.skipComment cs generalizing p with
  | case1 =>
    rw [skipComment_eq, h.octet?_nil]
    exact at_size text
  | case2 =>
    rw [skipComment_eq, h.octet?_ascii (by decide)]
    simp only [if_true]
    rw [skipComment_eq, h.octet?_behind_last]
    exact at_size text
  | case3 d ds ih =>
    have hnext := h.next_ascii (by decide)
    rw [skipComment_eq, h.octet?_ascii (by decide)]
    simp only [if_true]
    rw [overlooks_skipComment.next hnext]
    exact ih hnext.next
  | case4 cs hb =>
    rw [skipComment_eq, h.octet?_ascii (by decide)]
    exact h.next_ascii (by decide)
  | case5 c cs hb hline ih =>
    obtain ⟨o, ho, hstands⟩ := h.exists_octet
    rw [skipComment_eq, ho]
    simp only [hstands.eq_iff (a := '\\') (by decide), hstands.eq_iff (a := '\n') (by decide),
      hb, hline, if_false]
    rw [overlooks_skipComment.next h]
    exact ih h.next

theorem skipJoining {separates : Char → Bool} {skip : List Char → List Char}
    (hascii : IsAscii separates) (hnil : skip [] = [])
    (hcons : ∀ c cs, skip (c :: cs) =
      if separates c then skip cs
      else if c = '\\' ∧ cs.head? = some '\n' then skip cs.tail else c :: cs)
    (h : At text p cs) : At text (skipJoining text separates p) (skip cs) := by
  induction hn : cs.length using Nat.strongRecOn generalizing p cs with
  | ind n ih =>
    cases cs with
    | nil =>
      rw [skipJoining_eq, h.octet?_nil, hnil]
      exact h
    | cons c cs =>
      rw [List.length_cons] at hn
      obtain ⟨o, ho, hstands⟩ := h.exists_octet
      rw [skipJoining_eq, ho, hcons]
      simp only [hstands.test_eq hascii]
      by_cases hc : separates c = true
      · rw [if_pos hc, if_pos hc]
        exact ih _ (by omega) (h.next_ascii (hascii c hc)) rfl
      rw [if_neg hc, if_neg hc]
      simp only [hstands.eq_iff (a := '\\') (by decide)]
      by_cases hb : c = '\\'
      · subst hb
        have hnext := h.next_ascii (by decide)
        simp only [hnext.octet?_eq_some_iff (a := '\n') (by decide)]
        cases cs with
        | nil => simpa using h
        | cons d ds =>
          by_cases hd : d = '\n'
          · subst hd
            rw [List.length_cons] at hn
            simp only [List.head?_cons, and_self, if_true]
            exact ih ds.length (by omega) (hnext.next_ascii (by decide)) rfl
          · simpa [hd] using h
      · simpa [hb] using h

theorem skipSeparators (h : At text p cs) :
    At text (skipSeparators text p) (Script.skipSeparators cs) :=
  h.skipJoining (isAscii_isWordEnd false) rfl skipSeparators_cons

theorem skipBlanks (h : At text p cs) : At text (skipBlanks text p) (Script.skipBlanks cs) :=
  h.skipJoining (isAscii_blank.or (isAscii_beq (by decide))) rfl skipBlanks_cons

theorem nameEnd_eq (h : At text p cs) :
    nameEnd text p = p + Utf8.size (splitName cs).1 := by
  induction cs using splitName.induct generalizing p with
  | case1 =>
    rw [Octet.nameEnd_eq, h.octet?_nil]
    rfl
  | case2 c cs hc ih =>
    have hascii := isAscii_isNameChar c hc
    rw [Octet.nameEnd_eq, h.octet?_ascii hascii, splitName_nameChar hc]
    simp only [hc, if_true]
    rw [ih (h.next_ascii hascii), add_size_cons hascii]
  | case3 ds hc ih =>
    have hnext := h.next_ascii (by decide)
    rw [Octet.nameEnd_eq, h.octet?_ascii (by decide), hnext.octet?_ascii (by decide),
      splitName_colons]
    simp only [hc, Bool.false_eq_true, if_false, and_self, if_true]
    rw [ih (hnext.next_ascii (by decide)), add_size_cons (by decide), add_size_cons (by decide)]
  | case4 cs =>
    have hdouble : ∀ ds, cs ≠ ':' :: ds := by assumption
    have hc : isNameChar ':' = false := rfl
    have hcolon : cs.head? ≠ some ':' := by
      rintro hhead
      obtain ⟨ds, rfl⟩ := List.head?_eq_some_iff.mp hhead
      exact hdouble ds rfl
    rw [Octet.nameEnd_eq, h.octet?_ascii (by decide),
      splitName_stop hc fun _ => hcolon]
    simp only [hc, (h.next_ascii (by decide)).octet?_eq_some_iff (a := ':') (by decide), hcolon]
    rfl
  | case5 c cs hc hcolon =>
    obtain ⟨o, ho, hstands⟩ := h.exists_octet
    rw [Octet.nameEnd_eq, ho, splitName_stop (by simpa using hc) fun heq => absurd heq hcolon]
    simp only [hstands.test_eq isAscii_isNameChar, hc, hstands.eq_iff (a := ':') (by decide),
      hcolon]
    rfl

theorem nameEnd_eq_iff (h : At text p cs) : Octet.nameEnd text p = p ↔ (splitName cs).1 = [] := by
  rw [← size_eq_zero_iff, h.nameEnd_eq]
  omega

theorem nameEnd (h : At text p cs) : At text (nameEnd text p) (splitName cs).2 :=
  h.nameEnd_eq ▸ h.append_of_eq (splitName_append cs)

end At

/-! ## Lists -/

/-- The reading ends at a character that satisfies the test, or with the text. -/
theorem stop_of_readUntil {stop : Char → Bool} {cs rest : List Char} {d : Char}
    (h : (Escape.readUntil stop cs).2 = d :: rest) : stop d = true := by
  induction cs using Escape.readUntil.induct stop with
  | case1 =>
    rw [Escape.readUntil] at h
    cases h
  | case2 c cs hstop =>
    rw [Escape.readUntil, if_pos hstop] at h
    cases h
    exact hstop
  | case3 cs hstop ih =>
    rw [Escape.readUntil, if_neg hstop, if_pos rfl] at h
    exact ih h
  | case4 c cs hstop hb ih =>
    rw [Escape.readUntil, if_neg hstop, if_neg hb] at h
    exact ih h

theorem overlooks_escaped {text : List Char} {stop : Char → Bool} (hascii : IsAscii stop)
    (start : Nat) : Overlooks text fun p => escaped text stop p start := by
  intro p o ho hbeyond
  have hb : o ≠ '\\' := ne_of_le hbeyond (by decide)
  simp only []
  rw [escaped_eq, ho]
  simp only [hascii.eq_false hbeyond, hb, Bool.false_eq_true, if_false]

namespace At
variable {text cs : List Char} {p : Nat}

/-- What is still to be taken stands from the start of it up to the position. -/
theorem escaped {stop : Char → Bool} (hascii : IsAscii stop) {lit : List Char} {start : Nat}
    (h : At text start (lit ++ cs)) :
    ∃ out start' lit',
      escaped text stop (start + Utf8.size lit) start =
          .ok (out, start', start' + Utf8.size lit') ∧
        At text start' (lit' ++ (Escape.readUntil stop cs).2) ∧
        out ++ lit' = lit ++ (Escape.readUntil stop cs).1 := by
  induction cs using Escape.readUntil.induct stop generalizing lit start with
  | case1 =>
    rw [escaped_eq, h.append.octet?_nil, Escape.readUntil]
    exact ⟨[], start, lit, rfl, h, by simp⟩
  | case2 c cs hstop =>
    rw [escaped_eq, h.append.octet?_ascii (hascii c hstop), Escape.readUntil]
    simp only [hstop, if_true]
    exact ⟨[], start, lit, rfl, h, by simp⟩
  | case3 cs hstop ih =>
    have hp := h.append
    obtain ⟨q, hq, hrest⟩ := hp.backslash
    have hlt : start + Utf8.size lit < q :=
      hp.lt_of_length_lt hrest (Nat.lt_succ_of_le (Escape.read_snd_length_le cs))
    obtain ⟨out, start', lit', hout, hnext, htaken⟩ := @ih [] q hrest
    change Octet.escaped text stop q q = _ at hout
    rw [escaped_eq, hp.octet?_ascii (by decide), Escape.readUntil]
    simp only [hstop, Bool.false_eq_true, if_false, if_true, h.cut, hq, hrest.advance hlt, hout,
      bind, Except.bind, pure, Except.pure]
    exact ⟨_, start', lit', rfl, hnext, by simpa using htaken⟩
  | case4 c cs hstop hb ih =>
    have hp := h.append
    obtain ⟨o, ho, hstands⟩ := hp.exists_octet
    have hend : start + Utf8.size lit + c.utf8Size = start + Utf8.size (lit ++ [c]) := by
      rw [Utf8.size_append, Utf8.size, Utf8.size]
      omega
    rw [List.append_cons] at h
    obtain ⟨out, start', lit', hout, hnext, htaken⟩ := ih h
    rw [escaped_eq, ho, Escape.readUntil]
    simp only [hstands.test_eq hascii, hstands.eq_iff (a := '\\') (by decide), hstop, hb,
      Bool.false_eq_true, if_false]
    rw [(overlooks_escaped hascii start).next hp, hend]
    exact ⟨out, start', lit', hout, hnext, by simpa using htaken⟩

theorem escaped_self {stop : Char → Bool} (hascii : IsAscii stop) (h : At text p cs) :
    ∃ out start lit,
      Octet.escaped text stop p p = .ok (out, start, start + Utf8.size lit) ∧
        At text start (lit ++ (Escape.readUntil stop cs).2) ∧
        out ++ lit = (Escape.readUntil stop cs).1 :=
  escaped hascii (show At text p ([] ++ cs) from h)

theorem trailing (h : At text p cs) :
    trailing text p = .ok (String.ofList (cs.takeWhile fun c => !isBlank c)) := by
  rw [Octet.trailing, h.behind]
  rfl

theorem separated {error : String → TclList.Error} {element : List Char} (h : At text p cs) :
    ∃ r, separated text error element p = .ok r ∧
      Agrees text r (TclList.separated error element cs) := by
  cases cs with
  | nil =>
    rw [Octet.separated, h.octet?_nil]
    exact ⟨_, rfl, .ok h⟩
  | cons c cs =>
    obtain ⟨o, ho, hstands⟩ := h.exists_octet
    rw [Octet.separated, ho, TclList.separated]
    simp only [hstands.test_eq isAscii_isListSpace]
    by_cases hc : isListSpace c = true
    · rw [if_pos hc, if_pos hc]
      exact ⟨_, rfl, .ok h⟩
    · rw [if_neg hc, if_neg hc, h.trailing]
      exact ⟨_, rfl, .error _⟩

theorem readElement {c : Char} (h : At text p (c :: cs)) :
    ∃ r, readElement text p = .ok r ∧ Agrees text r (TclList.readElement c cs) := by
  have hiff {a : Char} (ha : a.toNat < 128) : octet? text p = some a ↔ c = a := by
    rw [h.octet?_eq_some_iff ha, List.head?_cons, Option.some_inj]
  rw [Octet.readElement, TclList.readElement]
  simp only [hiff (a := '{') (by decide), hiff (a := '"') (by decide)]
  by_cases hbrace : c = '{'
  · subst hbrace
    have hinner := h.next_ascii (by decide)
    rw [if_pos rfl, if_pos rfl, hinner.closing (by decide) (by decide), braced?_eq]
    cases hclose : closeAt? '{' '}' 0 cs with
    | none => exact ⟨_, rfl, .error _⟩
    | some r =>
      obtain ⟨element, rest⟩ := r
      have hcut := hinner.cut_of_eq (closeAt?_append hclose)
      simp only [Option.map_some, hcut]
      exact (hinner.closed (by decide) hclose).separated
  rw [if_neg hbrace, if_neg hbrace]
  by_cases hquote : c = '"'
  · subst hquote
    have hinner := h.next_ascii (by decide)
    rw [if_pos rfl, if_pos rfl]
    have hascii : IsAscii (· == '"') := isAscii_beq (by decide)
    obtain ⟨out, start, lit, hout, hnext, htaken⟩ := hinner.escaped_self hascii
    simp only [hout, bind, Except.bind, pure, Except.pure]
    rcases hr : Escape.readUntil (· == '"') cs with ⟨element, _ | ⟨d, rest⟩⟩
    · rw [hr] at hnext
      rw [hnext.append.octet?_nil]
      exact ⟨_, rfl, .error _⟩
    · have hstop := stop_of_readUntil (congrArg Prod.snd hr)
      have hd : d.toNat < 128 := hascii d hstop
      rw [hr] at hnext htaken
      rw [hnext.append.octet?_ascii hd]
      simp only [hnext.cut, htaken]
      exact (hnext.append.next_ascii hd).separated
  · rw [if_neg hquote, if_neg hquote]
    obtain ⟨out, start, lit, hout, hnext, htaken⟩ := h.escaped_self isAscii_isListSpace
    simp only [hout, hnext.cut, bind, Except.bind, pure, Except.pure, htaken]
    exact ⟨_, rfl, .ok hnext.append⟩

end At

theorem elements_dropWhile (cs : List Char) :
    TclList.elements (cs.dropWhile isListSpace) = TclList.elements cs := by
  induction cs with
  | nil => rfl
  | cons c cs ih =>
    by_cases hc : isListSpace c = true
    · rw [List.dropWhile_cons_of_pos hc, ih, TclList.elements.eq_def (c :: cs)]
      simp only [hc, dif_pos]
    · rw [List.dropWhile_cons_of_neg hc]

theorem elements_of_readElement_error {c : Char} {cs : List Char} {e : TclList.Error}
    (hc : isListSpace c = false) (h : TclList.readElement c cs = .error e) :
    TclList.elements (c :: cs) = .error e := by
  rw [TclList.elements]
  simp only [hc, Bool.false_eq_true, dif_neg, not_false_eq_true]
  split
  · next hr =>
    rw [h] at hr
    cases hr
    rfl
  · next hr => simp [h] at hr

theorem At.parseList {text cs : List Char} {p : Nat} (h : At text p cs) :
    parseList text p = .ok (TclList.elements cs) := by
  induction hn : cs.length using Nat.strongRecOn generalizing p cs with
  | ind n ih =>
    have hstart := h.runEnd isAscii_isListSpace
    rw [Octet.parseList, ← elements_dropWhile]
    cases hcs : cs.dropWhile isListSpace with
    | nil =>
      rw [hcs] at hstart
      rw [hstart.octet?_nil, TclList.elements]
      rfl
    | cons c ds =>
      have hc : isListSpace c = false := by
        have hhead := List.head?_dropWhile_not isListSpace cs
        rw [hcs] at hhead
        exact hhead
      rw [hcs] at hstart
      obtain ⟨o, ho, -⟩ := hstart.exists_octet
      obtain ⟨r, hr, hagrees⟩ := hstart.readElement
      rw [ho, hr]
      generalize hread : TclList.readElement c ds = r' at hagrees
      cases hagrees with
      | error e =>
        rw [elements_of_readElement_error hc hread]
        rfl
      | @ok element q rest hrest =>
        have hshorter : rest.length < (c :: ds).length := TclList.readElement_length_lt hc hread
        have hle := (List.dropWhile_sublist isListSpace (l := cs)).length_le
        rw [hcs] at hle
        rw [TclList.elements_of_readElement hc hread]
        simp only [hrest.advance (hstart.lt_of_length_lt hrest hshorter),
          ih rest.length (by omega) hrest rfl, bind, Except.bind, pure, Except.pure]

end TclHost.Octet
