import TclHost.Octet.Token
import TclHost.Proofs.Expr.NumberToken
import TclHost.Proofs.Octet.Scanner
/-! # Tokens at boundaries

The octet scanner of expressions takes the tokens that the reader of characters takes, and every
token ends at a boundary behind its start.
-/
namespace TclHost.Octet

open Text TclHost.Expr

theorem isAscii_isNumberChar : IsAscii isNumberChar :=
  (isAscii_isAsciiDigit.or isAscii_isAsciiLetter).or (isAscii_beq (by decide))

theorem isAscii_isWordChar : IsAscii isWordChar :=
  isAscii_isNameChar.or (isAscii_beq (by decide))

theorem isAscii_isSpace : IsAscii isSpace :=
  ((isAscii_blank.or (isAscii_beq (by decide))).or (isAscii_beq (by decide)))

theorem isAscii_sign : IsAscii fun c => c == '+' || c == '-' :=
  (isAscii_beq (by decide)).or (isAscii_beq (by decide))

/-! ## Numbers -/

section
variable {text cs rest mid : List Char} {p : Nat} {c : Char}

namespace At

theorem finish (h : At text p cs) (heq : mid ++ rest = cs)
    (token : List Char → Except LexicalError Token) :
    ∃ r, finish text p (p + Utf8.size mid) token = .ok r ∧
      Agrees text r ((token mid).map fun t => (t, rest)) := by
  refine ⟨(token mid).map fun t => (t, p + Utf8.size mid), ?_, ?_⟩
  · rw [Octet.finish, h.cut_of_eq heq]
    rfl
  · cases token mid with
    | error e => exact .error e
    | ok t => exact .ok (h.append_of_eq heq)

theorem signedExponent (h : At text p cs) :
    ((octet? text p).any (fun s => s == '+' || s == '-') &&
      (octet? text (p + 1)).any isAsciiDigit) = signedExponentFollows cs := by
  rw [h.any_octet? isAscii_sign]
  cases cs with
  | nil => rfl
  | cons s ds =>
    by_cases hs : (s == '+' || s == '-') = true
    · rw [(h.next_ascii (isAscii_sign s hs)).any_octet? isAscii_isAsciiDigit]
      cases ds <;> simp [signedExponentFollows]
    · have hnone : signedExponentFollows (s :: ds) = false := by
        cases ds with
        | nil => rfl
        | cons d ds => simp only [signedExponentFollows, hs, Bool.false_and]
      rw [hnone, List.head?_cons, Option.any_some, Bool.eq_false_iff.mpr hs, Bool.false_and]

theorem numberEnd (hex : Bool) (h : At text p cs) :
    numberEnd text hex p = p + Utf8.size (numberTail hex cs).1 := by
  -- One step of the loop, at an octet that is the character.
  have hstep {p : Nat} {c : Char} {ds : List Char} (h : At text p (c :: ds))
      (hc : isNumberChar c = true) :
      Octet.numberEnd text hex p =
        if !hex && (c == 'e' || c == 'E') && signedExponentFollows ds then
          Octet.numberEnd text hex (p + 2)
        else Octet.numberEnd text hex (p + 1) := by
    have hascii := isAscii_isNumberChar c hc
    rw [numberEnd_eq, h.octet?_ascii hascii, ← (h.next_ascii hascii).signedExponent]
    simp only [hc, if_true, Bool.and_assoc]
  induction cs using numberTail.induct hex generalizing p with
  | case1 =>
    rw [numberEnd_eq, h.octet?_nil, numberTail]
    rfl
  | case2 c _ hsign => simp [signedExponentFollows] at hsign
  | case3 c hc s ds hsign ih =>
    have hascii := isAscii_isNumberChar c hc
    have hs : s.toNat < 128 := by
      refine isAscii_sign s ?_
      simpa using sign_of_signedExponentFollows (Bool.and_eq_true_iff.mp hsign).2
    rw [hstep h hc, if_pos hsign, ih ((h.next_ascii hascii).next_ascii hs),
      numberTail_sign hc hsign, add_size_cons hascii, add_size_cons hs]
  | case4 c ds hc hsign ih =>
    have hascii := isAscii_isNumberChar c hc
    rw [hstep h hc, if_neg hsign, ih (h.next_ascii hascii),
      numberTail_next hc (by simpa using hsign), add_size_cons hascii]
  | case5 c ds hc =>
    obtain ⟨o, ho, hstands⟩ := h.exists_octet
    rw [numberEnd_eq, ho, numberTail_stop hex (by simpa using hc)]
    simp only [hstands.test_eq isAscii_isNumberChar, hc]
    rfl

theorem readNumber (h : At text p (c :: cs)) (hc : c.toNat < 128) :
    ∃ r, readNumber text p = .ok r ∧ Agrees text r (Expr.readNumber c cs) := by
  have hhex : (['0', 'x'].isPrefixOf (c :: cs) || ['0', 'X'].isPrefixOf (c :: cs)) =
      (c == '0' && (cs.head? == some 'x' || cs.head? == some 'X')) := by
    rw [List.isPrefixOf_cons_cons, List.isPrefixOf_cons_cons, ← Bool.and_or_distrib_left,
      Bool.beq_comm]
    cases cs with
    | nil => rfl
    | cons d ds => simp [List.isPrefixOf, Bool.beq_comm]
  have hend := (h.next_ascii hc).numberEnd
    (c == '0' && (cs.head? == some 'x' || cs.head? == some 'X'))
  rw [Octet.readNumber, h.behind, readNumber_eq]
  obtain ⟨r, hr, hagrees⟩ := h.finish (numberText_append c cs) numberToken
  have hsize : p + Utf8.size (numberText c cs).1 = Octet.numberEnd text
      (c == '0' && (cs.head? == some 'x' || cs.head? == some 'X')) (p + 1) := by
    rw [hend, numberText, add_size_cons hc]
  refine ⟨r, ?_, hagrees⟩
  rw [← hr, hsize, ← hhex]
  rfl

end At

/-! ## References and delimited tokens -/

theorem splitAfter?_eq_none {close : Char} {cs : List Char} (h : cs.dropWhile (· != close) = []) :
    splitAfter? close cs = none := by
  rw [splitAfter?, h]

theorem splitAfter?_eq_some {close d : Char} {cs rest : List Char}
    (h : cs.dropWhile (· != close) = d :: rest) :
    splitAfter? close cs = some (cs.takeWhile (· != close) ++ [d], rest) := by
  rw [splitAfter?, h]

namespace At

theorem readDelimited {opening close : Char} (hopening : opening.toNat < 128)
    (hclose : close.toNat < 128) (error : LexicalError) (token : String → Token)
    (h : At text p (c :: cs)) (hc : c.toNat < 128) :
    ∃ r, readDelimited text opening close error token p = .ok r ∧
      Agrees text r (Expr.readDelimited opening close error token cs) := by
  have hinner := h.next_ascii hc
  rw [Octet.readDelimited, Expr.readDelimited, hinner.closing hopening hclose, delimited?_eq]
  cases hr : closeAt? opening close 0 cs with
  | none => exact ⟨_, rfl, .error _⟩
  | some r =>
    obtain ⟨inner, rest⟩ := r
    simp only [Option.map_some, hinner.cut_of_eq (closeAt?_append hr)]
    exact ⟨_, rfl, .ok (hinner.closed hclose hr)⟩

theorem finish_behind {front : List Char} {close d : Char} (hclose : close.toNat < 128)
    (h : At text p (front ++ cs)) (hfind : cs.dropWhile (· != close) = d :: rest)
    (token : List Char → Except LexicalError Token) :
    ∃ r, Octet.finish text p (p + Utf8.size front + Utf8.size (cs.takeWhile (· != close)) + 1)
          token = .ok r ∧
      Agrees text r
        ((token (front ++ (cs.takeWhile (· != close) ++ [d]))).map fun t => (t, rest)) := by
  have hd : d.utf8Size = 1 := utf8Size_of_lt (eq_of_dropWhile_bne hfind ▸ hclose)
  have hsize : Utf8.size (front ++ (cs.takeWhile (· != close) ++ [d])) =
      Utf8.size front + Utf8.size (cs.takeWhile (· != close)) + 1 := by
    rw [Utf8.size_append, Utf8.size_append, Utf8.size, hd, Utf8.size, Nat.add_assoc]
  have heq : front ++ (cs.takeWhile (· != close) ++ [d]) ++ rest = front ++ cs := by
    rw [List.append_assoc, List.append_assoc, List.singleton_append, ← hfind,
      List.takeWhile_append_dropWhile]
  have hfinish := h.finish heq token
  rw [hsize, ← Nat.add_assoc, ← Nat.add_assoc] at hfinish
  exact hfinish

theorem readVariable_braced (h : At text p ('$' :: '{' :: cs)) :
    ∃ r, readVariable text p = .ok r ∧ Agrees text r (Expr.readVariable ('{' :: cs)) := by
  have hstart := h.next_ascii (by decide)
  have hname := hstart.next_ascii (by decide)
  rw [Octet.readVariable, if_pos (hstart.octet?_ascii (by decide)), hname.behind]
  cases hclose : cs.dropWhile (· != '}') with
  | nil =>
    simp only [Expr.readVariable, splitAfter?_eq_none hclose, find?_eq_none hclose, bind,
      Except.bind]
    exact ⟨_, rfl, .error _⟩
  | cons d rest =>
    simp only [Expr.readVariable, splitAfter?_eq_some hclose, find?_eq_some hclose, bind,
      Except.bind]
    exact finish_behind (by decide) (show At text p (['$', '{'] ++ cs) from h) hclose _

theorem readVariable_plain (h : At text p ('$' :: cs)) (hbrace : ∀ ds, cs ≠ '{' :: ds) :
    ∃ r, readVariable text p = .ok r ∧ Agrees text r (Expr.readVariable cs) := by
  have hstart := h.next_ascii (by decide)
  have hopen : octet? text (p + 1) ≠ some '{' := hstart.octet?_ne (by decide) hbrace
  have hend := hstart.nameEnd
  have hposition : p + Utf8.size ('$' :: (splitName cs).1) = Octet.nameEnd text (p + 1) := by
    rw [hstart.nameEnd_eq, add_size_cons (by decide)]
  rw [Octet.readVariable, if_neg hopen]
  unfold Expr.readVariable
  split
  · exact absurd rfl (hbrace _)
  simp only [hstart.nameEnd_eq_iff]
  by_cases hname : (splitName cs).1 = []
  · rw [if_pos hname, if_pos (by rw [hname]; rfl)]
    exact ⟨_, rfl, .error _⟩
  have hempty : ¬(splitName cs).1.isEmpty = true := by simpa using hname
  rw [if_neg hname, if_neg hempty]
  have hwhole : ('$' :: (splitName cs).1) ++ (splitName cs).2 = '$' :: cs :=
    congrArg ('$' :: ·) (splitName_append cs)
  by_cases hindex : ∃ ds, (splitName cs).2 = '(' :: ds
  · obtain ⟨ds, hds⟩ := hindex
    rw [hds] at hend hwhole
    rw [if_pos (hend.octet?_ascii (by decide)), hend.behind, hds]
    cases hclose : ds.dropWhile (· != ')') with
    | nil =>
      have hfind : find? ')' ('(' :: ds) = none :=
        find?_eq_none (show ('(' :: ds).dropWhile (· != ')') = [] from hclose)
      simp only [splitAfter?_eq_none hclose, hfind, bind, Except.bind]
      exact ⟨_, rfl, .error _⟩
    | cons d rest =>
      have hclose' : ('(' :: ds).dropWhile (· != ')') = d :: rest := hclose
      simp only [splitAfter?_eq_some hclose, find?_eq_some hclose', bind, Except.bind]
      rw [← hposition]
      exact finish_behind (by decide) (hwhole ▸ h) hclose' _
  · have hparen : octet? text (Octet.nameEnd text (p + 1)) ≠ some '(' := by
      rw [Ne, hend.octet?_eq_some_iff (by decide), List.head?_eq_some_iff]
      exact hindex
    rw [if_neg hparen, ← hposition]
    split
    · next ds hds => exact absurd ⟨ds, hds⟩ hindex
    · exact h.finish hwhole _

theorem readVariable (h : At text p ('$' :: cs)) :
    ∃ r, readVariable text p = .ok r ∧ Agrees text r (Expr.readVariable cs) := by
  by_cases hbrace : ∃ ds, cs = '{' :: ds
  · obtain ⟨ds, rfl⟩ := hbrace
    exact h.readVariable_braced
  · exact h.readVariable_plain (not_exists.mp hbrace)

end At

end

/-! ## Marks -/

theorem markOfTwo?_of_le {c d : Char} (h : 128 ≤ c.toNat) : markOfTwo? c d = none := by
  unfold markOfTwo?
  split <;> first | rfl | exact absurd h (by decide)

theorem markOfTwo?_of_le_right (c : Char) {d : Char} (h : 128 ≤ d.toNat) :
    markOfTwo? c d = none := by
  unfold markOfTwo?
  split <;> first | rfl | exact absurd h (by decide)

theorem markOfOne?_of_le {c : Char} (h : 128 ≤ c.toNat) : markOfOne? c = none := by
  unfold markOfOne?
  split <;> first | rfl | exact absurd h (by decide)

theorem readMark?_eq (c : Char) (cs : List Char) :
    readMark? c cs =
      match cs.head?.bind (markOfTwo? c) with
      | some m => some (m, cs.tail)
      | none => (markOfOne? c).map fun m => (m, cs) := by
  cases cs with
  | nil =>
    rw [List.head?_nil, Option.bind_none]
    unfold readMark?
    split
    case h_27 =>
      unfold markOfOne?
      split <;> first | rfl | simp_all
    all_goals first | rfl | contradiction
  | cons d ds =>
    rw [List.head?_cons, Option.bind_some, List.tail_cons]
    cases h : markOfTwo? c d with
    | some m =>
      unfold markOfTwo? at h
      split at h <;> cases h <;> rfl
    | none =>
      unfold readMark?
      split
      case h_27 =>
        unfold markOfOne?
        split <;> first | rfl | simp_all
      all_goals first | rfl | (rename_i heq; cases heq; cases h)

/-! ## Tokens -/

section
variable {text cs : List Char} {p : Nat} {c o : Char}

namespace At

theorem readMark (h : At text p (c :: cs)) (hstands : Stands o c) :
    ∃ r, readMark text o p = .ok r ∧
      Agrees text r (match readMark? c cs with
        | some (m, rest) => .ok (.mark m, rest)
        | none => .ok (.unknown c, cs)) := by
  have htwo (d : Char) : markOfTwo? o d = markOfTwo? c d :=
    hstands.congr fun _ hbeyond => markOfTwo?_of_le hbeyond
  have hone : markOfOne? o = markOfOne? c := hstands.congr fun _ => markOfOne?_of_le
  have hmark : (octet? text (p + 1)).bind (markOfTwo? c) = cs.head?.bind (markOfTwo? c) := by
    by_cases hc : c.toNat < 128
    · exact (h.next_ascii hc).bind_octet? fun _ => markOfTwo?_of_le_right c
    · have hnone (d : Char) : markOfTwo? c d = none := markOfTwo?_of_le (Nat.le_of_not_lt hc)
      rw [funext hnone, Option.bind_fun_none, Option.bind_fun_none]
  rw [Octet.readMark, readMark?_eq, funext htwo, hone, hmark]
  cases hm : cs.head?.bind (markOfTwo? c) with
  | some m =>
    obtain ⟨d, hd, hm⟩ := Option.bind_eq_some_iff.mp hm
    obtain ⟨ds, rfl⟩ := List.head?_eq_some_iff.mp hd
    have hc : c.toNat < 128 :=
      lt_of_eq_some (f := fun c => markOfTwo? c d) (fun _ => markOfTwo?_of_le) hm
    have hd : d.toNat < 128 := lt_of_eq_some (fun _ => markOfTwo?_of_le_right c) hm
    exact ⟨_, rfl, .ok ((h.next_ascii hc).next_ascii hd)⟩
  | none =>
    cases hm : markOfOne? c with
    | some m =>
      exact ⟨_, rfl, .ok (h.next_ascii (lt_of_eq_some (fun _ => markOfOne?_of_le) hm))⟩
    | none =>
      simp only [h.behind]
      exact ⟨_, rfl, .ok h.next⟩

theorem nextToken (h : At text p (c :: cs)) (hstands : Stands o c) :
    ∃ r, nextToken text o p = .ok r ∧ Agrees text r (readToken c cs) := by
  have hnumber : (isAsciiDigit o || (o == '.' && (octet? text (p + 1)).any isAsciiDigit)) =
      (isAsciiDigit c || (c == '.' && cs.head?.any isAsciiDigit)) := by
    rw [hstands.test_eq isAscii_isAsciiDigit, hstands.test_eq (isAscii_beq (a := '.') (by decide))]
    by_cases hc : c = '.'
    · rw [(h.next_ascii (hc ▸ by decide)).any_octet? isAscii_isAsciiDigit]
    · rw [beq_false_of_ne hc, Bool.false_and, Bool.false_and]
  have hword : IsAscii fun c => isAsciiLetter c || c == '_' :=
    isAscii_isAsciiLetter.or (isAscii_beq (by decide))
  have hword_eq : (isAsciiLetter o || o == '_') = (isAsciiLetter c || c == '_') :=
    hstands.test_eq hword
  rw [Octet.nextToken, readToken, hnumber, hword_eq]
  simp only [hstands.eq_iff (a := '$') (by decide), hstands.eq_iff (a := '[') (by decide),
    hstands.eq_iff (a := '"') (by decide), hstands.eq_iff (a := '{') (by decide)]
  split
  · next hstart =>
    refine h.readNumber ?_
    rcases Bool.or_eq_true_iff.mp hstart with hdigit | hdot
    · exact isAscii_isAsciiDigit c hdigit
    · exact isAscii_beq (by decide) c (Bool.and_eq_true_iff.mp hdot).1
  split
  · next hc => exact (hc ▸ h).readVariable
  split
  · next hc => exact h.readDelimited (by decide) (by decide) _ _ (hc ▸ by decide)
  split
  · next hc => exact h.readDelimited (by decide) (by decide) _ _ (hc ▸ by decide)
  split
  · next hc => exact h.readDelimited (by decide) (by decide) _ _ (hc ▸ by decide)
  split
  · next hc =>
    have hascii := hword c hc
    have hend := (h.next_ascii hascii).runEnd_eq isAscii_isWordChar
    have hsize : p + Utf8.size (c :: cs.takeWhile isWordChar) =
        Octet.runEnd text isWordChar (p + 1) := by
      rw [hend, add_size_cons hascii]
    rw [← hsize]
    exact h.finish (congrArg (c :: ·) List.takeWhile_append_dropWhile) _
  · exact h.readMark hstands

end At

theorem tokenize_dropWhile (cs : List Char) :
    Expr.tokenize (cs.dropWhile isSpace) = Expr.tokenize cs := by
  induction cs with
  | nil => rfl
  | cons c cs ih =>
    by_cases hc : isSpace c = true
    · rw [List.dropWhile_cons_of_pos hc, ih, Expr.tokenize, if_pos hc]
    · rw [List.dropWhile_cons_of_neg hc]

theorem At.tokenize (h : At text p cs) : tokenize text p = .ok (Expr.tokenize cs) := by
  induction hn : cs.length using Nat.strongRecOn generalizing p cs with
  | ind n ih =>
    have hstart := h.runEnd isAscii_isSpace
    rw [Octet.tokenize, ← tokenize_dropWhile]
    cases hcs : cs.dropWhile isSpace with
    | nil =>
      rw [hcs] at hstart
      rw [hstart.octet?_nil, Expr.tokenize]
      rfl
    | cons c ds =>
      have hc : isSpace c = false := by
        have hhead := List.head?_dropWhile_not isSpace cs
        rw [hcs] at hhead
        exact hhead
      rw [hcs] at hstart
      obtain ⟨o, ho, hstands⟩ := hstart.exists_octet
      obtain ⟨r, hr, hagrees⟩ := hstart.nextToken hstands
      rw [ho]
      simp only [hr]
      generalize hread : readToken c ds = r' at hagrees
      cases hagrees with
      | error e =>
        rw [tokenize_of_readToken_error hc hread]
        rfl
      | @ok token q rest hrest =>
        have hshorter : rest.length < (c :: ds).length :=
          Nat.lt_succ_of_le (readToken_length_le hread)
        have hle := (List.dropWhile_sublist isSpace (l := cs)).length_le
        rw [hcs] at hle
        rw [tokenize_of_readToken hc hread]
        simp only [hrest.advance (hstart.lt_of_length_lt hrest hshorter),
          ih rest.length (by omega) hrest rfl, bind, Except.bind, pure, Except.pure]

end

end TclHost.Octet
