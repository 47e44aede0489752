import TclHost.Proofs.Octet.Script
import TclHost.Proofs.Octet.Token
/-! # The scanners keep to the boundaries of characters

Whatever the text is, an octet scanner that starts at a boundary is never halted: what it cuts out
of the text and what it hands on lies between characters, and it gets ahead.
-/
namespace TclHost.Octet

open Text Script

/-- What the octet scanners do at a boundary in front of a text.  The results are those of the
readers of characters, and a position stands for the text behind it; a scanner that cut or went on
elsewhere than between characters, or consumed something without getting ahead, would be halted
instead.  Where one thing is consumed, the position behind it is further on. -/
structure KeepsBoundaries (text : List Char) (p : Nat) (rest : List Char) : Prop where
  list : parseList text p = .ok (TclList.elements rest)
  element (c : Char) (cs : List Char) (h : rest = c :: cs) (hc : isListSpace c = false) :
    ∃ r, readElement text p = .ok r ∧ Agrees text r (TclList.readElement c cs) ∧
      ∀ element q, r = .ok (element, q) → p < q
  tokens : tokenize text p = .ok (Expr.tokenize rest)
  token (c : Char) (cs : List Char) (h : rest = c :: cs) :
    ∃ o r, octet? text p = some o ∧ nextToken text o p = .ok r ∧
      Agrees text r (Expr.readToken c cs) ∧ ∀ token q, r = .ok (token, q) → p < q
  escape (cs : List Char) (h : rest = '\\' :: cs) :
    ∃ q, backslash text p = .ok ((Escape.read cs).1, q) ∧ At text q (Escape.read cs).2 ∧ p < q
  brace (cs : List Char) (h : rest = '{' :: cs) :
    matchingBrace text p =
        ((closeAt? '{' '}' 0 cs).map fun r => p + 1 + Utf8.size r.1) ∧
      ∀ q ∈ matchingBrace text p, p < q ∧ ∃ ds, At text q ('}' :: ds)
  comment (cs : List Char) (h : rest = '#' :: cs) :
    At text (skipComment text p) (Script.skipComment cs) ∧ p < skipComment text p
  separators : At text (skipSeparators text p) (Script.skipSeparators rest) ∧
    p ≤ skipSeparators text p
  name : At text (nameEnd text p) (splitName rest).2 ∧ p ≤ nameEnd text p
  pieces (stop : Stop) :
    Gives text (subst text stop p p) (readPieces stop rest).1 (readPieces stop rest).2.text?
  reference (cs : List Char) (h : rest = '$' :: cs) :
    Gives text (substVar text p) (readReference cs).1 (readReference cs).2.text?
  word (nested : Bool) (c : Char) (cs : List Char) (h : rest = c :: cs)
    (hc : (Stop.atWordEnd nested).stopsAt c cs = false) :
    GivesWord text nested p (readWord nested c cs).1 (readWord nested c cs).2.text? ∧
      ∀ expand pieces q, startsExpanded text nested p = .ok expand →
        parseWord text nested (wordStart expand p) = .ok (pieces, some q) → p < q
  command (nested : Bool) :
    Gives text (parseCommand text nested p) (readWords nested rest).1
      (readWords nested rest).2.text?
  script (nested : Bool) :
    Gives text (run text nested p) (readCommands nested rest).1 (readCommands nested rest).2.text?

section
variable {text cs : List Char} {p : Nat}

theorem Agrees.lt {ε α : Type} {r : Except ε (α × Nat)} {r' : Except ε (α × List Char)}
    (hagrees : Agrees text r r') (h : At text p cs)
    (hless : ∀ a rest, r' = .ok (a, rest) → rest.length < cs.length) :
    ∀ a q, r = .ok (a, q) → p < q := by
  rintro a q rfl
  cases hagrees with
  | ok hq => exact h.lt_of_length_lt hq (hless a _ rfl)

theorem GivesWord.lt {nested : Bool} {w : Word} {rest? : Option (List Char)}
    (hgives : GivesWord text nested p w rest?) (h : At text p cs)
    (hless : ∀ rest ∈ rest?, rest.length < cs.length) :
    ∀ expand pieces q, startsExpanded text nested p = .ok expand →
      parseWord text nested (wordStart expand p) = .ok (pieces, some q) → p < q := by
  obtain ⟨expand, pieces, hexpand, -, -, last, hscan, hlast⟩ := hgives
  intro expand' pieces' q hexpand' hscan'
  cases hexpand.symm.trans hexpand'
  cases hscan.symm.trans hscan'
  cases hlast with
  | some hq => exact h.lt_of_length_lt hq (hless _ rfl)

end

/-- A scanner that starts at a boundary is never halted, and it ends at a boundary. -/
theorem keepsBoundaries (front rest : List Char) :
    KeepsBoundaries (front ++ rest) (Utf8.size front) rest := by
  have hp : At (front ++ rest) (Utf8.size front) rest := ⟨front, rfl, rfl⟩
  generalize front ++ rest = text at hp ⊢
  generalize Utf8.size front = p at hp ⊢
  refine
    { list := hp.parseList
      element := ?element
      tokens := hp.tokenize
      token := ?token
      escape := ?escape
      brace := ?brace
      comment := ?comment
      separators := ⟨hp.skipSeparators, le_skipJoining ..⟩
      name := ⟨hp.nameEnd, le_nameEnd text p⟩
      pieces := fun stop => scans_of_reads (reads_readPieces stop rest) p hp
      reference := ?reference
      word := ?word
      command := fun nested => scans_of_reads (reads_readWords nested rest) p hp
      script := fun nested => scans_of_reads (reads_readCommands nested rest) p hp }
  case element =>
    rintro c cs rfl hc
    obtain ⟨r, hr, hagrees⟩ := hp.readElement
    exact ⟨r, hr, hagrees, hagrees.lt hp fun _ _ => TclList.readElement_length_lt hc⟩
  case token =>
    rintro c cs rfl
    obtain ⟨o, ho, hstands⟩ := hp.exists_octet
    obtain ⟨r, hr, hagrees⟩ := hp.nextToken hstands
    refine ⟨o, r, ho, hr, hagrees, hagrees.lt hp fun token left hread => ?_⟩
    exact Nat.lt_succ_of_le (Expr.readToken_length_le hread)
  case escape =>
    rintro cs rfl
    obtain ⟨q, hq, hrest⟩ := hp.backslash
    refine ⟨q, hq, hrest, hp.lt_of_length_lt hrest ?_⟩
    exact Nat.lt_succ_of_le (Escape.read_snd_length_le cs)
  case brace =>
    rintro cs rfl
    have hinner := hp.next_ascii (by decide)
    refine ⟨hp.matchingBrace, fun q hq => ?_⟩
    rw [hp.matchingBrace, Option.mem_def, Option.map_eq_some_iff] at hq
    obtain ⟨⟨inner, left⟩, hclose, rfl⟩ := hq
    exact ⟨by omega, left, hinner.append_of_eq (closeAt?_append hclose)⟩
  case comment =>
    rintro cs rfl
    have hend := hp.skipComment
    rw [skipComment_hash] at hend
    exact ⟨hend, hp.lt_of_length_lt hend (Nat.lt_succ_of_le (skipComment_length_le cs))⟩
  case reference =>
    rintro cs rfl
    exact scans_of_reads (reads_readReference cs) p hp
  case word =>
    rintro nested c cs rfl hc
    have hreads := reads_readWord nested c cs
    have hgives := scans_of_reads hreads p hp hc
    refine ⟨hgives, hgives.lt hp fun left hleft => ?_⟩
    exact Nat.lt_succ_of_le (hreads.suffix left hleft).length_le

end TclHost.Octet
