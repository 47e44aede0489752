import TclHost.Proofs.Expr.Derivation
import TclHost.Proofs.Expr.Printed
import TclHost.Proofs.Expr.Spaced
import TclHost.Proofs.Text.Written
/-! # Parsing and writing expressions

Parsing is the inverse of writing an expression with parentheses only where they are needed, and
a text that is accepted differs from the written form of its expression only in parentheses that
could have been left out.
-/
namespace TclHost.Expr

open Text

def Writes (word : String) (symbol : Symbol) : Prop :=
  ∃ token, tokenize word.toList = .ok [token] ∧ token.Spells symbol

theorem writes_of_readToken {c : Char} {cs : List Char} {token : Token} {symbol : Symbol}
    (hc : isSpace c = false) (h : readToken c cs = .ok (token, [])) (hs : token.Spells symbol) :
    Writes (String.ofList (c :: cs)) symbol := by
  refine ⟨token, ?_, hs⟩
  rw [String.toList_ofList, tokenize_single hc h]

theorem tokenize_intercalate {words : List String} {symbols : List Symbol}
    (h : List.Forall₂ Writes words symbols) :
    ∃ ts, tokenize (" ".intercalate words).toList = .ok ts ∧ Spelled ts symbols := by
  induction h with
  | nil => exact ⟨[], by simp [tokenize], .nil⟩
  | @cons word symbol words symbols hword hwords ih =>
    obtain ⟨token, htoken, hspells⟩ := hword
    obtain ⟨ts, hts, hspelled⟩ := ih
    refine ⟨token :: ts, ?_, .cons hspells hspelled⟩
    cases words with
    | nil =>
      cases hwords
      cases hspelled
      simpa using htoken
    | cons next words =>
      have hjoined : (" ".intercalate (word :: next :: words)).toList
          = word.toList ++ ' ' :: (" ".intercalate (next :: words)).toList := by
        rw [String.intercalate_cons_cons, String.toList_append, String.toList_append]
        simp
      rw [hjoined, tokenize_append (by decide) _ htoken, hts]
      rfl

/-- A text with the tokens of a written expression within the budgets parses as that expression,
and one with those of any other is too deep. -/
theorem parse_of_tokenize {source : String} {t : Tree} {ts : List Token}
    (hts : tokenize source.toList = .ok ts) (hspelled : Spelled ts (t.symbols 0)) :
    parse source = if t.Fits 0 maxDescents maxChain then .ok t
      else .error (.grammar source .tooDeep) := by
  have hne := (not_rightParen_of_spelled hspelled []).1
  rw [parse, hts]
  split
  · cases ‹_›
  · next heq =>
    cases heq
    exact absurd rfl hne
  · next heq =>
    cases heq
    rw [parseTokens_of_spelled hspelled]
    split <;> rfl

/-- The written form of an expression within the budgets parses as that expression, and that of
any other one is too deep. -/
theorem parse_intercalate {t : Tree} {words : List String}
    (h : List.Forall₂ Writes words (t.symbols 0)) :
    parse (" ".intercalate words) =
      if t.Fits 0 maxDescents maxChain then .ok t
      else .error (.grammar (" ".intercalate words) .tooDeep) := by
  obtain ⟨ts, hts, hspelled⟩ := tokenize_intercalate h
  exact parse_of_tokenize hts hspelled

/-! ## Accepted tokens -/

/-- Tokens form an expression where a precedence is needed: those of its written form, with any
number of further pairs of parentheses around the expression and its parts. -/
inductive Renders : (need : Nat) → Tree → List Token → Prop
  | leaf {need : Nat} {token : Token} {t : Tree} (h : token.operand? = some t) :
    Renders need t [token]
  | unary {need : Nat} (hneed : need ≤ 14) (op : UnaryOp) {operand : Tree} {us : List Token}
    (h : Renders 14 operand us) : Renders need (.unary op operand) (.mark op.mark :: us)
  | infixes {need : Nat} {op : InfixOp} (hneed : need ≤ op.precedence) {left right : Tree}
    {us vs : List Token} (hl : Renders op.leftNeed left us) (hr : Renders op.rightNeed right vs) :
    Renders need (op.join left right) (us ++ .mark op.mark :: vs)
  | ternary {condition yes no : Tree} {us vs ws : List Token} (hc : Renders 1 condition us)
    (hy : Renders 0 yes vs) (hn : Renders 0 no ws) :
    Renders 0 (.ternary condition yes no)
      (us ++ .mark .question :: (vs ++ .mark .colon :: ws))
  | call {need : Nat} (name : String) (args : List (List Token × Tree))
    (h : ∀ arg ∈ args, Renders 0 arg.2 arg.1) :
    Renders need (.call name (args.map (·.2)))
      (.word name :: .mark .leftParen :: separated (args.map (·.1)) ++ [.mark .rightParen])
  | parens {need : Nat} {t : Tree} {us : List Token} (h : Renders 0 t us) :
    Renders need t (.mark .leftParen :: us ++ [.mark .rightParen])

/-- The second list is the first one without some pairs of parentheses. -/
inductive Erases : List Token → List Token → Prop
  | nil : Erases [] []
  | cons (token : Token) {ts ts' : List Token} (h : Erases ts ts') :
    Erases (token :: ts) (token :: ts')
  | pair {us us' ts ts' : List Token} (hu : Erases us us') (ht : Erases ts ts') :
    Erases (.mark .leftParen :: us ++ .mark .rightParen :: ts) (us' ++ ts')

theorem Erases.append {us us' vs vs' : List Token} (h : Erases us us') (h' : Erases vs vs') :
    Erases (us ++ vs) (us' ++ vs') := by
  induction h with
  | nil => exact h'
  | cons token _ ih => exact .cons token ih
  | pair hu _ _ ih => simpa using hu.pair ih

/-- The tokens that are read at a precedence form the expression wherever no tighter one is
needed. -/
theorem Derives.renders {p d c k : Nat} {us : List Token} {t : Tree} (h : Derives p d c k us t) :
    ∀ q ≤ p, Renders q t us := by
  induction h with
  | operand h => exact fun q _ => .leaf h
  | parens _ ih => exact fun q _ => .parens (ih 0 (Nat.le_refl 0))
  | call name args _ _ _ ih =>
    exact fun q _ => .call name args fun arg harg => ih arg harg 0 (Nat.le_refl 0)
  | unary op _ ih => exact fun q hq => .unary hq op (ih 14 (Nat.le_refl 14))
  | power _ _ ihl ihr =>
    intro q hq
    have hl : Renders (InfixOp.binary .pow).leftNeed _ _ := ihl 14 (Nat.le_refl 14)
    have hr : Renders (InfixOp.binary .pow).rightNeed _ _ := ihr 13 (Nat.le_refl 13)
    exact hl.infixes hq hr
  | infixes op hop _ _ ihl ihr =>
    intro q hq
    have hl := ihl op.precedence (Nat.le_refl _)
    have hr := ihr (op.precedence + 1) (Nat.le_refl _)
    rw [← InfixOp.leftNeed_of_le hop] at hl
    rw [← InfixOp.rightNeed_of_le hop] at hr
    exact .infixes hq hl hr
  | ternary _ _ _ ihc ihy ihn =>
    intro q hq
    obtain rfl : q = 0 := by omega
    exact .ternary (ihc 1 (Nat.le_refl 1)) (ihy 0 (Nat.le_refl 0)) (ihn 0 (Nat.le_refl 0))
  | lift _ _ ih => exact fun q hq => ih q (by omega)

def Covers (ts : List Token) (symbols : List Symbol) : Prop :=
  ∃ us, Erases ts us ∧ Spelled us symbols

namespace Covers

theorem append {us vs : List Token} {xs ys : List Symbol} (h : Covers us xs) (h' : Covers vs ys) :
    Covers (us ++ vs) (xs ++ ys) := by
  obtain ⟨us', hu, hus⟩ := h
  obtain ⟨vs', hv, hvs⟩ := h'
  exact ⟨us' ++ vs', hu.append hv, spelled_append.mpr ⟨us', vs', rfl, hus, hvs⟩⟩

theorem cons {token : Token} {symbol : Symbol} {ts : List Token} {symbols : List Symbol}
    (h : token.Spells symbol) (hs : Covers ts symbols) :
    Covers (token :: ts) (symbol :: symbols) := by
  obtain ⟨us, hu, hus⟩ := hs
  exact ⟨token :: us, hu.cons token, .cons h hus⟩

theorem infixes {us vs : List Token} {xs ys : List Symbol} (m : Mark) (h : Covers us xs)
    (h' : Covers vs ys) : Covers (us ++ .mark m :: vs) (xs ++ .mark m :: ys) :=
  h.append (cons rfl h')

theorem enclosed {ts : List Token} {symbols : List Symbol} (h : Covers ts symbols) :
    Covers (.mark .leftParen :: ts ++ [.mark .rightParen])
      (.mark .leftParen :: symbols ++ [.mark .rightParen]) :=
  cons rfl (h.infixes .rightParen ⟨[], .nil, .nil⟩)

theorem parens {ts : List Token} {symbols : List Symbol} (h : Covers ts symbols) :
    Covers (.mark .leftParen :: ts ++ [.mark .rightParen]) symbols := by
  obtain ⟨us, hu, hus⟩ := h
  exact ⟨us, by simpa using hu.pair .nil, hus⟩

theorem arguments {parts : List (List Token × Tree)}
    (h : ∀ part ∈ parts, Covers part.1 (part.2.symbols 0)) :
    Covers (separated (parts.map (·.1))) (Tree.argumentSymbols (parts.map (·.2))) := by
  induction parts with
  | nil => exact ⟨[], .nil, .nil⟩
  | cons part parts ih =>
    have hpart := h part (by simp)
    by_cases hparts : parts = []
    · subst hparts
      exact hpart
    · rw [List.map_cons, List.map_cons, Tree.argumentSymbols_cons _ (by simpa using hparts),
        separated_cons _ (by simpa using hparts)]
      exact hpart.infixes .comma (ih fun p hp => h p (by simp [hp]))

end Covers

/-- Without the pairs of parentheses that are not needed, tokens that form an expression are those
of its written form. -/
theorem Renders.covers {need : Nat} {t : Tree} {ts : List Token} (h : Renders need t ts)
    (hneed : need ≤ 15) : Covers ts (t.symbols need) := by
  induction h with
  | leaf h =>
    rw [Tree.symbols_of_isLeaf (isLeaf_of_operand? h)]
    exact .cons h ⟨[], .nil, .nil⟩
  | unary hneed' op _ ih =>
    rw [Tree.symbols, enclose, if_neg (by omega)]
    exact .cons rfl (ih (by decide))
  | @infixes need op hneed' left right us vs _ _ ihl ihr =>
    rw [InfixOp.symbols_join, enclose, if_neg (by omega)]
    exact (ihl op.leftNeed_le).infixes op.mark (ihr op.rightNeed_le)
  | ternary _ _ _ ihc ihy ihn =>
    rw [Tree.symbols, enclose, if_neg (by omega), List.append_assoc]
    exact (ihc (by decide)).infixes .question ((ihy (by decide)).infixes .colon (ihn (by decide)))
  | call name args _ ih =>
    rw [Tree.symbols]
    exact .cons rfl (.enclosed (.arguments fun arg harg => ih arg harg (by decide)))
  | @parens need t us _ ih =>
    have hinner := ih (by decide)
    rw [Tree.symbols_eq_enclose t hneed, enclose]
    split
    · exact hinner.enclosed
    · exact hinner.parens

/-- Parsing is the inverse of writing.  Words that write an expression, one token each and with
parentheses only where they are needed, are read back as that expression if it stays within the
two budgets, and refused otherwise.  Whatever is accepted forms its expression, and without the
pairs of parentheses that are not needed its tokens are those of the written form. -/
theorem parse_inverse_of_writing :
    (∀ (t : Tree) (words : List String), List.Forall₂ Writes words (t.symbols 0) →
      parse (" ".intercalate words) =
        if t.nesting 0 ≤ maxDescents ∧ t.chain ≤ maxChain then .ok t
        else .error (.grammar (" ".intercalate words) .tooDeep)) ∧
    ∀ (source : String) (t : Tree), parse source = .ok t →
      ∃ ts, tokenize source.toList = .ok ts ∧ Renders 0 t ts ∧
        ∃ us, Erases ts us ∧ Spelled us (t.symbols 0) := by
  refine ⟨fun t words => parse_intercalate, fun source t h => ?_⟩
  obtain ⟨ts, k, hts, hderives⟩ := derives_of_parse h
  have hrenders := hderives.renders 0 (Nat.le_refl 0)
  exact ⟨ts, hts, hrenders, hrenders.covers (by decide)⟩

/-- A negated base takes no parentheses: the operator in front binds tighter than the power. -/
theorem parse_power_of_negation :
    let negation := Tree.unary .neg (.variable "$x")
    let power := Tree.binary .pow negation (.literal (.ofNum (.int 2)))
    let call := Tree.call "max" [.literal (.ofNum (.int 1)), .variable "$y"]
    parse (" ".intercalate ["-", "$x", "**", "2", "+", "max", "(", "1", ",", "$y", ")"]) =
        .ok (.binary .add power call) ∧
      ∃ ts, tokenize (" ".intercalate
          ["-", "$x", "**", "2", "+", "max", "(", "1", ",", "$y", ")"]).toList = .ok ts ∧
        Renders 0 (.binary .add power call) ts ∧
        ∃ us, Erases ts us ∧ Spelled us ((Tree.binary .add power call).symbols 0) := by
  intro negation power call
  have hwords : List.Forall₂ Writes ["-", "$x", "**", "2", "+", "max", "(", "1", ",", "$y", ")"]
      ((Tree.binary .add power call).symbols 0) := by
    have hmark {c : Char} {m : Mark} (hc : isSpace c = false)
        (h : readToken c [] = .ok (.mark m, [])) : Writes (String.ofList [c]) (.mark m) :=
      writes_of_readToken hc h rfl
    have hnumber {c : Char} {n : Num} (hc : isSpace c = false)
        (h : readToken c [] = .ok (.number n, [])) :
        Writes (String.ofList [c]) (.leaf (.literal (.ofNum n))) :=
      writes_of_readToken hc h rfl
    have hvariable {c : Char}
        (h : readToken '$' [c] = .ok (.variable (String.ofList ['$', c]), [])) :
        Writes (String.ofList ['$', c]) (.leaf (.variable (String.ofList ['$', c]))) :=
      writes_of_readToken rfl h rfl
    have hpower : Writes "**" (.mark .power) := writes_of_readToken (c := '*') rfl rfl rfl
    have hmax : Writes "max" (.name "max") := writes_of_readToken (c := 'm') rfl rfl rfl
    exact .cons (hmark rfl rfl) <| .cons (hvariable rfl) <| .cons hpower <|
      .cons (hnumber rfl rfl) <| .cons (hmark rfl rfl) <| .cons hmax <|
      .cons (hmark rfl rfl) <| .cons (hnumber rfl rfl) <|
      .cons (hmark rfl rfl) <| .cons (hvariable rfl) <| .cons (hmark rfl rfl) .nil
  have hparse := (parse_inverse_of_writing.1 _ _ hwords).trans (if_pos ⟨by decide, by decide⟩)
  exact ⟨hparse, parse_inverse_of_writing.2 _ _ hparse⟩

end TclHost.Expr
