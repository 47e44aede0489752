import TclHost.Proofs.Expr.Level
import Mathlib.Tactic.Choose
/-! # What the parser accepts

`Derives` is the grammar of expressions with its two budgets: it says which tokens are read as
which expression at a precedence, and what is left of the budget of operators for those that
follow in the same chain.  Whatever the parser accepts is derived, so a law of the accepted
expressions is an induction over derivations.
-/
namespace TclHost.Expr

def separated : List (List Token) → List Token
  | [] => []
  | [arg] => arg
  | arg :: args => arg ++ .mark .comma :: separated args

theorem separated_cons (arg : List Token) {args : List (List Token)} (h : args ≠ []) :
    separated (arg :: args) = arg ++ .mark .comma :: separated args := by
  cases args with
  | nil => exact absurd rfl h
  | cons => rfl

/-- Tokens are read as an expression at a precedence, with a number of descents and a budget of
operators, of which a part is left for operators that follow in the same chain. -/
inductive Derives : (precedence descents chain left : Nat) → List Token → Tree → Prop
  | operand {d c : Nat} {token : Token} {t : Tree} (h : token.operand? = some t) :
    Derives 15 d c c [token] t
  | parens {d c k : Nat} {us : List Token} {t : Tree} (h : Derives 0 d c k us t) :
    Derives 15 (d + 1) c c (.mark .leftParen :: us ++ [.mark .rightParen]) t
  | call {d c : Nat} (name : String) (args : List (List Token × Tree))
    (hd : args ≠ [] → 0 < d) (left : List Token × Tree → Nat)
    (h : ∀ arg ∈ args, Derives 0 (d - 1) c (left arg) arg.1 arg.2) :
    Derives 15 d c c
      (.word name :: .mark .leftParen :: separated (args.map (·.1)) ++ [.mark .rightParen])
      (.call name (args.map (·.2)))
  | unary {d c k : Nat} (op : UnaryOp) {us : List Token} {t : Tree} (h : Derives 14 d c k us t) :
    Derives 14 (d + 1) c c (.mark op.mark :: us) (.unary op t)
  | power {d c k k' : Nat} {us vs : List Token} {l r : Tree} (hl : Derives 14 (d + 1) c k us l)
    (hr : Derives 13 d c k' vs r) :
    Derives 13 (d + 1) c c (us ++ .mark .power :: vs) (.binary .pow l r)
  | infixes {d c left k : Nat} (op : InfixOp) (hop : op.precedence ≤ 12) {us vs : List Token}
    {l r : Tree} (hl : Derives op.precedence d c (left + 1) us l)
    (hr : Derives (op.precedence + 1) d left k vs r) :
    Derives op.precedence d c left (us ++ .mark op.mark :: vs) (op.join l r)
  | ternary {d c k k' k'' : Nat} {us vs ws : List Token} {condition yes no : Tree}
    (hc : Derives 1 (d + 1) c k us condition) (hy : Derives 0 d c k' vs yes)
    (hn : Derives 0 d c k'' ws no) :
    Derives 0 (d + 1) c c (us ++ .mark .question :: (vs ++ .mark .colon :: ws))
      (.ternary condition yes no)
  | lift {p d c k : Nat} (hp : p < 15) {us : List Token} {t : Tree}
    (h : Derives (p + 1) d c k us t) : Derives p d c c us t

variable {d : Nat}

def Parser.Sound (p d : Nat) (parser : Parser) : Prop :=
  ∀ ⦃c : Nat⦄ ⦃ts rest : List Token⦄ ⦃t : Tree⦄, parser c ts = .ok (t, rest) →
    ∃ us k, ts = us ++ rest ∧ Derives p d c k us t

theorem bind_eq_ok_iff {ε α β : Type} {x : Except ε α} {f : α → Except ε β} {b : β} :
    x >>= f = .ok b ↔ ∃ a, x = .ok a ∧ f a = .ok b := by
  cases x with
  | error e => simp [bind, Except.bind]
  | ok a => simp [bind, Except.bind]

structure Below.Sound (d : Nat) (below : Below) : Prop where
  ternary : ∀ {c : Nat} {ts rest : List Token} {t : Tree}, below.ternary c ts = .ok (t, rest) →
    ∃ us k e, d = e + 1 ∧ ts = us ++ rest ∧ Derives 0 e c k us t
  power : ∀ {c : Nat} {ts rest : List Token} {t : Tree}, below.power c ts = .ok (t, rest) →
    ∃ us k e, d = e + 1 ∧ ts = us ++ rest ∧ Derives 13 e c k us t
  unary : ∀ {c : Nat} {ts rest : List Token} {t : Tree}, below.unary c ts = .ok (t, rest) →
    ∃ us k e, d = e + 1 ∧ ts = us ++ rest ∧ Derives 14 e c k us t

variable {below : Below} (hbelow : below.Sound d)
include hbelow

/-- The arguments of a call take at least one token each, so that the limit is never reached. -/
theorem derives_of_parseArguments {c : Nat} {limit ts rest : List Token} {args : List Tree}
    (hlimit : ts.length < limit.length)
    (h : parseArguments below c limit ts = .ok (args, rest)) :
    ∃ parts : List (List Token × Tree), parts ≠ [] ∧ 0 < d ∧ args = parts.map (·.2) ∧
      ts = separated (parts.map (·.1)) ++ rest ∧
      ∀ part ∈ parts, ∃ k, Derives 0 (d - 1) c k part.1 part.2 := by
  induction limit generalizing ts args with
  | nil => simp at hlimit
  | cons x limit ih =>
    rw [parseArguments] at h
    obtain ⟨⟨arg, ts'⟩, harg, hcomma⟩ := bind_eq_ok_iff.mp h
    clear h
    obtain ⟨us, k, e, rfl, rfl, hus⟩ := hbelow.ternary harg
    dsimp only at hcomma
    split at hcomma
    · next ts'' =>
      obtain ⟨⟨args', rest'⟩, hargs, heq⟩ := bind_eq_ok_iff.mp hcomma
      cases heq
      have hlt : ts''.length < limit.length := by
        simp only [List.length_append, List.length_cons] at hlimit
        omega
      obtain ⟨parts, hne, -, rfl, rfl, hparts⟩ := ih hlt hargs
      refine ⟨(us, arg) :: parts, by simp, by omega, rfl, ?_, ?_⟩
      · rw [List.map_cons, separated_cons us (by simpa using hne)]
        simp
      · intro part hmem
        rcases List.mem_cons.mp hmem with rfl | hmem
        · exact ⟨k, hus⟩
        · exact hparts part hmem
    · cases hcomma
      exact ⟨[(us, arg)], by simp, by omega, rfl, by simp [separated], by simpa using ⟨k, hus⟩⟩

theorem sound_parseCall {c : Nat} {name : String} {ts rest : List Token} {t : Tree}
    (h : parseCall below name c ts = .ok (t, rest)) :
    ∃ us, .word name :: .mark .leftParen :: ts = us ++ rest ∧ Derives 15 d c c us t := by
  unfold parseCall at h
  dsimp only at h
  split at h
  · cases h
    exact ⟨_, by simp [separated], .call name [] (by simp) (fun _ => 0) (by simp)⟩
  · obtain ⟨⟨args, ts'⟩, hargs, hclose⟩ := bind_eq_ok_iff.mp h
    clear h
    obtain ⟨parts, hne, hd, rfl, rfl, hparts⟩ := derives_of_parseArguments hbelow (by simp) hargs
    choose! left hleft using hparts
    dsimp only at hclose
    split at hclose
    · cases hclose
      exact ⟨_, by simp, .call name parts (fun _ => hd) left hleft⟩
    · cases hclose

theorem sound_parsePrimary : Parser.Sound 15 d (parsePrimary below) := by
  intro c ts rest t h
  have hoperand {token : Token} (htoken : token.operand? = some t) :
      ∃ us k, token :: rest = us ++ rest ∧ Derives 15 d c k us t :=
    ⟨[token], c, rfl, .operand htoken⟩
  unfold parsePrimary at h
  split at h
  · cases h; exact hoperand rfl
  · cases h; exact hoperand rfl
  · cases h; exact hoperand rfl
  · cases h; exact hoperand rfl
  · cases h; exact hoperand rfl
  · obtain ⟨us, heq, hus⟩ := sound_parseCall hbelow h
    exact ⟨us, c, heq, hus⟩
  · split at h
    · next hv =>
      cases h
      exact hoperand (by simp [Token.operand?, hv])
    · cases h
  · obtain ⟨⟨inner, ts'⟩, hinner, hclose⟩ := bind_eq_ok_iff.mp h
    clear h
    obtain ⟨us, k, e, rfl, rfl, hus⟩ := hbelow.ternary hinner
    dsimp only at hclose
    split at hclose
    · cases hclose
      exact ⟨_, c, by simp, .parens hus⟩
    · cases hclose
  · cases h
  · cases h
  · cases h

theorem sound_parseUnary : Parser.Sound 14 d (parseUnary below) := by
  intro c ts rest t h
  have hprimary {ts : List Token} (htoken : parsePrimary below c ts = .ok (t, rest)) :
      ∃ us k, ts = us ++ rest ∧ Derives 14 d c k us t := by
    obtain ⟨us, k, heq, hus⟩ := sound_parsePrimary hbelow htoken
    exact ⟨us, c, heq, .lift (by decide) hus⟩
  unfold parseUnary at h
  split at h
  · split at h
    · next op hop =>
      obtain ⟨⟨operand, ts'⟩, hoperand, heq⟩ := bind_eq_ok_iff.mp h
      clear h
      cases heq
      obtain ⟨us, k, e, rfl, rfl, hus⟩ := hbelow.unary hoperand
      rw [← UnaryOp.mark_of_ofMark? hop]
      exact ⟨_, c, by simp, .unary op hus⟩
    · exact hprimary h
  · exact hprimary h

theorem sound_parsePower : Parser.Sound 13 d (parsePower below) := by
  intro c ts rest t h
  rw [parsePower] at h
  obtain ⟨⟨base, ts'⟩, hbase, hpower⟩ := bind_eq_ok_iff.mp h
  clear h
  obtain ⟨us, k, rfl, hus⟩ := sound_parseUnary hbelow hbase
  dsimp only at hpower
  split at hpower
  · obtain ⟨⟨exponent, rest'⟩, hexponent, heq⟩ := bind_eq_ok_iff.mp hpower
    cases heq
    obtain ⟨vs, k', e, rfl, rfl, hvs⟩ := hbelow.power hexponent
    exact ⟨_, c, by simp, .power hus hvs⟩
  · cases hpower
    exact ⟨us, c, rfl, .lift (by decide) hus⟩

omit hbelow in
/-- What a chain of operators adds to a left operand that has been derived. -/
theorem derives_of_parseTail {p c left : Nat} {operand : Parser} (hp : p ≤ 12)
    (hoperand : operand.Sound (p + 1) d) {us ts rest : List Token} {l t : Tree}
    (hl : Derives p d c left us l)
    (h : parseTail (levelOf p) operand left l ts = .ok (t, rest)) :
    ∃ vs k, ts = vs ++ rest ∧ Derives p d c k (us ++ vs) t := by
  fun_induction parseTail (levelOf p) operand left l ts generalizing us with
  | case1 left l m ts hm =>
    cases h
    exact ⟨[], left, rfl, by simpa using hl⟩
  | case2 l m ts join hm => cases h
  | case3 l m ts join hm left ih =>
    obtain ⟨⟨r, ts'⟩, hr, htail⟩ := bind_eq_ok_iff.mp h
    clear h
    obtain ⟨op, hop, rfl, rfl⟩ := levelOf_eq_some_iff.mp hm
    obtain ⟨vs, k, rfl, hvs⟩ := hoperand hr
    obtain ⟨ws, k', rfl, hws⟩ := ih r ts' (.infixes op hp hl hvs) htail
    rw [← InfixOp.mark_of_ofMark? hop]
    exact ⟨.mark op.mark :: (vs ++ ws), k', by simp, by simpa using hws⟩
  | case4 left l ts hts =>
    cases h
    exact ⟨[], left, rfl, by simpa using hl⟩

theorem sound_parseInfix (p : Nat) (hp : 0 < p) (hp' : p ≤ 13) :
    Parser.Sound p d (parseAt below p) := by
  induction hcount : 13 - p generalizing p with
  | zero =>
    obtain rfl : p = 13 := by omega
    exact sound_parsePower hbelow
  | succ count ih =>
    have hoperand := ih (p + 1) (by omega) (by omega) (by omega)
    rw [parseAt_level below hp (by omega)]
    intro c ts rest t h
    rw [parseLevel] at h
    obtain ⟨⟨l, ts'⟩, hl, htail⟩ := bind_eq_ok_iff.mp h
    clear h
    obtain ⟨us, k, rfl, hus⟩ := hoperand hl
    obtain ⟨vs, k', rfl, hvs⟩ :=
      derives_of_parseTail (by omega) hoperand (.lift (by omega) hus) htail
    exact ⟨us ++ vs, k', by simp, hvs⟩

theorem sound_parseTernary : Parser.Sound 0 d (parseAt below 0) := by
  intro c ts rest t h
  rw [parseTernary_eq] at h
  obtain ⟨⟨condition, ts'⟩, hcondition, hquestion⟩ := bind_eq_ok_iff.mp h
  clear h
  obtain ⟨us, k, rfl, hus⟩ := sound_parseInfix hbelow 1 (by decide) (by decide) hcondition
  dsimp only at hquestion
  split at hquestion
  · obtain ⟨⟨yes, ts''⟩, hyes, hcolon⟩ := bind_eq_ok_iff.mp hquestion
    clear hquestion
    obtain ⟨vs, k', e, rfl, rfl, hvs⟩ := hbelow.ternary hyes
    dsimp only at hcolon
    split at hcolon
    · obtain ⟨⟨no, rest'⟩, hno, heq⟩ := bind_eq_ok_iff.mp hcolon
      cases heq
      obtain ⟨ws, k'', e', he, rfl, hws⟩ := hbelow.ternary hno
      cases he
      exact ⟨_, c, by simp, .ternary hus hvs hws⟩
    · cases hcolon
  · cases hquestion
    exact ⟨us, c, rfl, .lift (by decide) hus⟩

omit hbelow in
theorem sound_belowWith (d : Nat) : (belowWith d).Sound d := by
  induction d with
  | zero => constructor <;> (intro c ts rest t h; cases h)
  | succ d ih =>
    constructor
    · intro c ts rest t h
      obtain ⟨us, k, heq, hus⟩ := sound_parseTernary ih h
      exact ⟨us, k, d, rfl, heq, hus⟩
    · intro c ts rest t h
      obtain ⟨us, k, heq, hus⟩ := sound_parsePower ih h
      exact ⟨us, k, d, rfl, heq, hus⟩
    · intro c ts rest t h
      obtain ⟨us, k, heq, hus⟩ := sound_parseUnary ih h
      exact ⟨us, k, d, rfl, heq, hus⟩

omit hbelow in
/-- The tokens of an accepted text are derived within the two budgets. -/
theorem derives_of_parse {source : String} {t : Tree} (h : parse source = .ok t) :
    ∃ ts k, tokenize source.toList = .ok ts ∧ Derives 0 maxDescents maxChain k ts t := by
  unfold parse at h
  split at h
  · cases h
  · cases h
  · next ts hne hts =>
    obtain ⟨t', ht, heq⟩ : ∃ t', parseTokens ts = .ok t' ∧ t' = t := by
      cases hp : parseTokens ts with
      | error e =>
        rw [hp] at h
        cases h
      | ok t' =>
        rw [hp] at h
        exact ⟨t', rfl, Except.ok.inj h⟩
    subst heq
    rw [parseTokens] at ht
    obtain ⟨⟨tree, rest⟩, htree, hend⟩ := bind_eq_ok_iff.mp ht
    clear ht
    obtain ⟨us, k, rfl, hus⟩ := sound_parseTernary (sound_belowWith maxDescents) htree
    dsimp only at hend
    split at hend
    · cases hend
      exact ⟨us, k, by simpa using hts, hus⟩
    · cases hend

end TclHost.Expr
