import TclHost.Proofs.Expr.Level
import Mathlib.Data.List.Forall2
/-! # Reading a written expression

The tokens of a written expression are read back as that expression, if its parentheses and its
chains stay within the budgets, and are refused as too deep otherwise.  Each precedence is read
from the tightest on: an expression of another precedence is read alike by the next one, and in
the other direction parentheses lead from the loosest precedence back to the tightest.
-/
namespace TclHost.Expr

/-- Tokens stand for symbols, one for each. -/
abbrev Spelled (ts : List Token) (symbols : List Symbol) : Prop :=
  List.Forall₂ Token.Spells ts symbols

theorem spelled_append {ts : List Token} {xs ys : List Symbol} :
    Spelled ts (xs ++ ys) ↔ ∃ us vs, ts = us ++ vs ∧ Spelled us xs ∧ Spelled vs ys := by
  constructor
  · intro h
    exact ⟨_, _, (List.take_append_drop xs.length ts).symm, List.forall₂_take_append ts xs ys h,
      List.forall₂_drop_append ts xs ys h⟩
  · rintro ⟨us, vs, rfl, hus, hvs⟩
    exact List.rel_append hus hvs

theorem spelled_mark {ts : List Token} {m : Mark} {ys : List Symbol} :
    Spelled ts (.mark m :: ys) ↔ ∃ vs, ts = .mark m :: vs ∧ Spelled vs ys := by
  rw [Spelled, List.forall₂_cons_right_iff]
  constructor
  · rintro ⟨token, vs, rfl, hvs, rfl⟩
    exact ⟨vs, rfl, hvs⟩
  · rintro ⟨vs, rfl, hvs⟩
    exact ⟨.mark m, vs, rfl, hvs, rfl⟩

/-- What follows an expression of a precedence is no part of it. -/
def Ends (p : Nat) : List Token → Prop
  | [] => True
  | .mark m :: _ => m ≠ .leftParen ∧ (m = .question → 0 < p) ∧
      ∀ op, InfixOp.ofMark? m = some op → op.precedence < p
  | _ => False

theorem Ends.mono {p q : Nat} {rest : List Token} (h : Ends p rest) (hpq : p ≤ q) :
    Ends q rest := by
  match rest, h with
  | [], _ => trivial
  | .mark m :: _, ⟨hparen, hquestion, hop⟩ =>
    exact ⟨hparen, fun hm => Nat.lt_of_lt_of_le (hquestion hm) hpq,
      fun op hm => Nat.lt_of_lt_of_le (hop op hm) hpq⟩

theorem ends_mark (op : InfixOp) {p : Nat} (h : op.precedence < p) (rest : List Token) :
    Ends p (.mark op.mark :: rest) := by
  refine ⟨?_, fun _ => by omega, fun op' hop' => ?_⟩
  · rcases op with op | op <;> cases op <;> decide
  · rw [InfixOp.ofMark?_mark] at hop'
    cases hop'
    exact h

/-- An expression stays within the budgets where a precedence is needed. -/
abbrev Tree.Fits (t : Tree) (p descents chain : Nat) : Prop :=
  t.nesting p ≤ descents ∧ t.chain ≤ chain

/-- The parser of a precedence reads back an expression that is written for it. -/
def Reads (p : Nat) (t : Tree) : Prop :=
  ∀ ⦃d c : Nat⦄ ⦃us rest : List Token⦄, Spelled us (t.symbols p) → Ends p rest →
    parseAt (belowWith d) p c (us ++ rest) =
      if t.Fits p d c then .ok (t, rest) else .error .tooDeep

/-- The parser of a precedence goes on after the operators of that precedence on the spine. -/
def ReadsSpine (p : Nat) (t : Tree) : Prop :=
  ∀ ⦃d c : Nat⦄ ⦃us rest : List Token⦄, Spelled us (t.symbols p) → Ends (p + 1) rest →
    parseAt (belowWith d) p c (us ++ rest) =
      if t.Fits p d c then
        parseTail (levelOf p) (parseAt (belowWith d) (p + 1)) (c - t.spine p) t rest
      else .error .tooDeep

theorem ite_ok_bind {ε α β : Type} {p : Prop} [Decidable p] {a : α} {e : ε} (f : α → Except ε β) :
    ((if p then .ok a else .error e : Except ε α) >>= f) = if p then f a else .error e := by
  split <;> rfl

theorem Reads.below {p : Nat} {t : Tree} (h : Reads p t) (field : Below → Parser)
    (hzero : field (belowWith 0) = fun _ _ => .error .tooDeep)
    (hsucc : ∀ d, field (belowWith (d + 1)) = parseAt (belowWith d) p) {d c : Nat}
    {us rest : List Token} (hus : Spelled us (t.symbols p)) (hrest : Ends p rest) :
    field (belowWith d) c (us ++ rest) =
      if t.nesting p + 1 ≤ d ∧ t.chain ≤ c then .ok (t, rest) else .error .tooDeep := by
  cases d with
  | zero => simp [hzero]
  | succ d => simp [hsucc, h hus hrest]

theorem Reads.ternary {t : Tree} (h : Reads 0 t) {d c : Nat} {us rest : List Token}
    (hus : Spelled us (t.symbols 0)) (hrest : Ends 0 rest) :
    (belowWith d).ternary c (us ++ rest) =
      if t.nesting 0 + 1 ≤ d ∧ t.chain ≤ c then .ok (t, rest) else .error .tooDeep :=
  h.below Below.ternary rfl (fun _ => rfl) hus hrest

/-! ## How an expression starts -/

def Symbol.Starts : Symbol → Prop
  | .mark m => m = .leftParen ∨ (UnaryOp.ofMark? m).isSome
  | _ => True

theorem exists_symbols_cons (t : Tree) (need : Nat) :
    ∃ s ss, t.symbols need = s :: ss ∧ s.Starts := by
  have henclose {p need : Nat} {symbols : List Symbol}
      (h : ∃ s ss, symbols = s :: ss ∧ s.Starts) :
      ∃ s ss, enclose p need symbols = s :: ss ∧ s.Starts := by
    unfold enclose
    split
    · exact ⟨_, _, rfl, .inl rfl⟩
    · exact h
  induction t using Tree.infixInduction generalizing need with
  | leaf t hleaf => exact ⟨.leaf t, [], Tree.symbols_of_isLeaf hleaf need, trivial⟩
  | unary op operand =>
    rw [Tree.symbols]
    exact henclose ⟨_, _, rfl, .inr (by simp)⟩
  | infixes op left right ihl =>
    rw [InfixOp.symbols_join]
    obtain ⟨s, ss, hs, hstarts⟩ := ihl op.leftNeed
    exact henclose ⟨s, _, by rw [hs]; rfl, hstarts⟩
  | ternary condition yes no ihc =>
    rw [Tree.symbols]
    obtain ⟨s, ss, hs, hstarts⟩ := ihc 1
    exact henclose ⟨s, _, by rw [hs]; rfl, hstarts⟩
  | call name args => exact ⟨.name name, _, by rw [Tree.symbols]; rfl, trivial⟩

theorem not_rightParen_of_spelled {t : Tree} {need : Nat} {us : List Token}
    (hus : Spelled us (t.symbols need)) (rest : List Token) :
    us ≠ [] ∧ ∀ ts, us ++ rest ≠ .mark .rightParen :: ts := by
  obtain ⟨s, ss, hs, hstarts⟩ := exists_symbols_cons t need
  rw [hs, Spelled, List.forall₂_cons_right_iff] at hus
  obtain ⟨token, us', htoken, -, rfl⟩ := hus
  refine ⟨by simp, fun ts heq => ?_⟩
  cases heq
  cases s with
  | leaf => cases htoken
  | name => cases htoken
  | mark m =>
    cases htoken
    rcases hstarts with h | h <;> cases h

theorem parseUnary_of_spelled {t : Tree} {us : List Token} (hus : Spelled us (t.symbols 15))
    (below : Below) (c : Nat) (rest : List Token) :
    parseUnary below c (us ++ rest) = parsePrimary below c (us ++ rest) := by
  have hoperand {token : Token} {t : Tree} (h : token.operand? = some t) (ts : List Token) :
      parseUnary below c (token :: ts) = parsePrimary below c (token :: ts) := by
    cases token with
    | mark => cases h
    | _ => rfl
  have hparens {t : Tree} {us : List Token} (ht : t.precedence < 15)
      (hus : Spelled us (t.symbols 15)) :
      parseUnary below c (us ++ rest) = parsePrimary below c (us ++ rest) := by
    rw [Tree.symbols_parens ht, List.cons_append, spelled_mark] at hus
    obtain ⟨vs, rfl, -⟩ := hus
    rfl
  induction t using Tree.infixInduction with
  | leaf t hleaf =>
    rw [Tree.symbols_of_isLeaf hleaf, Spelled, List.forall₂_cons_right_iff] at hus
    obtain ⟨token, us', htoken, -, rfl⟩ := hus
    exact hoperand htoken _
  | call name args =>
    rw [Tree.symbols, List.cons_append, Spelled, List.forall₂_cons_right_iff] at hus
    obtain ⟨token, us', rfl, -, rfl⟩ := hus
    rfl
  | unary => exact hparens (by simp [Tree.precedence]) hus
  | infixes op =>
    refine hparens ?_ hus
    have := op.precedence_le
    rw [InfixOp.precedence_join]
    omega
  | ternary => exact hparens (by simp [Tree.precedence]) hus

/-! ## Reading each kind of expression -/

theorem parsePrimary_operand {token : Token} {t : Tree} (h : token.operand? = some t)
    (below : Below) (c : Nat) {rest : List Token} (hrest : Ends 15 rest) :
    parsePrimary below c (token :: rest) = .ok (t, rest) := by
  cases token with
  | word name =>
    obtain ⟨v, hv, rfl⟩ := Option.map_eq_some_iff.mp h
    match rest, hrest with
    | [], _ => simp [parsePrimary, hv]
    | .mark m :: _, hrest => simp [parsePrimary, hv, hrest.1]
  | mark => cases h
  | unknown => cases h
  | _ =>
    cases h
    rfl

theorem reads_leaf {t : Tree} (h : t.isLeaf) : Reads 15 t := by
  intro d c us rest hus hrest
  rw [Tree.symbols_of_isLeaf h, Spelled, List.forall₂_cons_right_iff] at hus
  obtain ⟨token, us', htoken, hus', rfl⟩ := hus
  obtain rfl := List.forall₂_nil_right_iff.mp hus'
  rw [if_pos (by simp [Tree.Fits, Tree.nesting_of_isLeaf h, Tree.chain_of_isLeaf h])]
  exact parsePrimary_operand htoken _ c hrest

theorem reads_unary {op : UnaryOp} {operand : Tree} (h : Reads 14 operand) :
    Reads 14 (.unary op operand) := by
  intro d c us rest hus hrest
  rw [Tree.symbols, enclose, if_neg (by decide), spelled_mark] at hus
  obtain ⟨vs, rfl, hvs⟩ := hus
  have hoperand := h.below Below.unary rfl (fun _ => rfl) (d := d) (c := c) hvs hrest
  rw [List.cons_append, parseUnary_mark, hoperand, ite_ok_bind]
  refine if_congr ?_ rfl rfl
  simp [Tree.Fits, Tree.nesting, Tree.enclosing, Tree.precedence, Tree.chain]

theorem reads_power {left right : Tree} (hl : Reads 14 left) (hr : Reads 13 right) :
    Reads 13 (.binary .pow left right) := by
  intro d c us rest hus hrest
  have hsymbols : (Tree.binary .pow left right).symbols 13
      = left.symbols 14 ++ .mark .power :: right.symbols 13 := by
    rw [Tree.symbols]
    rfl
  rw [hsymbols, spelled_append] at hus
  obtain ⟨us, vs', rfl, hus, hvs'⟩ := hus
  obtain ⟨vs, rfl, hvs⟩ := spelled_mark.mp hvs'
  have hbase := hl (d := d) (c := c) hus
    (ends_mark (.binary .pow) (p := 14) (by decide) (vs ++ rest))
  have hexponent := hr.below Below.power rfl (fun _ => rfl) (d := d) (c := c) hvs hrest
  have hnesting : (Tree.binary .pow left right).nesting 13
      = max (left.nesting 14) (right.nesting 13 + 1) := by
    rw [Tree.nesting]
    simp [Tree.enclosing, Tree.precedence, InfixOp.precedence, InfixOp.leftNeed,
      InfixOp.rightNeed]
  rw [List.append_assoc, List.cons_append, parsePower_eq]
  simp only [InfixOp.mark] at hbase
  rw [hbase, ite_ok_bind]
  dsimp only
  rw [hexponent, ite_ok_bind, ← ite_and]
  refine if_congr ?_ rfl rfl
  simp only [Tree.Fits, hnesting, Tree.chain, if_true]
  omega

/-- After the left operand of an operator of a level, that operator and its right operand are
read, and the level goes on. -/
theorem readsSpine_join {op : InfixOp} (hop : op.precedence ≤ 12) {left right : Tree}
    (hl : ReadsSpine op.precedence left) (hr : Reads (op.precedence + 1) right) :
    ReadsSpine op.precedence (op.join left right) := by
  intro d c us rest hus hrest
  rw [InfixOp.symbols_join_level op left right hop, spelled_append] at hus
  obtain ⟨us, vs', rfl, hus, hvs'⟩ := hus
  obtain ⟨vs, rfl, hvs⟩ := spelled_mark.mp hvs'
  have hleft := hl (d := d) (c := c) hus (ends_mark op (Nat.lt_succ_self _) (vs ++ rest))
  have hnesting := InfixOp.nesting_join_level op left right hop
  have hchain := InfixOp.chain_join_level op left right hop
  rw [List.append_assoc, List.cons_append, hleft, parseTail, levelOf_mark]
  simp only [Tree.Fits, hnesting, hchain, InfixOp.spine_join]
  cases hbudget : c - left.spine op.precedence with
  | zero =>
    dsimp only
    rw [ite_self, if_neg (by omega)]
  | succ k =>
    have hright := hr (d := d) (c := k) hvs hrest
    have hk : c - (left.spine op.precedence + 1) = k := by omega
    dsimp only
    rw [hright, ite_ok_bind, hk, ← ite_and]
    refine if_congr ?_ rfl rfl
    simp only [Tree.Fits]
    omega

theorem parseTail_of_ends {p : Nat} {rest : List Token} (h : Ends p rest) (operand : Parser)
    (c : Nat) (t : Tree) : parseTail (levelOf p) operand c t rest = .ok (t, rest) := by
  match rest, h with
  | [], _ => simp [parseTail]
  | .mark m :: rest, ⟨_, _, hop⟩ =>
    have hlevel : levelOf p m = none := by
      by_contra hne
      obtain ⟨join, hjoin⟩ := Option.ne_none_iff_exists'.mp hne
      obtain ⟨op, hm, hp, -⟩ := levelOf_eq_some_iff.mp hjoin
      exact absurd (hop op hm) (by omega)
    rw [parseTail, hlevel]

theorem ReadsSpine.reads {p : Nat} {t : Tree} (h : ReadsSpine p t) : Reads p t := by
  intro d c us rest hus hrest
  rw [h hus (hrest.mono (Nat.le_succ p)), parseTail_of_ends hrest]

theorem readsSpine_of_reads {p : Nat} (hp : 0 < p) (hp' : p ≤ 12) {t : Tree}
    (ht : t.precedence ≠ p) (h : Reads (p + 1) t) : ReadsSpine p t := by
  intro d c us rest hus hrest
  rw [← Tree.symbols_succ (by omega) ht] at hus
  rw [parseAt_level _ hp hp', parseLevel, h hus hrest, ite_ok_bind, Tree.spine_eq_zero ht]
  refine if_congr ?_ rfl rfl
  rw [Tree.Fits, Tree.nesting_succ (by omega) ht]

theorem reads_ternary {condition yes no : Tree} (hc : Reads 1 condition) (hy : Reads 0 yes)
    (hn : Reads 0 no) : Reads 0 (.ternary condition yes no) := by
  intro d c us rest hus hrest
  rw [Tree.symbols, enclose, if_neg (by decide), List.append_assoc, spelled_append] at hus
  obtain ⟨us, vs', rfl, hus, hvs'⟩ := hus
  obtain ⟨vs', rfl, hbranches⟩ := spelled_mark.mp hvs'
  obtain ⟨vs, ws', rfl, hvs, hws'⟩ := spelled_append.mp hbranches
  obtain ⟨ws, rfl, hws⟩ := spelled_mark.mp hws'
  have hquestion (ts : List Token) : Ends 1 (.mark .question :: ts) :=
    ⟨by decide, by decide, by rintro _ ⟨⟩⟩
  have hcolon (ts : List Token) : Ends 0 (.mark .colon :: ts) :=
    ⟨by decide, by decide, by rintro _ ⟨⟩⟩
  have hcondition := hc (d := d) (c := c) hus (hquestion (vs ++ .mark .colon :: ws ++ rest))
  have hyes := hy.ternary (d := d) (c := c) hvs (hcolon (ws ++ rest))
  have hno := hn.ternary (d := d) (c := c) hws hrest
  rw [List.append_assoc, List.cons_append, parseTernary_eq, hcondition, ite_ok_bind]
  dsimp only
  rw [List.append_assoc, List.cons_append, hyes, ite_ok_bind]
  dsimp only
  rw [hno, ite_ok_bind, ← ite_and, ← ite_and]
  refine if_congr ?_ rfl rfl
  simp only [Tree.Fits, Tree.nesting, Tree.enclosing, Tree.chain, Tree.precedence]
  simp only [Nat.lt_irrefl, if_false]
  omega

/-! ## Arguments -/

theorem length_le_of_spelled_arguments {args : List Tree} {us : List Token}
    (hus : Spelled us (Tree.argumentSymbols args)) : args.length ≤ us.length := by
  induction args generalizing us with
  | nil => simp
  | cons arg args ih =>
    by_cases hargs : args = []
    · subst hargs
      have := (not_rightParen_of_spelled hus []).1
      exact List.length_pos_iff.mpr this
    · rw [Tree.argumentSymbols_cons arg hargs, spelled_append] at hus
      obtain ⟨us, vs', rfl, -, hvs'⟩ := hus
      obtain ⟨vs, rfl, hvs⟩ := spelled_mark.mp hvs'
      have := ih hvs
      simp only [List.length_append, List.length_cons]
      omega

theorem not_rightParen_of_arguments {arg : Tree} {args : List Tree} {us rest : List Token}
    (hus : Spelled us (Tree.argumentSymbols (arg :: args))) (ts : List Token) :
    us ++ rest ≠ .mark .rightParen :: ts := by
  by_cases hargs : args = []
  · subst hargs
    exact (not_rightParen_of_spelled hus rest).2 ts
  · rw [Tree.argumentSymbols_cons arg hargs, spelled_append] at hus
    obtain ⟨us, vs, rfl, hus, -⟩ := hus
    rw [List.append_assoc]
    exact (not_rightParen_of_spelled hus _).2 ts

theorem ends_comma (p : Nat) (rest : List Token) : Ends p (.mark .comma :: rest) :=
  ⟨by decide, nofun, nofun⟩

theorem ends_rightParen (p : Nat) (rest : List Token) : Ends p (.mark .rightParen :: rest) :=
  ⟨by decide, nofun, nofun⟩

theorem parseArguments_of_spelled {args : List Tree} (hargs : args ≠ [])
    (h : ∀ arg ∈ args, Reads 0 arg) {d c : Nat} {limit us : List Token}
    (hlimit : args.length ≤ limit.length) (hus : Spelled us (Tree.argumentSymbols args))
    (rest : List Token) :
    parseArguments (belowWith d) c limit (us ++ .mark .rightParen :: rest) =
      if Tree.argumentNesting args ≤ d ∧ Tree.argumentChain args ≤ c then
        .ok (args, .mark .rightParen :: rest)
      else .error .tooDeep := by
  induction args generalizing limit us with
  | nil => exact absurd rfl hargs
  | cons arg args ih =>
    obtain ⟨x, limit, rfl⟩ : ∃ x limit', limit = x :: limit' :=
      List.exists_cons_of_length_pos (by simp only [List.length_cons] at hlimit; omega)
    have harg := h arg (by simp)
    by_cases hmore : args = []
    · subst hmore
      rw [parseArguments, harg.ternary hus (ends_rightParen 0 rest), ite_ok_bind]
      refine if_congr ?_ rfl rfl
      simp [Tree.argumentNesting, Tree.argumentChain]
    · rw [Tree.argumentSymbols_cons arg hmore, spelled_append] at hus
      obtain ⟨us, vs', rfl, hus, hvs'⟩ := hus
      obtain ⟨vs, rfl, hvs⟩ := spelled_mark.mp hvs'
      have hlimit' : args.length ≤ limit.length := by simpa using hlimit
      have hrest := ih hmore (fun a ha => h a (by simp [ha])) hlimit' hvs
      rw [parseArguments, List.append_assoc, List.cons_append,
        harg.ternary hus (ends_comma 0 _), ite_ok_bind]
      dsimp only
      rw [hrest, ite_ok_bind, ← ite_and]
      refine if_congr ?_ rfl rfl
      simp only [Tree.argumentNesting, Tree.argumentChain]
      omega

theorem parseCall_of_argument (below : Below) (name : String) (c : Nat) {ts : List Token}
    (hts : ∀ rest, ts ≠ .mark .rightParen :: rest) :
    parseCall below name c ts = (do
      let (args, ts) ← parseArguments below c (.mark .leftParen :: ts) ts
      match ts with
      | .mark .rightParen :: ts => return (.call name args, ts)
      | _ => throw (.missingCloseAfterArguments name)) := by
  unfold parseCall
  dsimp only
  split
  · exact absurd rfl (hts _)
  · rfl

theorem reads_call {name : String} {args : List Tree} (h : ∀ arg ∈ args, Reads 0 arg) :
    Reads 15 (.call name args) := by
  intro d c us rest hus hrest
  rw [Tree.symbols, List.cons_append, Spelled, List.forall₂_cons_right_iff] at hus
  obtain ⟨token, us', rfl, hus', rfl⟩ := hus
  obtain ⟨us', rfl, hargs⟩ := spelled_mark.mp hus'
  obtain ⟨us, vs', rfl, hus, hvs'⟩ := spelled_append.mp hargs
  obtain ⟨vs, rfl, hvs⟩ := spelled_mark.mp hvs'
  obtain rfl := List.forall₂_nil_right_iff.mp hvs
  have hcall (ts : List Token) : parseAt (belowWith d) 15 c (.word name :: .mark .leftParen :: ts) =
      parseCall (belowWith d) name c ts := rfl
  have hfits : (Tree.call name args).Fits 15 d c ↔
      Tree.argumentNesting args ≤ d ∧ Tree.argumentChain args ≤ c := by
    simp only [Tree.Fits, Tree.nesting, Tree.chain]
  simp only [List.cons_append, List.append_assoc, List.nil_append, hcall, if_congr hfits rfl rfl]
  cases args with
  | nil =>
    rw [Tree.argumentSymbols, Spelled, List.forall₂_nil_right_iff] at hus
    subst hus
    rw [if_pos (by simp [Tree.argumentNesting, Tree.argumentChain])]
    rfl
  | cons arg args =>
    have hlimit : (arg :: args).length
        ≤ (Token.mark .leftParen :: (us ++ .mark .rightParen :: rest)).length := by
      have := length_le_of_spelled_arguments hus
      simp only [List.length_cons, List.length_append] at this ⊢
      omega
    have hread := parseArguments_of_spelled (by simp) h (d := d) (c := c) hlimit hus rest
    rw [parseCall_of_argument _ _ _ (not_rightParen_of_arguments hus), hread, ite_ok_bind]
    rfl

/-! ## Every precedence -/

theorem reads_of_succ {p : Nat} (hp : p < 15) {t : Tree} (ht : t.precedence ≠ p)
    (h : Reads (p + 1) t) : Reads p t := by
  have hfits (d c : Nat) : t.Fits (p + 1) d c = t.Fits p d c := by
    rw [Tree.Fits, Tree.nesting_succ hp ht]
  obtain rfl | hlevel | rfl | rfl : p = 0 ∨ (0 < p ∧ p ≤ 12) ∨ p = 13 ∨ p = 14 := by omega
  · intro d c us rest hus hrest
    have hquestion (ts : List Token) : rest ≠ .mark .question :: ts := by
      rintro rfl
      exact absurd (hrest.2.1 rfl) (by decide)
    rw [← Tree.symbols_succ hp ht] at hus
    rw [parseTernary_eq, h hus (hrest.mono (Nat.zero_le 1)), ite_ok_bind]
    refine ite_congr (hfits d c) (fun _ => ?_) fun _ => rfl
    dsimp only
    split
    · exact absurd rfl (hquestion _)
    · rfl
  · exact (readsSpine_of_reads hlevel.1 hlevel.2 ht h).reads
  · intro d c us rest hus hrest
    have hpower (ts : List Token) : rest ≠ .mark .power :: ts := by
      rintro rfl
      exact absurd (hrest.2.2 (.binary .pow) rfl) (by decide)
    rw [← Tree.symbols_succ hp ht] at hus
    rw [parsePower_eq, h hus (hrest.mono (Nat.le_succ 13)), ite_ok_bind]
    refine ite_congr (hfits d c) (fun _ => ?_) fun _ => rfl
    dsimp only
    split
    · exact absurd rfl (hpower _)
    · rfl
  · intro d c us rest hus hrest
    rw [← Tree.symbols_succ hp ht] at hus
    have hread := h (d := d) (c := c) hus (hrest.mono (Nat.le_succ 14))
    rw [if_congr (hfits d c).to_iff rfl rfl] at hread
    exact (parseUnary_of_spelled hus _ c rest).trans hread

theorem reads_parens {t : Tree} (ht : t.precedence < 15) (h : Reads 0 t) : Reads 15 t := by
  intro d c us rest hus hrest
  rw [Tree.symbols_parens ht, List.cons_append, spelled_mark] at hus
  obtain ⟨us', rfl, hus'⟩ := hus
  obtain ⟨us, vs', rfl, hus, hvs'⟩ := spelled_append.mp hus'
  obtain ⟨vs, rfl, hvs⟩ := spelled_mark.mp hvs'
  obtain rfl := List.forall₂_nil_right_iff.mp hvs
  simp only [List.cons_append, List.append_assoc, List.nil_append]
  rw [parseParens_eq, h.ternary hus (ends_rightParen 0 rest), ite_ok_bind]
  refine if_congr ?_ rfl rfl
  rw [Tree.Fits, Tree.nesting_parens ht]

/-- What one precedence reads is read by the looser ones down to the native one. -/
theorem reads_of_le {t : Tree} {p q : Nat} (hpq : p ≤ q) (hq : q ≤ 15)
    (ht : t.precedence < p ∨ q ≤ t.precedence) (h : Reads q t) : Reads p t := by
  induction hcount : q - p generalizing p with
  | zero =>
    obtain rfl : p = q := by omega
    exact h
  | succ count ih =>
    exact reads_of_succ (by omega) (by omega) (ih (by omega) (by omega) (by omega))

theorem reads_of_native {t : Tree} (ht : t.precedence ≤ 15) (h : Reads t.precedence t) {p : Nat}
    (hp : p ≤ 15) : Reads p t := by
  obtain hle | hlt := Nat.lt_or_ge t.precedence p
  · have hloosest : Reads 0 t := reads_of_le (Nat.zero_le _) ht (.inr (Nat.le_refl _)) h
    exact reads_of_le hp (Nat.le_refl 15) (.inl hle) (reads_parens (by omega) hloosest)
  · exact reads_of_le hlt ht (.inr (Nat.le_refl _)) h

/-- Every expression is read back at every precedence, and its spine by every level. -/
theorem reads_and_readsSpine (t : Tree) :
    (∀ p ≤ 15, Reads p t) ∧ ∀ p, 0 < p → p ≤ 12 → ReadsSpine p t := by
  have hother {t : Tree} (hreads : ∀ p ≤ 15, Reads p t)
      (ht : ∀ p, 0 < p → p ≤ 12 → t.precedence ≠ p) :
      (∀ p ≤ 15, Reads p t) ∧ ∀ p, 0 < p → p ≤ 12 → ReadsSpine p t :=
    ⟨hreads, fun p hp hp' => readsSpine_of_reads hp hp' (ht p hp hp') (hreads _ (by omega))⟩
  induction t using Tree.infixInduction with
  | leaf t hleaf =>
    have hp := Tree.precedence_of_isLeaf hleaf
    have hnative : Reads t.precedence t := hp ▸ reads_leaf hleaf
    exact hother (fun p => reads_of_native (by omega) hnative) fun p _ _ => by omega
  | unary op operand ih =>
    have hnative : Reads 14 (.unary op operand) := reads_unary (ih.1 14 (by decide))
    exact hother (fun p =>
      reads_of_native (t := .unary op operand) (by simp [Tree.precedence]) hnative)
      fun p _ _ => by simp only [Tree.precedence]; omega
  | ternary condition yes no ihc ihy ihn =>
    have hnative := reads_ternary (ihc.1 1 (by decide)) (ihy.1 0 (by decide)) (ihn.1 0 (by decide))
    exact hother (fun p =>
      reads_of_native (t := .ternary condition yes no) (by simp [Tree.precedence]) hnative)
      fun p _ _ => by simp only [Tree.precedence]; omega
  | call name args ih =>
    have hnative : Reads 15 (.call name args) :=
      reads_call fun arg harg => (ih arg harg).1 0 (by decide)
    exact hother (fun p =>
      reads_of_native (t := .call name args) (by simp [Tree.precedence]) hnative)
      fun p _ _ => by simp only [Tree.precedence]; omega
  | infixes op left right ihl ihr =>
    have hpos := op.precedence_pos
    have hle := op.precedence_le
    by_cases hop : op.precedence ≤ 12
    · have hspine := readsSpine_join hop (ihl.2 _ hpos hop) (ihr.1 (op.precedence + 1) (by omega))
      have hreads (p : Nat) (hp : p ≤ 15) : Reads p (op.join left right) :=
        reads_of_native (by simp; omega) (by simpa using hspine.reads) hp
      refine ⟨hreads, fun p hp hp' => ?_⟩
      by_cases heq : op.precedence = p
      · exact heq ▸ hspine
      · exact readsSpine_of_reads hp hp' (by simpa using heq) (hreads (p + 1) (by omega))
    · have hpow : op.precedence = 13 := by omega
      obtain rfl := InfixOp.eq_pow_of_precedence hpow
      have hnative : Reads (InfixOp.join (.binary .pow) left right).precedence
          (InfixOp.join (.binary .pow) left right) :=
        reads_power (ihl.1 14 (by decide)) (ihr.1 13 (by decide))
      refine hother (fun p => reads_of_native ?_ hnative) fun p _ _ => ?_
      · rw [InfixOp.precedence_join]
        decide
      · rw [InfixOp.precedence_join]
        omega

/-- The tokens of a written expression are that expression within the budgets, and too deep
outside them. -/
theorem parseTokens_of_spelled {t : Tree} {ts : List Token} (hts : Spelled ts (t.symbols 0)) :
    parseTokens ts = if t.Fits 0 maxDescents maxChain then .ok t else .error .tooDeep := by
  have hread : parseAt (belowWith maxDescents) 0 maxChain (ts ++ []) = _ :=
    (reads_and_readsSpine t).1 0 (by decide) hts trivial
  rw [List.append_nil] at hread
  rw [parseTokens_eq, hread, ite_ok_bind]
  rfl

end TclHost.Expr
