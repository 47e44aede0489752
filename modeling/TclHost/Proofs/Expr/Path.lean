import TclHost.Proofs.Expr.RoundTrip
import Mathlib.Order.Interval.Finset.Nat
/-! # Paths through accepted expressions

How many operators a path from the root of an accepted expression crosses.  The budget of
descents bounds the descents on a path, and the budget of operators those whose right operand the
path goes on into.  An operator whose left operand it goes on into is counted only after that
operand has been read with the budget as it was, so each level may take the whole budget once
more, and inside parentheses each level may again.
-/
namespace TclHost.Expr

inductive Step where
  /-- To the operand of a unary operator. -/
  | operand
  /-- To an operand of a power. -/
  | base | exponent
  /-- To the left operand of an operator of a level that groups to the left. -/
  | left (level : Nat)
  /-- To the right operand of such an operator. -/
  | right (level : Nat)
  /-- To the condition or a branch of a conditional. -/
  | condition | branch
  /-- To an argument of a call. -/
  | argument
  deriving DecidableEq, Repr

namespace Step

/-- The steps that take one of the nested descents. -/
def isDescent : Step → Bool
  | .operand | .exponent | .branch | .argument => true
  | _ => false

/-- The level of the operator that a step crosses, if that operator groups to the left. -/
def level? : Step → Option Nat
  | .left level | .right level => some level
  | _ => none

def isChain (s : Step) : Bool :=
  s.level?.isSome

def isRight : Step → Bool
  | .right _ => true
  | _ => false

end Step

def pathLevels (path : List Step) : Finset Nat :=
  (path.filterMap Step.level?).toFinset

/-- The operands of an expression and the steps to them. -/
def Tree.steps : Tree → List (Step × Tree)
  | .unary _ operand => [(.operand, operand)]
  | .binary .pow base exponent => [(.base, base), (.exponent, exponent)]
  | .binary op left right =>
    let level := (InfixOp.binary op).precedence
    [(.left level, left), (.right level, right)]
  | .logical op left right =>
    let level := (InfixOp.logical op).precedence
    [(.left level, left), (.right level, right)]
  | .ternary condition yes no => [(.condition, condition), (.branch, yes), (.branch, no)]
  | .call _ args => args.map (.argument, ·)
  | _ => []

inductive Path : Tree → List Step → Prop
  | root (t : Tree) : Path t []
  | step {t operand : Tree} {s : Step} {path : List Step} (h : (s, operand) ∈ t.steps)
    (hpath : Path operand path) : Path t (s :: path)

theorem Tree.steps_of_isLeaf {t : Tree} (h : t.isLeaf) : t.steps = [] := by
  cases t <;> first | rfl | cases h

theorem InfixOp.steps_join {op : InfixOp} (h : op.precedence ≤ 12) (left right : Tree) :
    (op.join left right).steps = [(.left op.precedence, left), (.right op.precedence, right)] := by
  rcases op with op | op
  · cases op <;> first | rfl | exact absurd h (by decide)
  · rfl

def openings (ts : List Token) : Nat :=
  ts.countP fun
    | .mark .leftParen => true
    | _ => false

theorem openings_append (us vs : List Token) : openings (us ++ vs) = openings us + openings vs :=
  List.countP_append

theorem openings_cons_le (token : Token) (ts : List Token) :
    openings ts ≤ openings (token :: ts) :=
  (List.sublist_cons_self token ts).countP_le

theorem openings_le_separated {parts : List (List Token)} {part : List Token} (h : part ∈ parts) :
    openings part ≤ openings (separated parts) := by
  induction parts with
  | nil => cases h
  | cons head parts ih =>
    by_cases hparts : parts = []
    · subst hparts
      obtain rfl := List.mem_singleton.mp h
      exact Nat.le_refl _
    · rw [separated_cons head hparts, openings_append]
      rcases List.mem_cons.mp h with rfl | hmem
      · exact Nat.le_add_right _ _
      · have := openings_cons_le (.mark .comma) (separated parts)
        have := ih hmem
        omega

theorem Derives.left_le {p d c k : Nat} {us : List Token} {t : Tree} (h : Derives p d c k us t) :
    k ≤ c := by
  induction h with
  | infixes _ _ _ _ ihl => exact Nat.le_of_succ_le ihl
  | _ => exact Nat.le_refl _

structure Bounded (descents rights chain : Nat) (path : List Step) : Prop where
  descents_le : path.countP Step.isDescent ≤ descents
  rights_le : path.countP Step.isRight ≤ rights
  chain_le : path.countP Step.isChain ≤ chain

variable {d r n : Nat} {path : List Step}

namespace Bounded

theorem nil : Bounded d r n [] :=
  ⟨by simp, by simp, by simp⟩

theorem mono {d' r' n' : Nat} (h : Bounded d r n path) (hd : d ≤ d') (hr : r ≤ r')
    (hn : n ≤ n') : Bounded d' r' n' path :=
  ⟨Nat.le_trans h.descents_le hd, Nat.le_trans h.rights_le hr, Nat.le_trans h.chain_le hn⟩

theorem cons_descent {s : Step} (hs : s.isDescent) (h : Bounded d r n path) :
    Bounded (d + 1) r n (s :: path) := by
  have hother : ¬ s.isRight ∧ ¬ s.isChain := by
    cases s <;> simp_all [Step.isDescent, Step.isRight, Step.isChain, Step.level?]
  refine ⟨?_, ?_, ?_⟩
  · rw [List.countP_cons_of_pos hs]
    exact Nat.succ_le_succ h.descents_le
  · rw [List.countP_cons_of_neg hother.1]
    exact h.rights_le
  · rw [List.countP_cons_of_neg hother.2]
    exact h.chain_le

theorem cons_free {s : Step} (hs : s = .base ∨ s = .condition) (h : Bounded d r n path) :
    Bounded d r n (s :: path) := by
  rcases hs with rfl | rfl
  · exact ⟨h.descents_le, h.rights_le, h.chain_le⟩
  · exact ⟨h.descents_le, h.rights_le, h.chain_le⟩

theorem cons_left (level : Nat) (h : Bounded d r n path) :
    Bounded d r (n + 1) (.left level :: path) := by
  refine ⟨h.descents_le, h.rights_le, ?_⟩
  rw [List.countP_cons_of_pos rfl]
  exact Nat.succ_le_succ h.chain_le

theorem cons_right (level : Nat) (h : Bounded d r n path) :
    Bounded d (r + 1) (n + 1) (.right level :: path) := by
  refine ⟨h.descents_le, ?_, ?_⟩
  · rw [List.countP_cons_of_pos rfl]
    exact Nat.succ_le_succ h.rights_le
  · rw [List.countP_cons_of_pos rfl]
    exact Nat.succ_le_succ h.chain_le

end Bounded

section
variable (limit : Nat) (levels : Finset Nat)

/-- How many operators of the given levels may be crossed from a precedence on, inside parentheses
of a depth: a whole chain at every tighter level, a whole chain at every level of each pair of
parentheses, and what the chain of this level has taken. -/
def crossings (p depth taken : Nat) : Nat :=
  (levels.card * depth + (levels.filter (p < ·)).card) * limit + taken

variable {limit levels}

theorem card_filter_lt {p : Nat} (h : p + 1 ∈ levels) :
    (levels.filter (p + 1 < ·)).card < (levels.filter (p < ·)).card := by
  refine Finset.card_lt_card ⟨fun q hq => ?_, fun hsub => ?_⟩
  · rw [Finset.mem_filter] at hq ⊢
    exact ⟨hq.1, by omega⟩
  · have hmem := hsub (Finset.mem_filter.mpr ⟨h, Nat.lt_succ_self p⟩)
    exact absurd (Finset.mem_filter.mp hmem).2 (Nat.lt_irrefl _)

theorem card_filter_le {p p' : Nat} (h : p' ≤ p) :
    (levels.filter (p < ·)).card ≤ (levels.filter (p' < ·)).card :=
  Finset.card_le_card fun q hq => by
    rw [Finset.mem_filter] at hq ⊢
    exact ⟨hq.1, by omega⟩

theorem crossings_mono {p p' depth depth' taken taken' : Nat} (hp : p' ≤ p)
    (hdepth : depth ≤ depth') (ht : taken ≤ taken') :
    crossings limit levels p depth taken ≤ crossings limit levels p' depth' taken' := by
  have hlevels := Nat.add_le_add (Nat.mul_le_mul_left levels.card hdepth)
    (@card_filter_le levels p p' hp)
  exact Nat.add_le_add (Nat.mul_le_mul_right limit hlevels) ht

/-- A pair of parentheses makes room for a whole chain at every level. -/
theorem crossings_enclosed (p p' depth : Nat) :
    crossings limit levels p depth 0 ≤ crossings limit levels p' (depth + 1) 0 := by
  have hlevels : levels.card * depth + (levels.filter (p < ·)).card
      ≤ levels.card * (depth + 1) + (levels.filter (p' < ·)).card := by
    have := Finset.card_filter_le levels (p < ·)
    rw [Nat.mul_succ]
    omega
  exact Nat.mul_le_mul_right limit hlevels

theorem crossings_level {p depth taken : Nat} (h : p + 1 ∈ levels) (ht : taken ≤ limit)
    (taken' : Nat) :
    crossings limit levels (p + 1) depth taken ≤ crossings limit levels p depth taken' := by
  have hlevels : levels.card * depth + (levels.filter (p + 1 < ·)).card + 1
      ≤ levels.card * depth + (levels.filter (p < ·)).card := by
    have := card_filter_lt h
    omega
  calc crossings limit levels (p + 1) depth taken
    _ ≤ (levels.card * depth + (levels.filter (p + 1 < ·)).card) * limit + limit :=
      Nat.add_le_add_left ht _
    _ = (levels.card * depth + (levels.filter (p + 1 < ·)).card + 1) * limit :=
      (Nat.succ_mul _ _).symm
    _ ≤ (levels.card * depth + (levels.filter (p < ·)).card) * limit :=
      Nat.mul_le_mul_right limit hlevels
    _ ≤ crossings limit levels p depth taken' := Nat.le_add_right _ _

def Within (levels : Finset Nat) (path : List Step) : Prop :=
  ∀ s ∈ path, ∀ level, s.level? = some level → level ∈ levels

theorem Within.tail {s : Step} {path : List Step} (h : Within levels (s :: path)) :
    Within levels path :=
  fun s' hs' => h s' (List.mem_cons_of_mem s hs')

/-- What bounds the paths through every operand bounds the paths through the whole. -/
theorem Bounded.of_steps {t : Tree} (hpath : Path t path) (hwithin : Within levels path)
    (h : ∀ s operand path, (s, operand) ∈ t.steps → Path operand path →
      Within levels (s :: path) → Bounded d r n (s :: path)) : Bounded d r n path := by
  cases hpath with
  | root => exact nil
  | step hs hpath => exact h _ _ _ hs hpath hwithin

variable (limit levels) in
/-- Every path that crosses only the given levels stays within what the budgets allow for them. -/
def Stays (p d c k : Nat) (us : List Token) (t : Tree) : Prop :=
  ∀ path, Path t path → Within levels path →
    Bounded d c (crossings limit levels p (min d (openings us)) (if p ∈ levels then c - k else 0))
      path

namespace Stays
variable {p c k k' k'' : Nat} {us vs ws : List Token} {t : Tree}

theorem of_isLeaf (h : t.isLeaf) : Stays limit levels p d c k us t := by
  intro path hpath hwithin
  refine Bounded.of_steps hpath hwithin fun s operand path hs _ _ => ?_
  rw [Tree.steps_of_isLeaf h] at hs
  cases hs

theorem lift (hc : c ≤ limit) (h : Stays limit levels (p + 1) d c k us t) :
    Stays limit levels p d c c us t := by
  intro path hpath hwithin
  refine (h path hpath hwithin).mono (Nat.le_refl d) (Nat.le_refl c) ?_
  split
  · next hmem => exact crossings_level hmem (by omega) _
  · exact crossings_mono (Nat.le_succ p) (Nat.le_refl _) (Nat.zero_le _)

section
variable (hlevels : ∀ level ∈ levels, 0 < level ∧ level ≤ 12)
include hlevels

/-- Outside the levels that group to the left nothing has been taken from a chain. -/
theorem untaken (hp : p = 0 ∨ 12 < p) (taken : Nat) : (if p ∈ levels then taken else 0) = 0 :=
  if_neg fun hmem => by
    have := hlevels p hmem
    omega

theorem parens (h : Stays limit levels 0 d c k us t) :
    Stays limit levels 15 (d + 1) c c (.mark .leftParen :: us ++ [.mark .rightParen]) t := by
  intro path hpath hwithin
  have hinner := h path hpath hwithin
  have hdepth : min d (openings us) + 1
      ≤ min (d + 1) (openings (.mark .leftParen :: us ++ [.mark .rightParen])) := by
    have : openings (.mark .leftParen :: us ++ [.mark .rightParen]) = openings us + 1 := by
      simp [openings]
    omega
  rw [untaken hlevels (.inl rfl)] at hinner
  rw [untaken hlevels (.inr (by decide))]
  exact hinner.mono (Nat.le_succ d) (Nat.le_refl c) ((crossings_enclosed 0 15 _).trans
    (crossings_mono (Nat.le_refl 15) hdepth (Nat.le_refl 0)))

theorem call (name : String) (args : List (List Token × Tree)) (hd : args ≠ [] → 0 < d)
    (left : List Token × Tree → Nat)
    (h : ∀ arg ∈ args, Stays limit levels 0 (d - 1) c (left arg) arg.1 arg.2) :
    Stays limit levels 15 d c c
      (.word name :: .mark .leftParen :: separated (args.map (·.1)) ++ [.mark .rightParen])
      (.call name (args.map (·.2))) := by
  intro path hpath hwithin
  refine Bounded.of_steps hpath hwithin fun s operand rest hs hoperand hrest => ?_
  obtain ⟨arg, harg, rfl, rfl⟩ : ∃ arg ∈ args, s = .argument ∧ arg.2 = operand := by
    simpa [Tree.steps, and_left_comm, eq_comm] using hs
  have hinner := h arg harg rest hoperand hrest.tail
  have hpos := hd (List.ne_nil_of_mem harg)
  have hdepth : min (d - 1) (openings arg.1) + 1 ≤ min d (openings (.word name ::
      .mark .leftParen :: separated (args.map (·.1)) ++ [.mark .rightParen])) := by
    have hmem := openings_le_separated (List.mem_map_of_mem (f := (·.1)) harg)
    have : openings (.word name :: .mark .leftParen :: separated (args.map (·.1))
        ++ [.mark .rightParen]) = openings (separated (args.map (·.1))) + 1 := by
      simp [openings]
    omega
  rw [untaken hlevels (.inl rfl)] at hinner
  rw [untaken hlevels (.inr (by decide))]
  exact (hinner.cons_descent rfl).mono (by omega) (Nat.le_refl c)
    ((crossings_enclosed 0 15 _).trans (crossings_mono (Nat.le_refl 15) hdepth (Nat.le_refl 0)))

theorem unary (op : UnaryOp) (h : Stays limit levels 14 d c k us t) :
    Stays limit levels 14 (d + 1) c c (.mark op.mark :: us) (.unary op t) := by
  intro path hpath hwithin
  refine Bounded.of_steps hpath hwithin fun s operand rest hs hoperand hrest => ?_
  obtain ⟨rfl, rfl⟩ : s = .operand ∧ operand = t := by simpa [Tree.steps] using hs
  have hinner := h rest hoperand hrest.tail
  have hdepth := openings_cons_le (.mark op.mark) us
  rw [untaken hlevels (.inr (by decide))] at hinner ⊢
  exact (hinner.cons_descent rfl).mono (Nat.le_refl _) (Nat.le_refl c)
    (crossings_mono (Nat.le_refl 14) (by omega) (Nat.le_refl 0))

theorem power {base exponent : Tree} (hbase : Stays limit levels 14 (d + 1) c k us base)
    (hexponent : Stays limit levels 13 d c k' vs exponent) :
    Stays limit levels 13 (d + 1) c c (us ++ .mark .power :: vs)
      (.binary .pow base exponent) := by
  intro path hpath hwithin
  refine Bounded.of_steps hpath hwithin fun s operand rest hs hoperand hrest => ?_
  have hdepth := openings_append us (.mark .power :: vs)
  have hright := openings_cons_le (.mark .power) vs
  rw [untaken hlevels (.inr (by decide))]
  obtain ⟨rfl, rfl⟩ | ⟨rfl, rfl⟩ :
      s = .base ∧ operand = base ∨ s = .exponent ∧ operand = exponent := by
    simpa [Tree.steps] using hs
  · have hinner := hbase rest hoperand hrest.tail
    rw [untaken hlevels (.inr (by decide))] at hinner
    exact (hinner.cons_free (.inl rfl)).mono (Nat.le_refl _) (Nat.le_refl c)
      (crossings_mono (by decide) (by omega) (Nat.le_refl 0))
  · have hinner := hexponent rest hoperand hrest.tail
    rw [untaken hlevels (.inr (by decide))] at hinner
    exact (hinner.cons_descent rfl).mono (Nat.le_refl _) (Nat.le_refl c)
      (crossings_mono (Nat.le_refl 13) (by omega) (Nat.le_refl 0))

theorem ternary (hc : c ≤ limit) {condition yes no : Tree}
    (hcondition : Stays limit levels 1 (d + 1) c k us condition)
    (hyes : Stays limit levels 0 d c k' vs yes) (hno : Stays limit levels 0 d c k'' ws no) :
    Stays limit levels 0 (d + 1) c c (us ++ .mark .question :: (vs ++ .mark .colon :: ws))
      (.ternary condition yes no) := by
  intro path hpath hwithin
  refine Bounded.of_steps hpath hwithin fun s operand rest hs hoperand hrest => ?_
  have hall := openings_append us (.mark .question :: (vs ++ .mark .colon :: ws))
  have hquestion := openings_cons_le (.mark .question) (vs ++ .mark .colon :: ws)
  have hbranches := openings_append vs (.mark .colon :: ws)
  have hcolon := openings_cons_le (.mark .colon) ws
  have hbranch {q : Nat} {xs : List Token} (hxs : openings xs
      ≤ openings (us ++ .mark .question :: (vs ++ .mark .colon :: ws)))
      (h : Stays limit levels 0 d c q xs operand) :
      Bounded (d + 1) c (crossings limit levels 0
        (min (d + 1) (openings (us ++ .mark .question :: (vs ++ .mark .colon :: ws)))) 0)
        (.branch :: rest) := by
    have hinner := h rest hoperand hrest.tail
    rw [untaken hlevels (.inl rfl)] at hinner
    exact (hinner.cons_descent rfl).mono (Nat.le_refl _) (Nat.le_refl c)
      (crossings_mono (Nat.le_refl 0) (by omega) (Nat.le_refl 0))
  rw [untaken hlevels (.inl rfl)]
  obtain ⟨rfl, rfl⟩ | ⟨rfl, rfl⟩ | ⟨rfl, rfl⟩ : s = .condition ∧ operand = condition ∨
      s = .branch ∧ operand = yes ∨ s = .branch ∧ operand = no := by
    simpa [Tree.steps] using hs
  · have hinner := lift hc hcondition rest hoperand hrest.tail
    rw [untaken hlevels (.inl rfl)] at hinner
    exact (hinner.cons_free (.inr rfl)).mono (Nat.le_refl _) (Nat.le_refl c)
      (crossings_mono (Nat.le_refl 0) (by omega) (Nat.le_refl 0))
  · exact hbranch (by omega) hyes
  · exact hbranch (by omega) hno

end

theorem infixes (hc : c ≤ limit) {left : Nat} (op : InfixOp) (hop : op.precedence ≤ 12)
    {l r : Tree} (hleft : left + 1 ≤ c) (hk : k ≤ left)
    (hl : Stays limit levels op.precedence d c (left + 1) us l)
    (hr : Stays limit levels (op.precedence + 1) d left k vs r) :
    Stays limit levels op.precedence d c left (us ++ .mark op.mark :: vs) (op.join l r) := by
  intro path hpath hwithin
  refine Bounded.of_steps hpath hwithin fun s operand rest hs hoperand hrest => ?_
  have hdepth := openings_append us (.mark op.mark :: vs)
  have hright := openings_cons_le (.mark op.mark) vs
  obtain ⟨rfl, rfl⟩ | ⟨rfl, rfl⟩ :
      s = .left op.precedence ∧ operand = l ∨ s = .right op.precedence ∧ operand = r := by
    simpa [InfixOp.steps_join hop] using hs
  · have hmem : op.precedence ∈ levels := hrest _ List.mem_cons_self _ rfl
    have hinner := hl rest hoperand hrest.tail
    rw [if_pos hmem] at hinner ⊢
    have htaken : c - (left + 1) + 1 ≤ c - left := by omega
    exact (hinner.cons_left _).mono (Nat.le_refl d) (Nat.le_refl c)
      (crossings_mono (Nat.le_refl op.precedence) (by omega) htaken)
  · have hmem : op.precedence ∈ levels := hrest _ List.mem_cons_self _ rfl
    have hinner := hr rest hoperand hrest.tail
    rw [if_pos hmem]
    refine (hinner.cons_right _).mono (Nat.le_refl d) hleft ?_
    have hvs : min d (openings vs) ≤ min d (openings (us ++ .mark op.mark :: vs)) := by omega
    split
    · next hnext =>
      have hroom : crossings limit levels (op.precedence + 1) (min d (openings vs)) (left - k + 1)
          ≤ crossings limit levels op.precedence (min d (openings vs)) (c - left) :=
        crossings_level hnext (by omega) _
      exact hroom.trans (crossings_mono (Nat.le_refl _) hvs (Nat.le_refl _))
    · have htaken : 0 + 1 ≤ c - left := by omega
      exact crossings_mono (Nat.le_succ op.precedence) hvs htaken

end Stays

/-- Every path through a derived expression stays within what its budgets allow for the levels
that it crosses. -/
theorem Derives.stays (hlevels : ∀ level ∈ levels, 0 < level ∧ level ≤ 12) {p d c k : Nat}
    {us : List Token} {t : Tree} (h : Derives p d c k us t) (hc : c ≤ limit) :
    Stays limit levels p d c k us t := by
  induction h with
  | operand h => exact .of_isLeaf (isLeaf_of_operand? h)
  | parens _ ih => exact .parens hlevels (ih hc)
  | call name args hd left _ ih =>
    exact .call hlevels name args hd left fun arg harg => ih arg harg hc
  | unary op _ ih => exact .unary hlevels op (ih hc)
  | power _ _ ihl ihr => exact .power hlevels (ihl hc) (ihr hc)
  | infixes op hop hl hr ihl ihr =>
    have hleft := hl.left_le
    exact .infixes hc op hop hleft hr.left_le (ihl hc) (ihr (by omega))
  | ternary _ _ _ ihc ihy ihn => exact .ternary hlevels hc (ihc hc) (ihy hc) (ihn hc)
  | lift _ _ ih => exact .lift hc (ih hc)

end

/-- The levels of operators that group to the left are those from 1 to 12. -/
theorem level_of_mem_steps {t operand : Tree} {s : Step} {level : Nat}
    (h : (s, operand) ∈ t.steps) (hs : s.level? = some level) : 0 < level ∧ level ≤ 12 := by
  induction t using Tree.infixInduction with
  | leaf t hleaf =>
    rw [Tree.steps_of_isLeaf hleaf] at h
    cases h
  | infixes op left right =>
    have hpos := op.precedence_pos
    obtain hop | hpow := Nat.lt_or_ge op.precedence 13
    · rw [InfixOp.steps_join (by omega)] at h
      simp only [List.mem_cons, Prod.mk.injEq, List.not_mem_nil, or_false] at h
      obtain ⟨rfl, -⟩ | ⟨rfl, -⟩ := h
      · cases hs
        omega
      · cases hs
        omega
    · obtain rfl := op.eq_pow_of_precedence (Nat.le_antisymm op.precedence_le hpow)
      obtain ⟨rfl, -⟩ | ⟨rfl, -⟩ :
          s = .base ∧ operand = left ∨ s = .exponent ∧ operand = right := by
        simpa [InfixOp.join, Tree.steps] using h
      · cases hs
      · cases hs
  | unary op t =>
    obtain ⟨rfl, -⟩ : s = .operand ∧ operand = t := by simpa [Tree.steps] using h
    cases hs
  | ternary condition yes no =>
    obtain ⟨rfl, -⟩ | ⟨rfl, -⟩ | ⟨rfl, -⟩ : s = .condition ∧ operand = condition ∨
        s = .branch ∧ operand = yes ∨ s = .branch ∧ operand = no := by
      simpa [Tree.steps] using h
    · cases hs
    · cases hs
    · cases hs
  | call name args =>
    obtain ⟨-, rfl⟩ : operand ∈ args ∧ s = .argument := by
      simpa [Tree.steps, eq_comm] using h
    cases hs

theorem mem_pathLevels {path : List Step} {level : Nat} :
    level ∈ pathLevels path ↔ ∃ s ∈ path, s.level? = some level := by
  simp [pathLevels]

theorem pathLevels_le {t : Tree} {path : List Step} (hpath : Path t path) :
    ∀ level ∈ pathLevels path, 0 < level ∧ level ≤ 12 := by
  intro level hmem
  obtain ⟨s, hs, hlevel⟩ := mem_pathLevels.mp hmem
  clear hmem
  induction hpath with
  | root => cases hs
  | step hstep _ ih =>
    rcases List.mem_cons.mp hs with rfl | hs
    · exact level_of_mem_steps hstep hlevel
    · exact ih hs

/-- The size of an accepted expression.  No path takes more descents than their budget, or goes on
into the right operands of more operators than theirs.  Over left operands it may cross a whole
chain at every level, outside parentheses and inside every pair of them: the budget of operators
bounds the operators on paths that cross one level of a text without parentheses, and in general
only up to the number of levels and of descents. -/
theorem parse_path_bounds {source : String} {t : Tree} {ts : List Token}
    (h : parse source = .ok t) (hts : tokenize source.toList = .ok ts) {path : List Step}
    (hpath : Path t path) :
    path.countP Step.isDescent ≤ maxDescents ∧
    path.countP Step.isRight ≤ maxChain ∧
    (openings ts = 0 → (pathLevels path).card ≤ 1 → path.countP Step.isChain ≤ maxChain) ∧
    path.countP Step.isChain
      ≤ (pathLevels path).card * (min maxDescents (openings ts) + 1) * maxChain ∧
    path.countP Step.isChain ≤ 12 * (maxDescents + 1) * maxChain := by
  obtain ⟨ts', k, hts', hderives⟩ := derives_of_parse h
  obtain rfl : ts = ts' := by
    rw [hts] at hts'
    exact Except.ok.inj hts'
  have hlevels := pathLevels_le hpath
  have hwithin : Within (pathLevels path) path :=
    fun s hs level hlevel => mem_pathLevels.mpr ⟨s, hs, hlevel⟩
  have hloose : 0 ∉ pathLevels path := fun hmem => absurd (hlevels 0 hmem).1 (by decide)
  obtain ⟨hdescents, hrights, hchain⟩ :=
    hderives.stays hlevels (Nat.le_refl maxChain) path hpath hwithin
  have hcard : (pathLevels path).card ≤ 12 := by
    have hsub : pathLevels path ⊆ Finset.Icc 1 12 := fun level hlevel =>
      Finset.mem_Icc.mpr (hlevels level hlevel)
    exact Finset.card_le_card hsub
  have hbound : path.countP Step.isChain
      ≤ (pathLevels path).card * (min maxDescents (openings ts) + 1) * maxChain := by
    refine Nat.le_trans hchain ?_
    rw [if_neg hloose, crossings, Nat.add_zero, Nat.mul_succ]
    refine Nat.mul_le_mul_right maxChain ?_
    exact Nat.add_le_add_left (Finset.card_filter_le _ _) _
  refine ⟨hdescents, hrights, fun hflat hone => ?_, hbound, Nat.le_trans hbound ?_⟩
  · rw [hflat, Nat.min_zero, Nat.zero_add, Nat.mul_one] at hbound
    exact Nat.le_trans hbound (Nat.le_trans (Nat.mul_le_mul_right maxChain hone) (by simp))
  · refine Nat.mul_le_mul_right maxChain (Nat.mul_le_mul hcard ?_)
    omega

/-! ## A product as an operand of a sum -/

def product : (factors : Nat) → Tree
  | 0 => .literal (.ofNum (.int 1))
  | n + 1 => .binary .mul (product n) (.literal (.ofNum (.int 1)))

def productWords : (factors : Nat) → List String
  | 0 => ["1"]
  | n + 1 => productWords n ++ ["*", "1"]

theorem writes_one : Writes "1" (.leaf (.literal (.ofNum (.int 1)))) :=
  writes_of_readToken (c := '1') rfl rfl rfl

theorem writes_product (n : Nat) :
    List.Forall₂ Writes (productWords n) ((product n).symbols 12) := by
  have hstar : Writes "*" (.mark .star) := writes_of_readToken (c := '*') rfl rfl rfl
  induction n with
  | zero => exact .cons writes_one .nil
  | succ n ih =>
    have hsymbols : (product (n + 1)).symbols 12 = (product n).symbols 12 ++ .mark .star ::
        [.leaf (.literal (.ofNum (.int 1)))] :=
      InfixOp.symbols_join_level (.binary .mul) _ _ (by decide)
    rw [hsymbols]
    exact List.rel_append ih (.cons hstar (.cons writes_one .nil))

theorem spine_product (n : Nat) : (product n).spine 12 = n := by
  induction n with
  | zero => rfl
  | succ n ih => simp [product, Tree.spine, InfixOp.precedence, ih]

theorem product_fits (n : Nat) : (product n).Fits 12 0 n := by
  induction n with
  | zero => exact ⟨Nat.le_refl 0, Nat.le_refl 0⟩
  | succ n ih =>
    have hnesting := InfixOp.nesting_join_level (.binary .mul) (product n)
      (.literal (.ofNum (.int 1))) (by decide)
    have hchain := InfixOp.chain_join_level (.binary .mul) (product n)
      (.literal (.ofNum (.int 1))) (by decide)
    have hspine : (product n).spine 12 = n := spine_product n
    refine ⟨hnesting.trans_le (Nat.max_le.mpr ⟨ih.1, Nat.le_refl 0⟩), hchain.trans_le ?_⟩
    refine Nat.max_le.mpr ⟨Nat.le_succ_of_le ih.2, ?_⟩
    exact Nat.le_of_eq (congrArg (· + 1 + 0) hspine)

/-- A product within the budget of operators is accepted as the left operand of a sum, whose own
operator comes on top. -/
theorem parse_product_plus_one {n : Nat} (hn : n ≤ maxChain) :
    parse (" ".intercalate (productWords n ++ ["+", "1"])) =
      .ok (.binary .add (product n) (.literal (.ofNum (.int 1)))) := by
  have hone : 1 ≤ maxChain := by decide
  have hne : (product n).precedence ≠ 11 := by
    cases n <;> simp [product, Tree.precedence, InfixOp.precedence]
  have hplus : Writes "+" (.mark .plus) := writes_of_readToken (c := '+') rfl rfl rfl
  have hsymbols : (Tree.binary .add (product n) (.literal (.ofNum (.int 1)))).symbols 0
      = (product n).symbols 12 ++ .mark .plus :: [.leaf (.literal (.ofNum (.int 1)))] := by
    have hself : (Tree.binary .add (product n) (.literal (.ofNum (.int 1)))).symbols 0
        = (Tree.binary .add (product n) (.literal (.ofNum (.int 1)))).symbols 11 :=
      rfl
    have hjoin := InfixOp.symbols_join_level (.binary .add) (product n)
      (.literal (.ofNum (.int 1))) (by decide)
    rw [hself, Tree.symbols_succ (by decide) hne]
    exact hjoin
  have hwords : List.Forall₂ Writes (productWords n ++ ["+", "1"])
      ((Tree.binary .add (product n) (.literal (.ofNum (.int 1)))).symbols 0) := by
    rw [hsymbols]
    exact List.rel_append (writes_product n) (.cons hplus (.cons writes_one .nil))
  have hfits := product_fits n
  have hspine := Tree.spine_eq_zero hne
  have hchain := InfixOp.chain_join_level (.binary .add) (product n) (.literal (.ofNum (.int 1)))
    (by decide)
  have hnesting := InfixOp.nesting_join_level (.binary .add) (product n)
    (.literal (.ofNum (.int 1))) (by decide)
  have hleft : (product n).nesting 11 ≤ maxDescents := by
    rw [← Tree.nesting_succ (by decide) hne]
    exact Nat.le_trans hfits.1 (Nat.zero_le _)
  rw [parse_intercalate hwords, if_pos]
  refine ⟨hnesting.trans_le (Nat.max_le.mpr ⟨hleft, Nat.zero_le _⟩), hchain.trans_le ?_⟩
  refine Nat.max_le.mpr ⟨Nat.le_trans hfits.2 hn, ?_⟩
  exact Nat.le_trans (Nat.le_of_eq (congrArg (· + 1 + 0) hspine)) hone

/-- The steps to the first factor of a product that is the left operand of a sum. -/
theorem path_product_plus_one (n : Nat) :
    Path (.binary .add (product n) (.literal (.ofNum (.int 1))))
      (.left 11 :: List.replicate n (.left 12)) := by
  refine .step List.mem_cons_self ?_
  induction n with
  | zero => exact .root _
  | succ n ih => exact .step List.mem_cons_self ih

/-- A thousand multiplications and an addition are one path of more operators than the budget. -/
theorem chain_exceeded :
    ∃ (t : Tree) (path : List Step),
      parse (" ".intercalate (productWords maxChain ++ ["+", "1"])) = .ok t ∧ Path t path ∧
        path.countP Step.isChain = maxChain + 1 := by
  have hcount (n : Nat) :
      (Step.left 11 :: List.replicate n (.left 12)).countP Step.isChain = n + 1 := by
    rw [List.countP_cons_of_pos rfl, List.countP_replicate]
    rfl
  exact ⟨_, _, parse_product_plus_one (Nat.le_refl maxChain), path_product_plus_one maxChain,
    hcount maxChain⟩

/-- The first factor of a product of three in a sum is two levels and three operators down. -/
theorem path_bounds_product_plus_one :
    ∃ ts, tokenize (" ".intercalate (productWords 2 ++ ["+", "1"])).toList = .ok ts ∧
      let path := [Step.left 11, .left 12, .left 12]
      path.countP Step.isDescent ≤ maxDescents ∧ path.countP Step.isRight ≤ maxChain ∧
      (openings ts = 0 → (pathLevels path).card ≤ 1 → path.countP Step.isChain ≤ maxChain) ∧
      path.countP Step.isChain
        ≤ (pathLevels path).card * (min maxDescents (openings ts) + 1) * maxChain ∧
      path.countP Step.isChain ≤ 12 * (maxDescents + 1) * maxChain := by
  have hparse := parse_product_plus_one (n := 2) (by decide)
  obtain ⟨ts, k, hts, -⟩ := derives_of_parse hparse
  exact ⟨ts, hts, parse_path_bounds hparse hts (path_product_plus_one 2)⟩

end TclHost.Expr
