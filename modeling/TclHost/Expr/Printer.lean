import TclHost.Expr.Grammar
/-! # Writing expressions

The symbols of an expression, with parentheses only where precedence and grouping need them.
From the loosest on, precedence is 0 for the conditional, 1 to 12 for the operators that group
to the left, 13 for the power, which groups to the right, 14 for the unary operators and 15 for
everything that stands alone.
-/
namespace TclHost.Expr

inductive InfixOp where
  | binary (op : BinaryOp)
  | logical (op : LogicalOp)
  deriving DecidableEq, Repr

namespace InfixOp

def precedence : InfixOp → Nat
  | .logical .or => 1
  | .logical .and => 2
  | .binary op =>
    match op with
    | .bitOr => 3
    | .bitXor => 4
    | .bitAnd => 5
    | .isIn | .notIn => 6
    | .strEq | .strNe => 7
    | .eq | .ne => 8
    | .lt | .le | .gt | .ge => 9
    | .shiftLeft | .shiftRight => 10
    | .add | .sub => 11
    | .mul | .div | .rem => 12
    | .pow => 13

def mark : InfixOp → Mark
  | .logical .or => .or
  | .logical .and => .and
  | .binary op =>
    match op with
    | .bitOr => .pipe
    | .bitXor => .caret
    | .bitAnd => .ampersand
    | .isIn => .isIn
    | .notIn => .notIn
    | .strEq => .strEq
    | .strNe => .strNe
    | .eq => .eq
    | .ne => .ne
    | .lt => .lt
    | .le => .le
    | .gt => .gt
    | .ge => .ge
    | .shiftLeft => .shiftLeft
    | .shiftRight => .shiftRight
    | .add => .plus
    | .sub => .minus
    | .mul => .star
    | .div => .slash
    | .rem => .percent
    | .pow => .power

def ofMark? : Mark → Option InfixOp
  | .or => some (.logical .or)
  | .and => some (.logical .and)
  | .pipe => some (.binary .bitOr)
  | .caret => some (.binary .bitXor)
  | .ampersand => some (.binary .bitAnd)
  | .isIn => some (.binary .isIn)
  | .notIn => some (.binary .notIn)
  | .strEq => some (.binary .strEq)
  | .strNe => some (.binary .strNe)
  | .eq => some (.binary .eq)
  | .ne => some (.binary .ne)
  | .lt => some (.binary .lt)
  | .le => some (.binary .le)
  | .gt => some (.binary .gt)
  | .ge => some (.binary .ge)
  | .shiftLeft => some (.binary .shiftLeft)
  | .shiftRight => some (.binary .shiftRight)
  | .plus => some (.binary .add)
  | .minus => some (.binary .sub)
  | .star => some (.binary .mul)
  | .slash => some (.binary .div)
  | .percent => some (.binary .rem)
  | .power => some (.binary .pow)
  | _ => none

def join : InfixOp → Tree → Tree → Tree
  | .binary op => .binary op
  | .logical op => .logical op

/-- The least precedence of a left operand without parentheses. -/
def leftNeed (op : InfixOp) : Nat :=
  if op.precedence = 13 then 14 else op.precedence

/-- The least precedence of a right operand without parentheses. -/
def rightNeed (op : InfixOp) : Nat :=
  if op.precedence = 13 then 13 else op.precedence + 1

@[simp] theorem ofMark?_mark (op : InfixOp) : ofMark? op.mark = some op := by
  rcases op with op | op <;> cases op <;> rfl

theorem mark_of_ofMark? {m : Mark} {op : InfixOp} (h : ofMark? m = some op) : op.mark = m := by
  cases m <;> cases h <;> rfl

theorem precedence_pos (op : InfixOp) : 0 < op.precedence := by
  rcases op with op | op <;> cases op <;> decide

theorem precedence_le (op : InfixOp) : op.precedence ≤ 13 := by
  rcases op with op | op <;> cases op <;> decide

theorem eq_pow_of_precedence {op : InfixOp} (h : op.precedence = 13) : op = .binary .pow := by
  rcases op with op | op
  · cases op <;> simp_all [precedence]
  · cases op <;> simp_all [precedence]

end InfixOp

def UnaryOp.mark : UnaryOp → Mark
  | .neg => .minus
  | .plus => .plus
  | .not => .bang
  | .bitNot => .tilde

@[simp] theorem UnaryOp.ofMark?_mark (op : UnaryOp) : UnaryOp.ofMark? op.mark = some op := by
  cases op <;> rfl

theorem UnaryOp.mark_of_ofMark? {m : Mark} {op : UnaryOp} (h : UnaryOp.ofMark? m = some op) :
    op.mark = m := by
  cases m <;> cases h <;> rfl

/-- How tightly the parts of an expression hold together. -/
def Tree.precedence : Tree → Nat
  | .ternary .. => 0
  | .binary op .. => (InfixOp.binary op).precedence
  | .logical op .. => (InfixOp.logical op).precedence
  | .unary .. => 14
  | _ => 15

/-- A part of a written expression: an operand that is one token, the name of a function, or a
mark. -/
inductive Symbol where
  | leaf (t : Tree)
  | name (s : String)
  | mark (m : Mark)

def enclose (precedence need : Nat) (symbols : List Symbol) : List Symbol :=
  if precedence < need then .mark .leftParen :: symbols ++ [.mark .rightParen] else symbols

mutual

def Tree.symbols (need : Nat) : Tree → List Symbol
  | .literal v => [.leaf (.literal v)]
  | .variable reference => [.leaf (.variable reference)]
  | .command script => [.leaf (.command script)]
  | .quoted text => [.leaf (.quoted text)]
  | .unary op operand => enclose 14 need (.mark op.mark :: operand.symbols 14)
  | .binary op left right =>
    let op := InfixOp.binary op
    enclose op.precedence need
      (left.symbols op.leftNeed ++ .mark op.mark :: right.symbols op.rightNeed)
  | .logical op left right =>
    let op := InfixOp.logical op
    enclose op.precedence need
      (left.symbols op.leftNeed ++ .mark op.mark :: right.symbols op.rightNeed)
  | .ternary condition yes no =>
    enclose 0 need
      (condition.symbols 1 ++ .mark .question :: yes.symbols 0 ++ .mark .colon :: no.symbols 0)
  | .call name args =>
    .name name :: .mark .leftParen :: Tree.argumentSymbols args ++ [.mark .rightParen]

def Tree.argumentSymbols : List Tree → List Symbol
  | [] => []
  | [arg] => arg.symbols 0
  | arg :: args => arg.symbols 0 ++ .mark .comma :: Tree.argumentSymbols args

end

def Token.operand? : Token → Option Tree
  | .number n => some (.literal (.ofNum n))
  | .braced s => some (.literal (.str s))
  | .variable reference => some (.variable reference)
  | .command script => some (.command script)
  | .quoted text => some (.quoted text)
  | .word name => (bareword? name).map .literal
  | _ => none

def Token.Spells (token : Token) : Symbol → Prop
  | .leaf t => token.operand? = some t
  | .name s => token = .word s
  | .mark m => token = .mark m

/-- One more descent for a pair of parentheses that is needed. -/
def Tree.enclosing (need : Nat) (t : Tree) : Nat :=
  if t.precedence < need then 1 else 0

mutual

/-- The descents that are nested in the written form of an expression: parentheses, operands of
unary operators, exponents, branches and arguments. -/
def Tree.nesting (need : Nat) : Tree → Nat
  | .unary op operand =>
    Tree.enclosing need (.unary op operand) + (operand.nesting 14 + 1)
  | .binary op left right =>
    let right' := right.nesting (InfixOp.binary op).rightNeed
    Tree.enclosing need (.binary op left right) + max (left.nesting (InfixOp.binary op).leftNeed)
      (if op = .pow then right' + 1 else right')
  | .logical op left right =>
    Tree.enclosing need (.logical op left right) + max (left.nesting (InfixOp.logical op).leftNeed)
      (right.nesting (InfixOp.logical op).rightNeed)
  | .ternary condition yes no =>
    Tree.enclosing need (.ternary condition yes no)
      + max (condition.nesting 1) (max (yes.nesting 0) (no.nesting 0) + 1)
  | .call _ args => Tree.argumentNesting args
  | _ => 0

def Tree.argumentNesting : List Tree → Nat
  | [] => 0
  | arg :: args => max (arg.nesting 0 + 1) (Tree.argumentNesting args)

end

/-- The operators of one precedence on the left spine of an expression, which are written one
after the other without parentheses. -/
def Tree.spine (precedence : Nat) : Tree → Nat
  | .binary op left _ =>
    if (InfixOp.binary op).precedence = precedence then left.spine precedence + 1 else 0
  | .logical op left _ =>
    if (InfixOp.logical op).precedence = precedence then left.spine precedence + 1 else 0
  | _ => 0

mutual

/-- The most operators that group to the left and are in front of one operand: those of its own
spine up to it, and those in front of the operands it is a part of. -/
def Tree.chain : Tree → Nat
  | .unary _ operand => operand.chain
  | .binary op left right =>
    if op = .pow then max left.chain right.chain
    else max left.chain (left.spine (InfixOp.binary op).precedence + 1 + right.chain)
  | .logical op left right =>
    max left.chain (left.spine (InfixOp.logical op).precedence + 1 + right.chain)
  | .ternary condition yes no => max condition.chain (max yes.chain no.chain)
  | .call _ args => Tree.argumentChain args
  | _ => 0

def Tree.argumentChain : List Tree → Nat
  | [] => 0
  | arg :: args => max arg.chain (Tree.argumentChain args)

end

def Tree.isLeaf : Tree → Bool
  | .literal _ | .variable _ | .command _ | .quoted _ => true
  | _ => false

theorem isLeaf_of_operand? {token : Token} {t : Tree} (h : token.operand? = some t) : t.isLeaf := by
  cases token with
  | word name =>
    obtain ⟨v, -, rfl⟩ := Option.map_eq_some_iff.mp h
    rfl
  | mark => cases h
  | unknown => cases h
  | _ =>
    cases h
    rfl

/-- An induction over expressions, with one case for all leaves and one for all operators
between two operands. -/
theorem Tree.infixInduction {motive : Tree → Prop} (leaf : ∀ t : Tree, t.isLeaf → motive t)
    (unary : ∀ op operand, motive operand → motive (.unary op operand))
    (infixes : ∀ (op : InfixOp) left right, motive left → motive right →
      motive (op.join left right))
    (ternary : ∀ condition yes no, motive condition → motive yes → motive no →
      motive (.ternary condition yes no))
    (call : ∀ name args, (∀ arg ∈ args, motive arg) → motive (.call name args)) :
    ∀ t, motive t
  | .literal _ | .variable _ | .command _ | .quoted _ => leaf _ rfl
  | .unary op operand => unary op operand (go operand)
  | .binary op left right => infixes (.binary op) left right (go left) (go right)
  | .logical op left right => infixes (.logical op) left right (go left) (go right)
  | .ternary condition yes no => ternary condition yes no (go condition) (go yes) (go no)
  | .call name args => call name args fun arg _ => go arg
where
  go (t : Tree) : motive t :=
    Tree.infixInduction leaf unary infixes ternary call t

section
variable {t : Tree} (h : t.isLeaf)
include h

theorem Tree.precedence_of_isLeaf : t.precedence = 15 := by
  cases t <;> simp_all [isLeaf, precedence]

theorem Tree.symbols_of_isLeaf (need : Nat) : t.symbols need = [.leaf t] := by
  cases t <;> simp_all [isLeaf, symbols]

theorem Tree.nesting_of_isLeaf (need : Nat) : t.nesting need = 0 := by
  cases t <;> simp_all [isLeaf, nesting]

theorem Tree.chain_of_isLeaf : t.chain = 0 := by
  cases t <;> simp_all [isLeaf, chain]

end

namespace InfixOp

variable (op : InfixOp) (left right : Tree)

@[simp] theorem precedence_join : (op.join left right).precedence = op.precedence := by
  cases op <;> rfl

theorem symbols_join (need : Nat) :
    (op.join left right).symbols need = enclose op.precedence need
      (left.symbols op.leftNeed ++ .mark op.mark :: right.symbols op.rightNeed) := by
  cases op <;> simp only [join, Tree.symbols]

variable {op} in
theorem leftNeed_of_le (h : op.precedence ≤ 12) : op.leftNeed = op.precedence :=
  if_neg (by omega)

variable {op} in
theorem rightNeed_of_le (h : op.precedence ≤ 12) : op.rightNeed = op.precedence + 1 :=
  if_neg (by omega)

theorem leftNeed_le : op.leftNeed ≤ 15 := by
  have := op.precedence_le
  unfold leftNeed
  split <;> omega

theorem rightNeed_le : op.rightNeed ≤ 15 := by
  have := op.precedence_le
  unfold rightNeed
  split <;> omega

/-- An operator that groups to the left takes operands of its own precedence on the left, and of
the next one on the right. -/
theorem symbols_join_level (h : op.precedence ≤ 12) :
    (op.join left right).symbols op.precedence =
      left.symbols op.precedence ++ .mark op.mark :: right.symbols (op.precedence + 1) := by
  rw [symbols_join, leftNeed_of_le h, rightNeed_of_le h]
  simp [enclose]

theorem nesting_join_level (h : op.precedence ≤ 12) :
    (op.join left right).nesting op.precedence =
      max (left.nesting op.precedence) (right.nesting (op.precedence + 1)) := by
  have hneed := And.intro (leftNeed_of_le h) (rightNeed_of_le h)
  cases op with
  | binary op =>
    have hpow : op ≠ .pow := by
      rintro rfl
      simp [precedence] at h
    simp [join, Tree.nesting, Tree.enclosing, Tree.precedence, hneed, hpow]
  | logical op => simp [join, Tree.nesting, Tree.enclosing, Tree.precedence, hneed]

theorem chain_join_level (h : op.precedence ≤ 12) :
    (op.join left right).chain =
      max left.chain (left.spine op.precedence + 1 + right.chain) := by
  cases op with
  | binary op =>
    have hpow : op ≠ .pow := by
      rintro rfl
      simp [precedence] at h
    simp [join, Tree.chain, hpow]
  | logical op => simp [join, Tree.chain]

@[simp] theorem spine_join :
    (op.join left right).spine op.precedence = left.spine op.precedence + 1 := by
  cases op <;> simp [join, Tree.spine]

end InfixOp

namespace Tree

theorem spine_eq_zero {t : Tree} {p : Nat} (h : t.precedence ≠ p) : t.spine p = 0 := by
  cases t <;> simp_all [spine, precedence]

/-- Where a precedence is needed, parentheses may be added to the symbols of an expression. -/
theorem symbols_eq_enclose (t : Tree) {need : Nat} (hneed : need ≤ 15) :
    t.symbols need = enclose t.precedence need (t.symbols 0) := by
  have hzero (p : Nat) (symbols : List Symbol) : enclose p 0 symbols = symbols := by
    simp [enclose]
  have hstands (symbols : List Symbol) : enclose 15 need symbols = symbols :=
    if_neg (by omega)
  cases t <;> simp only [symbols, precedence, hzero, hstands]

theorem nesting_eq_enclosing (t : Tree) {need : Nat} (hneed : need ≤ 15) :
    t.nesting need = t.enclosing need + t.nesting 0 := by
  have hstands : ¬ 15 < need := by omega
  cases t <;> simp [nesting, enclosing, precedence, hstands]

/-- An expression of another precedence is written alike where that one is needed and where the
next one is. -/
theorem symbols_succ {t : Tree} {p : Nat} (hp : p < 15) (h : t.precedence ≠ p) :
    t.symbols (p + 1) = t.symbols p := by
  have hlt : t.precedence < p + 1 ↔ t.precedence < p := by omega
  rw [symbols_eq_enclose t hp, symbols_eq_enclose t (Nat.le_of_lt hp)]
  simp only [enclose, hlt]

theorem nesting_succ {t : Tree} {p : Nat} (hp : p < 15) (h : t.precedence ≠ p) :
    t.nesting (p + 1) = t.nesting p := by
  have hlt : t.precedence < p + 1 ↔ t.precedence < p := by omega
  rw [nesting_eq_enclosing t hp, nesting_eq_enclosing t (Nat.le_of_lt hp)]
  simp only [enclosing, hlt]

theorem argumentSymbols_cons (arg : Tree) {args : List Tree} (h : args ≠ []) :
    argumentSymbols (arg :: args) = arg.symbols 0 ++ .mark .comma :: argumentSymbols args := by
  cases args with
  | nil => exact absurd rfl h
  | cons => rw [argumentSymbols]; exact List.cons_ne_nil _ _

/-- What does not stand alone is put in parentheses where an operand is needed. -/
theorem symbols_parens {t : Tree} (h : t.precedence < 15) :
    t.symbols 15 = .mark .leftParen :: t.symbols 0 ++ [.mark .rightParen] := by
  rw [symbols_eq_enclose t (Nat.le_refl 15)]
  simp [enclose, h]

theorem nesting_parens {t : Tree} (h : t.precedence < 15) :
    t.nesting 15 = t.nesting 0 + 1 := by
  rw [nesting_eq_enclosing t (Nat.le_refl 15)]
  simp [enclosing, h, Nat.add_comm]

end Tree

end TclHost.Expr
