import TclHost.Expr.Printer
/-! # The parser of a precedence

The levels of operators that group to the left, from the tightest on, are those of precedence 12
down to 1.  `parseAt` names the parser of each precedence, and each of them reads an expression
of the next higher precedence first.
-/
namespace TclHost.Expr

/-- The operators of one precedence as a level. -/
def levelOf (precedence : Nat) : Level := fun m =>
  ((InfixOp.ofMark? m).filter (·.precedence == precedence)).map InfixOp.join

theorem levelOf_eq_some_iff {precedence : Nat} {m : Mark} {join : Tree → Tree → Tree} :
    levelOf precedence m = some join ↔
      ∃ op : InfixOp,
        InfixOp.ofMark? m = some op ∧ op.precedence = precedence ∧ op.join = join := by
  simp [levelOf, Option.filter_eq_some_iff, and_assoc]

theorem levelOf_mark (op : InfixOp) : levelOf op.precedence op.mark = some op.join :=
  levelOf_eq_some_iff.mpr ⟨op, op.ofMark?_mark, rfl, rfl⟩

theorem levels_eq : levels = [12, 11, 10, 9, 8, 7, 6, 5, 4, 3, 2, 1].map levelOf := by
  simp only [levels, List.map_cons, List.map_nil, List.cons.injEq, and_true]
  refine ⟨?_, ?_, ?_, ?_, ?_, ?_, ?_, ?_, ?_, ?_, ?_, ?_⟩ <;> (funext m; cases m <;> rfl)

/-- The parser of the given number of levels above the power. -/
def parseInfix (below : Below) : (count : Nat) → Parser
  | 0 => parsePower below
  | count + 1 => parseLevel (parseInfix below count) (levelOf (12 - count))

def parseAt (below : Below) (precedence : Nat) : Parser :=
  if precedence = 0 then parseTernary below
  else if precedence ≤ 13 then parseInfix below (13 - precedence)
  else if precedence = 14 then parseUnary below
  else parsePrimary below

variable (below : Below)

theorem parseAt_level {p : Nat} (hp : 0 < p) (hp' : p ≤ 12) :
    parseAt below p = parseLevel (parseAt below (p + 1)) (levelOf p) := by
  have hcount : 13 - p = 12 - p + 1 := by omega
  have hlevel : 12 - (12 - p) = p := by omega
  have hnext : parseAt below (p + 1) = parseInfix below (12 - p) := by
    rw [parseAt, if_neg (by omega), if_pos (by omega)]
    congr 1
    omega
  rw [parseAt, if_neg (by omega), if_pos (by omega), hcount, parseInfix, hnext, hlevel]

theorem parseTernary_eq (chain : Nat) (ts : List Token) :
    parseAt below 0 chain ts = do
      let (condition, ts) ← parseAt below 1 chain ts
      match ts with
      | .mark .question :: ts =>
        let (yes, ts) ← below.ternary chain ts
        match ts with
        | .mark .colon :: ts =>
          let (no, ts) ← below.ternary chain ts
          return (.ternary condition yes no, ts)
        | _ => throw .missingColon
      | ts => return (condition, ts) := by
  have hlevels : levels.foldl parseLevel (parsePower below) = parseAt below 1 := by
    rw [levels_eq]
    rfl
  rw [← hlevels]
  rfl

theorem parseUnary_mark (op : UnaryOp) (chain : Nat) (ts : List Token) :
    parseAt below 14 chain (.mark op.mark :: ts) = do
      let (operand, ts) ← below.unary chain ts
      return (.unary op operand, ts) := by
  simp [parseAt, parseUnary]

theorem parsePower_eq (chain : Nat) (ts : List Token) :
    parseAt below 13 chain ts = (do
      let (base, ts) ← parseAt below 14 chain ts
      match ts with
      | .mark .power :: ts =>
        let (exponent, ts) ← below.power chain ts
        return (.binary .pow base exponent, ts)
      | ts => return (base, ts)) :=
  rfl

theorem parseParens_eq (chain : Nat) (ts : List Token) :
    parseAt below 15 chain (.mark .leftParen :: ts) = (do
      let (inner, ts) ← below.ternary chain ts
      match ts with
      | .mark .rightParen :: ts => return (inner, ts)
      | _ => throw .missingClose) :=
  rfl

theorem parseTokens_eq (ts : List Token) :
    parseTokens ts = (do
      let (tree, rest) ← parseAt (belowWith maxDescents) 0 maxChain ts
      match rest with
      | [] => return tree
      | _ => throw .extraTokens) :=
  rfl

end TclHost.Expr
