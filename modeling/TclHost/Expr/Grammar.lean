import TclHost.Expr.Lexer
import TclHost.Expr.Syntax
/-! # Parsing expressions

The operators form levels of precedence.  From the loosest on: the conditional, twelve levels
of left-associative operators, the right-associative power, and the unary operators.  Two
budgets bound the size of a tree: `descents`, the depth of parentheses, unary operators, powers,
branches and arguments, and `chain`, the number of left-associative operators whose right operand
is not finished where an operand starts, or that stand in front of it in a run of one level.
-/
namespace TclHost.Expr

inductive GrammarError where
  | tooDeep
  | missingColon
  | missingCloseAfterArguments (name : String)
  | invalidBareword (name : String)
  | missingClose
  | missingOperand
  | invalidCharacter (c : Char)
  | unexpectedOperator (m : Mark)
  | extraTokens
  deriving DecidableEq, Repr

def GrammarError.message : GrammarError → String
  | .tooDeep => "expression nested too deeply"
  | .missingColon => "missing \":\" in ternary"
  | .missingCloseAfterArguments name => "missing close parenthesis after arguments to " ++ name
  | .invalidBareword name => "invalid bareword \"" ++ name ++ "\""
  | .missingClose => "missing close parenthesis"
  | .missingOperand => "missing operand"
  | .invalidCharacter c => "invalid character \"" ++ c.toString ++ "\""
  | .unexpectedOperator m => "unexpected operator " ++ m.name
  | .extraTokens => "extra tokens at end of expression"

inductive ParseError where
  | lexical (error : LexicalError)
  | empty
  | grammar (source : String) (error : GrammarError)
  deriving DecidableEq, Repr

def ParseError.message : ParseError → String
  | .lexical error => error.message
  | .empty => "empty expression"
  | .grammar source error =>
    "syntax error in expression \"" ++ source ++ "\": " ++ error.message

/-- How many descents may be nested. -/
def maxDescents : Nat :=
  64

/-- How many left-associative operators may be counted in front of an operand. -/
def maxChain : Nat :=
  1000

/-- A parser is given what is left of the chain budget, and returns the tokens it leaves. -/
abbrev Parser := (chain : Nat) → List Token → Except GrammarError (Tree × List Token)

/-- The parsers one descent further down. -/
structure Below where
  ternary : Parser
  power : Parser
  unary : Parser

/-- The arguments of a call after its opening parenthesis.  Each takes at least one token, so
there are no more of them than the tokens that set the limit. -/
def parseArguments (below : Below) (chain : Nat) :
    (limit : List Token) → List Token → Except GrammarError (List Tree × List Token)
  | [], ts => .ok ([], ts)
  | _ :: limit, ts => do
    let (arg, ts) ← below.ternary chain ts
    match ts with
    | .mark .comma :: ts =>
      let (args, ts) ← parseArguments below chain limit ts
      return (arg :: args, ts)
    | ts => return ([arg], ts)

def parseCall (below : Below) (name : String) : Parser := fun chain ts => do
  let (args, ts) ← match ts with
    | .mark .rightParen :: _ => pure ([], ts)
    | ts => parseArguments below chain (.mark .leftParen :: ts) ts
  match ts with
  | .mark .rightParen :: ts => return (.call name args, ts)
  | _ => throw (.missingCloseAfterArguments name)

/-- The value of a word that stands alone: infinity, not a number, or a truth value. -/
def bareword? (name : String) : Option Value :=
  if name = "Inf" then some (.float Double.infinity)
  else if name = "NaN" then some (.float Double.nan)
  else if (Number.parseBool name).isOk then some (.str name)
  else none

def parsePrimary (below : Below) : Parser := fun chain ts =>
  match ts with
  | .number n :: ts => .ok (.literal (.ofNum n), ts)
  | .braced s :: ts => .ok (.literal (.str s), ts)
  | .variable reference :: ts => .ok (.variable reference, ts)
  | .command script :: ts => .ok (.command script, ts)
  | .quoted text :: ts => .ok (.quoted text, ts)
  | .word name :: .mark .leftParen :: ts => parseCall below name chain ts
  | .word name :: ts =>
    match bareword? name with
    | some v => .ok (.literal v, ts)
    | none => .error (.invalidBareword name)
  | .mark .leftParen :: ts => do
    let (inner, ts) ← below.ternary chain ts
    match ts with
    | .mark .rightParen :: ts => return (inner, ts)
    | _ => throw .missingClose
  | [] => .error .missingOperand
  | .unknown c :: _ => .error (.invalidCharacter c)
  | .mark m :: _ => .error (.unexpectedOperator m)

def UnaryOp.ofMark? : Mark → Option UnaryOp
  | .minus => some .neg
  | .plus => some .plus
  | .bang => some .not
  | .tilde => some .bitNot
  | _ => none

def parseUnary (below : Below) : Parser := fun chain ts =>
  match ts with
  | .mark m :: rest =>
    match UnaryOp.ofMark? m with
    | some op => do
      let (operand, ts) ← below.unary chain rest
      return (.unary op operand, ts)
    | none => parsePrimary below chain ts
  | ts => parsePrimary below chain ts

def parsePower (below : Below) : Parser := fun chain ts => do
  let (base, ts) ← parseUnary below chain ts
  match ts with
  | .mark .power :: ts =>
    let (exponent, ts) ← below.power chain ts
    return (.binary .pow base exponent, ts)
  | ts => return (base, ts)

/-- The operators of one level: how a mark joins two operands there, if it is one of them. -/
abbrev Level := Mark → Option (Tree → Tree → Tree)

def parseTail (level : Level) (operand : Parser) :
    (chain : Nat) → Tree → List Token → Except GrammarError (Tree × List Token)
  | chain, left, .mark m :: ts =>
    match level m with
    | none => .ok (left, .mark m :: ts)
    | some join =>
      match chain with
      | 0 => .error .tooDeep
      | chain + 1 => do
        let (right, ts) ← operand chain ts
        parseTail level operand chain (join left right) ts
  | _, left, ts => .ok (left, ts)

def parseLevel (operand : Parser) (level : Level) : Parser := fun chain ts => do
  let (left, ts) ← operand chain ts
  parseTail level operand chain left ts

def levels : List Level :=
  [ fun | .star => some (.binary .mul) | .slash => some (.binary .div)
        | .percent => some (.binary .rem) | _ => none,
    fun | .plus => some (.binary .add) | .minus => some (.binary .sub) | _ => none,
    fun | .shiftLeft => some (.binary .shiftLeft) | .shiftRight => some (.binary .shiftRight)
        | _ => none,
    fun | .lt => some (.binary .lt) | .le => some (.binary .le) | .gt => some (.binary .gt)
        | .ge => some (.binary .ge) | _ => none,
    fun | .eq => some (.binary .eq) | .ne => some (.binary .ne) | _ => none,
    fun | .strEq => some (.binary .strEq) | .strNe => some (.binary .strNe) | _ => none,
    fun | .isIn => some (.binary .isIn) | .notIn => some (.binary .notIn) | _ => none,
    fun | .ampersand => some (.binary .bitAnd) | _ => none,
    fun | .caret => some (.binary .bitXor) | _ => none,
    fun | .pipe => some (.binary .bitOr) | _ => none,
    fun | .and => some (.logical .and) | _ => none,
    fun | .or => some (.logical .or) | _ => none ]

def parseTernary (below : Below) : Parser := fun chain ts => do
  let (condition, ts) ← levels.foldl parseLevel (parsePower below) chain ts
  match ts with
  | .mark .question :: ts =>
    let (yes, ts) ← below.ternary chain ts
    match ts with
    | .mark .colon :: ts =>
      let (no, ts) ← below.ternary chain ts
      return (.ternary condition yes no, ts)
    | _ => throw .missingColon
  | ts => return (condition, ts)

/-- The parsers below a point from which a number of descents is left. -/
def belowWith : (descents : Nat) → Below
  | 0 =>
    let refuse : Parser := fun _ _ => .error .tooDeep
    ⟨refuse, refuse, refuse⟩
  | descents + 1 =>
    let below := belowWith descents
    ⟨parseTernary below, parsePower below, parseUnary below⟩

def parseTokens (ts : List Token) : Except GrammarError Tree := do
  let (tree, rest) ← parseTernary (belowWith maxDescents) maxChain ts
  match rest with
  | [] => return tree
  | _ => throw .extraTokens

def parse (source : String) : Except ParseError Tree :=
  match tokenize source.toList with
  | .error e => .error (.lexical e)
  | .ok [] => .error .empty
  | .ok ts => (parseTokens ts).mapError (.grammar source)

end TclHost.Expr
