import TclHost.Proofs.Expr.Junction
import TclHost.Proofs.Expr.RoundTrip
import Mathlib.Data.List.Chain
/-! # Expressions without their blanks

A written expression keeps its tokens if blanks between them are left out, operators that are words
apart: what may follow what in an expression never makes another token with it.  The one exception
is a word in front of a colon, which it takes in.
-/
namespace TclHost.Expr

open Text

/-! ## What may follow what -/

def Symbol.Ends : Symbol → Prop
  | .leaf _ => True
  | .name _ => False
  | .mark m => m = .rightParen

/-- What follows what in a written expression. -/
inductive Adjacent : Symbol → Symbol → Prop
  | called (name : String) : Adjacent (.name name) (.mark .leftParen)
  | empty : Adjacent (.mark .leftParen) (.mark .rightParen)
  | behind {s : Symbol} {m : Mark} (hs : s.Ends) (hm : m ≠ .leftParen) : Adjacent s (.mark m)
  | ahead {m : Mark} {s : Symbol} (hs : s.Starts) : Adjacent (.mark m) s

/-- Symbols that follow each other and make up an operand. -/
structure Phrase (symbols : List Symbol) : Prop where
  chain : symbols.IsChain Adjacent
  starts : ∃ s ∈ symbols.head?, s.Starts
  ends : ∃ s ∈ symbols.getLast?, s.Ends

namespace Phrase

variable {xs ys : List Symbol}

theorem leaf (t : Tree) : Phrase [.leaf t] :=
  ⟨.singleton _, ⟨_, rfl, trivial⟩, ⟨_, rfl, trivial⟩⟩

theorem chain_cons (m : Mark) (h : Phrase xs) : (Symbol.mark m :: xs).IsChain Adjacent := by
  obtain ⟨s, hs, hstarts⟩ := h.starts
  refine List.isChain_cons.mpr ⟨fun y hy => ?_, h.chain⟩
  obtain rfl := Option.mem_unique hs hy
  exact .ahead hstarts

theorem operator (op : UnaryOp) (h : Phrase xs) : Phrase (.mark op.mark :: xs) := by
  obtain ⟨s, hs, hends⟩ := h.ends
  refine ⟨h.chain_cons op.mark, ⟨_, rfl, .inr (by simp)⟩, ⟨s, ?_, hends⟩⟩
  rw [List.getLast?_cons, Option.mem_def.mp hs]
  rfl

theorem join {m : Mark} (hm : m ≠ .leftParen) (h : Phrase xs) (h' : Phrase ys) :
    Phrase (xs ++ .mark m :: ys) := by
  obtain ⟨x, hx, hstarts⟩ := h.starts
  obtain ⟨x', hx', hends⟩ := h.ends
  obtain ⟨y, hy, hends'⟩ := h'.ends
  refine ⟨h.chain.append (h'.chain_cons m) ?_, ⟨x, ?_, hstarts⟩, ⟨y, ?_, hends'⟩⟩
  · rintro z hz _ ⟨⟩
    obtain rfl := Option.mem_unique hx' hz
    exact .behind hends hm
  · rw [List.head?_append, Option.mem_def.mp hx]
    rfl
  · rw [List.getLast?_append, List.getLast?_cons, Option.mem_def.mp hy]
    rfl

theorem chain_append (h : Phrase xs) :
    (xs ++ [Symbol.mark .rightParen]).IsChain Adjacent := by
  obtain ⟨x, hx, hends⟩ := h.ends
  have hm : Mark.rightParen ≠ .leftParen := by decide
  refine h.chain.append (.singleton _) ?_
  rintro z hz _ ⟨⟩
  obtain rfl := Option.mem_unique hx hz
  exact .behind hends hm

theorem parens (h : Phrase xs) : Phrase (.mark .leftParen :: xs ++ [.mark .rightParen]) := by
  have hlast : (Symbol.mark .leftParen :: xs ++ [Symbol.mark .rightParen]).getLast? =
      some (.mark .rightParen) := List.getLast?_concat
  refine ⟨List.isChain_cons.mpr ⟨fun y hy => ?_, h.chain_append⟩, ⟨_, rfl, .inl rfl⟩,
    ⟨_, hlast, rfl⟩⟩
  obtain ⟨x, hx, hstarts⟩ := h.starts
  rw [List.append_eq, List.head?_append, Option.mem_def.mp hx] at hy
  cases hy
  exact .ahead hstarts

theorem enclose (precedence need : Nat) (h : Phrase xs) :
    Phrase (Expr.enclose precedence need xs) := by
  unfold Expr.enclose
  split
  · exact h.parens
  · exact h

/-- The call of a function, with arguments that make up a phrase or with none. -/
theorem call (name : String) (h : xs = [] ∨ Phrase xs) :
    Phrase (.name name :: .mark .leftParen :: xs ++ [.mark .rightParen]) := by
  have hlast : (Symbol.name name :: .mark .leftParen :: xs ++ [Symbol.mark .rightParen]).getLast? =
      some (.mark .rightParen) := List.getLast?_concat
  have hparens : (Symbol.mark .leftParen :: xs ++ [Symbol.mark .rightParen]).IsChain Adjacent := by
    rcases h with rfl | h
    · exact List.isChain_cons_cons.mpr ⟨.empty, .singleton _⟩
    · exact h.parens.chain
  exact ⟨List.isChain_cons_cons.mpr ⟨.called name, hparens⟩, ⟨_, rfl, trivial⟩, ⟨_, hlast, rfl⟩⟩

end Phrase

theorem InfixOp.mark_ne_leftParen (op : InfixOp) : op.mark ≠ .leftParen := by
  rcases op with op | op <;> cases op <;> decide

theorem phrase_argumentSymbols {args : List Tree} (hne : args ≠ [])
    (h : ∀ arg ∈ args, Phrase (arg.symbols 0)) : Phrase (Tree.argumentSymbols args) := by
  induction args with
  | nil => exact absurd rfl hne
  | cons arg args ih =>
    have harg := h arg List.mem_cons_self
    by_cases hargs : args = []
    · subst hargs
      exact harg
    · rw [Tree.argumentSymbols_cons arg hargs]
      exact harg.join (by decide) (ih hargs fun a ha => h a (List.mem_cons_of_mem arg ha))

/-- The symbols of an expression follow each other and make up an operand. -/
theorem phrase_symbols (t : Tree) (need : Nat) : Phrase (t.symbols need) := by
  induction t using Tree.infixInduction generalizing need with
  | leaf t hleaf =>
    rw [Tree.symbols_of_isLeaf hleaf]
    exact .leaf t
  | unary op operand ih =>
    rw [Tree.symbols]
    exact ((ih 14).operator op).enclose 14 need
  | infixes op left right ihl ihr =>
    rw [InfixOp.symbols_join]
    exact ((ihl _).join op.mark_ne_leftParen (ihr _)).enclose _ need
  | ternary condition yes no ihc ihy ihn =>
    rw [Tree.symbols, List.append_assoc]
    exact ((ihc 1).join (by decide) ((ihy 0).join (by decide) (ihn 0))).enclose 0 need
  | call name args ih =>
    rw [Tree.symbols]
    refine .call name ?_
    by_cases hargs : args = []
    · subst hargs
      exact .inl rfl
    · exact .inr (phrase_argumentSymbols hargs fun arg harg => ih arg harg 0)

/-! ## Words and the blanks behind them -/

def Token.IsText (token : Token) (word : String) : Prop :=
  ∃ c cs, word.toList = c :: cs ∧ isSpace c = false ∧ readToken c cs = .ok (token, [])

def isWordOperator (word : String) : Bool :=
  ["eq", "ne", "in", "ni"].contains word

/-- A word of an expression with the blanks behind it. -/
structure Lexeme where
  word : String
  gap : String

def laidOut : List Lexeme → String
  | [] => ""
  | l :: ls => l.word ++ l.gap ++ laidOut ls

namespace Lexeme

/-- The word is one token, which stands for a symbol, and what is behind it is blank. -/
structure Writes (l : Lexeme) (symbol : Symbol) : Prop where
  word : ∃ token : Token, token.IsText l.word ∧ token.Spells symbol
  gap : ∀ c ∈ l.gap.toList, isSpace c = true

/-- Where nothing is between two words, neither of them is an operator that is written as a word. -/
def KeepsApart (l next : Lexeme) : Prop :=
  l.gap = "" → isWordOperator l.word = false ∧ isWordOperator next.word = false

/-- A word that starts like a name has a colon directly behind it. -/
def Fuses (l next : Lexeme) : Prop :=
  l.gap = "" ∧ next.word = ":" ∧ ∃ c ∈ l.word.toList.head?, isWordStart c = true

end Lexeme

theorem Lexeme.writes_of_readToken {c : Char} {cs : List Char} {token : Token} {symbol : Symbol}
    {gap : String} (hc : isSpace c = false) (h : readToken c cs = .ok (token, []))
    (hs : token.Spells symbol) (hgap : ∀ d ∈ gap.toList, isSpace d = true) :
    Lexeme.Writes ⟨String.ofList (c :: cs), gap⟩ symbol :=
  ⟨⟨token, ⟨c, cs, String.toList_ofList, hc, h⟩, hs⟩, hgap⟩

theorem toList_laidOut (l : Lexeme) (ls : List Lexeme) :
    (laidOut (l :: ls)).toList = l.word.toList ++ (l.gap.toList ++ (laidOut ls).toList) := by
  rw [laidOut, String.toList_append, String.toList_append, List.append_assoc]

theorem tokenize_blanks {gap : List Char} (h : ∀ c ∈ gap, isSpace c = true) (cs : List Char) :
    tokenize (gap ++ cs) = tokenize cs := by
  induction gap with
  | nil => rfl
  | cons c gap ih =>
    rw [List.cons_append, tokenize, if_pos (h c List.mem_cons_self),
      ih fun d hd => h d (List.mem_cons_of_mem c hd)]

/-! ## The token of a word -/

theorem isWordOperator_of_wordToken {m : Mark} {name : String} (h : wordToken name = .mark m) :
    isWordOperator name = true := by
  unfold wordToken at h
  split at h <;> first | rfl | cases h

theorem isWord_of_readMark? {c : Char} {cs rest : List Char} {m : Mark}
    (h : readMark? c cs = some (m, rest)) : m.isWord = false := by
  unfold readMark? at h
  split at h <;> cases h <;> rfl

theorem wordToken_of_isText {token : Token} {word : String} (h : token.IsText word)
    (hc : ∃ c ∈ word.toList.head?, isWordStart c = true) :
    token = wordToken word := by
  obtain ⟨c, cs, heq, -, hread⟩ := h
  obtain ⟨c', hc', hletter⟩ := hc
  rw [heq] at hc'
  cases hc'
  rw [readToken_word hletter] at hread
  obtain ⟨rfl, hrest⟩ := Prod.mk.inj (Except.ok.inj hread)
  rw [List.takeWhile_eq_self_iff.mpr (List.dropWhile_eq_nil_iff.mp hrest), ← heq,
    String.ofList_toList]

theorem isWord_of_isText {m : Mark} {word : String} (h : Token.IsText (.mark m) word)
    (hword : isWordOperator word = false) : m.isWord = false := by
  have htext := h
  obtain ⟨c, cs, heq, -, hread⟩ := h
  generalize htoken : Token.mark m = token at hread htext
  generalize hrest : ([] : List Char) = rest at hread
  cases lexes_of_readToken hread with
  | word hc =>
    have hoperator := isWordOperator_of_wordToken
      (htoken.trans (wordToken_of_isText htext ⟨c, by simp [heq], hc⟩)).symm
    rw [hword] at hoperator
    cases hoperator
  | mark _ hmark =>
    cases htoken
    exact isWord_of_readMark? hmark
  | _ => cases htoken

theorem word_of_colon {word : String} (h : Token.IsText (.mark .colon) word) : word = ":" := by
  obtain ⟨c, cs, heq, -, hread⟩ := h
  obtain ⟨-, hmark⟩ := readMark?_of_readToken rfl hread
  rw [← String.ofList_toList (s := word), heq]
  unfold readMark? at hmark
  split at hmark <;> cases hmark
  rfl

theorem head?_of_word {name word : String} (h : Token.IsText (.word name) word) :
    ∃ c ∈ word.toList.head?, isWordStart c = true := by
  obtain ⟨c, cs, heq, -, hread⟩ := h
  refine ⟨c, by simp [heq], ?_⟩
  generalize htoken : Token.word name = token at hread
  generalize ([] : List Char) = rest at hread
  cases lexes_of_readToken hread with
  | word hc => exact hc
  | _ => cases htoken

/-! ## The end of a word -/

section
variable {token : Token} {more : List Char}

theorem ne_unknown_of_spells {symbol : Symbol} (h : token.Spells symbol) (c : Char) :
    token ≠ .unknown c := by
  rintro rfl
  cases symbol <;> cases h

theorem eq_mark_of_spells {m : Mark} {symbol : Symbol} (h : (Token.mark m).Spells symbol) :
    symbol = .mark m := by
  cases symbol <;> cases h
  rfl

theorem Mark.joins_of_isSpace (m : Mark) {d : Char} (hd : isSpace d = true) :
    m.joins d = false := by
  rcases isSpace_cases hd with rfl | rfl | rfl | rfl <;> cases m <;> rfl

theorem endsBefore_blank (h : ∀ c, token ≠ .unknown c)
    (hblank : ∀ d ∈ more.head?, isSpace d = true) : token.EndsBefore more := by
  match token with
  | .unknown c => exact absurd rfl (h c)
  | .variable _ =>
    cases more with
    | nil => exact ⟨rfl, by decide⟩
    | cons d ds =>
      have hname : isNameChar d = false ∧ d ≠ ':' ∧ d ≠ '(' := by
        rcases isSpace_cases (hblank d rfl) with rfl | rfl | rfl | rfl <;> decide
      exact ⟨splitName_stop hname.1 fun heq => absurd heq hname.2.1, by simpa using hname.2.2⟩
  | .number _ => exact fun d hd => isNumberChar_of_isSpace (hblank d hd)
  | .word _ => exact fun d hd => isWordChar_of_isSpace (hblank d hd)
  | .mark m => exact fun d hd => m.joins_of_isSpace (hblank d hd)
  | .command _ | .quoted _ | .braced _ => trivial

/-- An operand ends in front of a mark, a word in front of any but a colon. -/
theorem endsBefore_mark {t : Tree} (h : token.operand? = some t) {c : Char} {cs : List Char}
    {m : Mark} (hm : m ≠ .leftParen) (hname : isNameChar c = false)
    (hread : readMark? c cs = some (m, [])) (hword : ∀ name, token = .word name → m ≠ .colon)
    (hcolon : m = .colon → more.head? ≠ some ':') : token.EndsBefore (c :: (cs ++ more)) := by
  have hc := Mark.startsWith_of_readMark? hread
  match token with
  | .unknown _ | .mark _ => cases h
  | .variable _ =>
    refine ⟨splitName_stop hname fun heq => ?_, ?_⟩
    · subst heq
      obtain ⟨rfl, rfl⟩ := Prod.mk.inj (Option.some.inj hread)
      exact hcolon rfl
    · rintro ⟨⟩
      exact hm (hc.paren rfl)
  | .number _ =>
    rintro d ⟨⟩
    have hpoint : c ≠ '.' := fun heq => hc.special (by simp [heq])
    simp only [isNameChar, Bool.or_eq_false_iff] at hname
    simp [isNumberChar, hname, hpoint]
  | .word name =>
    rintro d ⟨⟩
    have hne : c ≠ ':' := fun heq => hword name rfl (hc.colon heq)
    simp [isWordChar, hname, hne]
  | .command _ | .quoted _ | .braced _ => trivial

/-- The token of a symbol ends in front of the word of the next one. -/
theorem endsBefore_of_adjacent {x x' : Symbol} (hadj : Adjacent x x') (hx : token.Spells x)
    {token' : Token} {word : String} (hx' : token'.Spells x') (hword : token'.IsText word)
    (hmark : ∀ m, token = .mark m → m.isWord = false)
    (hmark' : ∀ m, token' = .mark m → m.isWord = false)
    (hfuse : ∀ name, token = .word name → token' ≠ .mark .colon)
    (hcolon : token' = .mark .colon → more.head? ≠ some ':') :
    token.EndsBefore (word.toList ++ more) := by
  obtain ⟨c, cs, heq, -, hread⟩ := hword
  rw [heq, List.cons_append]
  cases hadj with
  | called name =>
    cases hx
    cases hx'
    obtain ⟨hname, hmark⟩ := readMark?_of_readToken rfl hread
    rintro d ⟨⟩
    have hne : c ≠ ':' := fun h => absurd ((Mark.startsWith_of_readMark? hmark).colon h) (by decide)
    simp [isWordChar, hname, hne]
  | empty =>
    cases hx
    exact fun d _ => rfl
  | @behind x m hs hm =>
    cases hx'
    obtain ⟨hname, hread'⟩ := readMark?_of_readToken (hmark' m rfl) hread
    cases x with
    | name => exact absurd hs id
    | leaf t =>
      exact endsBefore_mark hx hm hname hread' (fun name h heq => hfuse name h (by rw [heq]))
        fun h => hcolon (by rw [h])
    | mark m' =>
      cases hs
      cases hx
      exact fun d _ => rfl
  | @ahead m x' hs =>
    cases hx
    rintro d ⟨⟩
    exact Mark.joins_of_opensOperand (hmark m rfl) (opensOperand_of_starts hs hx' hread)

end

/-! ## The tokens of a whole text -/

section
variable {l : Lexeme} {ls : List Lexeme} {x : Symbol} {xs : List Symbol} {token : Token}

theorem head?_behind_colon (hgap : ∀ c ∈ l.gap.toList, isSpace c = true)
    (hls : List.Forall₂ Lexeme.Writes ls xs)
    (hadj : (Symbol.mark .colon :: xs).IsChain Adjacent) :
    (l.gap.toList ++ (laidOut ls).toList).head? ≠ some ':' := by
  cases hg : l.gap.toList with
  | cons s gap =>
    rintro ⟨⟩
    exact absurd (hgap ':' (by simp [hg])) (by decide)
  | nil =>
    cases hls with
    | nil => simp [laidOut]
    | @cons l' x' ls xs hl' hls =>
      obtain ⟨token', ⟨c, cs, heq, -, hread⟩, hspells⟩ := hl'.word
      have hopens : opensOperand c = true := by
        cases (List.isChain_cons_cons.mp hadj).1 with
        | behind hs _ => cases hs
        | ahead hs => exact opensOperand_of_starts hs hspells hread
      rw [toList_laidOut, heq]
      rintro ⟨⟩
      cases hopens

/-- Each token ends in front of what is behind its word. -/
theorem endsBefore_laidOut (hl : token.IsText l.word) (hx : token.Spells x)
    (hgap : ∀ c ∈ l.gap.toList, isSpace c = true) (hls : List.Forall₂ Lexeme.Writes ls xs)
    (hadj : (x :: xs).IsChain Adjacent) (hapart : (l :: ls).IsChain Lexeme.KeepsApart)
    (hfuse : ∀ next ∈ ls.head?, ¬l.Fuses next) :
    token.EndsBefore (l.gap.toList ++ (laidOut ls).toList) := by
  by_cases hnone : l.gap = ""
  · rw [hnone]
    cases hls with
    | nil => exact endsBefore_blank (ne_unknown_of_spells hx) (by simp [laidOut])
    | @cons l' x' ls xs hl' hls =>
      obtain ⟨token', htoken', hspells⟩ := hl'.word
      obtain ⟨hword, hword'⟩ := (List.isChain_cons_cons.mp hapart).1 hnone
      obtain ⟨hpair, hrest⟩ := List.isChain_cons_cons.mp hadj
      rw [String.toList_empty, List.nil_append, toList_laidOut]
      refine endsBefore_of_adjacent hpair hx hspells htoken' ?_ ?_ ?_ ?_
      · rintro m rfl
        exact isWord_of_isText hl hword
      · rintro m rfl
        exact isWord_of_isText htoken' hword'
      · rintro name rfl rfl
        exact hfuse l' rfl ⟨hnone, word_of_colon htoken', head?_of_word hl⟩
      · rintro rfl
        obtain rfl := eq_mark_of_spells hspells
        exact head?_behind_colon hl'.gap hls hrest
  · refine endsBefore_blank (ne_unknown_of_spells hx) fun d hd => hgap d ?_
    obtain ⟨c, gap, heq⟩ := List.exists_cons_of_ne_nil (mt String.toList_eq_nil_iff.mp hnone)
    rw [heq] at hd ⊢
    cases hd
    exact List.mem_cons_self

theorem tokenize_laidOut_cons (hl : token.IsText l.word)
    (hgap : ∀ c ∈ l.gap.toList, isSpace c = true)
    (hends : token.EndsBefore (l.gap.toList ++ (laidOut ls).toList)) :
    tokenize (laidOut (l :: ls)).toList = (tokenize (laidOut ls).toList).map (token :: ·) := by
  obtain ⟨c, cs, heq, hc, hread⟩ := hl
  rw [toList_laidOut, heq, List.cons_append,
    tokenize_of_readToken hc (readToken_append_of_stop hread hends), tokenize_blanks hgap]

end

/-- A written expression without some of its blanks has the tokens of its symbols. -/
theorem tokenize_laidOut {ls : List Lexeme} {symbols : List Symbol}
    (hls : List.Forall₂ Lexeme.Writes ls symbols) (hadj : symbols.IsChain Adjacent)
    (hapart : ls.IsChain Lexeme.KeepsApart)
    (hfuse : ls.IsChain fun l next => ¬l.Fuses next) :
    ∃ ts, tokenize (laidOut ls).toList = .ok ts ∧ Spelled ts symbols := by
  induction hls with
  | nil => exact ⟨[], by simp [laidOut, tokenize], .nil⟩
  | @cons l x ls xs hl hls ih =>
    obtain ⟨token, htoken, hspells⟩ := hl.word
    obtain ⟨hnext, hfuse⟩ := List.isChain_cons.mp hfuse
    obtain ⟨ts, hts, hspelled⟩ := ih hadj.tail hapart.tail hfuse
    have hends := endsBefore_laidOut htoken hspells hl.gap hls hadj hapart hnext
    exact ⟨token :: ts, by rw [tokenize_laidOut_cons htoken hl.gap hends, hts]; rfl,
      .cons hspells hspelled⟩

/-! ## A word that takes in a colon -/

theorem wordToken_of_colon {name : String} (h : ':' ∈ name.toList) :
    wordToken name = .word name := by
  unfold wordToken
  split
  · exact absurd h (by decide)
  · exact absurd h (by decide)
  · exact absurd h (by decide)
  · exact absurd h (by decide)
  · rfl

/-- A word with a colon directly behind it is one token with the colon, which is no value. -/
theorem exists_word_of_fuses {l next : Lexeme} {token : Token} (hl : token.IsText l.word)
    (hfuses : l.Fuses next) {ls : List Lexeme} {ts : List Token}
    (hts : tokenize (laidOut (l :: next :: ls)).toList = .ok ts) :
    ∃ word back, ts = .word word :: back ∧ bareword? word = none := by
  obtain ⟨hgap, hcolon, c', hc', hletter⟩ := hfuses
  obtain ⟨c, cs, heq, hc, hread⟩ := hl
  rw [heq] at hc'
  obtain rfl : c = c' := Option.some.inj hc'
  have hall : ∀ d ∈ cs, isWordChar d = true := by
    rw [readToken_word hletter] at hread
    exact List.dropWhile_eq_nil_iff.mp (Prod.mk.inj (Except.ok.inj hread)).2
  obtain ⟨more, hmore⟩ : ∃ more, (laidOut (l :: next :: ls)).toList = c :: (cs ++ ':' :: more) := by
    refine ⟨next.gap.toList ++ (laidOut ls).toList, ?_⟩
    rw [toList_laidOut, toList_laidOut, heq, hgap, hcolon]
    rfl
  have htake :
      (cs ++ ':' :: more).takeWhile isWordChar = cs ++ ':' :: more.takeWhile isWordChar := by
    rw [List.takeWhile_append_of_pos hall, List.takeWhile_cons_of_pos rfl]
  have hmem : ':' ∈ c :: (cs ++ ':' :: more.takeWhile isWordChar) := by simp
  have hblank : ∀ d ∈ c :: (cs ++ ':' :: more.takeWhile isWordChar), isBlank d = false := by
    rw [← htake]
    rintro d (_ | ⟨_, hd⟩)
    · exact isBlank_of_isWordChar (by simp [isWordChar, isNameChar_of_isWordStart hletter])
    · exact isBlank_of_isWordChar (List.mem_takeWhile_imp hd)
  rw [hmore, tokenize_of_readToken hc (readToken_word hletter _), htake,
    wordToken_of_colon (by rwa [String.toList_ofList])] at hts
  cases hback : tokenize ((cs ++ ':' :: more).dropWhile isWordChar) with
  | error e =>
    rw [hback] at hts
    cases hts
  | ok back =>
    rw [hback] at hts
    cases hts
    exact ⟨_, back, rfl, bareword?_of_colon hletter hmem hblank⟩

theorem eq_leaf_of_fuses {l next : Lexeme} {token : Token} {x x' : Symbol}
    (hl : token.IsText l.word) (hx : token.Spells x) (hfuses : l.Fuses next)
    (hnext : next.Writes x') (hadj : Adjacent x x') : ∃ t, x = .leaf t := by
  obtain ⟨hgap, hcolon, hletter⟩ := hfuses
  obtain ⟨token', htoken', hspells⟩ := hnext.word
  have hx' : x' = .mark .colon := by
    obtain ⟨c, cs, heq, -, hread⟩ := htoken'
    rw [hcolon] at heq
    cases heq
    cases hread
    exact eq_mark_of_spells hspells
  subst hx'
  cases hadj with
  | behind hs hm =>
    cases x with
    | leaf t => exact ⟨t, rfl⟩
    | name => cases hs
    | mark m =>
      cases hs
      cases hx
      have hword := wordToken_of_isText hl hletter
      rcases wordToken_cases l.word with ⟨m, hm, hisWord⟩ | hname
      · rw [hm] at hword
        cases hword
        cases hisWord
      · rw [hname] at hword
        cases hword
  | ahead hs => rcases hs with hs | hs <;> cases hs

/-- Where a word takes in a colon, a word that is no value is read in the place of an operand. -/
theorem exists_word_of_not_isChain {ls : List Lexeme} {symbols : List Symbol} {ts : List Token}
    (hls : List.Forall₂ Lexeme.Writes ls symbols) (hadj : symbols.IsChain Adjacent)
    (hapart : ls.IsChain Lexeme.KeepsApart)
    (hfuse : ¬ls.IsChain fun l next => ¬l.Fuses next)
    (hts : tokenize (laidOut ls).toList = .ok ts) :
    ∃ front word back xs t ys, ts = front ++ .word word :: back ∧ symbols = xs ++ .leaf t :: ys ∧
      Spelled front xs ∧ bareword? word = none := by
  induction hls generalizing ts with
  | nil => exact absurd .nil hfuse
  | @cons l x ls xs hl hls ih =>
    obtain ⟨token, htoken, hspells⟩ := hl.word
    by_cases hnext : ∀ next ∈ ls.head?, ¬l.Fuses next
    · have hends := endsBefore_laidOut htoken hspells hl.gap hls hadj hapart hnext
      rw [tokenize_laidOut_cons htoken hl.gap hends] at hts
      cases htail : tokenize (laidOut ls).toList with
      | error e =>
        rw [htail] at hts
        cases hts
      | ok ts' =>
        rw [htail] at hts
        cases hts
        have hfuse' : ¬ls.IsChain fun l next => ¬l.Fuses next :=
          fun h => hfuse (List.isChain_cons.mpr ⟨hnext, h⟩)
        obtain ⟨front, word, back, xs, t, ys, rfl, rfl, hfront, hword⟩ :=
          ih hadj.tail hapart.tail hfuse' htail
        exact ⟨token :: front, word, back, x :: xs, t, ys, rfl, rfl, .cons hspells hfront, hword⟩
    · obtain ⟨next, hnext, hfuses⟩ : ∃ next ∈ ls.head?, l.Fuses next := by simpa using hnext
      obtain ⟨ls, rfl⟩ := List.head?_eq_some_iff.mp hnext
      obtain ⟨word, back, rfl, hword⟩ := exists_word_of_fuses htoken hfuses hts
      cases hls with
      | @cons _ x' _ xs hl' hls =>
        obtain ⟨t, rfl⟩ := eq_leaf_of_fuses htoken hspells hfuses hl'
          (List.isChain_cons_cons.mp hadj).1
        exact ⟨[], word, back, [], t, x' :: xs, rfl, rfl, .nil, hword⟩

/-! ## Parentheses apart -/

def Token.isInner : Token → Bool
  | .mark .leftParen | .mark .rightParen => false
  | _ => true

theorem Erases.filter_isInner {ts us : List Token} (h : Erases ts us) :
    ts.filter Token.isInner = us.filter Token.isInner := by
  induction h with
  | nil => rfl
  | cons token _ ih => rw [List.filter_cons, List.filter_cons, ih]
  | pair _ _ ihu iht =>
    rw [List.cons_append, List.filter_cons_of_neg (by decide), List.filter_append,
      List.filter_cons_of_neg (by decide), List.filter_append, ihu, iht]

theorem isInner_congr {token token' : Token} {symbol : Symbol} (h : token.Spells symbol)
    (h' : token'.Spells symbol) : token.isInner = token'.isInner := by
  cases symbol with
  | leaf t =>
    have hinner {token : Token} (h : token.operand? = some t) : token.isInner = true := by
      cases token with
      | mark => cases h
      | _ => rfl
    rw [hinner h, hinner h']
  | name =>
    obtain rfl : token = token' := Eq.trans h h'.symm
    rfl
  | mark =>
    obtain rfl : token = token' := Eq.trans h h'.symm
    rfl

theorem length_filter_isInner {ts us : List Token} {symbols : List Symbol}
    (h : Spelled ts symbols) (h' : Spelled us symbols) :
    (ts.filter Token.isInner).length = (us.filter Token.isInner).length := by
  induction h generalizing us with
  | nil =>
    cases h'
    rfl
  | @cons token symbol ts symbols htoken _ ih =>
    cases h' with
    | @cons token' _ us _ htoken' h' =>
      rw [List.filter_cons, List.filter_cons, isInner_congr htoken htoken']
      split
      · exact congrArg Nat.succ (ih h')
      · exact ih h'

/-- Tokens with a word that is no value in the place of an operand are no written form with
parentheses added. -/
theorem not_covers_of_bareword? {front back : List Token} {word : String} {xs ys : List Symbol}
    {t : Tree} (hfront : Spelled front xs) (hword : bareword? word = none) :
    ¬Covers (front ++ .word word :: back) (xs ++ .leaf t :: ys) := by
  rintro ⟨us, herases, hus⟩
  obtain ⟨us, vs, rfl, hxs, hvs⟩ := spelled_append.mp hus
  obtain ⟨u, vs, hu, -, rfl⟩ := List.forall₂_cons_right_iff.mp hvs
  have hinner : u.isInner = true := by
    cases u with
    | mark => cases hu
    | _ => rfl
  have hfilter := herases.filter_isInner
  rw [List.filter_append, List.filter_append, List.filter_cons_of_pos rfl,
    List.filter_cons_of_pos hinner] at hfilter
  obtain ⟨-, htail⟩ := List.append_inj hfilter (length_filter_isInner hfront hxs)
  obtain ⟨rfl, -⟩ := List.cons.inj htail
  rw [Token.Spells, Token.operand?, hword] at hu
  cases hu

/-! ## Parsing without blanks -/

/-- The blanks of a written expression do not matter, next to operators that are words apart, unless
a word has a colon directly behind it.  Where none has, the text is read as the expression whichever
blanks are left out, and is too deep where it is so with all of them; where one has, it never is.
Punctuation need not be kept apart: none that stands next to each other makes another operator. -/
theorem parse_laidOut {t : Tree} {blanks : String} {ls : List Lexeme}
    (hblanks : ∀ c ∈ blanks.toList, isSpace c = true)
    (hls : List.Forall₂ Lexeme.Writes ls (t.symbols 0)) (hapart : ls.IsChain Lexeme.KeepsApart) :
    ((ls.IsChain fun l next => ¬l.Fuses next) →
      parse (blanks ++ laidOut ls) =
        if t.nesting 0 ≤ maxDescents ∧ t.chain ≤ maxChain then .ok t
        else .error (.grammar (blanks ++ laidOut ls) .tooDeep)) ∧
    (parse (blanks ++ laidOut ls) = .ok t → ls.IsChain fun l next => ¬l.Fuses next) := by
  have hadj := (phrase_symbols t 0).chain
  have htokens : tokenize (blanks ++ laidOut ls).toList = tokenize (laidOut ls).toList := by
    rw [String.toList_append, tokenize_blanks hblanks]
  constructor
  · intro hfuse
    obtain ⟨ts, hts, hspelled⟩ := tokenize_laidOut hls hadj hapart hfuse
    exact parse_of_tokenize (htokens.trans hts) hspelled
  · intro hparse
    obtain ⟨ts, k, hts, hderives⟩ := derives_of_parse hparse
    have hcovers := (hderives.renders 0 (Nat.le_refl 0)).covers (by decide)
    by_cases hfuse : ls.IsChain fun l next => ¬l.Fuses next
    · exact hfuse
    · obtain ⟨front, word, back, xs, t', ys, rfl, hsymbols, hfront, hword⟩ :=
        exists_word_of_not_isChain hls hadj hapart hfuse (htokens.symm.trans hts)
      rw [hsymbols] at hcovers
      exact absurd hcovers (not_covers_of_bareword? hfront hword)

theorem parse_conditional :
    let negation := Tree.unary .neg (.variable "$x")
    let t := Tree.ternary (.literal (.ofNum (.int 1))) (.literal (.str "true"))
      (.call "max" [.literal (.ofNum (.int 2)), negation])
    let ls : List Lexeme := [⟨"1", ""⟩, ⟨"?", ""⟩, ⟨"true", " "⟩, ⟨":", ""⟩, ⟨"max", ""⟩, ⟨"(", ""⟩,
      ⟨"2", ""⟩, ⟨",", ""⟩, ⟨"-", ""⟩, ⟨"$x", ""⟩, ⟨")", ""⟩]
    List.Forall₂ Lexeme.Writes ls (t.symbols 0) ∧ ls.IsChain Lexeme.KeepsApart ∧
      parse ("" ++ laidOut ls) = .ok t ∧ ls.IsChain fun l next => ¬l.Fuses next := by
  intro negation t ls
  have hnone : ∀ c ∈ "".toList, isSpace c = true := by simp
  have hwrites : List.Forall₂ Lexeme.Writes ls (t.symbols 0) := by
    have hmark {c : Char} {m : Mark} (hc : isSpace c = false)
        (h : readToken c [] = .ok (.mark m, [])) :
        Lexeme.Writes ⟨String.ofList [c], ""⟩ (.mark m) :=
      Lexeme.writes_of_readToken hc h rfl hnone
    have hnumber {c : Char} {n : Num} (hc : isSpace c = false)
        (h : readToken c [] = .ok (.number n, [])) :
        Lexeme.Writes ⟨String.ofList [c], ""⟩ (.leaf (.literal (.ofNum n))) :=
      Lexeme.writes_of_readToken hc h rfl hnone
    have htrue : Lexeme.Writes ⟨"true", " "⟩ (.leaf (.literal (.str "true"))) :=
      Lexeme.writes_of_readToken (c := 't') rfl rfl rfl (by simp [isSpace])
    have hmax : Lexeme.Writes ⟨"max", ""⟩ (.name "max") :=
      Lexeme.writes_of_readToken (c := 'm') rfl rfl rfl hnone
    have hx : Lexeme.Writes ⟨String.ofList ['$', 'x'], ""⟩ (.leaf (.variable "$x")) :=
      Lexeme.writes_of_readToken (c := '$') rfl rfl rfl hnone
    exact .cons (hnumber rfl rfl) <| .cons (hmark rfl rfl) <| .cons htrue <|
      .cons (hmark rfl rfl) <| .cons hmax <| .cons (hmark rfl rfl) <| .cons (hnumber rfl rfl) <|
      .cons (hmark rfl rfl) <| .cons (hmark rfl rfl) <| .cons hx <| .cons (hmark rfl rfl) .nil
  have hapart : ls.IsChain Lexeme.KeepsApart := by
    simp [ls, Lexeme.KeepsApart, isWordOperator]
  have hfuse : ls.IsChain fun l next => ¬l.Fuses next := by
    simp [ls, Lexeme.Fuses]
  have hparse := @parse_laidOut t "" ls hnone hwrites hapart
  have hok := (hparse.1 hfuse).trans (if_pos ⟨by decide, by decide⟩)
  exact ⟨hwrites, hapart, hok, hparse.2 hok⟩

/-- Without the blank in front of the colon the expression is refused. -/
theorem colon_taken_in :
    let one := Tree.literal (.ofNum (.int 1))
    let zero := Tree.literal (.ofNum (.int 0))
    parse "1 ? true : 0" = .ok (.ternary one (.literal (.str "true")) zero) ∧
      parse "1 ? true: 0" = .error (.grammar "1 ? true: 0" (.invalidBareword "true:")) := by
  intro one zero
  constructor
  · have hwords : List.Forall₂ Writes ["1", "?", "true", ":", "0"]
        ((Tree.ternary one (.literal (.str "true")) zero).symbols 0) := by
      have hmark {c : Char} {m : Mark} (hc : isSpace c = false)
          (h : readToken c [] = .ok (.mark m, [])) : Writes (String.ofList [c]) (.mark m) :=
        writes_of_readToken hc h rfl
      have hnumber {c : Char} {n : Num} (hc : isSpace c = false)
          (h : readToken c [] = .ok (.number n, [])) :
          Writes (String.ofList [c]) (.leaf (.literal (.ofNum n))) :=
        writes_of_readToken hc h rfl
      have htrue : Writes "true" (.leaf (.literal (.str "true"))) :=
        writes_of_readToken (c := 't') rfl rfl rfl
      exact .cons (hnumber rfl rfl) <| .cons (hmark rfl rfl) <| .cons htrue <|
        .cons (hmark rfl rfl) <| .cons (hnumber rfl rfl) .nil
    exact (parse_intercalate hwords).trans (if_pos ⟨by decide, by decide⟩)
  · have hblank : isSpace ' ' = true := rfl
    have hword : tokenize "true: 0".toList = .ok [.word "true:", .number (.int 0)] := by
      have htrue : tokenize ['t', 'r', 'u', 'e', ':'] = .ok [.word "true:"] :=
        tokenize_single rfl rfl
      have hzero : tokenize ['0'] = .ok [.number (.int 0)] := tokenize_single rfl rfl
      exact (tokenize_append hblank _ htrue).trans (congrArg _ hzero)
    have hquestion : tokenize "? true: 0".toList =
        .ok [.mark .question, .word "true:", .number (.int 0)] := by
      have hmark : tokenize ['?'] = .ok [.mark .question] := tokenize_single rfl rfl
      exact (tokenize_append hblank _ hmark).trans (congrArg _ hword)
    have htokens : tokenize "1 ? true: 0".toList =
        .ok [.number (.int 1), .mark .question, .word "true:", .number (.int 0)] := by
      have hone : tokenize ['1'] = .ok [.number (.int 1)] := tokenize_single rfl rfl
      exact (tokenize_append hblank _ hone).trans (congrArg _ hquestion)
    rw [parse, htokens]
    rfl

end TclHost.Expr
