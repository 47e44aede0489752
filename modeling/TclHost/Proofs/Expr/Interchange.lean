import Mathlib.Data.List.Forall2
import TclHost.Expr.Operator
import TclHost.Proofs.Expr.NumberToken
import TclHost.Proofs.Value.NumberText
/-! # Numbers and their texts

Operators and functions see an operand only as a number, as a text and as a truth value.  A number
and its text agree in all three, so that no operator or function tells them apart.
-/
namespace TclHost

/-- Two operands that read as the same number, and have the same text and truth value. -/
structure Value.Alike (v w : Value) : Prop where
  num : v.num? = w.num?
  text : v.text = w.text
  truth : v.truth = w.truth

namespace Value

theorem Alike.refl (v : Value) : Alike v v :=
  ⟨rfl, rfl, rfl⟩

theorem textNum?_intText (n : Int64) : textNum? (intText n) = some (.int n) := by
  rw [textNum?, parseInt_intText]

theorem textNum?_doubleText (x : Float) : textNum? (doubleText x) = some (.float x) := by
  obtain ⟨⟨error, hint⟩, hdouble⟩ := parseDouble_doubleText x
  rw [textNum?, hint, hdouble]

theorem alike_text (v : Value) : Alike (.str v.text) v := by
  cases v with
  | int n =>
    refine ⟨textNum?_intText n, rfl, ?_⟩
    rw [text, truth, truth, Number.parseBool, parseDouble_intText]
    dsimp only
    have hzero : (n.toInt == 0) = (n == 0) := by
      rw [Bool.eq_iff_iff, beq_iff_eq, beq_iff_eq, ← Int64.toInt_zero, Int64.toInt_inj]
    rw [isZero_ofInt, hzero]
    rfl
  | float x =>
    refine ⟨textNum?_doubleText x, rfl, ?_⟩
    rw [text, truth, truth, Number.parseBool, (parseDouble_doubleText x).2]
  | str s => exact .refl _

variable {v w : Value}

theorem Alike.asNum (h : Alike v w) (operator : String) : v.asNum operator = w.asNum operator := by
  rw [Value.asNum, Value.asNum, h.num, h.text]

theorem Alike.asInt (h : Alike v w) (operator : String) : v.asInt operator = w.asInt operator := by
  rw [Value.asInt, Value.asInt, h.asNum, h.text]

theorem Alike.compare {v' w' : Value} (h : Alike v w) (h' : Alike v' w') :
    v.compare v' = w.compare w' := by
  rw [Value.compare, Value.compare, h.num, h.text, h'.num, h'.text]

end Value

namespace Expr

open Value Text

variable {v w v' w' : Value}

theorem number_congr (h : Alike v w) (operator : String) :
    number operator v = number operator w := by
  rw [number, number, h.asNum]

theorem integer_congr (h : Alike v w) (operator : String) :
    integer operator v = integer operator w := by
  rw [integer, integer, h.asInt]

theorem truth_congr (h : Alike v w) : truth v = truth w := by
  rw [truth, truth, h.truth]

theorem applyBinary_congr (op : BinaryOp) (h : Alike v w) (h' : Alike v' w') :
    applyBinary op v v' = applyBinary op w w' := by
  simp only [applyBinary, number_congr h, number_congr h', integer_congr h, integer_congr h',
    h.compare h', h.text, h'.text]

theorem applyUnary_congr (op : UnaryOp) (h : Alike v w) : applyUnary op v = applyUnary op w := by
  simp only [applyUnary, number_congr h, integer_congr h, truth_congr h]

section
variable {vs ws : List Value} (h : List.Forall₂ Alike vs ws)
include h

theorem oneNumber_congr (name : String) (f : Num → Except OperatorError Value) :
    oneNumber name f vs = oneNumber name f ws := by
  cases h with
  | nil => rfl
  | cons hv hvs =>
    cases hvs with
    | nil => rw [oneNumber, oneNumber, number_congr hv]
    | cons => rfl

theorem extreme_congr (name : String) (wanted : Ordering) (best : Num) :
    extreme name wanted best vs = extreme name wanted best ws := by
  induction h generalizing best with
  | nil => rfl
  | cons hv _ ih => simp only [extreme, number_congr hv, ih]

theorem pickExtreme_congr (name : String) (wanted : Ordering) :
    pickExtreme name wanted vs = pickExtreme name wanted ws := by
  cases h with
  | nil => rfl
  | cons hv hvs => simp only [pickExtreme, number_congr hv, extreme_congr hvs]

theorem applyFunction_congr (name : String) : applyFunction name vs = applyFunction name ws := by
  unfold applyFunction
  simp only [oneNumber_congr h, pickExtreme_congr h]
  split
  case h_8 =>
    cases h with
    | nil => rfl
    | cons hv hvs =>
      cases hvs with
      | nil => rfl
      | cons hw hws =>
        cases hws with
        | nil => simp only [number_congr hv, number_congr hw]
        | cons => rfl
  all_goals rfl

end

/-- A number and its text are interchangeable. -/
theorem text_interchangeable :
    (∀ v : Value,
      (∀ operator, (Value.str v.text).asNum operator = v.asNum operator ∧
        (Value.str v.text).asInt operator = v.asInt operator) ∧
      (Value.str v.text).truth = v.truth ∧
      (∀ u, (Value.str v.text).compare u = v.compare u ∧
        u.compare (.str v.text) = u.compare v) ∧
      (∀ op u, applyBinary op (.str v.text) u = applyBinary op v u ∧
        applyBinary op u (.str v.text) = applyBinary op u v) ∧
      (∀ op, applyUnary op (.str v.text) = applyUnary op v) ∧
      ∀ name before after, applyFunction name (before ++ .str v.text :: after) =
        applyFunction name (before ++ v :: after)) ∧
    ∀ c cs, isAsciiDigit c = true ∨ c = '.' →
      (numberText c cs).1 ++ (numberText c cs).2 = c :: cs ∧
      (∀ token rest, readNumber c cs = .ok (token, rest) ↔ rest = (numberText c cs).2 ∧
        ∃ n, token = .number n ∧ Value.ofText (String.ofList (numberText c cs).1) = .ofNum n) ∧
      ((∃ e, readNumber c cs = .error e) ↔
        Value.ofText (String.ofList (numberText c cs).1) =
          .str (String.ofList (numberText c cs).1)) := by
  refine ⟨fun v => ?_, fun c cs hc => ⟨numberText_append c cs, readNumber_iff hc cs⟩⟩
  have h := alike_text v
  have hargs (before after : List Value) :
      List.Forall₂ Alike (before ++ .str v.text :: after) (before ++ v :: after) :=
    List.rel_append (List.forall₂_same.mpr fun u _ => .refl u)
      (.cons h (List.forall₂_same.mpr fun u _ => .refl u))
  exact ⟨fun operator => ⟨h.asNum operator, h.asInt operator⟩, h.truth,
    fun u => ⟨h.compare (.refl u), (Alike.refl u).compare h⟩,
    fun op u => ⟨applyBinary_congr op h (.refl u), applyBinary_congr op (.refl u) h⟩,
    fun op => applyUnary_congr op h,
    fun name before after => applyFunction_congr (hargs before after) name⟩

theorem text_interchangeable_seven :
    isAsciiDigit '7' = true ∧ (Value.int 7).text = "7" ∧
      applyBinary .add (.str (Value.int 7).text) (.int 1) = applyBinary .add (.int 7) (.int 1) ∧
      ∀ token rest, readNumber '7' ['+', '1'] = .ok (token, rest) ↔ rest = ['+', '1'] ∧
        ∃ n, token = .number n ∧ Value.ofText "7" = .ofNum n :=
  ⟨rfl, rfl, ((text_interchangeable.1 (.int 7)).2.2.2.1 .add (.int 1)).1,
    (text_interchangeable.2 '7' ['+', '1'] (.inl rfl)).2.1⟩

end Expr
end TclHost
