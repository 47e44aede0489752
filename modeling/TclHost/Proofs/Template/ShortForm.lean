import TclHost.Proofs.Template.Integer
import TclHost.Proofs.Template.Layout
/-! # Placeholders that are written directly

A placeholder without a directive, and one with `%v` or `%q`, is written without looking at a
directive.  The directives `%v` and `%q` themselves go the long way, by sign and magnitude of a
number, and give the same texts.
-/
namespace TclHost.Template

open Double

def generalDirective : Directive :=
  ⟨false, false, false, false, false, none, none, 'v'⟩

def quotingDirective : Directive :=
  ⟨false, false, false, false, false, none, none, 'q'⟩

theorem parse_general : Directive.parse "%v" = .ok generalDirective :=
  rfl

theorem parse_quoting : Directive.parse "%q" = .ok quotingDirective :=
  rfl

theorem sign_general (negative : Bool) (body : List Char) :
    generalDirective.sign negative ++ body = signed negative body := by
  cases negative <;> rfl

/-- Sign and magnitude of a double make up its text; zero has no sign, and infinity always has. -/
theorem double_general (x : Float) :
    String.ofList (generalDirective.double x) = generalText x none false := by
  rw [Directive.double, generalText]
  cases datum x with
  | nan => rfl
  | infinite negative => cases negative <;> rfl
  | finite negative m e =>
    have hmagnitude : generalDirective.magnitude m e = generalMagnitude m e none false := rfl
    simp only [hmagnitude, sign_general, signed]
    by_cases hm : m = 0 <;> simp [hm]

theorem body_general (source : String) (arg : Arg) :
    generalDirective.body source arg = .ok arg.text.toList := by
  cases hinteger : arg.integer? with
  | some number =>
    obtain ⟨negative, magnitude⟩ := number
    rw [Directive.body_decimal source hinteger (.inl rfl) rfl, sign_general,
      Arg.toList_text hinteger]
  | none =>
    cases arg with
    | int n => simp [Arg.integer?] at hinteger
    | uint n => simp [Arg.integer?] at hinteger
    | float x =>
      rw [Arg.text, ← double_general, String.toList_ofList]
      rfl
    | str s => rfl
    | bool b => rfl

theorem applyDirective_general (arg : Arg) : applyDirective "%v" arg = .ok arg.text := by
  rw [applyDirective, parse_general]
  simp only [body_general, Except.map, Directive.pad_of_width_eq_none (d := generalDirective) rfl,
    String.ofList_toList]

theorem applyDirective_quoting (arg : Arg) : applyDirective "%q" arg = .ok (quote arg.text) := by
  have hbody : quotingDirective.body "%q" arg = .ok (quote arg.text).toList := rfl
  rw [applyDirective, parse_quoting]
  simp only [hbody, Except.map, Directive.pad_of_width_eq_none (d := quotingDirective) rfl,
    String.ofList_toList]

def placeholderWith (name directive : List Char) : List Char :=
  '%' :: '{' :: (name ++ (directive ++ ['}']))

theorem expandPieces_placeholder {β : Type} [Buffer β] {name directive : List Char} (hname : '%' ∉ name)
    (hclosed : '}' ∉ name ++ directive) (hdirective : ∀ c ∈ directive.head?, c = '%')
    {args : Args} {counter next : Nat} {arg : Arg}
    (hresolve : resolve (String.ofList name) args counter = .ok (arg, next)) {text : String}
    (hinsertion : insertion (if directive = [] then none else some (String.ofList directive)) arg =
      .ok text) (written : β) (rest : List Char) :
    expandPieces args counter written (pieces (placeholderWith name directive ++ rest)) =
      expandPieces args next (Buffer.append written text) (pieces rest) := by
  have htext : placeholderWith name directive ++ rest =
      '%' :: '{' :: ((name ++ directive) ++ '}' :: rest) := by
    simp [placeholderWith]
  have hbody : Piece.ofBody (name ++ directive) =
      .placeholder name (if directive = [] then none else some directive) := by
    have hplain : ∀ c ∈ name, (c != '%') = true := by
      intro c hc
      simp only [bne_iff_ne]
      rintro rfl
      exact hname hc
    obtain ⟨htake, hdrop⟩ := Text.span_append hplain (by simpa using hdirective)
    rw [Piece.ofBody, htake, hdrop]
    cases directive <;> simp
  rw [htext, pieces_placeholder hclosed, hbody, expandPieces, hresolve]
  dsimp only
  have hoption : (if directive = [] then none else some directive).map String.ofList =
      if directive = [] then none else some (String.ofList directive) := by
    split <;> rfl
  rw [hoption, hinsertion]

end TclHost.Template
