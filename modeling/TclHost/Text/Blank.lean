/-! # White space

The blanks of a number or a trimmed text are the characters with the Unicode property
`White_Space`; the blanks that separate list elements are the six ASCII ones only.
-/
namespace TclHost.Text

/-- A character with the Unicode property `White_Space`. -/
def isBlank (c : Char) : Bool :=
  let n := c.toNat
  (9 ≤ n && n ≤ 13) || n == 0x20 || n == 0x85 || n == 0xA0 || n == 0x1680
    || (0x2000 ≤ n && n ≤ 0x200A) || n == 0x2028 || n == 0x2029 || n == 0x202F
    || n == 0x205F || n == 0x3000

def isListSpace (c : Char) : Bool :=
  c == ' ' || c == '\t' || c == '\n' || c == '\r' || c == '\x0b' || c == '\x0c'

theorem isBlank_of_isListSpace {c : Char} (h : isListSpace c = true) : isBlank c = true := by
  simp only [isListSpace, Bool.or_eq_true, beq_iff_eq] at h
  rcases h with ((((rfl | rfl) | rfl) | rfl) | rfl) | rfl <;> decide

def dropEndWhile (test : Char → Bool) (cs : List Char) : List Char :=
  (cs.reverse.dropWhile test).reverse

def trimWhile (test : Char → Bool) (cs : List Char) : List Char :=
  dropEndWhile test (cs.dropWhile test)

def trim (cs : List Char) : List Char :=
  trimWhile isBlank cs

theorem isBlank_of_visible {c : Char} (h : 0x21 ≤ c.toNat) (h' : c.toNat ≤ 0x7E) :
    isBlank c = false := by
  simp only [isBlank, Bool.or_eq_false_iff, Bool.and_eq_false_iff, decide_eq_false_iff_not,
    beq_eq_false_iff_ne]
  omega

theorem trim_eq {cs : List Char} (h : ∀ c ∈ cs, isBlank c = false) : trim cs = cs := by
  have hfront : cs.dropWhile isBlank = cs := by
    cases cs with
    | nil => rfl
    | cons c cs => exact List.dropWhile_cons_of_neg (by simp [h c List.mem_cons_self])
  have hback : cs.reverse.dropWhile isBlank = cs.reverse := by
    cases hcs : cs.reverse with
    | nil => rfl
    | cons c ds =>
      have hc : c ∈ cs := List.mem_reverse.mp (hcs ▸ List.mem_cons_self)
      exact List.dropWhile_cons_of_neg (by simp [h c hc])
  rw [trim, trimWhile, dropEndWhile, hfront, hback, List.reverse_reverse]

end TclHost.Text
