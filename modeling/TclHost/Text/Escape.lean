import TclHost.Text.Delimited
import TclHost.Text.Digit
/-! # Backslash sequences

A backslash and the characters after it stand for one character.  `Escape.read` is given what
follows the backslash, so a backslash at the end of a text, which stands for itself, leaves
nothing over.
-/
namespace TclHost.Text.Escape

def takeDigits (radix : Nat) : (limit : Nat) → List Char → List Char × List Char
  | 0, cs => ([], cs)
  | _ + 1, [] => ([], [])
  | limit + 1, c :: cs =>
    if isDigitOf radix c then
      let (ds, rest) := takeDigits radix limit cs
      (c :: ds, rest)
    else ([], c :: cs)

theorem takeDigits_append (radix limit : Nat) (cs : List Char) :
    (takeDigits radix limit cs).1 ++ (takeDigits radix limit cs).2 = cs := by
  induction limit generalizing cs with
  | zero => rfl
  | succ n ih =>
    cases cs with
    | nil => rfl
    | cons c cs =>
      simp only [takeDigits]
      split
      · simp [ih cs]
      · rfl

theorem takeDigits_of_all {radix : Nat} {ds : List Char}
    (h : ∀ d ∈ ds, isDigitOf radix d = true) (rest : List Char) :
    takeDigits radix ds.length (ds ++ rest) = (ds, rest) := by
  induction ds with
  | nil => rfl
  | cons d ds ih =>
    simp [takeDigits, h d (by simp), ih fun x hx => h x (by simp [hx])]

/-- Digits are taken alike in front of a character that is none, whatever follows it. -/
theorem takeDigits_append_cons {radix : Nat} {z : Char} (hz : isDigitOf radix z = false)
    (limit : Nat) (cs more : List Char) :
    takeDigits radix limit (cs ++ z :: more) =
      ((takeDigits radix limit cs).1, (takeDigits radix limit cs).2 ++ z :: more) := by
  induction limit generalizing cs with
  | zero => rfl
  | succ limit ih =>
    cases cs with
    | nil => simp [takeDigits, hz]
    | cons c cs =>
      rw [List.cons_append, takeDigits, takeDigits, ih]
      split <;> rfl

theorem takeDigits_snd_length_le (radix limit : Nat) (cs : List Char) :
    (takeDigits radix limit cs).2.length ≤ cs.length := by
  have := congrArg List.length (takeDigits_append radix limit cs)
  simp only [List.length_append] at this
  omega

/-- The character with a code point, or the replacement character if there is none. -/
def charOrReplacement (n : Nat) : Char :=
  if n.isValidChar then Char.ofNat n else '\uFFFD'

def letter? : Char → Option Char
  | 'a' => some '\x07'
  | 'b' => some '\x08'
  | 'f' => some '\x0c'
  | 'n' => some '\n'
  | 'r' => some '\r'
  | 't' => some '\t'
  | 'v' => some '\x0b'
  | _ => none

def hexLimit? : Char → Option Nat
  | 'x' => some 2
  | 'u' => some 4
  | 'U' => some 8
  | _ => none

/-- A hexadecimal sequence; without any digit the letter stands for itself. -/
def readHex (letter : Char) (limit : Nat) (cs : List Char) : Char × List Char :=
  match takeDigits 16 limit cs with
  | ([], _) => (letter, cs)
  | (ds, rest) => (charOrReplacement (numeral 16 ds), rest)

/-- Read a sequence from the characters after its backslash: the character it stands for and
what follows the sequence.  A line end takes the spaces and tabs after it along and stands for
one space; an octal number has at most three digits and only its low eight bits count. -/
def read : List Char → Char × List Char
  | [] => ('\\', [])
  | c :: cs =>
    match letter? c with
    | some image => (image, cs)
    | none =>
      if c == '\n' then (' ', cs.dropWhile fun s => s == ' ' || s == '\t')
      else match hexLimit? c with
        | some limit => readHex c limit cs
        | none =>
          if isDigitOf 8 c then
            let (ds, rest) := takeDigits 8 2 cs
            (charOrReplacement (numeral 8 (c :: ds) % 256), rest)
          else (c, cs)

theorem readHex_snd_length_le (letter : Char) (limit : Nat) (cs : List Char) :
    (readHex letter limit cs).2.length ≤ cs.length := by
  unfold readHex
  split
  · exact Nat.le_refl _
  · next h => simpa [h] using takeDigits_snd_length_le 16 limit cs

theorem readHex_append_cons {z : Char} (hz : isDigitOf 16 z = false) (letter : Char)
    (limit : Nat) (cs more : List Char) :
    readHex letter limit (cs ++ z :: more) =
      ((readHex letter limit cs).1, (readHex letter limit cs).2 ++ z :: more) := by
  unfold readHex
  rw [takeDigits_append_cons hz]
  rcases takeDigits 16 limit cs with ⟨_ | ⟨d, ds⟩, rest⟩ <;> rfl

/-- A sequence of at least one character is read alike in front of a character that continues
none, whatever follows it. -/
theorem read_append_cons {z : Char} (hz : hexValue? z = none)
    (hblank : (z == ' ' || z == '\t') = false) (c : Char) (cs more : List Char) :
    read (c :: (cs ++ z :: more)) = ((read (c :: cs)).1, (read (c :: cs)).2 ++ z :: more) := by
  have hdigit (radix : Nat) : isDigitOf radix z = false := by
    simp [isDigitOf, digitValue?, hz]
  simp only [read]
  split
  · rfl
  · split
    · rw [dropWhile_append_cons hblank]
    · split
      · exact readHex_append_cons (hdigit 16) c _ cs more
      · rw [takeDigits_append_cons (hdigit 8)]
        split <;> rfl

/-- What follows a sequence is no longer than what followed its backslash. -/
theorem read_snd_length_le (cs : List Char) : (read cs).2.length ≤ cs.length := by
  cases cs with
  | nil => simp [read]
  | cons c cs =>
    simp only [read]
    split
    · simp
    · split
      · have := (List.dropWhile_sublist (fun s => s == ' ' || s == '\t') (l := cs)).length_le
        simp only [List.length_cons]
        omega
      · split
        · next limit _ =>
          have := readHex_snd_length_le c limit cs
          simp only [List.length_cons]
          omega
        · split
          · have := takeDigits_snd_length_le 8 2 cs
            simp only [List.length_cons]
            omega
          · simp

/-- Replace the sequences of a text up to the first character outside them that satisfies the
test; the rest starts with that character, or is empty if there is none. -/
def readUntil (stop : Char → Bool) (cs : List Char) : List Char × List Char :=
  match cs with
  | [] => ([], [])
  | c :: cs =>
    if stop c then ([], c :: cs)
    else if c = '\\' then
      let r := readUntil stop (read cs).2
      ((read cs).1 :: r.1, r.2)
    else
      let r := readUntil stop cs
      (c :: r.1, r.2)
termination_by cs.length
decreasing_by
  · have := read_snd_length_le cs
    simp only [List.length_cons]
    omega
  · simp

theorem readUntil_snd_length_le (stop : Char → Bool) (cs : List Char) :
    (readUntil stop cs).2.length ≤ cs.length := by
  fun_induction readUntil stop cs with
  | case1 => simp
  | case2 c cs h => simp
  | case3 cs _ _ ih =>
    exact Nat.le_trans ih (Nat.le_succ_of_le (read_snd_length_le cs))
  | case4 c cs _ _ _ ih => exact Nat.le_succ_of_le ih

theorem readUntil_snd_length_lt {stop : Char → Bool} {c : Char} (cs : List Char)
    (h : stop c = false) : (readUntil stop (c :: cs)).2.length < (c :: cs).length := by
  rw [readUntil]
  simp only [h, Bool.false_eq_true, if_false, List.length_cons]
  split
  · have := readUntil_snd_length_le stop (read cs).2
    have := read_snd_length_le cs
    simp only []
    omega
  · have := readUntil_snd_length_le stop cs
    simp only []
    omega

end TclHost.Text.Escape
