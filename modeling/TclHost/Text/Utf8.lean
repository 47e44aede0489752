/-! # UTF-8 sizes and validity

Offsets into a text are byte offsets of its UTF-8 form.  `validUpTo` finds where a byte string
stops being UTF-8, which is what a refused script reports.
-/
namespace TclHost.Text.Utf8

def size : List Char → Nat
  | [] => 0
  | c :: cs => c.utf8Size + size cs

theorem size_append (xs ys : List Char) : size (xs ++ ys) = size xs + size ys := by
  induction xs with
  | nil => simp [size]
  | cons c cs ih => simp [size, ih, Nat.add_assoc]

/-- The characters that start at a byte offset, unless the offset is inside a character. -/
def dropBytes? : List Char → Nat → Option (List Char)
  | cs, 0 => some cs
  | [], _ + 1 => none
  | c :: cs, n + 1 => if c.utf8Size ≤ n + 1 then dropBytes? cs (n + 1 - c.utf8Size) else none

private def isTail (b : UInt8) : Bool :=
  0x80 ≤ b && b ≤ 0xBF

/-- The number of bytes of the well-formed character at the front of a byte string. -/
def charLength? : List UInt8 → Option Nat
  | [] => none
  | a :: bs =>
    if a ≤ 0x7F then some 1
    else match bs with
      | [] => none
      | b :: cs =>
        if 0xC2 ≤ a && a ≤ 0xDF then if isTail b then some 2 else none
        else
          let second :=
            if a == 0xE0 then 0xA0 ≤ b && b ≤ 0xBF
            else if a == 0xED then 0x80 ≤ b && b ≤ 0x9F
            else if a == 0xF0 then 0x90 ≤ b && b ≤ 0xBF
            else if a == 0xF4 then 0x80 ≤ b && b ≤ 0x8F
            else isTail b
          match cs with
          | [] => none
          | c :: ds =>
            if 0xE0 ≤ a && a ≤ 0xEF then if second && isTail c then some 3 else none
            else if 0xF0 ≤ a && a ≤ 0xF4 then
              match ds with
              | [] => none
              | d :: _ => if second && isTail c && isTail d then some 4 else none
            else none

private theorem charLength?_pos {bs : List UInt8} {n : Nat} (h : charLength? bs = some n) :
    0 < n ∧ bs ≠ [] := by
  unfold charLength? at h
  repeat' split at h
  all_goals simp_all
  all_goals omega

def validUpTo (bs : List UInt8) : Nat :=
  match _h : charLength? bs with
  | none => 0
  | some n => n + validUpTo (bs.drop n)
termination_by bs.length
decreasing_by
  obtain ⟨hn, hne⟩ := charLength?_pos _h
  have := List.length_pos_iff.mpr hne
  simp only [List.length_drop]
  omega

/-- Read a byte string as a text, or report where it stops being UTF-8. -/
def decode (bytes : ByteArray) : Except Nat String :=
  match String.fromUTF8? bytes with
  | some text => .ok text
  | none => .error (validUpTo bytes.toList)

theorem decode_toUTF8 (text : String) : decode text.toUTF8 = .ok text := by
  have hread : String.fromUTF8? text.toUTF8 = some text := by
    simp only [String.fromUTF8?, String.toUTF8_eq_toByteArray, dif_pos text.isValidUTF8]
    rfl
  rw [decode, hread]

theorem isEmpty_toUTF8 (text : String) : text.toUTF8.isEmpty = text.isEmpty := by
  rfl

end TclHost.Text.Utf8
