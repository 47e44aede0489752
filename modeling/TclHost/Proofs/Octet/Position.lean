import TclHost.Octet.Position
import TclHost.Text.Delimited
/-! # Boundaries of characters

A boundary is a position with a text behind it, and one step over a character leads to the next
boundary.  What an octet scanner looks for is ASCII, and an octet that is part of a longer character
is never ASCII.  So the octet at a boundary is as good as the character there, and a scanner that
has got inside a character comes out at its end without having noticed anything.
-/
namespace TclHost.Octet

open Text

theorem size_eq_zero_iff {cs : List Char} : Utf8.size cs = 0 ↔ cs = [] := by
  cases cs with
  | nil => simp [Utf8.size]
  | cons c cs =>
    have := c.utf8Size_pos
    simp only [Utf8.size, reduceCtorEq, iff_false]
    omega

/-! ## Texts behind positions -/

/-- A text stands behind a position, which is then a boundary and not beyond the end. -/
def At (text : List Char) (p : Nat) (rest : List Char) : Prop :=
  ∃ front, text = front ++ rest ∧ p = Utf8.size front

theorem dropBytes?_append (front rest : List Char) :
    Utf8.dropBytes? (front ++ rest) (Utf8.size front) = some rest := by
  induction front with
  | nil => cases rest <;> rfl
  | cons c cs ih =>
    obtain ⟨n, hn⟩ := Nat.exists_eq_add_of_lt (Nat.add_pos_left c.utf8Size_pos (Utf8.size cs))
    rw [Nat.zero_add] at hn
    rw [Utf8.size, hn, List.cons_append, Utf8.dropBytes?, if_pos (by omega), ← ih]
    congr 1
    omega

theorem at_size (text : List Char) : At text (Utf8.size text) [] :=
  ⟨text, (List.append_nil text).symm, rfl⟩

namespace At
variable {text rest rest' mid cs : List Char} {p q : Nat} {c : Char}

theorem append (h : At text p (mid ++ rest)) : At text (p + Utf8.size mid) rest := by
  obtain ⟨front, rfl, rfl⟩ := h
  exact ⟨front ++ mid, (List.append_assoc ..).symm, (Utf8.size_append ..).symm⟩

theorem next (h : At text p (c :: rest)) : At text (p + c.utf8Size) rest :=
  append (show At text p ([c] ++ rest) from h)

theorem size_eq (h : At text p rest) : p + Utf8.size rest = Utf8.size text := by
  obtain ⟨front, rfl, rfl⟩ := h
  exact (Utf8.size_append ..).symm

theorem behind (h : At text p rest) : behind text p = .ok rest := by
  obtain ⟨front, rfl, rfl⟩ := h
  rw [Octet.behind, dropBytes?_append]

theorem pass (h : At text p rest) : pass text p = .ok p := by
  rw [Octet.pass, h.behind]
  rfl

theorem cut (h : At text p (mid ++ rest)) : cut text p (p + Utf8.size mid) = .ok mid := by
  have hle : p ≤ p + Utf8.size mid := Nat.le_add_right ..
  rw [Octet.cut, h.behind, h.append.behind]
  simp [hle, bind, Except.bind, pure, Except.pure]

theorem append_of_eq (h : At text p cs) (heq : mid ++ rest = cs) :
    At text (p + Utf8.size mid) rest :=
  append (heq ▸ h)

theorem cut_of_eq (h : At text p cs) (heq : mid ++ rest = cs) :
    Octet.cut text p (p + Utf8.size mid) = .ok mid :=
  cut (heq ▸ h)

theorem cut_self (h : At text p cs) : Octet.cut text p p = .ok [] :=
  h.cut_of_eq (List.nil_append cs)

theorem lt_of_length_lt (h : At text p rest) (h' : At text q rest')
    (hlt : rest'.length < rest.length) : p < q := by
  have hsize := h.size_eq.trans h'.size_eq.symm
  obtain ⟨front, htext, -⟩ := h
  obtain ⟨front', htext', -⟩ := h'
  obtain ⟨mid, rfl⟩ : rest' <:+ rest :=
    List.suffix_of_suffix_length_le ⟨front', htext'.symm⟩ ⟨front, htext.symm⟩ (Nat.le_of_lt hlt)
  cases mid with
  | nil => simp at hlt
  | cons c mid =>
    have := c.utf8Size_pos
    rw [List.cons_append, Utf8.size, Utf8.size_append] at hsize
    omega

theorem le_size (h : At text p rest) : p ≤ Utf8.size text := by
  have := h.size_eq
  omega

theorem advance (h : At text q rest) (hlt : p < q) :
    advance text p q = .ok ⟨q, hlt, h.le_size⟩ := by
  rw [Octet.advance, h.behind]
  simp [hlt, h.le_size, bind, Except.bind, pure, Except.pure]

end At

/-- A result with a position agrees with one with the text behind it. -/
inductive Agrees {ε α : Type} (text : List Char) :
    Except ε (α × Nat) → Except ε (α × List Char) → Prop
  | error (e : ε) : Agrees text (.error e) (.error e)
  | ok {a : α} {q : Nat} {rest : List Char} (h : At text q rest) :
    Agrees text (.ok (a, q)) (.ok (a, rest))

/-! ## Octets of characters -/

section
variable {c o : Char}

theorem toNat_ofNat_of_lt {n : Nat} (h : n < 256) : (Char.ofNat n).toNat = n := by
  have hvalid : n.isValidChar := Or.inl (by omega)
  rw [Char.ofNat, dif_pos hvalid]
  exact UInt32.toNat_ofNatLT ..

theorem length_ofChar (c : Char) : (ofChar c).length = c.utf8Size := by
  rw [ofChar, List.length_map, String.length_utf8EncodeChar]

theorem ofChar_of_lt (h : c.toNat < 128) : ofChar c = [c] := by
  have hle : c.val.toNat ≤ 127 := Nat.le_of_lt_succ h
  have hbyte : (UInt8.ofNat c.val.toNat).toNat = c.toNat := by
    rw [UInt8.toNat_ofNat', Nat.mod_eq_of_lt (by omega)]
    rfl
  rw [ofChar, String.utf8EncodeChar, if_pos hle, List.map_cons, hbyte, Char.ofNat_toNat]
  rfl

theorem utf8Size_of_lt (h : c.toNat < 128) : c.utf8Size = 1 :=
  Char.utf8Size_eq_one_iff.mpr (UInt32.le_iff_toNat_le.mpr (Nat.le_of_lt_succ h))

theorem add_size_cons (h : c.toNat < 128) (p : Nat) (cs : List Char) :
    p + Utf8.size (c :: cs) = p + 1 + Utf8.size cs := by
  rw [Utf8.size, utf8Size_of_lt h, Nat.add_assoc]

theorem le_toNat_of_mem_utf8EncodeChar {b : UInt8} (h : 128 ≤ c.toNat)
    (hb : b ∈ String.utf8EncodeChar c) : 128 ≤ b.toNat := by
  have hle : ¬c.val.toNat ≤ 127 := Nat.not_le_of_lt h
  have hbyte {n m : Nat} (hn : n < 128) (hm : 128 ≤ m) (hsum : n + m < 256) :
      128 ≤ (UInt8.ofNat (n + m)).toNat := by
    rw [UInt8.toNat_ofNat', Nat.mod_eq_of_lt hsum]
    omega
  -- The cases are characters of two, of three and of four octets.
  rw [String.utf8EncodeChar, if_neg hle] at hb
  split at hb
  · rcases hb with _ | ⟨_, _ | ⟨_, ⟨⟩⟩⟩ <;> exact hbyte (by omega) (by omega) (by omega)
  · split at hb
    · rcases hb with _ | ⟨_, _ | ⟨_, _ | ⟨_, ⟨⟩⟩⟩⟩ <;>
        exact hbyte (by omega) (by omega) (by omega)
    · rcases hb with _ | ⟨_, _ | ⟨_, _ | ⟨_, _ | ⟨_, ⟨⟩⟩⟩⟩⟩ <;>
        exact hbyte (by omega) (by omega) (by omega)

/-- No octet of a character beyond ASCII is ASCII. -/
theorem le_toNat_of_mem_ofChar (h : 128 ≤ c.toNat) (ho : o ∈ ofChar c) : 128 ≤ o.toNat := by
  obtain ⟨b, hb, rfl⟩ := List.mem_map.mp ho
  rw [toNat_ofNat_of_lt b.toNat_lt]
  exact le_toNat_of_mem_utf8EncodeChar h hb

end

/-- An octet is a character, or both are beyond ASCII. -/
def Stands (o c : Char) : Prop :=
  o = c ∨ 128 ≤ o.toNat ∧ 128 ≤ c.toNat

theorem ne_of_le {o a : Char} (ho : 128 ≤ o.toNat) (ha : a.toNat < 128) : o ≠ a := by
  rintro rfl
  exact Nat.not_lt_of_le ho ha

def IsAscii (test : Char → Bool) : Prop :=
  ∀ c, test c = true → c.toNat < 128

theorem isAscii_beq {a : Char} (ha : a.toNat < 128) : IsAscii (· == a) := by
  intro c hc
  exact beq_iff_eq.mp hc ▸ ha

theorem IsAscii.or {test test' : Char → Bool} (h : IsAscii test) (h' : IsAscii test') :
    IsAscii fun c => test c || test' c :=
  fun c hc => (Bool.or_eq_true_iff.mp hc).elim (h c) (h' c)

theorem IsAscii.eq_false {test : Char → Bool} (h : IsAscii test) {c : Char} (hc : 128 ≤ c.toNat) :
    test c = false :=
  Bool.eq_false_iff.mpr fun ht => Nat.not_lt_of_le hc (h c ht)

theorem octet?_of_le {text : List Char} {p : Nat} (h : Utf8.size text ≤ p) :
    octet? text p = none := by
  rw [octet?, List.getElem?_eq_none_iff, length_octets]
  exact h

namespace Stands
variable {o c a : Char}

/-- What is the same for all characters beyond ASCII is the same for the octet. -/
theorem congr {β : Type} {f : Char → β} {b : β} (h : Stands o c)
    (hf : ∀ d : Char, 128 ≤ d.toNat → f d = b) : f o = f c := by
  rcases h with rfl | ⟨ho, hc⟩
  · rfl
  · rw [hf o ho, hf c hc]

theorem test_eq {test : Char → Bool} (h : Stands o c) (ht : IsAscii test) : test o = test c :=
  h.congr fun _ => ht.eq_false

theorem eq_of_lt (h : Stands o c) (hc : c.toNat < 128) : o = c :=
  h.resolve_right fun hbeyond => Nat.not_lt_of_le hbeyond.2 hc

theorem eq_iff (h : Stands o c) (ha : a.toNat < 128) : o = a ↔ c = a := by
  have heq := h.test_eq (isAscii_beq ha)
  rw [← beq_iff_eq, heq, beq_iff_eq]

end Stands

namespace At
variable {text cs rest : List Char} {p q k : Nat} {c a : Char} {test : Char → Bool}

theorem octet?_add (h : At text p (c :: rest)) (hk : k < c.utf8Size) :
    octet? text (p + k) = (ofChar c)[k]? := by
  obtain ⟨front, rfl, rfl⟩ := h
  have hfront : (octets (front ++ c :: rest)) = octets front ++ (ofChar c ++ octets rest) := by
    rw [octets, List.flatMap_append, List.flatMap_cons]
    rfl
  rw [octet?, hfront, ← length_octets, List.getElem?_append_right (Nat.le_add_right ..),
    Nat.add_sub_cancel_left, List.getElem?_append_left (by rwa [length_ofChar])]

theorem octet?_nil (h : At text p []) : octet? text p = none :=
  octet?_of_le (Nat.le_of_eq h.size_eq.symm)

theorem exists_octet (h : At text p (c :: rest)) :
    ∃ o, octet? text p = some o ∧ Stands o c := by
  have hoctet := h.octet?_add c.utf8Size_pos
  rw [Nat.add_zero] at hoctet
  by_cases hc : c.toNat < 128
  · rw [ofChar_of_lt hc] at hoctet
    exact ⟨c, hoctet, .inl rfl⟩
  · have hlt : 0 < (ofChar c).length := length_ofChar c ▸ c.utf8Size_pos
    rw [List.getElem?_eq_getElem hlt] at hoctet
    have hc' : 128 ≤ c.toNat := Nat.le_of_not_lt hc
    exact ⟨_, hoctet, .inr ⟨le_toNat_of_mem_ofChar hc' (List.getElem_mem hlt), hc'⟩⟩

theorem octet?_eq_some_iff (h : At text p cs) (ha : a.toNat < 128) :
    octet? text p = some a ↔ cs.head? = some a := by
  cases cs with
  | nil => simp [h.octet?_nil]
  | cons c rest =>
    obtain ⟨o, ho, hstands⟩ := h.exists_octet
    rw [ho, List.head?_cons, Option.some_inj, Option.some_inj, hstands.eq_iff ha]

theorem octet?_ascii (h : At text p (c :: rest)) (hc : c.toNat < 128) : octet? text p = some c :=
  (h.octet?_eq_some_iff hc).mpr rfl

theorem octet?_ne (h : At text p cs) (ha : a.toNat < 128) (hcs : ∀ ds, cs ≠ a :: ds) :
    octet? text p ≠ some a := by
  rw [Ne, h.octet?_eq_some_iff ha, List.head?_eq_some_iff]
  rintro ⟨ds, hds⟩
  exact hcs ds hds

theorem bind_octet? {β : Type} {f : Char → Option β} (h : At text p cs)
    (hf : ∀ d : Char, 128 ≤ d.toNat → f d = none) : (octet? text p).bind f = cs.head?.bind f := by
  cases cs with
  | nil => rw [h.octet?_nil]; rfl
  | cons c rest =>
    obtain ⟨o, ho, hstands⟩ := h.exists_octet
    rw [ho]
    exact hstands.congr hf

theorem any_octet? (h : At text p cs) (ht : IsAscii test) :
    (octet? text p).any test = cs.head?.any test := by
  cases cs with
  | nil => rw [h.octet?_nil]; rfl
  | cons c rest =>
    obtain ⟨o, ho, hstands⟩ := h.exists_octet
    rw [ho]
    exact hstands.test_eq ht

theorem all_octet? (h : At text p cs) (ht : IsAscii test) :
    (octet? text p).all test = cs.head?.all test := by
  cases cs with
  | nil => rw [h.octet?_nil]; rfl
  | cons c rest =>
    obtain ⟨o, ho, hstands⟩ := h.exists_octet
    rw [ho]
    exact hstands.test_eq ht

theorem next_ascii (h : At text p (c :: rest)) (hc : c.toNat < 128) : At text (p + 1) rest :=
  utf8Size_of_lt hc ▸ h.next

end At

/-! ## Inside of characters -/

/-- A scanner that goes on behind every octet that is not ASCII. -/
def Overlooks {α : Type} (text : List Char) (f : Nat → α) : Prop :=
  ∀ p o, octet? text p = some o → 128 ≤ o.toNat → f p = f (p + 1)

/-- Such a scanner may start anywhere inside a character. -/
theorem Overlooks.next {α : Type} {text rest : List Char} {f : Nat → α} {p : Nat} {c : Char}
    (hf : Overlooks text f) (h : At text p (c :: rest)) : f (p + 1) = f (p + c.utf8Size) := by
  by_cases hc : c.toNat < 128
  · rw [utf8Size_of_lt hc]
  have hstep (k : Nat) (hk : k < c.utf8Size) : f (p + k) = f (p + (k + 1)) := by
    have hlt : k < (ofChar c).length := length_ofChar c ▸ hk
    have hoctet := h.octet?_add hk
    rw [List.getElem?_eq_getElem hlt] at hoctet
    exact hf _ _ hoctet (le_toNat_of_mem_ofChar (Nat.le_of_not_lt hc) (List.getElem_mem hlt))
  -- By induction on the octets behind the first one, all of which are passed over.
  have hwalk (k : Nat) (hk : k < c.utf8Size) : f (p + 1) = f (p + (k + 1)) := by
    induction k with
    | zero => rfl
    | succ k ih => exact (ih (Nat.lt_of_succ_lt hk)).trans (hstep (k + 1) hk)
  have hpos := c.utf8Size_pos
  rw [hwalk (c.utf8Size - 1) (by omega), Nat.sub_add_cancel hpos]

/-! ## Runs and searches -/

namespace At
variable {text cs rest : List Char} {p : Nat} {c : Char} {test : Char → Bool}

theorem runEnd_eq (ht : IsAscii test) (h : At text p cs) :
    runEnd text test p = p + Utf8.size (cs.takeWhile test) := by
  induction cs generalizing p with
  | nil =>
    rw [Octet.runEnd_eq, h.octet?_nil]
    rfl
  | cons c rest ih =>
    obtain ⟨o, ho, hstands⟩ := h.exists_octet
    rw [Octet.runEnd_eq, ho]
    simp only [hstands.test_eq ht]
    cases hc : test c with
    | false => simp [hc, Utf8.size]
    | true =>
      rw [if_pos rfl, ih (h.next_ascii (ht c hc)), List.takeWhile_cons_of_pos hc,
        add_size_cons (ht c hc)]

theorem takeWhile (h : At text p cs) (test : Char → Bool) :
    At text (p + Utf8.size (cs.takeWhile test)) (cs.dropWhile test) :=
  h.append_of_eq List.takeWhile_append_dropWhile

theorem runEnd (ht : IsAscii test) (h : At text p cs) :
    At text (runEnd text test p) (cs.dropWhile test) :=
  h.runEnd_eq ht ▸ h.takeWhile test

end At

theorem find?_eq_none {c : Char} {cs : List Char} (h : cs.dropWhile (· != c) = []) :
    find? c cs = none :=
  if_neg (dropWhile_bne_eq_nil_iff.mp h)

theorem find?_eq_some {c d : Char} {cs rest : List Char} (h : cs.dropWhile (· != c) = d :: rest) :
    find? c cs = some (Utf8.size (cs.takeWhile (· != c))) := by
  refine if_pos (Decidable.byContradiction fun hc => ?_)
  rw [dropWhile_bne_eq_nil_iff.mpr hc] at h
  cases h

end TclHost.Octet
