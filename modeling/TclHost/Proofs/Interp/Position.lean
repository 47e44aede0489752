import TclHost.Interp.Eval
import TclHost.Proofs.TclList.RoundTrip
import TclHost.Proofs.Value.IntegerForm
/-! # Positions and ranges

A specification denotes the sum of what its numerals read as, where `end` is the last position.
The position that counts is this sum reduced to signed 64 bits, so that a sum past either end of
their range comes back at the other one.  What an element or a range of a sequence is at given
positions is said over the integers, with no regard to the ends of the sequence.
-/
namespace TclHost.Index

open Text

def isSign (c : Char) : Bool :=
  c == '+' || c == '-'

/-- The integer that the base of a specification stands for.  A numeral has a sign in front or
none at all. -/
inductive Base (length : Nat) : List Char → Int → Prop
  | integer {cs : List Char} {n : Int64} (hread : Number.parseInt (String.ofList cs) = .ok n)
    (hsign : ∀ c ∈ cs.tail, isSign c = false) : Base length cs n.toInt
  | last : Base length ['e', 'n', 'd'] (length - 1)

inductive Offset : List Char → Int → Prop
  | absent : Offset [] 0
  | signed {c : Char} {cs : List Char} {n : Int64} (hsign : isSign c = true)
    (hread : Number.parseInt (String.ofList (c :: cs)) = .ok n) : Offset (c :: cs) n.toInt

/-- A specification denotes the sum of its base and its offset. -/
def Denotes (length : Nat) (spec : String) (p : Int) : Prop :=
  ∃ base offset m n, spec.toList = base ++ offset ∧ Base length base m ∧ Offset offset n ∧
    p = m + n

/-- An integer reduced to signed 64 bits. -/
def reduced (p : Int) : Int :=
  p.bmod (2 ^ 64)

theorem toInt_ofInt_eq_reduced (p : Int) : (Int64.ofInt p).toInt = reduced p :=
  Int64.toInt_ofInt

theorem reduced_eq_self {p : Int} (h : -2 ^ 63 ≤ p) (h' : p < 2 ^ 63) : reduced p = p := by
  rw [← toInt_ofInt_eq_reduced]
  exact Int64.toInt_ofInt_of_le h h'

/-! ## Reading specifications -/

theorem offsetFrom?_eq_some_iff {base i : Int64} {offset : List Char} :
    offsetFrom? base offset = some i ↔ ∃ n, Offset offset n ∧ i = base + Int64.ofInt n := by
  constructor
  · intro h
    cases offset with
    | nil =>
      cases h
      exact ⟨0, .absent, by simp⟩
    | cons c cs =>
      rw [offsetFrom?] at h
      split at h
      · next hsign =>
        cases hread : Number.parseInt (String.ofList (c :: cs)) with
        | error e =>
          rw [hread] at h
          cases h
        | ok n =>
          rw [hread] at h
          cases h
          exact ⟨n.toInt, .signed (by simpa [isSign] using hsign) hread, by simp⟩
      · cases h
  · rintro ⟨n, hoffset, rfl⟩
    cases hoffset with
    | absent => simp [offsetFrom?]
    | signed hsign hread =>
      rw [offsetFrom?, if_pos (by simpa [isSign] using hsign), hread]
      simp [Except.toOption]

/-- The base is cut off in front of the first sign behind its first character. -/
theorem splitOffset_append {base offset : List Char} (hbase : base ≠ [])
    (hsign : ∀ c ∈ base.tail, isSign c = false) (hoffset : ∀ c ∈ offset.head?, isSign c = true) :
    splitOffset (base ++ offset) = (base, offset) := by
  cases base with
  | nil => exact absurd rfl hbase
  | cons c cs =>
    have hfront : ∀ d ∈ cs, (!isSign d) = true := by simpa using hsign
    have hrest : ∀ d ∈ offset.head?, (!isSign d) = false := by simpa using hoffset
    obtain ⟨htake, hdrop⟩ := span_append hfront hrest
    rw [List.cons_append, splitOffset]
    exact Prod.ext (congrArg (c :: ·) htake) hdrop

theorem append_splitOffset (cs : List Char) :
    (splitOffset cs).1 ++ (splitOffset cs).2 = cs := by
  cases cs with
  | nil => rfl
  | cons c cs => simp [splitOffset]

theorem isSign_of_mem_tail_splitOffset {cs : List Char} :
    ∀ c ∈ (splitOffset cs).1.tail, isSign c = false := by
  cases cs with
  | nil => simp [splitOffset]
  | cons c cs =>
    intro d hd
    have hnot := List.mem_takeWhile_imp hd
    simpa [isSign] using hnot

theorem value?_end {spec : String} {offset : List Char}
    (h : spec.toList = 'e' :: 'n' :: 'd' :: offset) (length : Nat) :
    value? spec length = offsetFrom? (Int64.ofNat length - 1) offset := by
  rw [value?, h]
  rfl

theorem value?_integer {spec : String} (h : ∀ offset, spec.toList ≠ 'e' :: 'n' :: 'd' :: offset)
    (length : Nat) : value? spec length =
      (Number.parseInt (String.ofList (splitOffset spec.toList).1)).toOption.bind fun base =>
        offsetFrom? base (splitOffset spec.toList).2 := by
  rw [value?]
  split
  · next offset hspec => exact absurd hspec (h offset)
  · rfl

/-- A specification is accepted if it denotes an integer, and then it names this one reduced to 64
bits. -/
theorem value?_eq_some_iff {spec : String} {length : Nat} {i : Int64} :
    value? spec length = some i ↔ ∃ p, Denotes length spec p ∧ i = Int64.ofInt p := by
  have hlast : Int64.ofNat length - 1 = Int64.ofInt (length - 1) := by
    rw [Int64.ofInt_sub, Int64.ofInt_eq_ofNat]
    rfl
  constructor
  · intro h
    by_cases hend : ∃ offset, spec.toList = 'e' :: 'n' :: 'd' :: offset
    · obtain ⟨offset, hspec⟩ := hend
      rw [value?_end hspec, offsetFrom?_eq_some_iff] at h
      obtain ⟨n, hoffset, rfl⟩ := h
      refine ⟨_, ⟨_, offset, _, n, hspec, .last, hoffset, rfl⟩, ?_⟩
      rw [hlast, Int64.ofInt_add]
    · rw [value?_integer (not_exists.mp hend)] at h
      obtain ⟨base, hbase, hoffset⟩ := Option.bind_eq_some_iff.mp h
      have hread : Number.parseInt (String.ofList (splitOffset spec.toList).1) = .ok base := by
        cases hparse : Number.parseInt (String.ofList (splitOffset spec.toList).1) with
        | error e =>
          rw [hparse] at hbase
          cases hbase
        | ok m =>
          rw [hparse] at hbase
          cases hbase
          rfl
      obtain ⟨n, hdenoted, rfl⟩ := offsetFrom?_eq_some_iff.mp hoffset
      refine ⟨_, ⟨_, _, _, n, (append_splitOffset _).symm,
        .integer hread isSign_of_mem_tail_splitOffset, hdenoted, rfl⟩, ?_⟩
      rw [Int64.ofInt_add, Int64.ofInt_toInt]
  · rintro ⟨p, ⟨base, offset, m, n, hspec, hbase, hoffset, rfl⟩, rfl⟩
    cases hbase with
    | last =>
      rw [value?_end hspec, offsetFrom?_eq_some_iff]
      exact ⟨n, hoffset, by rw [hlast, Int64.ofInt_add]⟩
    | @integer _ m hread hsign =>
      have hne : base ≠ [] := by
        rintro rfl
        cases hread
      have hend : ∀ ds, spec.toList ≠ 'e' :: 'n' :: 'd' :: ds := by
        intro ds hds
        obtain ⟨c, cs, rfl⟩ := List.exists_cons_of_ne_nil hne
        rw [hspec, List.cons_append, List.cons.injEq] at hds
        obtain ⟨e, he⟩ := parseInt_of_head (c := 'e') rfl rfl rfl cs
        rw [hds.1, he] at hread
        cases hread
      have hhead : ∀ c ∈ offset.head?, isSign c = true := by
        cases hoffset with
        | absent => simp
        | signed hsign _ => simpa using hsign
      rw [value?_integer hend, hspec, splitOffset_append hne hsign hhead, hread]
      refine offsetFrom?_eq_some_iff.mpr ⟨n, hoffset, ?_⟩
      rw [Int64.ofInt_add, Int64.ofInt_toInt]

theorem value_of_denotes {spec : String} {length : Nat} {p : Int} (h : Denotes length spec p) :
    value spec length = .ok (Int64.ofInt p) := by
  rw [value, value?_eq_some_iff.mpr ⟨p, h, rfl⟩]

theorem value_of_not_denotes {spec : String} {length : Nat} (h : ∀ p, ¬Denotes length spec p) :
    value spec length = .error (.badIndex spec) := by
  rw [value]
  cases hvalue : value? spec length with
  | none => rfl
  | some i =>
    obtain ⟨p, hp, -⟩ := value?_eq_some_iff.mp hvalue
    exact absurd hp (h p)

/-! ## Decimal specifications -/

theorem toInt_signedReading (negative : Bool) (n : Nat) :
    (Number.signedReading negative n).toInt = reduced (if negative then -n else n) := by
  rw [Number.signedReading_eq_ofInt, toInt_ofInt_eq_reduced]

theorem base_signed (negative : Bool) {n : Nat} (h : n < 2 ^ 64) (length : Nat) :
    Base length (signed negative (Nat.toDigits 10 n)) (reduced (if negative then -n else n)) := by
  have hsign (d : Char) (hd : d ∈ Nat.toDigits 10 n) : isSign d = false :=
    ne_sign_of_isAsciiDigit (isAsciiDigit_of_mem_toDigits hd)
  rw [← toInt_signedReading]
  refine .integer (parseInt_toDigits negative h) ?_
  cases negative with
  | false => exact fun d hd => hsign d (List.mem_of_mem_tail hd)
  | true => exact hsign

theorem offset_minus {n : Nat} (h : n < 2 ^ 64) :
    Offset ('-' :: Nat.toDigits 10 n) (reduced (-n)) := by
  have hvalue := toInt_signedReading true n
  rw [if_pos rfl] at hvalue
  rw [← hvalue]
  exact .signed rfl (parseInt_toDigits true h)

theorem toList_toString (n : Nat) : (toString n).toList = Nat.toDigits 10 n := by
  rw [Nat.toString_eq_ofList_toDigits, String.toList_ofList]

theorem denotes_position {i : Nat} (h : i < 2 ^ 63) (length : Nat) :
    Denotes length (toString i) i := by
  have hbase := base_signed false (n := i) (by omega) length
  rw [if_neg (by decide), reduced_eq_self (by omega) (by omega)] at hbase
  refine ⟨_, [], i, 0, ?_, hbase, .absent, by omega⟩
  rw [toList_toString, List.append_nil]
  rfl

theorem denotes_fromEnd {j : Nat} (h : j < 2 ^ 63) (length : Nat) :
    Denotes length ("end-" ++ toString j) (length - 1 - j) := by
  have hoffset := offset_minus (n := j) (by omega)
  rw [reduced_eq_self (by omega) (by omega)] at hoffset
  refine ⟨_, _, _, _, ?_, .last, hoffset, by omega⟩
  rw [String.toList_append, toList_toString]
  rfl

/-! ## Elements and ranges -/

section
variable {α : Type}

def at? (items : List α) (p : Int) : Option α :=
  if 0 ≤ p then items[p.toNat]? else none

def between (items : List α) (p q : Int) : List α :=
  (items.zipIdx.filter fun x => p ≤ x.2 ∧ x.2 ≤ q).map (·.1)

theorem filter_zipIdx_eq (items : List α) (k : Nat) (p q : Int) :
    ((items.zipIdx k).filter fun x => p ≤ x.2 ∧ x.2 ≤ q).map (·.1) =
      (items.take (q + 1 - k).toNat).drop (p - k).toNat := by
  induction items generalizing k with
  | nil => simp
  | cons item items ih =>
    have hupper : (q + 1 - (k + 1 : Nat)).toNat = (q + 1 - k).toNat - 1 := by omega
    have hlower : (p - (k + 1 : Nat)).toNat = (p - k).toNat - 1 := by omega
    have htail := ih (k + 1)
    rw [hupper, hlower] at htail
    rw [List.zipIdx_cons, List.filter_cons]
    by_cases hq : (q + 1 - k).toNat = 0
    · have hout : ¬(k : Int) ≤ q := by omega
      rw [hq] at htail
      simpa [hq, hout] using htail
    · obtain ⟨upper, hupper⟩ := Nat.exists_eq_succ_of_ne_zero hq
      have hin : (k : Int) ≤ q := by omega
      rw [hupper] at htail ⊢
      by_cases hp : (p - k).toNat = 0
      · have hle : p ≤ k := by omega
        rw [hp] at htail ⊢
        simpa [hin, hle] using htail
      · obtain ⟨lower, hlower⟩ := Nat.exists_eq_succ_of_ne_zero hp
        have hlt : ¬p ≤ k := by omega
        rw [hlower] at htail ⊢
        simpa [hin, hlt] using htail

theorem between_eq (items : List α) (p q : Int) :
    between items p q = (items.take (q + 1).toNat).drop p.toNat := by
  have h := filter_zipIdx_eq items 0 p q
  simpa only [between, Nat.cast_zero, Int.sub_zero] using h

variable {spec first last : String} {p q : Int}

/-- The bounds of a range always lie inside the sequence. -/
theorem bounds_of_denotes {length : Nat} (hfirst : Denotes length first p)
    (hlast : Denotes length last q) :
    ∃ lower upper, bounds first last length = .ok (lower, upper) ∧ lower ≤ upper ∧
      upper ≤ length ∧ ∀ items : List α, items.length = length →
        (items.take upper).drop lower = between items (reduced p) (reduced q) := by
  have hbounds : bounds first last length =
      .ok (if min (reduced q) (length - 1) < max (reduced p) 0 then (0, 0)
        else ((max (reduced p) 0).toNat, (min (reduced q) (length - 1)).toNat + 1)) := by
    rw [bounds, value_of_denotes hfirst, value_of_denotes hlast]
    simp only [bind, Except.bind, toInt_ofInt_eq_reduced]
    rfl
  generalize reduced p = i at hbounds ⊢
  generalize reduced q = j at hbounds ⊢
  split at hbounds
  · next hreversed =>
    refine ⟨0, 0, hbounds, le_rfl, Nat.zero_le _, ?_⟩
    intro items hlength
    rw [between_eq, List.take_zero, List.drop_nil, eq_comm, List.drop_eq_nil_iff,
      List.length_take]
    omega
  · next hordered =>
    refine ⟨_, _, hbounds, by omega, by omega, ?_⟩
    intro items hlength
    have hlower : (max i 0).toNat = i.toNat := by omega
    rw [between_eq, hlower]
    congr 1
    rcases le_total j (length - 1) with hj | hj
    · congr 1
      omega
    · rw [List.take_of_length_le (by omega), List.take_of_length_le (by omega)]

/-- A range has exactly the items between its two positions. -/
theorem slice_of_denotes (items : List α) (hfirst : Denotes items.length first p)
    (hlast : Denotes items.length last q) :
    slice items first last = .ok (between items (reduced p) (reduced q)) := by
  obtain ⟨lower, upper, hbounds, -, -, hitems⟩ := bounds_of_denotes (α := α) hfirst hlast
  rw [slice, hbounds]
  exact congrArg Except.ok (hitems items rfl)

theorem resolve_of_denotes (items : List α) (h : Denotes items.length spec p) :
    ∃ i?, resolve spec items.length = .ok i? ∧
      i?.bind (items[·]?) = at? items (reduced p) ∧ ∀ i ∈ i?, i < items.length := by
  refine ⟨if 0 ≤ reduced p ∧ reduced p < items.length then some (reduced p).toNat else none,
    ?_, ?_, ?_⟩
  · rw [resolve, value_of_denotes h]
    simp only [bind, Except.bind, toInt_ofInt_eq_reduced]
    rfl
  · rw [at?]
    split
    · next hin => rw [if_pos hin.1, Option.bind_some]
    · next hout =>
      split
      · next hnonneg => exact (List.getElem?_eq_none (by omega)).symm
      · rfl
  · intro i hi
    split at hi
    · cases hi
      omega
    · cases hi

end

/-! ## Commands -/

theorem elementAt_cons {text spec : String} {items : List String} {p : Int}
    (hparse : TclList.parse text = .ok items) (h : Denotes items.length spec p)
    (specs : List String) :
    Command.elementAt text (spec :: specs) =
      match at? items (reduced p) with
      | some item => Command.elementAt item specs
      | none => .ok "" := by
  obtain ⟨i?, hresolve, hitem, hlt⟩ := resolve_of_denotes items h
  rw [Command.elementAt, hparse]
  change (resolve spec items.length >>= _) = _
  rw [hresolve, ← hitem]
  cases i? with
  | none => rfl
  | some i =>
    simp only [bind, Except.bind, Option.bind_some, List.getElem?_eq_getElem (hlt i rfl)]

theorem textIndex_of_denotes {text spec : String} {p : Int}
    (h : Denotes text.toList.length spec p) :
    Command.textSubcommand "index" [text, spec] =
      .ok (((at? text.toList (reduced p)).map Char.toString).getD "") := by
  obtain ⟨i?, hresolve, hitem, -⟩ := resolve_of_denotes text.toList h
  change (resolve spec text.toList.length >>= _) = _
  rw [hresolve, ← hitem]
  cases i? <;> rfl

/-- Elements and ranges of lists and of texts are those at the integers that the specifications
denote, reduced to 64 bits, and no bound of a range lies outside.  A specification that denotes no
integer is refused. -/
theorem positions_reduced (env : Env) (s : Interp) :
    (∀ text items spec p, TclList.parse text = .ok items → Denotes items.length spec p →
      Command.lindex env [text, spec] s = (.ok ((at? items (reduced p)).getD ""), s)) ∧
    (∀ text items first last p q, TclList.parse text = .ok items →
      Denotes items.length first p → Denotes items.length last q →
      Command.lrange env [text, first, last] s =
        (.ok (TclList.format (between items (reduced p) (reduced q))), s)) ∧
    (∀ text spec p, Denotes text.toList.length spec p →
      Command.string env ["index", text, spec] s =
        (.ok (((at? text.toList (reduced p)).map Char.toString).getD ""), s)) ∧
    (∀ text first last p q, Denotes text.toList.length first p →
      Denotes text.toList.length last q →
      Command.string env ["range", text, first, last] s =
        (.ok (String.ofList (between text.toList (reduced p) (reduced q))), s)) ∧
    (∀ length first last p q, Denotes length first p → Denotes length last q →
      ∃ lower upper, bounds first last length = .ok (lower, upper) ∧ lower ≤ upper ∧
        upper ≤ length) ∧
    (∀ length spec, (∀ p, ¬Denotes length spec p) →
      value spec length = .error (.badIndex spec)) ∧
    ∀ p, -2 ^ 63 ≤ p → p < 2 ^ 63 → reduced p = p := by
  refine ⟨?_, ?_, ?_, ?_, ?_, ?_, ?_⟩
  · intro text items spec p hparse h
    rw [Command.lindex, elementAt_cons hparse h]
    cases at? items (reduced p) <;> rfl
  · intro text items first last p q hparse hfirst hlast
    rw [Command.lrange, hparse]
    change (Eval.ofExcept id (slice items first last) >>= _) s = _
    rw [slice_of_denotes items hfirst hlast]
    rfl
  · intro text spec p h
    rw [Command.string, textIndex_of_denotes h]
    rfl
  · intro text first last p q hfirst hlast
    change Eval.ofExcept id ((slice text.toList first last).map String.ofList) s = _
    rw [slice_of_denotes text.toList hfirst hlast]
    rfl
  · intro length first last p q hfirst hlast
    obtain ⟨lower, upper, hbounds, hle, hin, -⟩ := bounds_of_denotes (α := Unit) hfirst hlast
    exact ⟨lower, upper, hbounds, hle, hin⟩
  · intro length spec h
    exact value_of_not_denotes h
  · intro p h h'
    exact reduced_eq_self h h'

/-- Two specifications between the ends of three items, and one that denotes nothing. -/
theorem positions_reduced_inside :
    (Denotes 3 "1" 1 ∧ Denotes 3 "end-0" 2 ∧ ∀ p, ¬Denotes 3 "end*" p) ∧
    Command.lindex (Env.top 0) [TclList.format ["a", "b", "c"], "1"] Interp.fresh =
      (.ok "b", Interp.fresh) ∧
    Command.lrange (Env.top 0) [TclList.format ["a", "b", "c"], "1", "end-0"] Interp.fresh =
      (.ok (TclList.format ["b", "c"]), Interp.fresh) ∧
    Command.string (Env.top 0) ["index", "abc", "1"] Interp.fresh = (.ok "b", Interp.fresh) ∧
    Command.string (Env.top 0) ["range", "abc", "1", "end-0"] Interp.fresh =
      (.ok "bc", Interp.fresh) ∧
    (∃ lower upper, bounds "1" "end-0" 3 = .ok (lower, upper) ∧ lower ≤ upper ∧ upper ≤ 3) ∧
    value "end*" 3 = .error (.badIndex "end*") ∧
    reduced 2 = 2 := by
  have hone : Denotes 3 "1" 1 := denotes_position (i := 1) (by decide) 3
  have hend : Denotes 3 "end-0" 2 := denotes_fromEnd (j := 0) (by decide) 3
  have hnone : ∀ p, ¬Denotes 3 "end*" p := by
    intro p hp
    have hvalue := value?_eq_some_iff.mpr ⟨p, hp, rfl⟩
    cases hvalue
  have hparse : TclList.parse (TclList.format ["a", "b", "c"]) = .ok ["a", "b", "c"] :=
    TclList.parse_of_eq_format rfl
  obtain ⟨hindex, hrange, htext, htextRange, hbounds, hrefused, hexact⟩ :=
    positions_reduced (Env.top 0) Interp.fresh
  refine ⟨⟨hone, hend, hnone⟩, ?_, ?_, ?_, ?_, ?_, ?_, ?_⟩
  · exact hindex _ _ _ _ hparse hone
  · exact hrange _ _ _ _ _ _ hparse hone hend
  · exact htext "abc" _ _ hone
  · exact htextRange "abc" _ _ _ _ hone hend
  · exact hbounds 3 _ _ _ _ hone hend
  · exact hrefused 3 _ hnone
  · exact hexact 2 (by decide) (by decide)

def farBelow : String :=
  "-9223372036854775808-9223372036854775808"

/-- Reduced to 64 bits, its sum is zero, and so it names the first element of a list. -/
theorem lindex_farBelow :
    Denotes 3 farBelow (-2 ^ 64) ∧ at? ["a", "b", "c"] (-2 ^ 64) = none ∧
      Command.lindex (Env.top 0) [TclList.format ["a", "b", "c"], farBelow] Interp.fresh =
        (.ok "a", Interp.fresh) := by
  have hdenotes : Denotes 3 farBelow (-2 ^ 64) :=
    ⟨_, _, _, _, by decide, base_signed true (n := 2 ^ 63) (by decide) 3,
      offset_minus (n := 2 ^ 63) (by decide), by decide⟩
  refine ⟨hdenotes, by decide, ?_⟩
  have hparse : TclList.parse (TclList.format ["a", "b", "c"]) = .ok ["a", "b", "c"] :=
    TclList.parse_of_eq_format rfl
  rw [Command.lindex, elementAt_cons hparse hdenotes]
  rfl

end TclHost.Index
