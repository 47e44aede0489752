import TclHost.Proofs.Script.Finished
/-! # Cutting off the last character

A reading that stops before the last character of a text does not depend on it, if that is a
quote or a closing bracket: the same is read where it is cut off.  A reading that stops in front
of it stops there because of it, and then reads the same where the end of the text stops it
instead.  So what a bracket or a quote closes is a text of its own.
-/
namespace TclHost.Script

open Text

/-! ## What characters mean in front of the last one -/

section
variable {z : Char}

/-- A run of characters that leaves something does not depend on the last character. -/
theorem span_of_dropWhile_ne_nil {p : Char → Bool} {cs : List Char}
    (h : (cs ++ [z]).dropWhile p ≠ []) :
    (cs ++ [z]).takeWhile p = cs.takeWhile p ∧
      (cs ++ [z]).dropWhile p = cs.dropWhile p ++ [z] := by
  induction cs with
  | nil =>
    by_cases hz : p z
    · simp [hz] at h
    · simp [hz]
  | cons c cs ih =>
    by_cases hc : p c
    · simp only [List.cons_append, List.dropWhile_cons_of_pos hc,
        List.takeWhile_cons_of_pos hc] at h ⊢
      exact ⟨congrArg (c :: ·) (ih h).1, (ih h).2⟩
    · simp [hc]

/-- Two tests that differ in one character alone make the same run if it ends elsewhere. -/
theorem span_congr {p q : Char → Bool} {cs : List Char} (h : ∀ c, c ≠ z → p c = q c)
    (hz : p z = true → q z = true) (hend : (cs.dropWhile p).head? = some z → q z = false) :
    cs.takeWhile q = cs.takeWhile p ∧ cs.dropWhile q = cs.dropWhile p := by
  induction cs with
  | nil => simp
  | cons c cs ih =>
    by_cases hc : p c
    · have hq : q c = true := by
        by_cases hcz : c = z
        · exact hcz ▸ hz (hcz ▸ hc)
        · rw [← h c hcz, hc]
      rw [List.dropWhile_cons_of_pos hc] at hend
      simp [hc, hq, ih hend]
    · have hq : q c = false := by
        by_cases hcz : c = z
        · exact hcz ▸ hend (by rw [List.dropWhile_cons_of_neg hc, hcz]; rfl)
        · rw [← h c hcz]
          simpa using hc
      simp [hc, hq]

variable (hz : z = ']' ∨ z = '"')
include hz

theorem escape_read_append_last (c : Char) (cs : List Char) :
    Escape.read (c :: cs ++ [z]) =
      ((Escape.read (c :: cs)).1, (Escape.read (c :: cs)).2 ++ [z]) := by
  apply Escape.read_append_cons
  · rcases hz with rfl | rfl <;> decide
  · rcases hz with rfl | rfl <;> decide

theorem escape_read_last : (Escape.read [z]).2 = [] := by
  rcases hz with rfl | rfl <;> decide

theorem skipBlanks_append_last (cs : List Char) :
    skipBlanks (cs ++ [z]) = skipBlanks cs ++ [z] := by
  have hother : (z == ' ' || z == '\t' || z == '\r') = false ∧ z ≠ '\\' ∧ z ≠ '\n' := by
    rcases hz with rfl | rfl <;> decide
  exact skipBlanks_append_cons hother.1 hother.2.1 (fun h => absurd h hother.2.2) []

theorem skipSeparators_append_last (cs : List Char) :
    skipSeparators (cs ++ [z]) = skipSeparators cs ++ [z] := by
  have hblank : isWordEnd false z = false ∧ z ≠ '\\' ∧ z ≠ '\n' := by
    rcases hz with rfl | rfl <;> decide
  fun_induction skipSeparators cs with
  | case1 =>
    rw [List.nil_append, skipSeparators.eq_def]
    simp [hblank]
  | case2 c cs hc ih =>
    rw [List.cons_append, skipSeparators.eq_def]
    simp only [hc, if_true]
    exact ih
  | case3 ds h ih =>
    rw [List.cons_append, List.cons_append, skipSeparators.eq_def]
    simpa [isWordEnd] using ih
  | case4 cs =>
    have hline : ∀ ds, cs ≠ '\n' :: ds := by assumption
    rw [List.cons_append, skipSeparators.eq_def]
    cases cs with
    | nil => simp [hblank, isWordEnd]
    | cons d cs =>
      have hd : d ≠ '\n' := fun hd => hline cs (hd ▸ rfl)
      simp [hd, isWordEnd]
  | case5 c cs hc hb =>
    rw [List.cons_append, skipSeparators.eq_def]
    simp [hc, hb]

theorem skipComment_append_last (cs : List Char) :
    skipComment (cs ++ [z]) = skipComment cs ++ [z] ∨ skipComment (cs ++ [z]) = [] := by
  have hother : z ≠ '\\' ∧ z ≠ '\n' := by
    rcases hz with rfl | rfl <;> decide
  fun_induction skipComment cs with
  | case1 =>
    right
    rw [List.nil_append, skipComment.eq_def]
    simp [hother, skipComment]
  | case2 =>
    right
    rw [List.cons_append, skipComment.eq_def]
    simp [skipComment]
  | case3 d ds ih =>
    rw [List.cons_append, List.cons_append, skipComment.eq_def]
    simpa using ih
  | case4 cs h =>
    left
    rw [List.cons_append, skipComment.eq_def]
    simp
  | case5 c cs hb hn ih =>
    rw [List.cons_append, skipComment.eq_def]
    simpa [hb, hn] using ih

end

/-! ## Stops that differ in one character -/

def Stop.joinsLine : Stop → Bool
  | .atWordEnd _ => true
  | _ => false

theorem Stop.stopsAt_eq (stop : Stop) (c : Char) (cs : List Char) :
    stop.stopsAt c cs =
      (stop.closes c || (stop.joinsLine && (c == '\\' && cs.head? == some '\n'))) := by
  cases stop <;> simp [stopsAt, joinsLine]

/-- The second stop is the first one, except that the given character may not close it. -/
structure Stop.Loosens (z : Char) (stop stop' : Stop) : Prop where
  closes_eq : ∀ c, c ≠ z → stop.closes c = stop'.closes c
  closes_of : stop'.closes z = true → stop.closes z = true
  joinsLine_eq : stop.joinsLine = stop'.joinsLine

/-- What is left does not start with a character that closes the first stop alone. -/
def Stop.Keeps (z : Char) (stop stop' : Stop) (ys : List Char) : Prop :=
  ys.head? = some z → stop.closes z = true → stop'.closes z = true

open Stop (Loosens Keeps)

variable {z : Char} {stop stop' : Stop}

theorem Stop.Loosens.refl (z : Char) (stop : Stop) : Loosens z stop stop :=
  ⟨fun _ _ => rfl, id, rfl⟩

theorem Stop.Keeps.refl (z : Char) (stop : Stop) (ys : List Char) : Keeps z stop stop ys :=
  fun _ => id

/-- Inside brackets a closing one ends a bare word, and outside it does not. -/
theorem loosens_bracket : Loosens ']' (.atWordEnd true) (.atWordEnd false) := by
  refine ⟨fun c hc => ?_, fun _ => rfl, rfl⟩
  simp [Stop.closes, isWordEnd, hc]

theorem loosens_quote : Loosens '"' .atQuote .atEnd :=
  ⟨fun c hc => by simp [Stop.closes, hc], nofun, rfl⟩

section
variable (h : Loosens z stop stop')
include h

theorem Stop.Loosens.closes_congr {c : Char} {cs : List Char} (hk : Keeps z stop stop' (c :: cs)) :
    stop'.closes c = stop.closes c := by
  by_cases hc : c = z
  · subst hc
    exact Bool.eq_iff_iff.mpr ⟨h.closes_of, hk rfl⟩
  · exact (h.closes_eq c hc).symm

theorem Stop.Loosens.stopsAt_congr (hz : z ≠ '\n') {c : Char} {cs : List Char}
    (hk : Keeps z stop stop' (c :: cs)) :
    stop'.stopsAt c cs = stop.stopsAt c (cs ++ [z]) := by
  rw [Stop.stopsAt_eq, Stop.stopsAt_eq, h.closes_congr hk, h.joinsLine_eq]
  cases cs <;> simp [hz]

/-- Where the first stop has not been reached, the second one has not either. -/
theorem Stop.Loosens.stopsAt_eq_false (hz : z ≠ '\n') {c : Char} {cs : List Char}
    (hc : stop.stopsAt c (cs ++ [z]) = false) : stop'.stopsAt c cs = false := by
  rw [← hc]
  refine h.stopsAt_congr hz fun hhead hcloses => ?_
  rw [List.head?_cons, Option.some.injEq] at hhead
  rw [Stop.stopsAt_eq, hhead, hcloses] at hc
  cases hc

theorem Stop.Loosens.span_congr {cs : List Char}
    (hk : Keeps z stop stop' (cs.dropWhile stop.isPlain)) :
    cs.takeWhile stop'.isPlain = cs.takeWhile stop.isPlain ∧
      cs.dropWhile stop'.isPlain = cs.dropWhile stop.isPlain := by
  refine Script.span_congr (z := z)
    (fun c hc => by rw [Stop.isPlain, Stop.isPlain, h.closes_eq c hc])
    (fun hp => ?_) fun hhead => ?_
  · simp only [Stop.isPlain, Bool.not_eq_true', Bool.or_eq_false_iff] at hp ⊢
    exact ⟨hp.1, Bool.eq_false_iff.mpr fun hc => absurd (h.closes_of hc) (by simp [hp.2])⟩
  · have hstop : stop.isPlain z = false := by
      have := List.head?_dropWhile_not stop.isPlain cs
      rw [hhead] at this
      simpa using this
    have heq : stop'.closes z = stop.closes z := Bool.eq_iff_iff.mpr ⟨h.closes_of, hk hhead⟩
    rw [← hstop, Stop.isPlain, Stop.isPlain, heq]

end

theorem ne_nil_of_finished? {α : Type} {cs : List Char} {r : α × Rest cs.length} {a : α}
    {rest : List Char} (h : finished? r = some (a, rest)) (hrest : rest ≠ []) : cs ≠ [] := by
  rintro rfl
  exact hrest (List.eq_nil_of_length_eq_zero (Nat.le_zero.mp (finished?_length_le h)))

/-- A run of pieces that does not start with a character that closes the first stop alone does not
end in front of one. -/
theorem keeps_of_readPieces {ys zs : List Char} {ps : List Piece}
    (h : finished? (readPieces stop (ys ++ [z])) = some (ps, zs ++ [z]))
    (hk : Keeps z stop stop' zs) : Keeps z stop stop' ys := by
  intro hhead hcloses
  obtain ⟨ys', rfl⟩ := List.head?_eq_some_iff.mp hhead
  have hstop : stop.stopsAt z (ys' ++ [z]) = true := by
    rw [Stop.stopsAt_eq, hcloses]
    rfl
  rw [List.cons_append, finished?_readPieces_stop hstop] at h
  have hzs : zs = z :: ys' := List.append_cancel_right (congrArg Prod.snd (Option.some.inj h)).symm
  exact hk (hzs ▸ rfl) hcloses

theorem Stop.Loosens.nested {nested nested' : Bool}
    (h : Loosens z (.atWordEnd nested) (.atWordEnd nested')) (hn : nested' = true) :
    nested = true := by
  have hcloses : (Stop.atWordEnd nested').closes ']' = true := by
    rw [hn]
    rfl
  have hcloses' : (Stop.atWordEnd nested).closes ']' = true := by
    by_cases hz : ']' = z
    · subst hz
      exact h.closes_of hcloses
    · rw [h.closes_eq _ hz, hcloses]
  cases nested with
  | true => rfl
  | false => cases hcloses'

theorem keeps_of_readWords (hz : z = ']' ∨ z = '"') {nested nested' : Bool} {ys zs : List Char}
    {ws : List Word} (h : finished? (readWords nested (ys ++ [z])) = some (ws, zs ++ [z]))
    (hk : Keeps z (.atWordEnd nested) (.atWordEnd nested') zs) :
    Keeps z (.atWordEnd nested) (.atWordEnd nested') ys := by
  intro hhead hcloses
  obtain ⟨ys', rfl⟩ := List.head?_eq_some_iff.mp hhead
  rcases hz with rfl | rfl
  · have hnested : nested = true := by
      cases nested with
      | true => rfl
      | false => cases hcloses
    have hskip : skipBlanks (']' :: (ys' ++ [']'])) = ']' :: (ys' ++ [']']) := by
      rw [skipBlanks.eq_def]
      rfl
    rw [List.cons_append, finished?_readWords_bracket hskip ⟨hnested, rfl⟩] at h
    have hzs : zs = ']' :: ys' :=
      List.append_cancel_right (congrArg Prod.snd (Option.some.inj h)).symm
    exact hk (hzs ▸ rfl) hcloses
  · cases nested <;> cases hcloses

/-! ## The readers -/

section
variable (z : Char) (n : Nat)

def PiecesCut : Prop :=
  ∀ ⦃stop stop' : Stop⦄, Loosens z stop stop' → ∀ ⦃cs : List Char⦄, cs.length ≤ n →
    ∀ ⦃ps : List Piece⦄ ⦃r : List Char⦄,
      finished? (readPieces stop (cs ++ [z])) = some (ps, r) → r ≠ [] →
      ∃ ys, r = ys ++ [z] ∧ ((ys = [] → stop'.fault? = none) → Keeps z stop stop' ys →
        finished? (readPieces stop' cs) = some (ps, ys))

def PieceCut : Prop :=
  ∀ ⦃stop stop' : Stop⦄, Loosens z stop stop' → ∀ ⦃c : Char⦄ ⦃cs : List Char⦄, cs.length ≤ n →
    ∀ ⦃p : Piece⦄ ⦃r : List Char⦄,
      finished? (readPiece stop c (cs ++ [z])) = some (p, r) → r ≠ [] →
      ∃ ys, r = ys ++ [z] ∧
        (Keeps z stop stop' ys → finished? (readPiece stop' c cs) = some (p, ys))

def ReferenceCut : Prop :=
  ∀ ⦃cs : List Char⦄, cs.length ≤ n → ∀ ⦃p : Piece⦄ ⦃r : List Char⦄,
    finished? (readReference (cs ++ [z])) = some (p, r) → r ≠ [] →
    ∃ ys, r = ys ++ [z] ∧ finished? (readReference cs) = some (p, ys)

def WordCut : Prop :=
  ∀ ⦃nested nested' : Bool⦄, Loosens z (.atWordEnd nested) (.atWordEnd nested') →
    ∀ ⦃c : Char⦄ ⦃cs : List Char⦄, cs.length ≤ n → ∀ ⦃w : Word⦄ ⦃r : List Char⦄,
      finished? (readWord nested c (cs ++ [z])) = some (w, r) → r ≠ [] →
      ∃ ys, r = ys ++ [z] ∧ (Keeps z (.atWordEnd nested) (.atWordEnd nested') ys →
        finished? (readWord nested' c cs) = some (w, ys))

def WordsCut : Prop :=
  ∀ ⦃nested nested' : Bool⦄, Loosens z (.atWordEnd nested) (.atWordEnd nested') →
    ∀ ⦃cs : List Char⦄, cs.length ≤ n → ∀ ⦃ws : List Word⦄ ⦃r : List Char⦄,
      finished? (readWords nested (cs ++ [z])) = some (ws, r) → r ≠ [] →
      ∃ ys, r = ys ++ [z] ∧ (Keeps z (.atWordEnd nested) (.atWordEnd nested') ys →
        finished? (readWords nested' cs) = some (ws, ys))

def CommandCut : Prop :=
  ∀ ⦃nested nested' : Bool⦄, Loosens z (.atWordEnd nested) (.atWordEnd nested') →
    ∀ ⦃c : Char⦄ ⦃cs : List Char⦄, cs.length ≤ n → ∀ ⦃ws : List Word⦄ ⦃r : List Char⦄,
      finished? (readCommand nested c (cs ++ [z])) = some (ws, r) → r ≠ [] →
      ∃ ys, r = ys ++ [z] ∧ (Keeps z (.atWordEnd nested) (.atWordEnd nested') ys →
        finished? (readCommand nested' c cs) = some (ws, ys))

def CommandsCut : Prop :=
  ∀ ⦃cs : List Char⦄, cs.length ≤ n → ∀ ⦃script : Script⦄ ⦃r : List Char⦄,
    finished? (readCommands true (cs ++ [z])) = some (script, r) → r ≠ [] →
    ∃ ys, r = ys ++ [z] ∧ finished? (readCommands true cs) = some (script, ys)

end

section
variable (hz : z = ']' ∨ z = '"') {n : Nat}
include hz

theorem pieces_last {ps : List Piece} {r : List Char} (hstop : stop.stopsAt z [] = false)
    (h : finished? (readPieces stop [z]) = some (ps, r)) : r = [] := by
  have hother : z ≠ '$' ∧ z ≠ '[' ∧ z ≠ '\\' := by
    rcases hz with rfl | rfl <;> decide
  rw [finished?_readPieces_cons hstop,
    finished?_readPiece_literal stop hother.1 hother.2.1 hother.2.2] at h
  simp only [List.takeWhile_nil, List.dropWhile_nil, Option.bind_some,
    finished?_readPieces_nil] at h
  split at h
  · cases h
    rfl
  · cases h

theorem piecesCut_step (hpiece : ∀ m < n, PieceCut z m) (hpieces : ∀ m < n, PiecesCut z m) :
    PiecesCut z n := by
  have hline : z ≠ '\n' := by
    rcases hz with rfl | rfl <;> decide
  intro stop stop' hloose cs hcs ps r h hr
  cases cs with
  | nil =>
    cases hstop : stop.stopsAt z [] with
    | true =>
      rw [List.nil_append, finished?_readPieces_stop hstop] at h
      cases h
      refine ⟨[], rfl, fun hfault _ => ?_⟩
      rw [finished?_readPieces_nil, if_pos (hfault rfl)]
    | false => exact absurd (pieces_last hz hstop h) hr
  | cons c cs =>
    cases hstop : stop.stopsAt c (cs ++ [z]) with
    | true =>
      rw [List.cons_append, finished?_readPieces_stop hstop] at h
      cases h
      refine ⟨c :: cs, rfl, fun _ hk => ?_⟩
      rw [← hloose.stopsAt_congr hline hk] at hstop
      exact finished?_readPieces_stop hstop
    | false =>
      rw [List.cons_append, finished?_readPieces_cons hstop] at h
      obtain ⟨⟨p, rest⟩, hp, hrest⟩ := Option.bind_eq_some_iff.mp h
      obtain ⟨⟨qs, r'⟩, hqs, heq⟩ := Option.map_eq_some_iff.mp hrest
      cases heq
      have hne : rest ≠ [] := ne_nil_of_finished? hqs hr
      obtain ⟨ys, rfl, hp'⟩ := hpiece cs.length hcs hloose (Nat.le_refl _) hp hne
      have hys : ys.length ≤ cs.length := by simpa using finished?_length_le hp
      obtain ⟨zs, rfl, hqs'⟩ := hpieces ys.length (Nat.lt_of_le_of_lt hys hcs) hloose
        (Nat.le_refl _) hqs hr
      refine ⟨zs, rfl, fun hfault hk => ?_⟩
      have hk' := keeps_of_readPieces hqs hk
      rw [finished?_readPieces_cons (hloose.stopsAt_eq_false hline hstop), hp' hk']
      simp [hqs' hfault hk]

omit hz in
theorem pieceCut_step (hz : z = ']' ∨ z = '"') (hreference : ReferenceCut z n)
    (hcommands : CommandsCut z n) : PieceCut z n := by
  intro stop stop' hloose c cs hcs p r h hr
  by_cases hdollar : c = '$'
  · subst hdollar
    rw [finished?_readPiece_reference] at h
    obtain ⟨ys, hys, hread⟩ := hreference hcs h hr
    exact ⟨ys, hys, fun _ => (finished?_readPiece_reference ..).trans hread⟩
  by_cases hopen : c = '['
  · subst hopen
    rw [finished?_readPiece_command] at h
    obtain ⟨⟨script, r'⟩, hscript, heq⟩ := Option.map_eq_some_iff.mp h
    cases heq
    obtain ⟨ys, hys, hread⟩ := hcommands hcs hscript hr
    exact ⟨ys, hys, fun _ => by rw [finished?_readPiece_command, hread]; rfl⟩
  by_cases hb : c = '\\'
  · subst hb
    rw [finished?_readPiece_escape] at h
    cases h
    cases cs with
    | nil => exact absurd (escape_read_last hz) hr
    | cons d ds =>
      refine ⟨(Escape.read (d :: ds)).2, by rw [escape_read_append_last hz], fun _ => ?_⟩
      rw [finished?_readPiece_escape, escape_read_append_last hz]
  · rw [finished?_readPiece_literal stop hdollar hopen hb] at h
    cases h
    obtain ⟨htake, hdrop⟩ := span_of_dropWhile_ne_nil hr
    refine ⟨cs.dropWhile stop.isPlain, hdrop, fun hk => ?_⟩
    obtain ⟨htake', hdrop'⟩ := hloose.span_congr hk
    rw [finished?_readPiece_literal stop' hdollar hopen hb, htake, htake', hdrop']

omit hz in
/-- A last character other than a given one does not make a text start with that one. -/
theorem append_last_ne_cons {o : Char} (hzo : z ≠ o) {cs : List Char} (h : ∀ ds, cs ≠ o :: ds)
    (ds : List Char) : cs ++ [z] ≠ o :: ds := by
  intro hds
  rcases List.append_eq_cons_iff.mp hds with ⟨-, hlast⟩ | ⟨cs', hcs', -⟩
  · exact hzo (List.cons.inj hlast).1
  · exact h cs' hcs'

omit hz in
theorem readReference_braced_cut {ds r : List Char} {p : Piece}
    (h : finished? (readReference ('{' :: (ds ++ [z]))) = some (p, r)) (hr : r ≠ []) :
    ∃ ys, r = ys ++ [z] ∧ finished? (readReference ('{' :: ds)) = some (p, ys) := by
  cases hdrop : (ds ++ [z]).dropWhile (· != '}') with
  | nil =>
    rw [finished?_readReference_unclosed hdrop] at h
    cases h
  | cons c rest =>
    rw [finished?_readReference_braced hdrop] at h
    cases h
    obtain ⟨htake, hdrop'⟩ :=
      span_of_dropWhile_ne_nil (p := (· != '}')) (by rw [hdrop]; exact List.cons_ne_nil _ _)
    rw [hdrop] at hdrop'
    cases hds : ds.dropWhile (· != '}') with
    | nil =>
      rw [hds] at hdrop'
      cases hdrop'
      exact absurd rfl hr
    | cons d ys =>
      rw [hds] at hdrop'
      cases hdrop'
      exact ⟨ys, rfl, by rw [finished?_readReference_braced hds, htake]⟩

omit hz in
theorem readReference_element_cut (hpieces : ∀ m < n, PiecesCut z m) {cs ds r : List Char}
    {p : Piece} (hcs : cs.length ≤ n) (hname : (splitName cs).1 ≠ [])
    (hds : (splitName cs).2 = '(' :: ds)
    (hsplit : splitName (cs ++ [z]) = ((splitName cs).1, (splitName cs).2 ++ [z]))
    (h : finished? (readReference (cs ++ [z])) = some (p, r)) (hr : r ≠ []) :
    ∃ ys, r = ys ++ [z] ∧ finished? (readReference cs) = some (p, ys) := by
  rw [finished?_readReference_element (by rwa [hsplit]) (by rw [hsplit, hds]; rfl), hsplit] at h
  obtain ⟨⟨ps, r'⟩, hps, heq⟩ := Option.map_eq_some_iff.mp h
  cases heq
  have hlt : ds.length < n := by
    have := splitName_snd_length_le cs
    rw [hds, List.length_cons] at this
    omega
  have hne : r' ≠ [] := fun hnil => hr (by rw [hnil]; rfl)
  obtain ⟨ys, rfl, hread⟩ := hpieces ds.length hlt (.refl z .atParen) (Nat.le_refl _) hps hne
  cases ys with
  | nil => exact absurd rfl hr
  | cons y ys =>
    refine ⟨ys, rfl, ?_⟩
    rw [finished?_readReference_element hname hds, hread nofun (.refl z .atParen _)]
    rfl

theorem referenceCut_step (hpieces : ∀ m < n, PiecesCut z m) : ReferenceCut z n := by
  have hother : isNameChar z = false ∧ z ≠ ':' ∧ z ≠ '{' ∧ z ≠ '(' := by
    rcases hz with rfl | rfl <;> decide
  intro cs hcs p r h hr
  have hsplit := splitName_append_cons hother.1 hother.2.1 cs []
  by_cases hbrace : ∃ ds, cs = '{' :: ds
  · obtain ⟨ds, rfl⟩ := hbrace
    exact readReference_braced_cut h hr
  have hbrace' (ds : List Char) : cs ≠ '{' :: ds := fun hds => hbrace ⟨ds, hds⟩
  by_cases hname : (splitName cs).1 = []
  · rw [finished?_readReference_dollar (append_last_ne_cons hother.2.2.1 hbrace')
      (by rw [hsplit, hname])] at h
    cases h
    exact ⟨cs, rfl, finished?_readReference_dollar hbrace' hname⟩
  by_cases hindex : ∃ ds, (splitName cs).2 = '(' :: ds
  · obtain ⟨ds, hds⟩ := hindex
    exact readReference_element_cut hpieces hcs hname hds hsplit h hr
  · have hindex' (ds : List Char) : (splitName cs).2 ≠ '(' :: ds := fun hds => hindex ⟨ds, hds⟩
    rw [finished?_readReference_variable (by rwa [hsplit])
      (by rw [hsplit]; exact append_last_ne_cons hother.2.2.2 hindex'), hsplit] at h
    cases h
    exact ⟨_, rfl, finished?_readReference_variable hname hindex'⟩

omit hz in
theorem mayFollow_cut {nested nested' : Bool} {ys : List Char}
    (hloose : Loosens z (.atWordEnd nested) (.atWordEnd nested'))
    (h : mayFollow nested (ys ++ [z]) = true)
    (hk : Keeps z (.atWordEnd nested) (.atWordEnd nested') ys) : mayFollow nested' ys = true := by
  cases ys with
  | nil => rfl
  | cons c ys =>
    have hends : isWordEnd nested' c = isWordEnd nested c := hloose.closes_congr hk
    simpa [mayFollow, hends] using h

omit hz in
theorem closeQuoted_cut {nested nested' : Bool}
    (hloose : Loosens z (.atWordEnd nested) (.atWordEnd nested')) (hpieces : PiecesCut z n)
    {cs : List Char} (hcs : cs.length ≤ n) {ps : List Piece} {r : List Char}
    (h : finished? (closeQuoted nested (readPieces .atQuote (cs ++ [z]))) = some (ps, r))
    (hr : r ≠ []) :
    ∃ ys, r = ys ++ [z] ∧ (Keeps z (.atWordEnd nested) (.atWordEnd nested') ys →
      finished? (closeQuoted nested' (readPieces .atQuote cs)) = some (ps, ys)) := by
  rw [finished?_closeQuoted] at h
  obtain ⟨⟨qs, r'⟩, hqs, hfollow⟩ := Option.bind_eq_some_iff.mp h
  dsimp only at hfollow
  split at hfollow
  · next hmay =>
    cases hfollow
    have hne : r' ≠ [] := fun hnil => hr (by rw [hnil]; rfl)
    obtain ⟨ys, rfl, hread⟩ := hpieces (.refl z .atQuote) hcs hqs hne
    cases ys with
    | nil => exact absurd rfl hr
    | cons y ys =>
      refine ⟨ys, rfl, fun hk => ?_⟩
      rw [finished?_closeQuoted, hread nofun (.refl z .atQuote _)]
      simp [mayFollow_cut hloose hmay hk]
  · cases hfollow

omit hz in
theorem readBraced_cut {nested nested' : Bool}
    (hloose : Loosens z (.atWordEnd nested) (.atWordEnd nested')) {cs : List Char}
    {ps : List Piece} {r : List Char}
    (h : finished? (readBraced nested (cs ++ [z])) = some (ps, r)) (hr : r ≠ []) :
    ∃ ys, r = ys ++ [z] ∧ (Keeps z (.atWordEnd nested) (.atWordEnd nested') ys →
      finished? (readBraced nested' cs) = some (ps, ys)) := by
  rw [finished?_readBraced] at h
  obtain ⟨⟨inner, r'⟩, hclose, hfollow⟩ := Option.bind_eq_some_iff.mp h
  dsimp only at hfollow
  split at hfollow
  · next hmay =>
    cases hfollow
    obtain ⟨ys, rfl, hclose'⟩ := closeAt?_of_append_eq_some hclose hr
    refine ⟨ys, rfl, fun hk => ?_⟩
    rw [finished?_readBraced, hclose']
    simp [mayFollow_cut hloose hmay hk]
  · cases hfollow

omit hz in
theorem barePieces_cut {nested nested' : Bool}
    (hloose : Loosens z (.atWordEnd nested) (.atWordEnd nested')) (hpiece : PieceCut z n)
    (hpieces : PiecesCut z n) {c : Char} {cs : List Char} (hcs : cs.length ≤ n)
    {ps : List Piece} {r : List Char} (h : barePieces? nested c (cs ++ [z]) = some (ps, r))
    (hr : r ≠ []) :
    ∃ ys, r = ys ++ [z] ∧ (Keeps z (.atWordEnd nested) (.atWordEnd nested') ys →
      barePieces? nested' c cs = some (ps, ys)) := by
  obtain ⟨⟨p, rest⟩, hp, hrest⟩ := Option.bind_eq_some_iff.mp h
  obtain ⟨⟨qs, r'⟩, hqs, heq⟩ := Option.map_eq_some_iff.mp hrest
  cases heq
  have hne : rest ≠ [] := ne_nil_of_finished? hqs hr
  obtain ⟨ys, rfl, hp'⟩ := hpiece hloose hcs hp hne
  have hys : ys.length ≤ cs.length := by simpa using finished?_length_le hp
  obtain ⟨zs, rfl, hqs'⟩ := hpieces hloose (Nat.le_trans hys hcs) hqs hr
  refine ⟨zs, rfl, fun hk => ?_⟩
  rw [barePieces?, hp' (keeps_of_readPieces hqs hk), Option.bind_some, hqs' (fun _ => rfl) hk]
  rfl

omit hz in
theorem wordPieces_cut {nested nested' : Bool}
    (hloose : Loosens z (.atWordEnd nested) (.atWordEnd nested')) (hpieces : PiecesCut z n)
    {c : Char} {cs : List Char} (hcs : cs.length ≤ n) {bare bare' : Option (List Piece × List Char)}
    {ps : List Piece} {r : List Char} (h : wordPieces? nested c (cs ++ [z]) bare = some (ps, r))
    (hr : r ≠ [])
    (hbare : bare = some (ps, r) → ∃ ys, r = ys ++ [z] ∧
      (Keeps z (.atWordEnd nested) (.atWordEnd nested') ys → bare' = some (ps, ys))) :
    ∃ ys, r = ys ++ [z] ∧ (Keeps z (.atWordEnd nested) (.atWordEnd nested') ys →
      wordPieces? nested' c cs bare' = some (ps, ys)) := by
  unfold wordPieces? at h ⊢
  by_cases hbrace : c = '{'
  · rw [if_pos hbrace] at h ⊢
    exact readBraced_cut hloose h hr
  rw [if_neg hbrace] at h ⊢
  by_cases hquote : c = '"'
  · rw [if_pos hquote] at h ⊢
    exact closeQuoted_cut hloose hpieces hcs h hr
  · rw [if_neg hquote] at h ⊢
    exact hbare h

theorem expanded?_cut {nested nested' : Bool}
    (hloose : Loosens z (.atWordEnd nested) (.atWordEnd nested')) {c d : Char} {cs ds : List Char}
    (h : expanded? nested c (cs ++ [z]) = some (d :: ds)) :
    (∃ ds', ds = ds' ++ [z] ∧ ds'.length < cs.length ∧ expanded? nested' c cs = some (d :: ds')) ∨
      d = z ∧ ds = [] ∧ isWordEnd nested d = false := by
  have hother : z ≠ '*' ∧ z ≠ '}' := by
    rcases hz with rfl | rfl <;> decide
  unfold expanded? at h
  split at h
  · next d' ds' _ heq =>
    split at h
    · cases h
    · next hend =>
      cases h
      match cs, heq with
      | [], heq => exact absurd (List.cons.inj heq).1 hother.1
      | [_], heq => exact absurd (List.cons.inj (List.cons.inj heq).2).1 hother.2
      | [_, _], heq =>
        cases heq
        exact .inr ⟨rfl, rfl, by simpa using hend⟩
      | _ :: _ :: _ :: cs, heq =>
        cases heq
        have hend' : isWordEnd nested' d = false := by
          refine Bool.eq_false_iff.mpr fun hends => hend ?_
          by_cases hd : d = z
          · subst hd
            exact hloose.closes_of hends
          · exact (hloose.closes_eq d hd).trans hends
        refine .inl ⟨cs, rfl, by simp only [List.length_cons]; omega, ?_⟩
        simp [expanded?, hend']
  · cases h

omit hz in
/-- What starts with the mark of an expanded word and an end is a word in braces; it stays one if
that end is not cut off. -/
theorem expanded?_cut_none {nested nested' : Bool}
    (hloose : Loosens z (.atWordEnd nested) (.atWordEnd nested')) {c : Char} {cs ys : List Char}
    {ps : List Piece} {bare : Option (List Piece × List Char)}
    (h : expanded? nested c (cs ++ [z]) = none)
    (hread : wordPieces? nested c (cs ++ [z]) bare = some (ps, ys ++ [z]))
    (hk : Keeps z (.atWordEnd nested) (.atWordEnd nested') ys) : expanded? nested' c cs = none := by
  unfold expanded?
  split
  · next _ d ds =>
    have hend : isWordEnd nested d = true := by
      simpa [expanded?] using h
    have hclose :
        closeAt? '{' '}' 0 ('*' :: '}' :: d :: ds ++ [z]) = some (['*'], d :: ds ++ [z]) := by
      rw [List.cons_append, closeAt?_other _ _ (by decide) (by decide), if_neg (by decide),
        List.cons_append, closeAt?_closing_zero _ (by decide)]
      rfl
    rw [wordPieces?, if_pos rfl, finished?_readBraced, hclose, Option.bind_some] at hread
    split at hread
    · have hys : d :: ds = ys :=
        List.append_cancel_right (congrArg Prod.snd (Option.some.inj hread))
      have hend' : isWordEnd nested' d = isWordEnd nested d := hloose.closes_congr (hys ▸ hk)
      rw [if_pos (hend'.trans hend)]
    · cases hread
  · rfl

theorem wordCut_step (hpieces : PiecesCut z n) (hpiece : PieceCut z n) : WordCut z n := by
  intro nested nested' hloose c cs hcs w r h hr
  cases hexp : expanded? nested c (cs ++ [z]) with
  | none =>
    rw [finished?_readWord_plain hexp] at h
    obtain ⟨⟨ps, r'⟩, hps, heq⟩ := Option.map_eq_some_iff.mp h
    cases heq
    obtain ⟨ys, rfl, hread⟩ := wordPieces_cut hloose hpieces hcs hps hr
      fun hbare => barePieces_cut hloose hpiece hpieces hcs hbare hr
    refine ⟨ys, rfl, fun hk => ?_⟩
    rw [finished?_readWord_plain (expanded?_cut_none hloose hexp hps hk), hread hk]
    rfl
  | some rest =>
    obtain ⟨d, ds, rfl⟩ : ∃ d ds, rest = d :: ds := by
      unfold expanded? at hexp
      split at hexp
      · split at hexp
        · cases hexp
        · cases hexp
          exact ⟨_, _, rfl⟩
      · cases hexp
    rw [finished?_readWord_expanded hexp] at h
    obtain ⟨⟨ps, r'⟩, hps, heq⟩ := Option.map_eq_some_iff.mp h
    cases heq
    obtain ⟨ds', rfl, hlt, hexp'⟩ | ⟨rfl, rfl, hend⟩ := expanded?_cut hz hloose hexp
    · obtain ⟨ys, rfl, hread⟩ := wordPieces_cut hloose hpieces (by omega) hps hr fun hbare => by
        have hds' : (d :: ds').length ≤ n := by
          simp only [List.length_cons]
          omega
        obtain ⟨ys, hys, hread⟩ := hpieces hloose hds' hbare hr
        exact ⟨ys, hys, fun hk => hread (fun _ => rfl) hk⟩
      refine ⟨ys, rfl, fun hk => ?_⟩
      rw [finished?_readWord_expanded hexp', hread hk]
      rfl
    · -- The last character would be the whole word.
      refine absurd ?_ hr
      rcases hz with rfl | rfl
      · have hstop : (Stop.atWordEnd nested).stopsAt ']' [] = false := by
          rw [Stop.stopsAt_eq]
          simpa [Stop.closes] using hend
        exact pieces_last (.inl rfl) hstop hps
      · rw [wordPieces?, if_neg (by decide), if_pos rfl, finished?_closeQuoted,
          finished?_readPieces_nil] at hps
        cases hps

theorem wordsCut_step (hcommand : ∀ m < n, CommandCut z m) : WordsCut z n := by
  intro nested nested' hloose cs hcs ws r h hr
  have hskip := skipBlanks_append_last hz cs
  have hother : ¬(z = '\n' ∨ z = ';') := by
    rcases hz with rfl | rfl <;> decide
  cases hblanks : skipBlanks cs with
  | nil =>
    rw [hblanks, List.nil_append] at hskip
    by_cases hbracket : nested ∧ z = ']'
    · rw [finished?_readWords_bracket hskip hbracket] at h
      cases h
      exact ⟨[], rfl, fun _ => finished?_readWords_nil hblanks⟩
    · -- The last character would be the whole word.
      rw [finished?_readWords_word hskip hother hbracket] at h
      exact absurd rfl (ne_nil_of_finished? h hr)
  | cons c tail =>
    rw [hblanks, List.cons_append] at hskip
    have hlt : tail.length < n := by
      have := skipBlanks_length_le cs
      rw [hblanks, List.length_cons] at this
      omega
    by_cases hend : c = '\n' ∨ c = ';'
    · rw [finished?_readWords_lineEnd hskip hend] at h
      cases h
      exact ⟨tail, rfl, fun _ => finished?_readWords_lineEnd hblanks hend⟩
    by_cases hbracket : nested ∧ c = ']'
    · rw [finished?_readWords_bracket hskip hbracket] at h
      cases h
      refine ⟨c :: tail, rfl, fun hk => finished?_readWords_bracket hblanks ⟨?_, hbracket.2⟩⟩
      have hends : isWordEnd nested' c = isWordEnd nested c := hloose.closes_congr hk
      simpa [hbracket.1, hbracket.2, isWordEnd] using hends
    · rw [finished?_readWords_word hskip hend hbracket] at h
      obtain ⟨ys, rfl, hread⟩ := hcommand tail.length hlt hloose (Nat.le_refl _) h hr
      have hbracket' : ¬(nested' ∧ c = ']') := fun hb => hbracket ⟨hloose.nested hb.1, hb.2⟩
      exact ⟨ys, rfl, fun hk => (finished?_readWords_word hblanks hend hbracket').trans (hread hk)⟩

omit hz in
theorem commandCut_step (hz : z = ']' ∨ z = '"') (hword : WordCut z n) (hwords : WordsCut z n) :
    CommandCut z n := by
  intro nested nested' hloose c cs hcs ws r h hr
  rw [finished?_readCommand] at h
  obtain ⟨⟨w, rest⟩, hw, hrest⟩ := Option.bind_eq_some_iff.mp h
  obtain ⟨⟨vs, r'⟩, hvs, heq⟩ := Option.map_eq_some_iff.mp hrest
  cases heq
  have hne := ne_nil_of_finished? hvs hr
  obtain ⟨ys, rfl, hw'⟩ := hword hloose hcs hw hne
  have hys : ys.length ≤ cs.length := by simpa using finished?_length_le hw
  obtain ⟨zs, rfl, hvs'⟩ := hwords hloose (Nat.le_trans hys hcs) hvs hr
  refine ⟨zs, rfl, fun hk => ?_⟩
  rw [finished?_readCommand, hw' (keeps_of_readWords hz hvs hk), Option.bind_some, hvs' hk]
  rfl

omit hz in
theorem finished?_readCommands_empty : finished? (readCommands true []) = none := by
  rw [finished?_readCommands_nil (by rfl), if_pos rfl]

theorem commandsCut_step (hcommand : ∀ m < n, CommandCut z m)
    (hcommands : ∀ m < n, CommandsCut z m) : CommandsCut z n := by
  intro cs hcs script r h hr
  have hskip := skipSeparators_append_last hz cs
  cases hseparators : skipSeparators cs with
  | nil =>
    rw [hseparators, List.nil_append] at hskip
    by_cases hbracket : z = ']'
    · rw [finished?_readCommands_bracket hskip ⟨rfl, hbracket⟩] at h
      cases h
      exact absurd rfl hr
    · have hhash : z ≠ '#' := by
        rcases hz with rfl | rfl <;> decide
      rw [finished?_readCommands_command hskip (fun hb => hbracket hb.2) hhash] at h
      obtain ⟨⟨ws, rest⟩, hws, hrest⟩ := Option.bind_eq_some_iff.mp h
      obtain ⟨⟨commands, r'⟩, hread, heq⟩ := Option.map_eq_some_iff.mp hrest
      cases heq
      exact absurd rfl (ne_nil_of_finished? hws (ne_nil_of_finished? hread hr))
  | cons c tail =>
    rw [hseparators, List.cons_append] at hskip
    have hlt : tail.length < n := by
      have := skipSeparators_length_le cs
      rw [hseparators, List.length_cons] at this
      omega
    by_cases hbracket : c = ']'
    · rw [finished?_readCommands_bracket hskip ⟨rfl, hbracket⟩] at h
      cases h
      exact ⟨tail, rfl, finished?_readCommands_bracket hseparators ⟨rfl, hbracket⟩⟩
    by_cases hhash : c = '#'
    · rw [finished?_readCommands_comment hskip hhash] at h
      obtain hcomment | hcomment := skipComment_append_last hz tail
      · rw [hcomment] at h
        have hle := skipComment_length_le tail
        obtain ⟨ys, hys, hread⟩ := hcommands _ (Nat.lt_of_le_of_lt hle hlt) (Nat.le_refl _) h hr
        exact ⟨ys, hys, by rw [finished?_readCommands_comment hseparators hhash, hread]⟩
      · rw [hcomment, finished?_readCommands_empty] at h
        cases h
    · rw [finished?_readCommands_command hskip (by simpa using hbracket) hhash] at h
      obtain ⟨⟨ws, rest⟩, hws, hrest⟩ := Option.bind_eq_some_iff.mp h
      obtain ⟨⟨commands, r'⟩, hread, heq⟩ := Option.map_eq_some_iff.mp hrest
      cases heq
      have hne := ne_nil_of_finished? hread hr
      obtain ⟨ys, rfl, hws'⟩ := hcommand tail.length hlt (.refl z (.atWordEnd true)) (Nat.le_refl _)
        hws hne
      have hys : ys.length ≤ tail.length := by simpa using finished?_length_le hws
      obtain ⟨zs, rfl, hread'⟩ := hcommands ys.length (Nat.lt_of_le_of_lt hys hlt) (Nat.le_refl _)
        hread hr
      refine ⟨zs, rfl, ?_⟩
      rw [finished?_readCommands_command hseparators (by simpa using hbracket) hhash,
        hws' (.refl z _ _), Option.bind_some, hread']
      rfl

/-- Every reader reads the same where a last character is cut off that it does not read. -/
theorem readers_cut (n : Nat) :
    PiecesCut z n ∧ PieceCut z n ∧ WordCut z n ∧ WordsCut z n ∧ CommandCut z n ∧
      CommandsCut z n := by
  induction n using Nat.strongRecOn with
  | ind n ih =>
    have hpieces := piecesCut_step hz (fun m hm => (ih m hm).2.1) fun m hm => (ih m hm).1
    have hreference := referenceCut_step hz fun m hm => (ih m hm).1
    have hcommands := commandsCut_step hz (fun m hm => (ih m hm).2.2.2.2.1)
      fun m hm => (ih m hm).2.2.2.2.2
    have hpiece := pieceCut_step hz hreference hcommands
    have hword := wordCut_step hz hpieces hpiece
    have hwords := wordsCut_step hz fun m hm => (ih m hm).2.2.2.2.1
    exact ⟨hpieces, hpiece, hword, hwords, commandCut_step hz hword hwords, hcommands⟩

end

/-! ## What brackets and quotes close -/

/-- What a bracket closes is a script of its own. -/
theorem readCommands_of_bracket {cs : List Char} {script : Script}
    (h : finished? (readCommands true (cs ++ [']'])) = some (script, [])) :
    finished? (readCommands false cs) = some (script, []) := by
  suffices hall : ∀ (n : Nat) (cs : List Char) (script : Script), cs.length ≤ n →
      finished? (readCommands true (cs ++ [']'])) = some (script, []) →
      finished? (readCommands false cs) = some (script, []) from hall _ cs script (Nat.le_refl _) h
  clear h
  intro n
  induction n using Nat.strongRecOn with
  | ind n ih =>
    intro cs script hcs h
    have hskip := skipSeparators_append_last (.inl rfl) cs
    cases hseparators : skipSeparators cs with
    | nil =>
      rw [hseparators, List.nil_append] at hskip
      rw [finished?_readCommands_bracket hskip ⟨rfl, rfl⟩] at h
      cases h
      exact finished?_readCommands_nil hseparators
    | cons c tail =>
      rw [hseparators, List.cons_append] at hskip
      have hlt : tail.length < n := by
        have := skipSeparators_length_le cs
        rw [hseparators, List.length_cons] at this
        omega
      by_cases hbracket : c = ']'
      · rw [finished?_readCommands_bracket hskip ⟨rfl, hbracket⟩] at h
        simp at h
      by_cases hhash : c = '#'
      · rw [finished?_readCommands_comment hskip hhash] at h
        obtain hcomment | hcomment := skipComment_append_last (.inl rfl) tail
        · rw [hcomment] at h
          have hle := skipComment_length_le tail
          rw [finished?_readCommands_comment hseparators hhash]
          exact ih _ (Nat.lt_of_le_of_lt hle hlt) _ _ (Nat.le_refl _) h
        · rw [hcomment, finished?_readCommands_empty] at h
          cases h
      · rw [finished?_readCommands_command hskip (by simpa using hbracket) hhash] at h
        obtain ⟨⟨ws, rest⟩, hws, hrest⟩ := Option.bind_eq_some_iff.mp h
        obtain ⟨⟨commands, r'⟩, hread, heq⟩ := Option.map_eq_some_iff.mp hrest
        cases heq
        have hne : rest ≠ [] := by
          rintro rfl
          rw [finished?_readCommands_empty] at hread
          cases hread
        obtain ⟨ys, rfl, hws'⟩ := (readers_cut (.inl rfl) tail.length).2.2.2.2.1 loosens_bracket
          (Nat.le_refl _) hws hne
        have hys : ys.length ≤ tail.length := by simpa using finished?_length_le hws
        -- A bracket that ends the command would close the script before the last one does.
        have hk : Keeps ']' (.atWordEnd true) (.atWordEnd false) ys := by
          intro hhead _
          obtain ⟨ys', rfl⟩ := List.head?_eq_some_iff.mp hhead
          have hskip' : skipSeparators (']' :: (ys' ++ [']'])) = ']' :: (ys' ++ [']']) := by
            rw [skipSeparators.eq_def]
            rfl
          rw [List.cons_append, finished?_readCommands_bracket hskip' ⟨rfl, rfl⟩] at hread
          simp at hread
        have hread' := ih ys.length (Nat.lt_of_le_of_lt hys hlt) _ _ (Nat.le_refl _) hread
        rw [finished?_readCommands_command hseparators (by simp) hhash, hws' hk, Option.bind_some,
          hread']
        rfl

/-- What a quote closes is a text of its own. -/
theorem readPieces_of_quote {cs : List Char} {ps : List Piece}
    (h : finished? (readPieces .atQuote (cs ++ ['"'])) = some (ps, ['"'])) :
    finished? (readPieces .atEnd cs) = some (ps, []) := by
  obtain ⟨ys, hys, hread⟩ := (readers_cut (.inr rfl) cs.length).1 loosens_quote (Nat.le_refl _) h
    (List.cons_ne_nil _ _)
  obtain rfl : ys = [] := by simpa using hys
  exact hread (fun _ => rfl) nofun

end TclHost.Script
