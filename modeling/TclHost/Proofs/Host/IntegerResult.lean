import TclHost.Proofs.Host.TypedResult
import TclHost.Proofs.Script.WordList
import TclHost.Proofs.Template.Integer
import TclHost.Proofs.Template.Layout
/-! # Integers of the host that come back

An integer of the host that a template inserts into a command, and that the command gives back as
its result, is read as the same integer again.
-/
namespace TclHost.Host

open Template Text

/-! ## Integer types -/

def HostType.Holds (t : HostType) (v : Int) : Prop :=
  match t.kind with
  | .int => -2 ^ (t.bits - 1) ≤ v ∧ v < 2 ^ (t.bits - 1)
  | .uint => 0 ≤ v ∧ v < 2 ^ t.bits
  | _ => False

def HostType.arg (t : HostType) (v : Int) : Arg :=
  match t.kind with
  | .int => .int (Int64.ofInt v)
  | _ => .uint (UInt64.ofNat v.toNat)

theorem HostType.bits_bounds (t : HostType) : 0 < t.bits ∧ t.bits ≤ 64 := by
  cases t <;> decide

theorem bmod_two_pow {n : Nat} (hn : 0 < n) {v : Int} (h : -2 ^ (n - 1) ≤ v)
    (h' : v < 2 ^ (n - 1)) : v.bmod (2 ^ n) = v := by
  have hpow : (2 ^ n : Nat) = 2 * 2 ^ (n - 1) := by
    rw [← Nat.pow_succ']
    congr 1
    omega
  have hcast : ((2 ^ n : Nat) : Int) = 2 * 2 ^ (n - 1) := by
    rw [hpow]
    push_cast
    rfl
  apply Int.bmod_eq_of_le
  · rw [hcast]
    omega
  · rw [hcast]
    omega

section
variable {t : HostType} {v : Int} (e : Engine) (text : String)

/-- A signed integer is what its sign and magnitude read as. -/
theorem extract_signed (hkind : t.kind = .int) (h : t.Holds v)
    (hread : Number.parseInt text = .ok (Int64.ofInt v)) :
    (e.extract text t).1 = .ok (.integer v) := by
  obtain ⟨hpos, hle⟩ := t.bits_bounds
  rw [HostType.Holds, hkind] at h
  obtain ⟨hlower, hupper⟩ := h
  have hpow := pow_le_pow_right₀ (by decide : (1 : Int) ≤ 2) (Nat.sub_le_sub_right hle 1)
  have hv : (Int64.ofInt v).toInt = v := by
    rw [Int64.toInt_ofInt]
    exact bmod_two_pow (n := 64) (by decide) (by omega) (by omega)
  have htyped : t.ofTyped (.int (Int64.ofInt v)) = .ok (.integer v) := by
    rw [HostType.ofTyped.eq_def, hkind]
    dsimp only
    rw [hv, bmod_two_pow hpos hlower hupper]
  simp only [Engine.extract, Engine.coerce.eq_def, hkind, hread, Engine.reading, htyped]

/-- An unsigned integer is the bit pattern of what it reads as. -/
theorem extract_unsigned (hkind : t.kind = .uint) (h : t.Holds v)
    (hread : Number.parseInt text = .ok (Int64.ofNat v.toNat)) :
    (e.extract text t).1 = .ok (.integer v) := by
  obtain ⟨hpos, hle⟩ := t.bits_bounds
  rw [HostType.Holds, hkind] at h
  obtain ⟨hlower, hupper⟩ := h
  have hpow := pow_le_pow_right₀ (by decide : (1 : Int) ≤ 2) hle
  have hlt : v.toNat < 2 ^ 64 := by omega
  have hv : (Int64.ofNat v.toNat).toUInt64.toNat = v.toNat := by
    rw [Int64.toUInt64_ofNat', UInt64.toNat_ofNat', Nat.mod_eq_of_lt hlt]
  have htyped : t.ofTyped (.uint (Int64.ofNat v.toNat).toUInt64) = .ok (.integer v) := by
    rw [HostType.ofTyped.eq_def, hkind]
    dsimp only
    rw [hv, Int.toNat_of_nonneg hlower, Int.emod_eq_of_lt hlower hupper]
  simp only [Engine.extract, Engine.coerce.eq_def, hkind, hread, Engine.reading, htyped]

end

/-- What is read from the sign and the magnitude of an integer of a host type is that integer. -/
theorem HostType.reads {t : HostType} {v : Int} (h : t.Holds v) :
    ∃ negative magnitude, (t.arg v).integer? = some (negative, magnitude) ∧ magnitude < 2 ^ 64 ∧
      ∀ (e : Engine) (text : String),
        Number.parseInt text = .ok (Number.signedReading negative magnitude) →
        (e.extract text t).1 = .ok (.integer v) := by
  cases hkind : t.kind with
  | int =>
    refine ⟨_, _, by rw [HostType.arg, hkind]; rfl, ?_, ?_⟩
    · have hlower := (Int64.ofInt v).le_toInt
      have hupper := (Int64.ofInt v).toInt_lt
      omega
    · intro e text hread
      rw [decide_lt_zero, signedReading_natAbs] at hread
      exact extract_signed e text hkind h hread
  | uint =>
    have hv := h
    rw [HostType.Holds, hkind] at hv
    have hlt : v.toNat < 2 ^ 64 := by
      have hpow := pow_le_pow_right₀ (by decide : (1 : Int) ≤ 2) t.bits_bounds.2
      omega
    refine ⟨_, _, by rw [HostType.arg, hkind]; rfl, UInt64.toNat_lt _, ?_⟩
    intro e text hread
    rw [UInt64.toNat_ofNat', Nat.mod_eq_of_lt hlt] at hread
    exact extract_unsigned e text hkind h hread
  | _ => simp [HostType.Holds, hkind] at h

/-! ## The command -/

theorem isBare_of_isNumeralChar {c : Char} (h : isNumeralChar c = true) :
    Script.isBare c = true := by
  have hspecial : (['$', '[', '\\', ' ', '\t', '\r', '\n', ';', '{', '"'].all fun d =>
      !isNumeralChar d) = true := by
    decide
  have hne : ∀ d ∈ ['$', '[', '\\', ' ', '\t', '\r', '\n', ';', '{', '"'], c ≠ d := by
    rintro d hd rfl
    simpa [h] using List.all_eq_true.mp hspecial c hd
  simp only [List.forall_mem_cons] at hne
  simp [Script.isBare, Script.Stop.isPlain, Script.Stop.closes, Script.isWordEnd, hne]

/-- Setting a variable to a numeral with spaces around it gives the numeral. -/
theorem eval_setN (rounds : Nat) {front back : Nat} {core : List Char} {text : String}
    {s : Interp} (htext : text.toList = List.replicate front ' ' ++
      (core ++ List.replicate back ' '))
    (hcore : core ≠ []) (hchars : ∀ c ∈ core, isNumeralChar c = true)
    (hlevel : s.level < maxNesting) (hset : s.procs.get? "set" = none) :
    ((Env.top rounds).eval ("set n " ++ text) s).1 = .ok (String.ofList core) := by
  have hform : ∀ w ∈ ["n", String.ofList core], Script.WordForm w.toList w := by
    intro w hw
    rcases List.mem_pair.mp hw with rfl | rfl
    · exact Script.wordForm_of_isBare (by decide) (by decide)
    · refine Script.wordForm_of_isBare (by simpa using hcore) ?_
      rw [String.toList_ofList]
      exact List.all_eq_true.mpr fun c hc => isBare_of_isNumeralChar (hchars c hc)
  have happart : Script.Apart (["n", String.ofList core].map String.toList)
      (List.replicate 1 ' ' ++ (['n'] ++ (List.replicate (front + 1) ' ' ++
        (core ++ List.replicate back ' ')))) := by
    simpa using Script.Apart.cons 0 ['n'] (.cons front core (.nil back))
  have hrun := Script.runText_apart String.toList (Env.top rounds) (invoke (Env.top rounds))
    (w := "set") (Script.wordForm_of_isBare (by decide) (by decide)) happart hform (by decide)
  have hscript : ("set n " ++ text).toList =
      "set".toList ++ (List.replicate 1 ' ' ++ (['n'] ++ (List.replicate (front + 1) ' ' ++
        (core ++ List.replicate back ' ')))) := by
    rw [String.toList_append, htext, List.replicate_succ]
    rfl
  have hset' : s.enter.procs.get? "set" = none := hset
  rw [Env.eval, Env.top_runText, hscript, hrun, Eval.nest_apply _ hlevel,
    invoke_of_action? _ hset' rfl]
  rfl

/-- A handle that may be used runs a script and reads the result that it leaves. -/
theorem Handle.evalAs_of_ok {h : Handle} {caller : Nat} {text value : String} (t : HostType)
    (hthread : h.checkThread caller = .ok ()) (hne : text.isEmpty = false)
    (heval : ((Env.top h.engine.rounds).eval text h.engine.interp).1 = .ok value) :
    ∃ engine : Engine, (h.evalAs caller text.toUTF8 t).1 = (engine.extract value t).1 := by
  have hrun : h.engine.eval text.toUTF8 =
      (.ok, { h.engine with
        interp := ((Env.top h.engine.rounds).eval text h.engine.interp).2, result := value }) := by
    rw [Engine.eval, Utf8.decode_toUTF8]
    dsimp only
    rcases hr : (Env.top h.engine.rounds).eval text h.engine.interp with ⟨r, s⟩
    rw [hr] at heval
    cases heval
    rfl
  rw [evalAs_of_not_isEmpty hthread ((Utf8.isEmpty_toUTF8 text).trans hne), hrun]
  exact ⟨_, rfl⟩

/-- The layout of a template that sets a variable to what one nameless placeholder gives. -/
def setLayout (directive? : Option String) (h : '}' ∉ (directive?.getD "").toList) : Layout :=
  ⟨[⟨"set n ".toList, (directive?.getD "").toList, by simp [List.infix_cons_iff], h⟩], [], none,
    by simp, by simp⟩

/-- The command that a template makes sets the variable to the text of the placeholder. -/
theorem expandInto_set {directive? : Option String} {arg : Arg} {text : String}
    (hsource : ∀ source ∈ directive?,
      (∃ cs, source.toList = '%' :: cs) ∧ '}' ∉ source.toList)
    (htext : insertion directive? arg = .ok text) :
    expandInto "" ("set n %\x7b" ++ directive?.getD "" ++ "\x7d") (.positional [arg]) =
      ("set n " ++ text, none) := by
  have hclosed : '}' ∉ (directive?.getD "").toList := by
    cases directive? with
    | none => simp
    | some source => exact (hsource source rfl).2
  have htemplate : "set n %\x7b" ++ directive?.getD "" ++ "\x7d" =
      (setLayout directive? hclosed).text := by
    apply String.toList_injective
    simp [setLayout, Layout.text, Layout.openText, Slot.text]
  -- the placeholder has no name, and its body is the directive
  have hslot : ∀ slot ∈ (setLayout directive? hclosed).slots,
      slot.name = "" ∧ slot.directive? = directive? := by
    intro slot hslot
    cases List.mem_singleton.mp hslot
    cases directive? with
    | none => exact ⟨rfl, rfl⟩
    | some source =>
      obtain ⟨cs, hcs⟩ := (hsource source rfl).1
      have hofList : String.ofList ('%' :: cs) = source := by rw [← hcs, String.ofList_toList]
      simp [Slot.name, Slot.directive?, hcs, hofList]
  have houtcome : ∀ slot ∈ (setLayout directive? hclosed).slots,
      slot.outcome (.positional [arg]) 0 = .ok text := by
    intro slot hmem
    obtain ⟨hname, hdirective⟩ := hslot slot hmem
    rw [Slot.outcome, hname, hdirective]
    exact htext
  have houtcomes : (setLayout directive? hclosed).outcomes (.positional [arg]) = [.ok text] := by
    rw [Layout.outcomes, setLayout, slotOutcomes_cons, houtcome _ (List.mem_singleton_self _)]
    rfl
  rw [htemplate, Layout.expandInto_eq_fill, houtcomes]
  simp [setLayout, Layout.literals, fill]

/-- An integer of a host type, written by a directive that keeps integers into a command that sets a
variable, is the result of that command. -/
theorem Handle.evalTemplateAs_set {h : Handle} {caller : Nat} {t : HostType} {v : Int}
    {directive? : Option String} (hthread : h.checkThread caller = .ok ())
    (hlevel : h.engine.interp.level < maxNesting)
    (hset : h.engine.interp.procs.get? "set" = none) (hv : t.Holds v)
    (hdirective : ∀ source ∈ directive?,
      ∃ d, Directive.parse source = .ok d ∧ d.KeepsInteger) :
    (h.evalTemplateAs caller ("set n %\x7b" ++ directive?.getD "" ++ "\x7d")
      (.positional [t.arg v]) t).1 = .ok (.integer v) := by
  obtain ⟨negative, magnitude, harg, hlt, hreads⟩ := HostType.reads hv
  obtain ⟨text, htext, front, core, back, hlayout, hcore⟩ := insertion_integer harg hdirective
  have hexpand := expandInto_set (fun source hsource => by
    obtain ⟨d, hparse, -⟩ := hdirective source hsource
    exact source_of_parse hparse) htext
  have hrun := eval_setN h.engine.rounds hlayout hcore.ne_nil hcore.chars hlevel hset
  obtain ⟨engine, heval⟩ :=
    evalAs_of_ok (h := { h with buffer := ("set n " ++ text).toUTF8 }) t hthread (by simp) hrun
  rw [evalTemplateAs, expand, hthread]
  simp only [expandInto_bytes, hexpand, Prod.map]
  rw [id, heval]
  exact hreads engine _ (hcore.reads hlt)

/-- The least integer of eight bits comes back from octal digits with zeros in front. -/
theorem Handle.evalTemplateAs_set_least :
    HostType.i8.Holds (-128) ∧ Directive.parse "%#08o" =
        .ok ⟨false, false, false, true, true, some 8, none, 'o'⟩ ∧
      (Handle.evalTemplateAs ⟨.create 1, true, 7, .empty⟩ 7 "set n %\x7b%#08o\x7d"
        (.positional [.int (-128)]) .i8).1 = .ok (.integer (-128)) := by
  have hv : HostType.i8.Holds (-128) := ⟨by decide, by decide⟩
  have hkeeps : ∀ source ∈ some "%#08o",
      ∃ d, Directive.parse source = .ok d ∧ d.KeepsInteger := by
    rintro source ⟨⟩
    exact ⟨_, rfl, .inr ⟨rfl, by decide⟩⟩
  exact ⟨hv, rfl, evalTemplateAs_set rfl (by decide) rfl hv hkeeps⟩

end TclHost.Host
