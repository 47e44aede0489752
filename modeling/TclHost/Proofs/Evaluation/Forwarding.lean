import TclHost.Proofs.Evaluation.Surroundings
import TclHost.Proofs.Script.Finished
import TclHost.Proofs.Script.WordList
import TclHost.Proofs.TclList.RoundTrip
/-! # Forwarding arguments

A procedure whose body calls another one with all of its own arguments does what that one does.
The arguments go through a list and come out of it again, the other procedure is called from one
frame and one level further down, and its outcome passes the end of a call twice.
-/
namespace TclHost

open Eval Interp

/-! ## Calls -/

def callEnd : Except Exit String → Except Exit String
  | .ok value | .error (.returned value) => .ok value
  | .error .broke => .error (.error CommandError.breakOutsideLoop.message)
  | .error .continued => .error (.error CommandError.continueOutsideLoop.message)
  | .error exit => .error exit

theorem callEnd_callEnd (r : Except Exit String) : callEnd (callEnd r) = callEnd r := by
  rcases r with (_ | _ | _ | _ | _) | _ <;> rfl

theorem callProcedure_apply (env : Env) (name : String) {p : Procedure} {args : List String}
    {frame : Frame} (hb : p.bind? args = some frame) (s : Interp) :
    callProcedure env name p args s = (callEnd (env.runText p.body (s.pushFrame frame)).1,
      (env.runText p.body (s.pushFrame frame)).2.popFrame) := by
  have hattempt : ((env.runText p.body).framed frame).attempt s =
      (.ok (env.runText p.body (s.pushFrame frame)).1,
        (env.runText p.body (s.pushFrame frame)).2.popFrame) := rfl
  rw [callProcedure_of_bind? env name hb, bind_apply, hattempt]
  rcases (env.runText p.body (s.pushFrame frame)).1 with (_ | _ | _ | _ | _) | _ <;> rfl

theorem invoke_of_proc (env : Env) {name : String} {p : Procedure} {s : Interp}
    (hp : s.procs.get? name = some p) (args : List String) :
    invoke env (name :: args) s = callProcedure env name p args s := by
  have hget : (get : Eval Interp) s = (.ok s, s) := rfl
  rw [invoke, bind_apply, hget]
  simp only [hp]

theorem getVar_of_get? {name value : String} {s : Interp} (h : s.get? name = some value) :
    Eval.getVar name s = (.ok value, s) := by
  have hget : (get : Eval Interp) s = (.ok s, s) := rfl
  rw [Eval.getVar, bind_apply, hget]
  simp only [Interp.read, h]
  rfl

/-! ## The body -/

namespace Script

structure IsPlainWord (w : String) : Prop where
  ne_empty : w ≠ ""
  all_isPlain : w.toList.all (Stop.atWordEnd false).isPlain = true
  head_notMem : ∀ c ∈ w.toList.head?, c ∉ ['#', '{', '"']

def forwardingWords (target : String) : List Word :=
  [.mk false [.literal target.toList], .mk true [.variable "args"]]

theorem finished?_readWord_args :
    finished? (readWord false '{' ['*', '}', '$', 'a', 'r', 'g', 's']) =
      some (.mk true [.variable "args"], []) := by
  have hname : Text.splitName ['a', 'r', 'g', 's'] = (['a', 'r', 'g', 's'], []) := by
    decide
  have hreference : finished? (readReference ['a', 'r', 'g', 's']) =
      some (.variable "args", []) := by
    rw [finished?_readReference_variable (by simp [hname]) (by simp [hname]), hname]
  rw [finished?_readWord_expanded rfl, wordPieces?, if_neg (by decide), if_neg (by decide),
    finished?_readPieces_cons rfl, finished?_readPiece_reference, hreference, Option.bind_some,
    finished?_readPieces_nil]
  rfl

theorem read_forwarding {target : String} (h : IsPlainWord target) :
    Script.read (target ++ " \x7b*\x7d$args") = [.words (forwardingWords target)] := by
  obtain ⟨c, text, htarget⟩ :=
    List.exists_cons_of_ne_nil (mt String.toList_eq_nil_iff.mp h.ne_empty)
  have hplain : (c :: text).all (Stop.atWordEnd false).isPlain = true := htarget ▸ h.all_isPlain
  have hhead := h.head_notMem c (by rw [htarget, List.head?_cons, Option.mem_some])
  simp only [List.mem_cons, List.not_mem_nil, or_false, not_or] at hhead
  have hstart (rest : List Char) : StartsWord c rest := by
    have hc := List.all_eq_true.mp hplain c List.mem_cons_self
    simp only [Stop.isPlain, Stop.closes, Bool.not_eq_true', Bool.or_eq_false_iff,
      beq_eq_false_iff_ne] at hc
    exact ⟨hc.2, fun hb => absurd hb hc.1.2⟩
  have hword : finished? (readWord false c
      (text ++ [' ', '{', '*', '}', '$', 'a', 'r', 'g', 's'])) =
      some (.mk false [.literal (c :: text)], [' ', '{', '*', '}', '$', 'a', 'r', 'g', 's']) :=
    finished?_readWord_bare text hplain hhead.2.1 hhead.2.2 (by simp [EndsWord, isWordEnd])
  have hskip : skipBlanks [' ', '{', '*', '}', '$', 'a', 'r', 'g', 's'] =
      '{' :: ['*', '}', '$', 'a', 'r', 'g', 's'] := by
    rw [skipBlanks_space, skipBlanks_of_startsWord ⟨rfl, by decide⟩]
  have hcommands : finished? (readCommands false
      (c :: (text ++ [' ', '{', '*', '}', '$', 'a', 'r', 'g', 's']))) =
      some ([.words [.mk false [.literal (c :: text)], .mk true [.variable "args"]]], []) := by
    rw [finished?_readCommands_command (skipSeparators_of_startsWord (hstart _)) (by simp) hhead.1,
      finished?_readCommand, hword, Option.bind_some,
      finished?_readWords_word hskip (by decide) (by decide), finished?_readCommand,
      finished?_readWord_args, Option.bind_some, finished?_readWords_nil rfl, Option.map_some,
      Option.map_some, Option.bind_some, finished?_readCommands_nil rfl]
    rfl
  have hbody : (target ++ " \x7b*\x7d$args").toList =
      c :: (text ++ [' ', '{', '*', '}', '$', 'a', 'r', 'g', 's']) := by
    rw [String.toList_append, htarget]
    rfl
  rw [Script.read, hbody, forwardingWords, htarget]
  exact (finished?_eq_some_iff.mp hcommands).1

/-- The words of a forwarding body are the name of the other procedure and the elements of the list
of arguments. -/
theorem wordValues_forwarding (run : Script → Eval String) (target : String) {s : Interp}
    {args : List String} (hargs : s.get? "args" = some (TclList.format args)) :
    wordValues run (forwardingWords target) s = (.ok (target :: args), s) := by
  have hname : (Word.mk false [.literal target.toList]).values run = pure [target] := by
    simp [Word.values, valueAfter, Piece.value]
  have hexpand : (Word.mk true [.variable "args"]).values run s = (.ok args, s) := by
    have hvalue : valueAfter run "" [.variable "args"] s = (.ok (TclList.format args), s) := by
      rw [valueAfter, Piece.value, bind_apply, getVar_of_get? hargs]
      simp only [valueAfter, String.empty_append]
      rfl
    rw [Word.values, bind_apply, hvalue]
    simp only [TclList.parse_of_eq_format rfl, if_true]
    rfl
  rw [forwardingWords, wordValues, wordValues, hname, pure_bind, bind_apply, bind_apply, hexpand]
  simp only [wordValues, pure_bind]
  exact congrArg (fun ws => (Except.ok (target :: ws), s)) (List.append_nil args)

end Script

/-! ## The procedure -/

/-- The procedure that hands all of its arguments on to another one. -/
def Procedure.forwarding (target : String) : Procedure :=
  ⟨[⟨"args", none⟩], (target ++ " \x7b*\x7d$args").toList⟩

/-- This is what a definition with that parameter list and body makes. -/
theorem Procedure.parse_forwarding (target : String) :
    Procedure.parse "args" (target ++ " \x7b*\x7d$args") = .ok (forwarding target) := by
  have hlist : TclList.parse "args" = .ok ["args"] := TclList.parse_of_eq_format (by decide)
  have hparam : Parameter.parse "args" = .ok ⟨"args", none⟩ := by
    rw [Parameter.parse, hlist]
    rfl
  rw [Procedure.parse, hlist]
  change ((["args"].mapM Parameter.parse >>= _ : Except CommandError Procedure)) = _
  rw [List.mapM_cons, hparam]
  rfl

def argumentFrame (args : List String) : Frame :=
  ⟨(∅ : Table String).set "args" (TclList.format args), ∅⟩

theorem Procedure.bind?_forwarding (target : String) (args : List String) :
    (forwarding target).bind? args = some (argumentFrame args) := by
  rfl

theorem Interp.get?_pushFrame_argumentFrame (args : List String) (s : Interp) :
    (s.pushFrame (argumentFrame args)).get? "args" = some (TclList.format args) := by
  have hlocal : globalName? "args" = none := by decide
  have hplain : splitArray "args".toList = ("args".toList, []) := by decide
  have hplace : (s.pushFrame (argumentFrame args)).place "args" = .inner "args" := by
    simp only [place, pushFrame, argumentFrame, top, hlocal, hplain, Table.get?_empty]
  rw [get?, hplace]
  exact (Table.get?_set ..).trans (if_pos rfl)

/-- Run in its frame, a forwarding body calls the other procedure with the same arguments. -/
theorem runText_forwarding (env : Env) {target : String} (h : Script.IsPlainWord target)
    {args : List String} {s : Interp} (hargs : s.get? "args" = some (TclList.format args)) :
    Script.runText env (invoke env) "" (Procedure.forwarding target).body s =
      invoke env (target :: args) s := by
  have hread : (Script.readCommands false (Procedure.forwarding target).body).1 =
      [.words (Script.forwardingWords target)] := Script.read_forwarding h
  rw [Script.runText_eq, hread, Script.runCommands, Script.runWords, bind_assoc, bind_apply,
    Script.wordValues_forwarding env.run target hargs]
  simp only [Script.runCommands, bind_pure]

/-! ## The call -/

variable {rounds : Nat} {s : Interp}

theorem level_lt_of_withinLimit {name : String} {p : Procedure} {args : List String}
    {frame : Frame} (hb : p.bind? args = some frame)
    (h : WithinLimit rounds (callProcedure · name p args) s) : s.level < maxNesting := by
  refine Nat.lt_of_not_le fun hlevel => ?_
  have hlimit : maxNesting ≤ (s.pushFrame frame).level := hlevel
  -- What is done at the limit shows, since the body is not begun.
  let cut : Env := ⟨fun _ => throw .outOfRounds, fun _ => throw .outOfRounds, rounds⟩
  have hcut : (envOr cut rounds maxNesting).runText p.body (s.pushFrame frame) =
    (throw .outOfRounds : Eval String) (s.pushFrame frame) := nestOr_at_limit _ _ hlimit
  have hrefused : (Env.top rounds).runText p.body (s.pushFrame frame) =
    (fail .tooManyNested : Eval String) (s.pushFrame frame) :=
      (envWith_at_limit rounds maxNesting hlimit).2 p.body
  have hsame := congrArg Prod.fst (h cut)
  dsimp only at hsame
  rw [callProcedure_apply _ name hb, callProcedure_apply _ name hb, hcut, hrefused] at hsame
  cases hsame

/-- Calling a forwarding procedure is calling the other one from its frame, one level further
down. -/
theorem callProcedure_forwarding (atLimit : Env) (levels : Nat) (name : String) {target : String}
    (h : Script.IsPlainWord target) {args : List String} (hlevel : s.level < maxNesting)
    {r : Except Exit String} {t : Interp}
    (hinner : invoke (envOr atLimit rounds levels) (target :: args)
      (s.pushFrame (argumentFrame args)).enter = (r, t)) :
    callProcedure (envOr atLimit rounds (levels + 1)) name (.forwarding target) args s =
      (callEnd r, t.leave.popFrame) := by
  have hargs : (s.pushFrame (argumentFrame args)).enter.get? "args" =
    some (TclList.format args) := get?_pushFrame_argumentFrame args s
  have hlevel : (s.pushFrame (argumentFrame args)).level < maxNesting := hlevel
  rw [callProcedure_apply _ name (Procedure.bind?_forwarding target args), envOr_runText,
    nestOr_apply _ _ hlevel, runText_forwarding _ h hargs, hinner]

/-- What two runs beside each other have left behind is the same when all that they were entered
with is gone. -/
theorem Interp.Beside.leave_popFrame {frame inner : Frame} {u v : Interp} (h : Beside 1 u v)
    (hu : (s.pushFrame inner).SameOutside u)
    (hv : ((s.pushFrame frame).enter.pushFrame inner).SameOutside v) :
    v.popFrame.leave.popFrame = u.popFrame := by
  obtain ⟨hglobal, -, hprocs⟩ := own_eq_iff.mp h.own
  have hframes : u.popFrame.frames = s.frames := hu.popFrame_frames
  have hframes' : v.popFrame.frames = frame :: s.frames := hv.popFrame_frames
  have hlevel : v.level - 1 = u.level := by rw [h.level, Nat.add_sub_cancel]
  have hback : v.popFrame.leave.popFrame =
      ⟨v.global, v.popFrame.frames.tail, v.procs, v.effects, v.level - 1⟩ := rfl
  rw [hback, hframes', ← hglobal, ← hprocs, ← h.effects, hlevel, List.tail_cons, ← hframes]
  rfl

/-- Calling a procedure one frame and one level further down makes no difference. -/
theorem callProcedure_further_down (name : String) (p : Procedure) (args : List String)
    (frame : Frame) (levels : Nat) {r : Except Exit String} {t : Interp}
    (hinner : callProcedure (envOr (Env.top rounds).above rounds levels) name p args
      (s.pushFrame frame).enter = (r, t)) :
    (callEnd r, t.leave.popFrame) = callProcedure (Env.top rounds) name p args s := by
  cases hb : p.bind? args with
  | none =>
    rw [callProcedure_of_bind?_eq_none _ name hb] at hinner ⊢
    cases hinner
    rfl
  | some bound =>
    have hstart : Beside 1 (s.pushFrame bound) ((s.pushFrame frame).enter.pushFrame bound) :=
      ⟨own_eq_iff.mpr ⟨rfl, rfl, rfl⟩, rfl, rfl⟩
    obtain ⟨hend, hbeside, hleft, hright⟩ :=
      (envOr_above_agreesBeside rounds levels).runText p.body _ _ hstart
    rw [callProcedure_apply _ name hb] at hinner ⊢
    cases hinner
    rw [callEnd_callEnd, hend, hbeside.leave_popFrame hleft hright]

/-- Calling a forwarding procedure ends in the same way and leaves the same state as calling the
procedure that it forwards to, whatever the arguments, as long as the run is nowhere refused at the
limit of nesting. -/
theorem invoke_forwarding {fwd target : String} {p q : Procedure} (ws : List String)
    (htarget : Script.IsPlainWord target)
    (hq : Procedure.parse "args" (target ++ " \x7b*\x7d$args") = .ok q)
    (hfwd : s.procs.get? fwd = some q) (hp : s.procs.get? target = some p)
    (hlimit : WithinLimit rounds (invoke · (fwd :: ws)) s) :
    invoke (Env.top rounds) (fwd :: ws) s = invoke (Env.top rounds) (target :: ws) s := by
  rw [Procedure.parse_forwarding] at hq
  cases hq
  have hcalls : WithinLimit rounds (callProcedure · fwd (.forwarding target) ws) s := by
    intro atLimit
    have hsame := hlimit atLimit
    dsimp only at hsame ⊢
    rwa [invoke_of_proc _ hfwd, invoke_of_proc _ hfwd] at hsame
  have hlevel : s.level < maxNesting :=
    level_lt_of_withinLimit (Procedure.bind?_forwarding target ws) hcalls
  let env := envOr (Env.top rounds).above rounds (maxNesting - 1)
  have hproc : (s.pushFrame (argumentFrame ws)).enter.procs.get? target = some p := hp
  rcases hinner : callProcedure env target p ws (s.pushFrame (argumentFrame ws)).enter
    with ⟨r, t⟩
  have houter := callProcedure_forwarding (Env.top rounds).above (maxNesting - 1) fwd htarget
    hlevel ((invoke_of_proc env hproc ws).trans hinner)
  rw [invoke_of_proc _ hfwd, invoke_of_proc _ hp,
    ← callProcedure_further_down target p ws _ _ hinner, ← houter]
  exact (hcalls (Env.top rounds).above).symm

/-! ### A sample -/

def Procedure.showing : Procedure :=
  ⟨[⟨"args", none⟩], "set args".toList⟩

theorem isPlainWord_show : Script.IsPlainWord "show" := by
  refine ⟨by decide, by decide, ?_⟩
  simp

def forwardingSample : Interp :=
  let procs := (∅ : Table Procedure).set "show" .showing
  { Interp.fresh with procs := procs.set "forward" (.forwarding "show") }

theorem callProcedure_showing (atLimit : Env) (levels : Nat) (args : List String)
    (hlevel : s.level < maxNesting) (hset : s.procs.get? "set" = none) :
    callProcedure (envOr atLimit rounds (levels + 1)) "show" .showing args s =
      (.ok (TclList.format args), s) := by
  have hargs : (s.pushFrame (argumentFrame args)).enter.get? "args" =
    some (TclList.format args) := get?_pushFrame_argumentFrame args s
  have hlevel : (s.pushFrame (argumentFrame args)).level < maxNesting := hlevel
  have hset : (s.pushFrame (argumentFrame args)).enter.procs.get? "set" = none := hset
  have hbare : ∀ w ∈ ["set", "args"], w ≠ "" ∧ w.toList.all Script.isBare = true := by
    decide
  have hform (w : String) (hw : w ∈ ["set", "args"]) : Script.WordForm w.toList w :=
    Script.wordForm_of_isBare (hbare w hw).1 (hbare w hw).2
  have hrest : ∀ w ∈ ["args"], Script.WordForm w.toList w :=
    fun w hw => hform w (List.mem_cons_of_mem _ hw)
  have hbody (env : Env) : Script.runText env (invoke env) "" Procedure.showing.body =
      invoke env ["set", "args"] :=
    Script.runText_wordForms String.toList env (invoke env) (hform "set" (by simp)) hrest
      (by decide)
  have hbind : Procedure.showing.bind? args = some (argumentFrame args) := rfl
  have haction : Command.action? "set" = some Command.set := rfl
  rw [callProcedure_apply _ "show" hbind, envOr_runText, nestOr_apply _ _ hlevel, hbody,
    invoke_of_action? _ hset haction, Command.set, getVar_of_get? hargs]
  rfl

/-- The sample forwards any words, and what is done at the limit does not matter. -/
theorem invoke_forwardingSample (atLimit : Env) (args : List String) :
    invoke (envOr atLimit 0 maxNesting) ("forward" :: args) forwardingSample =
      (.ok (TclList.format args), forwardingSample) := by
  have hlevel : 1 < maxNesting := by decide
  let inside := (forwardingSample.pushFrame (argumentFrame args)).enter
  have hforward : forwardingSample.procs.get? "forward" = some (.forwarding "show") := by
    simp [forwardingSample]
  have hshow : inside.procs.get? "show" = some .showing := by
    simp [inside, Interp.enter, Interp.pushFrame, forwardingSample]
  have hset : inside.procs.get? "set" = none := by
    simp [inside, Interp.enter, Interp.pushFrame, forwardingSample]
  have hcall : invoke (envOr atLimit 0 (maxNesting - 1)) ("show" :: args) inside =
      (.ok (TclList.format args), inside) := by
    rw [invoke_of_proc _ hshow]
    exact callProcedure_showing atLimit (maxNesting - 2) args hlevel hset
  rw [invoke_of_proc _ hforward]
  exact callProcedure_forwarding atLimit (maxNesting - 1) "forward" isPlainWord_show
    (Nat.zero_lt_of_lt hlevel) hcall

/-- Words with blanks, with syntax in them and without any characters arrive unchanged. -/
theorem invoke_forwarding_sample :
    invoke (Env.top 0) ["forward", "a b", "\x7b", "", "$x"] forwardingSample =
      invoke (Env.top 0) ["show", "a b", "\x7b", "", "$x"] forwardingSample := by
  have hforward : forwardingSample.procs.get? "forward" = some (.forwarding "show") := by
    simp [forwardingSample]
  have hshow : forwardingSample.procs.get? "show" = some .showing := by
    simp [forwardingSample]
  apply invoke_forwarding _ isPlainWord_show (Procedure.parse_forwarding "show") hforward hshow
  intro atLimit
  rw [Env.top, ← envOr_refusing]
  exact (invoke_forwardingSample ..).trans (invoke_forwardingSample ..).symm

end TclHost
