import TclHost.Interp.Command.List
import TclHost.Text.Glob
/-! # Commands on texts -/
namespace TclHost.Command

def maxValueBytes : Nat :=
  2147483647

/-- A text a number of times over, put together from halves. -/
def timesOver (text : String) (n : Nat) : String :=
  if n = 0 then ""
  else
    let half := timesOver text (n / 2)
    if n % 2 = 0 then half ++ half else half ++ half ++ text
termination_by n

theorem timesOver_eq (text : String) (n : Nat) :
    timesOver text n = String.join (List.replicate n text) := by
  have hadd (a b : Nat) : String.join (List.replicate (a + b) text)
      = String.join (List.replicate a text) ++ String.join (List.replicate b text) := by
    rw [← List.replicate_append_replicate, String.join_append]
  fun_induction timesOver text n with
  | case1 => rfl
  | case2 n hn half heven ih =>
    rw [show half = _ from ih, ← hadd]
    congr 2
    omega
  | case3 n hn half hodd ih =>
    have hone : text = String.join (List.replicate 1 text) := by simp
    rw [show half = _ from ih, ← hadd]
    conv => lhs; rhs; rw [hone]
    rw [← hadd]
    congr 2
    omega

def repeatText (text : String) (count : Int64) : Except CommandError String :=
  if text.utf8ByteSize * count.toInt.toNat ≤ maxValueBytes then
    .ok (if text.isEmpty then "" else timesOver text count.toInt.toNat)
  else .error .valueTooLarge

def findText? (needle text : String) : Option Nat :=
  (text.find? needle).map fun p => (text.sliceTo p).copy.length

def trimmedByDefault : String :=
  " \t\n\r\x0b\x0c\x00"

def trimBy (sub text chars : String) : String :=
  let trimmed := chars.toList
  let test (c : Char) : Bool := trimmed.contains c
  let cs := text.toList
  String.ofList <|
    if sub = "trim" then Text.trimWhile test cs
    else if sub = "trimleft" then cs.dropWhile test
    else Text.dropEndWhile test cs

def truthText (b : Bool) : String :=
  if b then "1" else "0"

def foldCase (nocase : Bool) (s : String) : String :=
  if nocase then Text.lower s else s

/-- The option that turns case off, and the operands after it. -/
def splitNocase : List String → Bool × List String
  | "-nocase" :: operands => (true, operands)
  | operands => (false, operands)

def onTwo (usage : String) (f : (nocase : Bool) → String → String → String)
    (args : List String) : Except CommandError String :=
  match splitNocase args with
  | (nocase, [a, b]) => .ok (f nocase a b)
  | _ => .error (.wrongArgs usage)

def onOne (usage : String) (f : String → String) : List String → Except CommandError String
  | [s] => .ok (f s)
  | _ => .error (.wrongArgs usage)

def textSubcommands : String :=
  "compare, equal, first, index, length, match, range, repeat, reverse, tolower, toupper, " ++
    "trim, trimleft, or trimright"

def textSubcommand (sub : String) (args : List String) : Except CommandError String :=
  match sub with
  | "length" => onOne "string length string" (fun s => toString s.length) args
  | "toupper" => onOne "string toupper string" Text.upper args
  | "tolower" => onOne "string tolower string" Text.lower args
  | "reverse" =>
    onOne "string reverse string" (fun s => String.ofList s.toList.reverse) args
  | "trim" | "trimleft" | "trimright" =>
    match args with
    | [text] => .ok (trimBy sub text trimmedByDefault)
    | [text, chars] => .ok (trimBy sub text chars)
    | _ => .error (.wrongArgs ("string " ++ sub ++ " string ?chars?"))
  | "equal" =>
    onTwo "string equal ?-nocase? string1 string2" (fun nocase a b =>
      truthText (foldCase nocase a == foldCase nocase b)) args
  | "compare" =>
    onTwo "string compare ?-nocase? string1 string2" (fun nocase a b =>
      match compare (foldCase nocase a) (foldCase nocase b) with
      | .lt => "-1"
      | .eq => "0"
      | .gt => "1") args
  | "match" =>
    onTwo "string match ?-nocase? pattern string" (fun nocase pattern text =>
      truthText (Text.Glob.isMatch pattern text nocase)) args
  | "index" =>
    match args with
    | [text, spec] => do
      let cs := text.toList
      match ← Index.resolve spec cs.length with
      | some i => return ((cs[i]?).map Char.toString).getD ""
      | none => return ""
    | _ => .error (.wrongArgs "string index string charIndex")
  | "range" =>
    match args with
    | [text, first, last] => (Index.slice text.toList first last).map String.ofList
    | _ => .error (.wrongArgs "string range string first last")
  | "repeat" =>
    match args with
    | [text, count] => do repeatText text (← (Number.parseInt count).mapError .number)
    | _ => .error (.wrongArgs "string repeat string count")
  | "first" =>
    match args with
    | [needle, text] =>
      .ok (match findText? needle text with
        | some i => toString i
        | none => "-1")
    | _ => .error (.wrongArgs "string first needleString haystackString")
  | other => .error (.unknownSubcommand other textSubcommands)

def string : Action
  | _, [] => Eval.fail (.wrongArgs "string subcommand ?arg ...?")
  | _, sub :: args => Eval.ofExcept id (textSubcommand sub args)

end TclHost.Command
