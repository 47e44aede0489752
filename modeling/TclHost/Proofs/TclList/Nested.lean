import TclHost.Proofs.Evaluation.Agreement
import TclHost.Proofs.Interp.Position
/-! # Lists inside lists

A tree of texts is written as the list of its subtrees, each of them written in the same way.  A
path of indices then leads to what the subtree at its end is written as, at any depth and whatever
the leaves hold.
-/
namespace TclHost

/-! ## Positions -/

namespace Index

/-- A specification that names a position of a sequence: the decimal digits of the position, or
how far in front of the end it is. -/
inductive Names (i length : Nat) : String → Prop
  | position (h : i < length) : Names i length (toString i)
  | fromEnd {j : Nat} (h : i + j + 1 = length) : Names i length ("end-" ++ toString j)

theorem Names.lt {i length : Nat} {spec : String} (h : Names i length spec) : i < length := by
  cases h with
  | position h => exact h
  | fromEnd h => omega

theorem Names.denotes {i length : Nat} {spec : String} (h : Names i length spec)
    (hlength : length < 2 ^ 63) : Denotes length spec i := by
  cases h with
  | position h => exact denotes_position (by omega) length
  | @fromEnd j h =>
    have hdenotes := denotes_fromEnd (j := j) (by omega) length
    have hi : (length - 1 - j : Int) = i := by omega
    rwa [hi] at hdenotes

end Index

/-! ## Trees -/

namespace TclList

inductive Tree where
  | leaf (text : String)
  | node (children : List Tree)

namespace Tree

/-- A node is written as the list of what its children are written as. -/
def encode : Tree → String
  | leaf text => text
  | node children => format (children.map encode)

/-- No node has more children than a list in memory can have elements. -/
inductive Fits : Tree → Prop
  | leaf (text : String) : Fits (leaf text)
  | node {children : List Tree} (hlength : children.length < 2 ^ 63)
    (h : ∀ t ∈ children, Fits t) : Fits (node children)

/-- Specifications that name, one after the other, a child of a node, a child of that child and so
on, lead to the last one of them. -/
inductive Leads : Tree → List String → Tree → Prop
  | here (t : Tree) : Leads t [] t
  | child {children : List Tree} {i : Nat} {t u : Tree} {spec : String} {specs : List String}
    (hchild : children[i]? = some t) (hspec : Index.Names i children.length spec)
    (hrest : Leads t specs u) : Leads (node children) (spec :: specs) u

theorem parse_encode (children : List Tree) :
    parse (node children).encode = .ok (children.map encode) :=
  parse_of_eq_format (by rw [encode])

/-- Going down one step in a tree is going down one step in what it is written as. -/
theorem elementAt_child {children : List Tree} {i : Nat} {t : Tree} {spec : String}
    (hlength : children.length < 2 ^ 63) (hchild : children[i]? = some t)
    (hspec : Index.Names i children.length spec) (specs : List String) :
    Command.elementAt (node children).encode (spec :: specs) =
      Command.elementAt t.encode specs := by
  have hi := hspec.lt
  have hdenotes := hspec.denotes hlength
  rw [← List.length_map encode] at hdenotes
  have hitem : Index.at? (children.map encode) (Index.reduced i) = some t.encode := by
    rw [Index.reduced_eq_self (by omega) (by omega), Index.at?, if_pos (by omega),
      Int.toNat_natCast, List.getElem?_map, hchild, Option.map_some]
  rw [Index.elementAt_cons (parse_encode children) hdenotes, hitem]

theorem elementAt_of_leads {t u : Tree} {specs : List String} (h : Leads t specs u)
    (hfits : t.Fits) : Command.elementAt t.encode specs = .ok u.encode := by
  induction h with
  | here t => rw [Command.elementAt]
  | child hchild hspec _ ih =>
    cases hfits with
    | node hlength hchildren =>
      rw [elementAt_child hlength hchild hspec]
      exact ih (hchildren _ (List.mem_of_getElem? hchild))

theorem llength_encode (env : Env) (children : List Tree) :
    Command.llength env [(node children).encode] = pure (toString children.length) := by
  rw [Command.llength, parse_encode]
  change (pure (toString (children.map encode).length) : Eval String) = _
  rw [List.length_map]

/-- Appending written trees to the variable of a written node leaves the node with all of them. -/
theorem lappend_encode (env : Env) {s : Interp} {name : String} {children : List Tree}
    (hvalue : s.get? name = some (node children).encode) (more : List Tree) :
    Command.lappend env (name :: more.map encode) s =
      (.ok (node (children ++ more)).encode, s.set name (node (children ++ more)).encode) := by
  have hget : (get : Eval Interp) s = (.ok s, s) := rfl
  have hencode : (node (children ++ more)).encode =
      format (children.map encode ++ more.map encode) := by
    rw [encode, List.map_append]
  rw [Command.lappend, Eval.bind_apply, hget]
  simp only [hvalue, parse_encode, hencode]
  rfl

/-- Lists inside lists are faithful trees: a path of indices leads to what the subtree at its end is
written as, the length of a node is the number of its children, and what is appended to the
variable of a node becomes its last children. -/
theorem encode_faithful (env : Env) (s : Interp) :
    (∀ t u specs, t.Fits → Leads t specs u →
      Command.lindex env (t.encode :: specs) s = (.ok u.encode, s)) ∧
    (∀ children, Command.llength env [(node children).encode] s =
      (.ok (toString children.length), s)) ∧
    ∀ name children more, s.get? name = some (node children).encode →
      ∃ t, Command.lappend env (name :: more.map encode) s =
          (.ok (node (children ++ more)).encode, t) ∧
        t = s.set name (node (children ++ more)).encode ∧
        t.get? name = some (node (children ++ more)).encode := by
  refine ⟨?_, ?_, ?_⟩
  · intro t u specs hfits hleads
    rw [Command.lindex, elementAt_of_leads hleads hfits]
    rfl
  · intro children
    rw [llength_encode]
    rfl
  · intro name children more hvalue
    exact ⟨_, lappend_encode env hvalue more, rfl, s.get?_set_self name _⟩

def sampleChildren : List Tree :=
  [leaf "a", node [leaf "b c", node [leaf "\x7b", leaf "\\"]], leaf ""]

def sample : Tree :=
  node sampleChildren

theorem leads_sample : Leads sample ["1", "end-0", "0"] (leaf "\x7b") := by
  have hlast : Leads (node [leaf "\x7b", leaf "\\"]) ["0"] (leaf "\x7b") :=
    .child rfl (.position (i := 0) (by decide)) (.here _)
  exact .child rfl (.position (i := 1) (by decide)) (.child rfl (.fromEnd (j := 0) rfl) hlast)

theorem fits_sample : sample.Fits := by
  have hleaves {children : List Tree} (hlength : children.length < 2 ^ 63)
      (h : ∀ t ∈ children, ∃ text, t = leaf text) : Fits (node children) := by
    refine .node hlength fun t ht => ?_
    obtain ⟨text, rfl⟩ := h t ht
    exact .leaf text
  have hinner : Fits (node [leaf "b c", node [leaf "\x7b", leaf "\\"]]) := by
    refine .node (by decide) ?_
    simpa only [List.forall_mem_cons, List.not_mem_nil, false_implies, implies_true, and_true]
      using ⟨.leaf _, hleaves (by decide) (by simp)⟩
  refine .node (by decide) ?_
  simpa only [sampleChildren, List.forall_mem_cons, List.not_mem_nil, false_implies, implies_true,
    and_true] using ⟨.leaf _, hinner, .leaf _⟩

def sampleState : Interp :=
  Interp.fresh.set "tree" sample.encode

/-- The path leads through two levels of lists to a brace, and a further subtree is appended behind
them. -/
theorem encode_faithful_sample :
    (sample.Fits ∧ Leads sample ["1", "end-0", "0"] (leaf "\x7b") ∧
      sampleState.get? "tree" = some sample.encode) ∧
    Command.lindex (Env.top 0) [sample.encode, "1", "end-0", "0"] sampleState =
      (.ok "\x7b", sampleState) ∧
    ∃ t, Command.lappend (Env.top 0) ["tree", sample.encode] sampleState =
        (.ok (node (sampleChildren ++ [sample])).encode, t) ∧
      t.get? "tree" = some (node (sampleChildren ++ [sample])).encode := by
  have hvalue : sampleState.get? "tree" = some sample.encode := Interp.fresh.get?_set_self _ _
  obtain ⟨hindex, -, happend⟩ := encode_faithful (Env.top 0) sampleState
  obtain ⟨t, hrun, -, hleft⟩ := happend "tree" sampleChildren [sample] hvalue
  have hlead := hindex sample _ _ fits_sample leads_sample
  rw [encode.eq_1] at hlead
  exact ⟨⟨fits_sample, leads_sample, hvalue⟩, hlead, t, hrun, hleft⟩

end Tree
end TclList
end TclHost
