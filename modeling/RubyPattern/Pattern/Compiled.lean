/-
  RubyPattern.Pattern.Compiled

  Compiled patterns: a pattern with the functions that it calls, ready to be matched against
  values and searched for in trees.
-/
import RubyPattern.Pattern.AbsentChild
import RubyPattern.Pattern.Grammar
import RubyPattern.Pattern.Matching
import RubyPattern.Tree.Render

namespace RubyPattern

/-- The functions that a pattern calls, once for each call. -/
def Element.calledNames (e : Element) : List String :=
  e.walk.filterMap fun d => match d with
    | .call name _ => some name
    | _ => none

/-- What a match answers: true without captures, the capture itself if there is one, and the tuple
    of several. -/
def collapse : List Value → Value
  | [] => .bool true
  | [v] => v
  | vs => .tuple vs

/-- A pattern text, the pattern that it spells and the functions bound to it. -/
structure Compiled where
  pattern : String
  root : Element
  functions : Functions

namespace Compiled

/-- The names that a pattern calls and a table does not bind, in order and without repetition. -/
def missingNames (root : Element) (functions : Functions) : List String :=
  let unbound := root.calledNames.filter fun name => (functions.lookup name).isNone
  (unbound.mergeSort fun a b => decide (a ≤ b)).eraseDups

/-- Compiles a pattern text. Every function that it calls must be bound. -/
def compile (pattern : String) (functions : Functions) : Except Fault Compiled := do
  let root ← Grammar.parse pattern
  match missingNames root functions with
  | [] => return ⟨pattern, root, functions⟩
  | missing => .error (.undefinedFunctions missing pattern)

/-- Compiles a tree: its rendered text, with absent children marked. -/
def ofTree (tree : Value) (functions : Functions) : Except Fault Compiled := do
  let text ← tree.render
  compile (AbsentChild.mark text) functions

/-- How many values a match captures. -/
def captureCount (p : Compiled) : Nat :=
  p.root.captureCount

/-- The captures of a match, or `none` if the pattern does not apply. -/
def captures? (p : Compiled) (v : Value) : Except Fault (Option (List Value)) :=
  p.root.captures? p.functions v

/-- The answer of a match; the absent value if the pattern does not apply. -/
def matchValue (p : Compiled) (v : Value) : Except Fault Value := do
  match ← p.captures? v with
  | some captures => return collapse captures
  | none => return .nil

end Compiled

/-! ## Search -/

/-- A node that a pattern applies to, with the captures. -/
structure Found where
  node : Node
  captures : List Value

/-- The text of a capture: one text for a value, several for what a rest captured. -/
inductive CaptureText where
  | one (text : String)
  | many (texts : List String)

/-- A found node as text. -/
structure Summary where
  node : String
  captures : List CaptureText
  startLine : Option Nat
  endLine : Option Nat
  source : Option String

namespace Found

/-- The answer of the match that found the node. -/
def value (f : Found) : Value :=
  collapse f.captures

/-- The text of one capture. -/
def captureText : Value → Except Fault CaptureText
  | .tuple items => return .many (← Value.renderAll items)
  | v => return .one (← v.render)

/-- The text of a found node, its captures and its place. -/
def summary (f : Found) : Except Fault Summary := do
  let node ← f.node.toValue.render
  let captures ← f.captures.mapM captureText
  return {
    node
    captures
    startLine := f.node.location.map (·.startLine)
    endLine := f.node.location.map (·.endLine)
    source := f.node.source? }

end Found

/-- The nodes of a list that a pattern applies to, in order. -/
def Compiled.select (p : Compiled) : List Node → Except Fault (List Found)
  | [] => .ok []
  | n :: ns => do
    let captures ← p.captures? n.toValue
    let found ← p.select ns
    return match captures with
      | some captures => ⟨n, captures⟩ :: found
      | none => found

/-- Every node of a tree that a pattern applies to, in the order of a walk. -/
def Compiled.search (p : Compiled) (tree : Node) : Except Fault (List Found) :=
  p.select tree.walk

theorem Compiled.search_eq_select (p : Compiled) (tree : Node) :
    p.search tree = p.select tree.nodes := by
  rw [search, Node.walk_eq_nodes]

/-- As `select`, with the text of each found node. A node is written before the next one is looked
    at, so the first failure in this order decides, of matching or of writing. -/
def Compiled.selectSummaries (p : Compiled) : List Node → Except Fault (List (Found × Summary))
  | [] => .ok []
  | n :: ns => do
    match ← p.captures? n.toValue with
    | none => p.selectSummaries ns
    | some captures => do
      let found : Found := ⟨n, captures⟩
      let summary ← found.summary
      let rest ← p.selectSummaries ns
      return (found, summary) :: rest

/-- Every node of a tree that a pattern applies to, with its text. -/
def Compiled.searchSummaries (p : Compiled) (tree : Node) :
    Except Fault (List (Found × Summary)) :=
  p.selectSummaries tree.walk

end RubyPattern
