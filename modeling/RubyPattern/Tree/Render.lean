/-
  RubyPattern.Tree.Render

  Trees as pattern text. Nodes are bracketed, tokens stand as they are and plain values as Ruby
  literals; `render` keeps to one line and `renderPretty` gives each nested node a line.
-/
import RubyPattern.Error.Cause
import RubyPattern.Tree.Literal

namespace RubyPattern.Value

open RubyPattern.Number

/-- The literal of a plain value; nodes, tokens, collections and tests have none. -/
def literal? : Value → Option String
  | .nil => some "nil"
  | .bool b => some (if b then "true" else "false")
  | .sym name => some (Literal.symbol name)
  | .head type => some (Literal.symbol type)
  | .str s => some (Literal.string s)
  | .int n => some (integerText n)
  | .float x => some (Layout.literal.text x)
  | .nan _ => some Layout.literal.notANumber
  | _ => none

/-- The literal of a plain value, or why there is none. -/
def inspectLiteral (v : Value) : Except Fault String :=
  match v.literal? with
  | some text => .ok text
  | none => .error (.cannotRender v)

mutual

/-- A value as pattern text on one line. -/
def render : Value → Except Fault String
  | .node type children _ => do
    let parts ← renderAll children
    return "(" ++ " ".intercalate (type.text :: parts) ++ ")"
  | .token t => .ok t.text
  | v => inspectLiteral v

/-- The texts of a sequence of values; the first that has none decides. -/
def renderAll : List Value → Except Fault (List String)
  | [] => .ok []
  | v :: vs => do
    let text ← render v
    let texts ← renderAll vs
    return text :: texts

end

/-- Two spaces for each level; none below the first level. -/
def margin (indent : Int) : String :=
  String.ofList (List.replicate (2 * indent.toNat) ' ')

mutual

/-- A value as pattern text with every nested node on a line of its own, one level deeper than
    its parent. -/
def renderPretty (indent : Int) : Value → Except Fault String
  | .node type children _ => do
    let body ← renderChildren (indent + 1) children
    return margin indent ++ "(" ++ type.text ++ body ++ ")"
  | v => render v

/-- The children of a node: nodes on new lines, other values behind a space. -/
def renderChildren (indent : Int) : List Value → Except Fault String
  | [] => .ok ""
  | .node type children location :: rest => do
    let text ← renderPretty indent (.node type children location)
    let texts ← renderChildren indent rest
    return "\n" ++ text ++ texts
  | v :: rest => do
    let text ← render v
    let texts ← renderChildren indent rest
    return " " ++ text ++ texts

end

/-- A value as plain text: strings, symbols and tokens as they are, nodes as pattern text, and the
    others as messages show them. -/
def display : Value → Except Fault String
  | .str s => .ok s
  | .sym name => .ok name
  | .head type => .ok type
  | .token t => .ok t.text
  | .node type children location => render (.node type children location)
  | v => .ok v.diagnostic

end RubyPattern.Value
