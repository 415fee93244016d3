/-
  RubyPattern.Tree.Diagnostic

  The text of values in messages: every part of a value is spelled out, with strings in quotes.
-/
import RubyPattern.Number.Layout
import RubyPattern.Text.Quoted
import RubyPattern.Tree.Basic

namespace RubyPattern

open RubyPattern.Number RubyPattern.Text

/-- A symbol in messages. -/
def symbolDiagnostic (name : String) : String :=
  "Symbol(" ++ quoted name ++ ")"

/-- A label in messages. -/
def Label.diagnostic (l : Label) : String :=
  if l.symbolic then symbolDiagnostic l.text else quoted l.text

namespace Value

/-- Items between round brackets; a single item keeps a comma. -/
def tupleDiagnostic : List String → String
  | [item] => "(" ++ item ++ ",)"
  | items => "(" ++ ", ".intercalate items ++ ")"

/-- Members between curly brackets; a set without any is told from other empty things. -/
def setDiagnostic (frozen : Bool) (items : List String) : String :=
  let body := "\x7b" ++ ", ".intercalate items ++ "\x7d"
  match frozen, items with
  | false, [] => "set()"
  | false, _ => body
  | true, [] => "frozenset()"
  | true, _ => "frozenset(" ++ body ++ ")"

mutual

/-- The text of a value in messages. -/
def diagnostic : Value → String
  | .nil => "None"
  | .bool b => if b then "True" else "False"
  | .int n => integerText n
  | .float x => Layout.diagnostic.text x
  | .nan _ => Layout.diagnostic.notANumber
  | .str s => quoted s
  | .sym name => symbolDiagnostic name
  | .head type => symbolDiagnostic type
  | .token t => "Token(text=" ++ t.diagnostic ++ ")"
  | .node type children _ =>
    "Node(type=" ++ type.diagnostic ++ ", children=" ++ tupleDiagnostic (diagnostics children)
      ++ ")"
  | .tuple items => tupleDiagnostic (diagnostics items)
  | .list items => "[" ++ ", ".intercalate (diagnostics items) ++ "]"
  | .set frozen items => setDiagnostic frozen (diagnostics items)
  | .criterion c => c.diagnostic

/-- The texts of a sequence of values. -/
def diagnostics : List Value → List String
  | [] => []
  | v :: vs => diagnostic v :: diagnostics vs

end

end Value

end RubyPattern
