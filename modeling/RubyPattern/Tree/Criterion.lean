/-
  RubyPattern.Tree.Criterion

  Things that are no values of Ruby's and serve to test values: classes, texts to look for,
  numbers in steps, and functions.
-/
import RubyPattern.Number.Steps
import RubyPattern.Text.Occurrence
import RubyPattern.Text.Quoted

namespace RubyPattern

open RubyPattern.Number RubyPattern.Text

/-- A class of values. -/
inductive ValueClass where
  | nil
  | bool
  | int
  | float
  | str
  | symbol
  | token
  | node
  | tuple
  | any
  deriving DecidableEq, Repr, Inhabited

/-- The full name of a class. -/
def ValueClass.name : ValueClass → String
  | .nil => "NoneType"
  | .bool => "bool"
  | .int => "int"
  | .float => "float"
  | .str => "str"
  | .symbol => "asta.ast.node.Symbol"
  | .token => "asta.ast.token.Token"
  | .node => "asta.ast.node.Node"
  | .tuple => "tuple"
  | .any => "object"

/-- A test without any value inside it. A function is known by its name here. -/
inductive Criterion where
  | class (c : ValueClass)
  | text (p : TextPattern)
  | steps (s : Steps)
  | function (name : String)
  deriving DecidableEq, Repr, Inhabited

namespace Criterion

/-- Equality of tests; numbers in steps are compared by the numbers. -/
def same : Criterion → Criterion → Bool
  | .steps s, .steps t => s.same t
  | a, b => decide (a = b)

/-- The name of a test's type, as messages show it. -/
def typeName : Criterion → String
  | .class _ => "type"
  | .text _ => "Pattern"
  | .steps _ => "range"
  | .function _ => "function"

/-- How much of a text pattern messages show. -/
def shownLength : Nat := 200

/-- The text of a test in messages. -/
def diagnostic : Criterion → String
  | .class c => "<class " ++ quoted c.name ++ ">"
  | .text p =>
    "re.compile(" ++ String.ofList ((quoted p.toString).toList.take shownLength) ++ ")"
  | .steps s => s.diagnostic
  | .function name => "<function " ++ name ++ ">"

end Criterion

end RubyPattern
