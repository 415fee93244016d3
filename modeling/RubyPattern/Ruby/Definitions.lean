/-
  RubyPattern.Ruby.Definitions

  Definitions of methods, classes and modules. Their bodies see none of the local variables
  around them.
-/
import RubyPattern.Ruby.Calls

namespace RubyPattern.Ruby.Context

/-- The parameters and the body of a method, in a scope of its own. -/
def methodParts (w : Context) (c : Cst) (otherRoles : List String) :
    Lowering (Node × Option Node) :=
  withScope false do
    let args ← w.parameters (c.part? "parameters")
    let body ← w.bodyOf c otherRoles
    return (args, body)

/-- A method definition. -/
def method (w : Context) (c : Cst) : Lowering Node := do
  let name ← w.textOfRole c "name"
  let (args, body) ← w.methodParts c ["name", "parameters"]
  w.located c "def" [.sym name, args, .ofNode? body]

/-- A method defined on an object of its own. -/
def singletonMethod (w : Context) (c : Cst) : Lowering Node := do
  let object ← w.lowerRole c "object"
  let name ← w.textOfRole c "name"
  let (args, body) ← w.methodParts c ["object", "name", "parameters"]
  w.located c "defs" [object, .sym name, args, .ofNode? body]

/-- The class that another one inherits from: the first child of interest of its part. -/
def superclass (w : Context) : Option Cst → Lowering (Option Node)
  | some c => w.lowerOptional c.plainChildren.head?
  | none => pure none

/-- A class definition. -/
def classDefinition (w : Context) (c : Cst) : Lowering Node := do
  let name ← w.lowerRole c "name"
  let superclass ← w.superclass (c.part? "superclass")
  let body ← withScope false (w.bodyOf c ["name", "superclass"])
  w.located c "class" [name, .ofNode? superclass, .ofNode? body]

/-- A module definition. -/
def moduleDefinition (w : Context) (c : Cst) : Lowering Node := do
  let name ← w.lowerRole c "name"
  let body ← withScope false (w.bodyOf c ["name"])
  w.located c "module" [name, .ofNode? body]

/-- The class of one object, opened. -/
def singletonClass (w : Context) (c : Cst) : Lowering Node := do
  let value ← w.lowerRole c "value"
  let body ← withScope false (w.bodyOf c ["value"])
  w.located c "sclass" [value, .ofNode? body]

end RubyPattern.Ruby.Context
