/-
  RubyPattern.Tree.Parts

  Values that have to be of a certain form: a node, or a collection of items; and sets, whose
  members have to be able to be members.
-/
import RubyPattern.Error.Cause
import RubyPattern.Tree.Equality

namespace RubyPattern.Value

/-- The node that a value has to be. -/
def requireNode (v : Value) : Except Fault Node :=
  match v.node? with
  | some n => .ok n
  | none => .error (.misuse .notANode)

/-- A node as a value passes for that node. -/
@[simp] theorem requireNode_toValue (n : Node) : n.toValue.requireNode = .ok n := rfl

/-- The characters of a text, each as a string. -/
def characters (s : String) : List Value :=
  s.toList.map fun c => .str (String.singleton c)

/-- The items of a value that is a collection; a text is the sequence of its characters. -/
def items? : Value → Except Fault (List Value)
  | .tuple items => .ok items
  | .list items => .ok items
  | .set _ items => .ok items
  | .criterion (.steps s) => .ok (s.toList.map .int)
  | .str s => .ok (characters s)
  | .sym s => .ok (characters s)
  | .head s => .ok (characters s)
  | _ => .error (.misuse .wrongArguments)

/-- The integer that a value is. -/
def int? : Value → Option Int
  | .int n => some n
  | _ => none

/-- Values in the order in which a set lists them: integers from the least on, other values as
    they come. -/
def listed (vs : List Value) : List Value :=
  match vs.mapM int? with
  | some ns => (ns.mergeSort fun a b => decide (a ≤ b)).map .int
  | none => vs

/-- A set of values, each of which must be able to be a member. -/
def ofMembers (frozen : Bool) (items : List Value) : Except Fault Value :=
  if hashableAll items then .ok (.set frozen (listed (distinct items)))
  else .error (.misuse .notHashable)

/-- The integers from start on in equal steps, which cannot be zero. -/
def ofSteps (start stop step : Int) : Except Fault Value :=
  if step = 0 then .error .emptyStep else .ok (.criterion (.steps ⟨start, stop, step⟩))

end RubyPattern.Value
