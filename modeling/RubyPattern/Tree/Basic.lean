/-
  RubyPattern.Tree.Basic

  Syntax trees as s-expressions. A node has a type and ordered children; a child is another node, a
  raw pattern token or a plain value.
-/
import RubyPattern.Number.Binary
import RubyPattern.Tree.Criterion

namespace RubyPattern

open RubyPattern.Number

/-- Where a parsed node stands in its source text. Bytes and columns count from zero, lines from
    one. -/
structure Location where
  startByte : Nat
  endByte : Nat
  startLine : Nat
  startColumn : Nat
  endLine : Nat
  endColumn : Nat
  source : String
  deriving DecidableEq, Repr, Inhabited

/-- A text that is written as it stands. One that was taken from a symbol remembers it, and differs
    from the plain text of the same characters. -/
structure Label where
  text : String
  symbolic : Bool
  deriving DecidableEq, Repr, Inhabited

/-- A label of plain text. -/
def Label.plain (text : String) : Label :=
  ⟨text, false⟩

/-- A raw fragment of pattern text. -/
abbrev Token := Label

/-- What a tree holds, and what can be asked of it. A symbol never equals a string, and a NaN
    equals nothing; but the tag of a NaN says which one it is, and trees that hold the same one
    can be equal. The head of a sequence stands for the type of a node while its parts are
    matched, and counts as a symbol. -/
inductive Value where
  | nil
  | bool (b : Bool)
  | int (n : Int)
  | float (x : Float)
  | nan (tag : Nat)
  | str (s : String)
  | sym (name : String)
  | head (type : String)
  | token (t : Token)
  | node (type : Label) (children : List Value) (location : Option Location)
  | tuple (items : List Value)
  | list (items : List Value)
  | set (frozen : Bool) (items : List Value)
  | criterion (c : Criterion)
  deriving Inhabited

/-- A node taken by itself. The location says where it came from and is no part of what it is. -/
structure Node where
  type : Label
  children : List Value
  location : Option Location
  deriving Inhabited

namespace Node

/-- A node without a place in any source. -/
def bare (type : String) (children : List Value) : Node :=
  ⟨.plain type, children, none⟩

/-- A node as a value, to be the child of another. -/
def toValue (n : Node) : Value :=
  .node n.type n.children n.location

instance : Coe Node Value := ⟨toValue⟩

/-- The source text of a parsed node. -/
def source? (n : Node) : Option String :=
  n.location.map (·.source)

/-- The node with more children after its own; it belongs to no source any more. -/
def concat (n : Node) (items : List Value) : Node :=
  bare n.type.text (n.children ++ items)

/-- The node with another type, other children or both, in the same place. A type that is kept
    becomes plain. -/
def updated (n : Node) (type : Option Label) (children : Option (List Value)) : Node :=
  ⟨type.getD (.plain n.type.text), children.getD n.children, n.location⟩

end Node

namespace Value

/-- The node that a value is, if it is one. -/
def node? : Value → Option Node
  | .node type children location => some ⟨type, children, location⟩
  | _ => none

/-- A node as a value is that node. -/
@[simp] theorem node?_toValue (n : Node) : n.toValue.node? = some n := rfl

/-- A node or nothing, as a child. -/
def ofNode? : Option Node → Value
  | some n => n.toValue
  | none => .nil

/-- A double as a value; a NaN gets the tag. -/
def ofFloat (tag : Nat) (x : Float) : Value :=
  match Binary.ofFloat x with
  | .notANumber => .nan tag
  | _ => .float x

/-- The name of a symbol; the head of a sequence is one too. -/
def symbol? : Value → Option String
  | .sym name => some name
  | .head type => some type
  | _ => none

/-- The text of a string or symbol. -/
def text? : Value → Option String
  | .str s => some s
  | v => v.symbol?

/-- Whether a value is a node of a type, or that type at the head of a sequence. -/
def hasType (type : String) : Value → Bool
  | .head t => t == type
  | .node t _ _ => t == .plain type
  | _ => false

/-- The name of a value's type, as messages show it. -/
def typeName : Value → String
  | .nil => "NoneType"
  | .bool _ => "bool"
  | .int _ => "int"
  | .float _ => "float"
  | .nan _ => "float"
  | .str _ => "str"
  | .sym _ => "Symbol"
  | .head _ => "NodeTypeName"
  | .token _ => "Token"
  | .node .. => "Node"
  | .tuple _ => "tuple"
  | .list _ => "list"
  | .set frozen _ => if frozen then "frozenset" else "set"
  | .criterion c => c.typeName

/-- Absent, false, zero and empty values count as false; all others as true. -/
def truthy : Value → Bool
  | .nil => false
  | .bool b => b
  | .int n => n != 0
  | .float x => x != 0.0
  | .nan _ => true
  | .str s => s != ""
  | .sym s => s != ""
  | .head s => s != ""
  | .token _ => true
  | .node .. => true
  | .tuple items => !items.isEmpty
  | .list items => !items.isEmpty
  | .set _ items => !items.isEmpty
  | .criterion (.steps s) => s.count != 0
  | .criterion _ => true

mutual

/-- The node itself and every node below it, parents before children and left before right. A
    node that occurs twice is listed twice; what is no node is passed over. -/
def nodes : Value → List Node
  | .node type children location => ⟨type, children, location⟩ :: nodesOf children
  | _ => []

/-- The nodes of each child in turn. -/
def nodesOf : List Value → List Node
  | [] => []
  | child :: rest => nodes child ++ nodesOf rest

end

end Value

/-- A node and every node below it, in the order of reading. -/
def Node.nodes (n : Node) : List Node :=
  n.toValue.nodes

/-! ## Walking a tree -/

namespace Node

/-- The children of a node that are nodes themselves, in order. -/
def childNodes (n : Node) : List Node :=
  n.children.filterMap Value.node?

/-- The stack of a walk behind a visit to a node: its child nodes are pushed one by one, the last
    one first, so that the first one comes off next. -/
def pushChildren (n : Node) (stack : List Node) : List Node :=
  n.childNodes.reverse.foldl (fun stack child => child :: stack) stack

theorem pushChildren_eq (n : Node) (stack : List Node) :
    n.pushChildren stack = n.childNodes ++ stack := by
  simp [pushChildren]

theorem nodesOf_eq (children : List Value) :
    Value.nodesOf children = (children.filterMap Value.node?).flatMap nodes := by
  induction children with
  | nil => rfl
  | cons child children ih =>
    rw [Value.nodesOf, ih]
    cases child <;> rfl

/-- A node comes before the nodes below it, and these are the nodes of its child nodes in turn. -/
theorem nodes_eq (n : Node) : n.nodes = n :: n.childNodes.flatMap nodes := by
  rw [childNodes, ← nodesOf_eq]
  rfl

/-- A visit takes one node from those that a walk still has to visit, and keeps the others in their
    order. -/
theorem flatMap_nodes_cons (n : Node) (stack : List Node) :
    (n :: stack).flatMap nodes = n :: (n.pushChildren stack).flatMap nodes := by
  rw [List.flatMap_cons, nodes_eq, List.cons_append, ← List.flatMap_append, pushChildren_eq]

/-- The nodes that a walk visits from a stack on, the top of the stack first. -/
def walkFrom : List Node → List Node
  | [] => []
  | n :: stack => n :: walkFrom (n.pushChildren stack)
termination_by stack => (stack.flatMap nodes).length
decreasing_by
  rw [flatMap_nodes_cons, List.length_cons]
  exact Nat.lt_succ_self _

/-- The nodes that a walk through a tree visits, one after the other. -/
def walk (n : Node) : List Node :=
  walkFrom [n]

theorem walkFrom_eq (stack : List Node) : walkFrom stack = stack.flatMap nodes := by
  fun_induction walkFrom stack with
  | case1 => rfl
  | case2 n stack ih => rw [flatMap_nodes_cons, ih]

/-- A walk visits a tree in the order of reading. -/
theorem walk_eq_nodes (n : Node) : n.walk = n.nodes := by
  rw [walk, walkFrom_eq, List.flatMap_singleton]

end Node

end RubyPattern
