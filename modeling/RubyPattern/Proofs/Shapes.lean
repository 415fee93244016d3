/-
  RubyPattern.Proofs.Shapes

  The shapes of parsed nodes: for each type of node, which children it has and
  in which order. The table lists every type that lowering can make.
-/
import RubyPattern.Ruby.Parser

namespace RubyPattern

-- ============================================================================
-- Children
-- ============================================================================

/-- What can stand at a place among the children of a node. -/
inductive Slot where
  | node
  | typed (type : String)
  | nodeOrNil
  | symbol
  | symbolOrNil
  | string
  | integer
  | float
  deriving DecidableEq, Repr

namespace Slot

/-- Whether a value can stand at a place. -/
def admits : Slot → Value → Bool
  | .node, .node .. => true
  | .typed type, .node t _ _ => t == .plain type
  | .nodeOrNil, .node .. => true
  | .nodeOrNil, .nil => true
  | .symbol, .sym _ => true
  | .symbolOrNil, .sym _ => true
  | .symbolOrNil, .nil => true
  | .string, .str _ => true
  | .integer, .int _ => true
  | .float, .float _ => true
  | .float, .nan _ => true
  | _, _ => false

@[simp] theorem node_admits (n : Node) : Slot.node.admits n.toValue = true := rfl

theorem node_admits_asChildren (ns : List Node) :
    ∀ v ∈ Ruby.asChildren ns, Slot.node.admits v = true := by
  simp [Ruby.asChildren]

theorem node_admits_concat {vs : List Value} (all : ∀ v ∈ vs, Slot.node.admits v = true)
    (n : Node) : ∀ v ∈ vs ++ [n.toValue], Slot.node.admits v = true := by
  rw [List.forall_mem_append, List.forall_mem_singleton]
  exact ⟨all, node_admits n⟩

@[simp] theorem typed_admits {type : String} {n : Node} :
    (Slot.typed type).admits n.toValue = true ↔ n.type = .plain type := beq_iff_eq

@[simp] theorem nodeOrNil_admits_ofNode? (n : Option Node) :
    Slot.nodeOrNil.admits (.ofNode? n) = true := by
  cases n <;> rfl

@[simp] theorem symbolOrNil_admits (name : Option String) :
    Slot.symbolOrNil.admits (Ruby.Context.nameChild name) = true := by
  cases name <;> rfl

@[simp] theorem float_admits (tag : Nat) (x : Float) :
    Slot.float.admits (.ofFloat tag x) = true := by
  unfold Value.ofFloat
  split <;> rfl

end Slot

/-- How often a place can be filled. -/
inductive Count where
  | one
  | optional
  | many
  deriving DecidableEq, Repr

/-- The places for the children of a node, in order. -/
abbrev Shape := List (Slot × Count)

namespace Shape

/-- The children that fill the places of a shape. -/
inductive Admits : Shape → List Value → Prop
  | nil : Admits [] []
  | one {slot : Slot} {shape : Shape} {v : Value} {vs : List Value}
      (first : slot.admits v = true) (later : Admits shape vs) :
      Admits ((slot, .one) :: shape) (v :: vs)
  | absent {slot : Slot} {shape : Shape} {vs : List Value} (later : Admits shape vs) :
      Admits ((slot, .optional) :: shape) vs
  | present {slot : Slot} {shape : Shape} {v : Value} {vs : List Value}
      (first : slot.admits v = true) (later : Admits shape vs) :
      Admits ((slot, .optional) :: shape) (v :: vs)
  | done {slot : Slot} {shape : Shape} {vs : List Value} (later : Admits shape vs) :
      Admits ((slot, .many) :: shape) vs
  | more {slot : Slot} {shape : Shape} {v : Value} {vs : List Value}
      (first : slot.admits v = true) (later : Admits ((slot, .many) :: shape) vs) :
      Admits ((slot, .many) :: shape) (v :: vs)

/-- A place for many takes any number of children that can stand there. -/
theorem Admits.append {slot : Slot} {shape : Shape} {front vs : List Value}
    (all : ∀ v ∈ front, slot.admits v = true) (later : Admits shape vs) :
    Admits ((slot, .many) :: shape) (front ++ vs) := by
  induction front with
  | nil => exact .done later
  | cons v front ih =>
    rw [List.forall_mem_cons] at all
    exact .more all.1 (ih all.2)

/-- A change that keeps what can stand at each place keeps the shape. -/
theorem Admits.map {f : Value → Value} (keeps : ∀ slot v, Slot.admits slot v = true →
    Slot.admits slot (f v) = true) {shape : Shape} {vs : List Value} (h : Admits shape vs) :
    Admits shape (vs.map f) := by
  induction h with
  | nil => exact .nil
  | one first later ih => exact .one (keeps _ _ first) ih
  | absent later ih => exact .absent ih
  | present first later ih => exact .present (keeps _ _ first) ih
  | done later ih => exact .done ih
  | more first later ih => exact .more (keeps _ _ first) ih

-- ============================================================================
-- The table
-- ============================================================================

/-- The shapes of parsed nodes, with the types that share each. -/
def table : List (List String × Shape) :=
  [(["nil", "true", "false", "self", "zsuper", "cbase", "lambda", "forwarded_args",
      "forward_arg", "kwnilarg", "redo", "retry"], []),
   (["int"], [(.integer, .one)]),
   (["float"], [(.float, .one)]),
   (["str"], [(.string, .one)]),
   (["sym", "lvar", "ivar", "cvar", "gvar", "arg", "shadowarg"], [(.symbol, .one)]),
   (["regopt"], [(.symbol, .many)]),
   (["regexp"], [(.node, .many), (.typed "regopt", .one)]),
   (["dstr", "dsym", "array", "hash", "splat", "kwsplat", "begin", "kwbegin", "super", "return",
      "break", "next", "yield", "mlhs", "args"], [(.node, .many)]),
   (["pair", "and", "or", "or_asgn", "and_asgn", "masgn"], [(.node, .one), (.node, .one)]),
   (["op_asgn"], [(.node, .one), (.symbol, .one), (.node, .one)]),
   (["block_pass"], [(.nodeOrNil, .one)]),
   (["irange", "erange"], [(.nodeOrNil, .one), (.nodeOrNil, .one)]),
   (["const"], [(.nodeOrNil, .one), (.symbol, .one)]),
   (["send", "csend"], [(.nodeOrNil, .one), (.symbol, .one), (.node, .many)]),
   (["lvasgn", "ivasgn", "cvasgn", "gvasgn"], [(.symbol, .one), (.node, .optional)]),
   (["casgn"], [(.nodeOrNil, .one), (.symbol, .one), (.node, .optional)]),
   (["defined?"], [(.node, .one)]),
   (["if"], [(.node, .one), (.nodeOrNil, .one), (.nodeOrNil, .one)]),
   (["while", "until", "while_post", "until_post", "module", "sclass"],
      [(.node, .one), (.nodeOrNil, .one)]),
   (["case"], [(.nodeOrNil, .one), (.typed "when", .many), (.nodeOrNil, .one)]),
   (["when"], [(.node, .many), (.nodeOrNil, .one)]),
   (["block"], [(.node, .one), (.typed "args", .one), (.nodeOrNil, .one)]),
   (["def"], [(.symbol, .one), (.typed "args", .one), (.nodeOrNil, .one)]),
   (["defs"], [(.node, .one), (.symbol, .one), (.typed "args", .one), (.nodeOrNil, .one)]),
   (["class"], [(.node, .one), (.nodeOrNil, .one), (.nodeOrNil, .one)]),
   (["optarg", "kwoptarg"], [(.symbolOrNil, .one), (.node, .one)]),
   (["kwarg", "blockarg"], [(.symbolOrNil, .one)]),
   (["restarg", "kwrestarg"], [(.symbol, .optional)])]

/-- The shape of a type of node. -/
def ofType? (type : String) : Option Shape :=
  (table.find? fun entry => entry.1.contains type).map (·.2)

end Shape

/-- The type is one of parsed nodes, and the children have its shape. -/
def Fits (type : String) (children : List Value) : Prop :=
  ∃ shape, Shape.ofType? type = some shape ∧ shape.Admits children

namespace Fits

open Ruby Shape

/-- Nodes without children. -/
theorem none {type : String} (shape : ofType? type = some []) : Fits type [] :=
  ⟨_, shape, .nil⟩

/-- Nodes of any number of nodes. -/
theorem nodes {type : String} (shape : ofType? type = some [(.node, .many)]) {vs : List Value}
    (all : ∀ v ∈ vs, Slot.node.admits v = true) : Fits type vs := by
  refine ⟨_, shape, ?_⟩
  have admits : Shape.Admits [(.node, .many)] (vs ++ []) := .append all .nil
  rwa [List.append_nil] at admits

/-- Nodes of one symbol. -/
theorem symbol {type : String} (shape : ofType? type = some [(.symbol, .one)]) (name : String) :
    Fits type [.sym name] :=
  ⟨_, shape, .one rfl .nil⟩

/-- Nodes of two nodes. -/
theorem pair {type : String} (shape : ofType? type = some [(.node, .one), (.node, .one)])
    (m n : Node) : Fits type [m, n] :=
  ⟨_, shape, .one rfl (.one rfl .nil)⟩

/-- Calls: a receiver or none, a name and arguments. -/
theorem send {type : String}
    (shape : ofType? type = some [(.nodeOrNil, .one), (.symbol, .one), (.node, .many)])
    {receiver : Value} (hreceiver : Slot.nodeOrNil.admits receiver = true) (name : String)
    {arguments : List Value} (all : ∀ v ∈ arguments, Slot.node.admits v = true) :
    Fits type (receiver :: .sym name :: arguments) := by
  have admits : Shape.Admits [(.node, .many)] (arguments ++ []) := .append all .nil
  rw [List.append_nil] at admits
  exact ⟨_, shape, .one hreceiver (.one rfl admits)⟩

theorem map {type : String} {children : List Value} {f : Value → Value} (h : Fits type children)
    (keeps : ∀ slot v, Slot.admits slot v = true → Slot.admits slot (f v) = true) :
    Fits type (children.map f) := by
  obtain ⟨shape, found, admits⟩ := h
  exact ⟨shape, found, admits.map keeps⟩

end Fits

end RubyPattern
