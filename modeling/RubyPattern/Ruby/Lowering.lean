/-
  RubyPattern.Ruby.Lowering

  Lowering turns concrete syntax into trees. This is its setting: the source with its offsets, the
  local variables in sight, and the way in which parts are lowered. The functions here serve all
  constructs: locations, statement lists, bodies and operators.
-/
import RubyPattern.Error.Cause
import RubyPattern.Ruby.Concrete
import RubyPattern.Ruby.Scopes
import RubyPattern.Ruby.SourceText

namespace RubyPattern.Ruby

/-- A step of lowering: it may declare local variables and may fail. -/
abbrev Lowering := StateT Scopes (Except Fault)

/-- The source that is lowered. -/
structure Origin where
  source : String
  chars : List Char
  rubyVersion : String

/-- The source, and how parts of the construct at hand are lowered. -/
structure Context extends Origin where
  lower : Cst → Lowering Node

/-! ## Faults -/

namespace Origin

/-- The fault of source without a tree. -/
def malformed (o : Origin) : Fault :=
  .malformedSource o.source o.rubyVersion

/-- The fault of a construct without a tree shape, with its line. -/
def unsupported (o : Origin) (c : Cst) : Fault :=
  .unsupportedSyntax o.source c.kind.name ((point o.chars c.head.start).1 + 1) o.rubyVersion

/-! ## Text and locations -/

/-- The source text between two offsets. -/
def textBetween (o : Origin) (start stop : Nat) : Lowering String :=
  match slice? o.chars start stop with
  | some cs => pure (String.ofList cs)
  | none => throw (.splitCharacter start stop)

/-- The source text of a construct. -/
def text (o : Origin) (c : Cst) : Lowering String :=
  o.textBetween c.head.start c.head.stop

/-- The location from the start of one construct to the end of another. -/
def span (o : Origin) (first last : Cst) : Lowering Location := do
  let source ← o.textBetween first.head.start last.head.stop
  let start := point o.chars first.head.start
  let stop := point o.chars last.head.stop
  return {
    startByte := first.head.start
    endByte := last.head.stop
    startLine := start.1 + 1
    startColumn := start.2
    endLine := stop.1 + 1
    endColumn := stop.2
    source }

/-- A node that covers a construct. -/
def located (o : Origin) (c : Cst) (type : String) (children : List Value) : Lowering Node := do
  return ⟨.plain type, children, some (← o.span c c)⟩

end Origin

/-- Nodes as children. -/
def asChildren (nodes : List Node) : List Value :=
  nodes.map Node.toValue

/-! ## Local variables -/

/-- Makes a name a local variable of the scope at hand. -/
def declare (name : String) : Lowering Unit :=
  modify (·.declare name)

/-- Whether a name is a local variable here. -/
def isLocal (name : String) : Lowering Bool := do
  return (← get).isLocal name

/-- Lowers inside a scope of its own. Blocks see the names around them, definitions do not. -/
def withScope {α : Type} (inherit : Bool) (inner : Lowering α) : Lowering α := do
  modify (·.enter inherit)
  let result ← inner
  modify Scopes.leave
  return result

/-! ## Parts -/

namespace Context

/-- A part that a construct cannot do without. -/
def requirePart (part : Option Cst) : Lowering Cst :=
  match part with
  | some c => pure c
  | none => throw .missingPart

/-- Lowers the part in a role, which has to be there. -/
def lowerRole (w : Context) (c : Cst) (role : String) : Lowering Node := do
  w.lower (← requirePart (c.part? role))

/-- The text of the part in a role, which has to be there. -/
def textOfRole (w : Context) (c : Cst) (role : String) : Lowering String := do
  w.text (← requirePart (c.part? role))

/-- Lowers a part that may be absent. -/
def lowerOptional (w : Context) : Option Cst → Lowering (Option Node)
  | some c => do return some (← w.lower c)
  | none => pure none

/-- Lowers constructs one after the other. -/
def lowerAll (w : Context) : List Cst → Lowering (List Node)
  | [] => pure []
  | c :: cs => do
    let n ← w.lower c
    let ns ← w.lowerAll cs
    return n :: ns

/-! ## Statements -/

/-- Several statements as one node: nothing for none, the statement itself for one, and for more
    a `begin` that reaches from the first to the last. -/
def compound (w : Context) (statements : List Cst) : Lowering (Option Node) := do
  match ← w.lowerAll statements with
  | [] => return none
  | [n] => return some n
  | ns =>
    match statements.head?, statements.getLast? with
    | some first, some last => do
      let location ← w.span first last
      return some ⟨.plain "begin", asChildren ns, some location⟩
    | _, _ => return none

/-- A part that is a list of statements if it is a container, and one construct if not. -/
def clause (w : Context) : Option Cst → Lowering (Option Node)
  | none => pure none
  | some c => do
    if c.kind.isContainer then w.compound c.statements else return some (← w.lower c)

/-- The body of a construct: the part in the role of body, or else the children of interest that
    have none of the other roles. -/
def bodyOf (w : Context) (c : Cst) (otherRoles : List String) : Lowering (Option Node) :=
  match c.part? "body" with
  | some body => w.clause (some body)
  | none =>
    let taken := (otherRoles.flatMap c.inRole).map Cst.key
    w.compound (Cst.flatten (c.children.filter fun child => !taken.contains child.key))

/-- The operator of a construct: the part in that role, or else its first punctuation. -/
def operatorText (w : Context) (c : Cst) : Lowering String :=
  match c.part? "operator" with
  | some operator => w.text operator
  | none =>
    match c.children.find? fun child => !child.head.named with
    | some child => w.text child
    | none => throw (w.unsupported c)

end Context

end RubyPattern.Ruby
