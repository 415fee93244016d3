/-
  RubyPattern.Ruby.Assignments

  Arguments, which calls, indexes and jumps share, and assignments: targets of every form, and
  the single, multiple and operator assignments to them.
-/
import RubyPattern.Ruby.Literals

namespace RubyPattern.Ruby.Context

/-! ## Arguments -/

/-- Whether an argument is folded into the trailing hash. -/
def isKeyword (c : Cst) : Bool :=
  c.kind == .pair || c.kind == .hashSplatArgument

/-- The positional arguments in order, and the last block argument among them. -/
def positional (w : Context) : List Cst → Lowering (List Node × Option Node)
  | [] => pure ([], none)
  | c :: cs => do
    if isKeyword c then w.positional cs
    else
      let n ← w.lower c
      let (ns, block) ← w.positional cs
      if c.kind == .blockArgument then return (ns, block <|> some n)
      else return (n :: ns, block)

/-- Arguments: the positional ones, then the keywords folded into one hash, then the block. The
    keywords are lowered after the others. -/
def arguments (w : Context) (items : List Cst) : Lowering (List Node) := do
  let (positional, block) ← w.positional items
  let keywords := items.filter isKeyword
  let hash ← match keywords.head?, keywords.getLast? with
    | some first, some last => do
      let pairs ← w.lowerAll keywords
      pure [⟨.plain "hash", asChildren pairs, some (← w.span first last)⟩]
    | _, _ => pure []
  return positional ++ hash ++ block.toList

/-- The operator between receiver and method. -/
def callOperator (w : Context) (c : Cst) : Lowering String :=
  match c.part? "operator" with
  | some operator => w.text operator
  | none =>
    let found := c.children.find? fun child =>
      child.kind == .dot || child.kind == .safeDot || child.kind == .doubleColon
    pure ((found.map fun child => child.kind.name).getD ".")

/-- The type of a call node: a safe call skips an absent receiver. -/
def sendType (operator : String) : String :=
  if operator == "&." then "csend" else "send"

/-- The arguments of an index: the children of interest other than the indexed object. -/
def indexArguments (w : Context) (c object : Cst) : Lowering (List Node) :=
  w.arguments (c.plainChildren.filter fun child => child.key != object.key)

/-! ## Targets -/

mutual

/-- The target of an assignment, without the value. Operator assignments keep the plain name of a
    method, other assignments name the one that sets. -/
def target (w : Context) (keepsName : Bool) : Cst → Lowering Node
  | .mk head children =>
    let c := Cst.mk head children
    match head.kind with
    | .identifier => do
      let name ← w.text c
      declare name
      w.located c "lvasgn" [.sym name]
    | .instanceVariable => w.symbolNode "ivasgn" 0 c
    | .classVariable => w.symbolNode "cvasgn" 0 c
    | .globalVariable => w.symbolNode "gvasgn" 0 c
    | .constant => do
      let name ← w.text c
      w.located c "casgn" [.nil, .sym name]
    | .scopeResolution => do
      let scope ← w.pathScope (c.part? "scope")
      let name ← w.textOfRole c "name"
      w.located c "casgn" [scope, .sym name]
    | .call => do
      let receiver ← w.lowerRole c "receiver"
      let method ← w.textOfRole c "method"
      let operator ← w.callOperator c
      w.located c (sendType operator)
        [receiver, .sym (if keepsName then method else method ++ "=")]
    | .elementReference => do
      let object ← requirePart (c.part? "object")
      let arguments ← w.indexArguments c object
      let receiver ← w.lower object
      w.located c "send"
        (receiver.toValue :: .sym (if keepsName then "[]" else "[]=") :: asChildren arguments)
    | .restAssignment => do
      let parts ← w.targets children
      w.located c "splat" (asChildren parts)
    | .leftAssignmentList => do
      let parts ← w.targets children
      w.located c "mlhs" (asChildren parts)
    | .destructuredLeftAssignment => do
      let parts ← w.targets children
      w.located c "mlhs" (asChildren parts)
    | _ => throw (w.unsupported c)

/-- The targets among some children, in order. -/
def targets (w : Context) : List Cst → Lowering (List Node)
  | [] => pure []
  | c :: cs => do
    if c.isPlain then
      let n ← w.target false c
      let ns ← w.targets cs
      return n :: ns
    else w.targets cs

end

/-! ## Assignments -/

/-- The value of an assignment; several values make an array. -/
def assignedValue (w : Context) (c : Cst) : Lowering Node :=
  match c.kind with
  | .rightAssignmentList => w.collection "array" c
  | .splatArgument => do
    let n ← w.lower c
    w.located c "array" [n]
  | _ => w.lower c

/-- An assignment. The target comes first: a local variable is in sight in its own value. -/
def assignment (w : Context) (c : Cst) : Lowering Node :=
  match c.part? "left", c.part? "right" with
  | some left, some right => do
    let target ← w.target false left
    let value ← w.assignedValue right
    if target.type == .plain "mlhs" then w.located c "masgn" [target, value]
    else w.located c target.type.text (target.children ++ [value.toValue])
  | _, _ => throw (w.unsupported c)

/-- An assignment that combines the old value with another. -/
def operatorAssignment (w : Context) (c : Cst) : Lowering Node :=
  match c.part? "left", c.part? "right" with
  | some left, some right => do
    let operator ← w.operatorText c
    let target ← w.target true left
    let value ← w.lower right
    if operator == "||=" then w.located c "or_asgn" [target, value]
    else if operator == "&&=" then w.located c "and_asgn" [target, value]
    else
      let name := String.ofList operator.toList.dropLast
      w.located c "op_asgn" [target, .sym name, value]
  | _, _ => throw (w.unsupported c)

end RubyPattern.Ruby.Context
