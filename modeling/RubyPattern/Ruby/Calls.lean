/-
  RubyPattern.Ruby.Calls

  Parameters, calls with and without blocks, lambdas, indexes and operators.
-/
import RubyPattern.Ruby.Assignments

namespace RubyPattern.Ruby.Context

/-! ## Parameters -/

/-- The name of a parameter, which becomes a local variable if it is there. -/
def parameterName (w : Context) (c : Cst) : Lowering (Option String) := do
  match c.part? "name" with
  | some part => do
    let name ← w.text part
    declare name
    return some name
  | none => return none

/-- A symbol or nothing, as a child. -/
def nameChild : Option String → Value
  | some name => .sym name
  | none => .nil

mutual

/-- One parameter. Its name is declared before its default value is lowered. -/
def parameter (w : Context) : Cst → Lowering Node
  | .mk head children =>
    let c := Cst.mk head children
    match head.kind with
    | .identifier => do
      let name ← w.text c
      declare name
      w.located c "arg" [.sym name]
    | .destructuredParameter => do
      let parts ← w.parameterList children
      w.located c "mlhs" (asChildren parts)
    | .forwardParameter => w.keyword "forward_arg" c
    | .hashSplatNil => w.keyword "kwnilarg" c
    | kind => do
      let name ← w.parameterName c
      match kind with
      | .optionalParameter => do
        let value ← w.lowerRole c "value"
        w.located c "optarg" [nameChild name, value]
      | .keywordParameter =>
        match c.part? "value" with
        | none => w.located c "kwarg" [nameChild name]
        | some value => do
          let value ← w.lower value
          w.located c "kwoptarg" [nameChild name, value]
      | .splatParameter => w.located c "restarg" (name.toList.map .sym)
      | .hashSplatParameter => w.located c "kwrestarg" (name.toList.map .sym)
      | .blockParameter => w.located c "blockarg" [nameChild name]
      | _ => throw (w.unsupported c)

/-- The parameters among some children, in order. -/
def parameterList (w : Context) : List Cst → Lowering (List Node)
  | [] => pure []
  | c :: cs => do
    if c.isPlain then
      let n ← w.parameter c
      let ns ← w.parameterList cs
      return n :: ns
    else w.parameterList cs

end

/-- A parameter, or a variable that a block keeps to itself. -/
def parameterOrLocal (w : Context) (locals : List (Nat × Nat × Kind)) (c : Cst) :
    Lowering Node := do
  if locals.contains c.key then
    let name ← w.text c
    declare name
    w.located c "shadowarg" [.sym name]
  else w.parameter c

/-- Parameters one after the other. -/
def parametersOrLocals (w : Context) (locals : List (Nat × Nat × Kind)) :
    List Cst → Lowering (List Node)
  | [] => pure []
  | c :: cs => do
    let n ← w.parameterOrLocal locals c
    let ns ← w.parametersOrLocals locals cs
    return n :: ns

/-- The parameters of a block, lambda or method. -/
def parameters (w : Context) : Option Cst → Lowering Node
  | none => pure (Node.bare "args" [])
  | some c => do
    let locals := (c.inRole "locals").map Cst.key
    let items ← w.parametersOrLocals locals c.plainChildren
    w.located c "args" (asChildren items)

/-! ## Blocks -/

/-- A call with its block, which sees the local variables around it. -/
def withBlock (w : Context) (c : Cst) (send : Node) (block : Cst) : Lowering Node := do
  let (args, body) ← withScope true do
    let args ← w.parameters (block.part? "parameters")
    let body ← w.bodyOf block ["parameters"]
    return (args, body)
  w.located c "block" [send, args, .ofNode? body]

/-- A lambda literal. -/
def lambda (w : Context) (c : Cst) : Lowering Node := do
  let (args, body) ← withScope true do
    let args ← w.parameters (c.part? "parameters")
    let body ← match c.part? "body" with
      | some body => w.bodyOf body ["parameters"]
      | none => pure none
    return (args, body)
  w.located c "block" [Node.bare "lambda" [], args, .ofNode? body]

/-! ## Calls -/

/-- The arguments of a call; without an argument list there are none. -/
def callArguments (w : Context) : Option Cst → Lowering (List Node)
  | some c => w.arguments c.plainChildren
  | none => pure []

/-- A call without its block. It reaches from the start of the construct to the end of its last
    part. -/
def send (w : Context) (c : Cst) : Lowering Node := do
  let receiver := c.part? "receiver"
  let method := c.part? "method"
  let arguments := c.part? "arguments"
  let receiverNode ← w.lowerOptional receiver
  let args ← w.callArguments arguments
  let location ← w.span c (((arguments <|> method) <|> receiver).getD c)
  match method with
  | none => do
    let type := sendType (← w.callOperator c)
    return ⟨.plain type, .ofNode? receiverNode :: .sym "call" :: asChildren args, location⟩
  | some method =>
    if method.kind == .superCall then return ⟨.plain "super", asChildren args, location⟩
    else do
      let name ← w.text method
      let type := sendType (← w.callOperator c)
      return ⟨.plain type, .ofNode? receiverNode :: .sym name :: asChildren args, location⟩

/-- A call, with its block if it has one. -/
def call (w : Context) (c : Cst) : Lowering Node := do
  let send ← w.send c
  match c.part? "block" with
  | some block => w.withBlock c send block
  | none => return send

/-- An index: the arguments are lowered before the indexed object. -/
def elementReference (w : Context) (c : Cst) : Lowering Node :=
  match c.part? "object" with
  | none => throw (w.unsupported c)
  | some object => do
    let arguments ← w.indexArguments c object
    let receiver ← w.lower object
    w.located c "send" (receiver.toValue :: .sym "[]" :: asChildren arguments)

/-! ## Operators -/

/-- A binary operation. Conjunctions and disjunctions have nodes of their own. -/
def binary (w : Context) (c : Cst) : Lowering Node := do
  let left ← w.lowerRole c "left"
  let operator ← w.operatorText c
  let right ← w.lowerRole c "right"
  if operator == "&&" || operator == "and" then w.located c "and" [left, right]
  else if operator == "||" || operator == "or" then w.located c "or" [left, right]
  else w.located c "send" [left, .sym operator, right]

/-- The operand of a unary operation, or else its last child of interest. -/
def operand (c : Cst) : Lowering Cst :=
  match c.part? "operand" <|> c.plainChildren.getLast? with
  | some operand => pure operand
  | none => throw .missingOperand

/-- A number with the opposite sign. -/
def negated : Value → Value
  | .int n => .int (-n)
  | .float x => .float (-x)
  | v => v

/-- A call of an operator without arguments. -/
def operatorSend (w : Context) (c : Cst) (operator : String) (operand : Cst) :
    Lowering Node := do
  let receiver ← w.lower operand
  w.located c "send" [receiver, .sym operator]

/-- A unary operation. A minus before a number is part of the number. -/
def unary (w : Context) (c : Cst) : Lowering Node := do
  let operator ← w.operatorText c
  let operand ← operand c
  if operator == "!" || operator == "not" then w.operatorSend c "!" operand
  else if operator == "defined?" then do
    let inner ← w.lower operand
    w.located c "defined?" [inner]
  else if operator == "-" && (operand.kind == .integer || operand.kind == .float) then do
    let number ← w.lower operand
    w.located c number.type.text (number.children.map negated)
  else if operator == "-" || operator == "+" then w.operatorSend c (operator ++ "@") operand
  else w.operatorSend c operator operand

end RubyPattern.Ruby.Context
