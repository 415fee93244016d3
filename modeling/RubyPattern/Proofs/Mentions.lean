/-
  RubyPattern.Proofs.Mentions

  The names that a construct binds and reads as local variables, each with the
  offset where it stands, and the scopes in between. They are listed in the
  order in which lowering comes to them, for which there is one function beside
  each function of lowering that goes on to parts.
-/
import RubyPattern.Ruby.Parser

namespace RubyPattern.Ruby

/-- A name that is bound, a name that is read, or a scope with what is mentioned
    inside. Blocks inherit the names around them, definitions do not. -/
inductive Mention where
  | binds (name : String) (start : Nat)
  | reads (name : String) (start : Nat)
  | scope (inherits : Bool) (inner : List Mention)

namespace Mention

/-- The names known behind a mention, given those in front of it. What a scope
    binds is not known behind it. -/
def extend (known : List String) : Mention → List String
  | .binds name _ => if known.contains name then known else name :: known
  | .reads _ _ => known
  | .scope _ _ => known

/-- The names known behind several mentions. -/
def extendAll (known : List String) (ms : List Mention) : List String :=
  ms.foldl extend known

@[simp] theorem extendAll_nil (known : List String) : extendAll known [] = known := rfl

@[simp] theorem extendAll_cons (known : List String) (m : Mention) (ms : List Mention) :
    extendAll known (m :: ms) = extendAll (m.extend known) ms := rfl

@[simp] theorem extendAll_append (known : List String) (ms ms' : List Mention) :
    extendAll known (ms ++ ms') = extendAll (extendAll known ms) ms' :=
  List.foldl_append

theorem subset_extend (known : List String) (m : Mention) : known ⊆ m.extend known := by
  cases m with
  | binds name start =>
    simp only [extend]
    split
    next => exact List.Subset.refl _
    next => exact List.subset_cons_self _ _
  | reads => exact List.Subset.refl _
  | scope => exact List.Subset.refl _

/-- Mentions add names and take none away. -/
theorem subset_extendAll (known : List String) (ms : List Mention) :
    known ⊆ extendAll known ms := by
  induction ms generalizing known with
  | nil => exact List.Subset.refl _
  | cons m ms ih => exact List.Subset.trans (subset_extend known m) (ih _)

end Mention

/-- The text of a name, or nothing where its offsets do not fit the source. -/
def Origin.nameOf (o : Origin) (c : Cst) : String :=
  match slice? o.chars c.head.start c.head.stop with
  | some cs => String.ofList cs
  | none => ""

namespace Mentions

/-- A name that is bound where it stands. -/
def ofBinding (o : Origin) (c : Cst) : List Mention :=
  [.binds (o.nameOf c) c.head.start]

section

variable (o : Origin) (inside : Cst → List Mention)

/-! ## Parts and statements -/

/-- A part that may be absent. -/
def ofPart : Option Cst → List Mention
  | some c => inside c
  | none => []

/-- Constructs one after the other. -/
def ofAll (cs : List Cst) : List Mention :=
  cs.flatMap inside

/-- A part that is a list of statements or one construct. -/
def ofClause : Option Cst → List Mention
  | none => []
  | some c => if c.kind.isContainer then ofAll inside c.statements else inside c

/-- The body of a construct. -/
def ofBody (c : Cst) (otherRoles : List String) : List Mention :=
  match c.part? "body" with
  | some body => ofClause inside (some body)
  | none =>
    let taken := (otherRoles.flatMap c.inRole).map Cst.key
    ofAll inside (Cst.flatten (c.children.filter fun child => !taken.contains child.key))

/-! ## Arguments and targets -/

/-- One piece of a string. -/
def ofPiece (c : Cst) : List Mention :=
  match c.kind with
  | .interpolation => ofAll inside c.statements
  | _ => []

/-- Arguments: the keywords come after the others. -/
def ofArguments (items : List Cst) : List Mention :=
  ofAll inside (items.filter fun c => !Context.isKeyword c) ++
    ofAll inside (items.filter Context.isKeyword)

/-- The arguments of an index. -/
def ofIndexArguments (c object : Cst) : List Mention :=
  ofArguments inside (c.plainChildren.filter fun child => child.key != object.key)

mutual

/-- The target of an assignment. -/
def ofTarget : Cst → List Mention
  | .mk head children =>
    let c := Cst.mk head children
    match head.kind with
    | .identifier => ofBinding o c
    | .scopeResolution => ofPart inside (c.part? "scope")
    | .call => ofPart inside (c.part? "receiver")
    | .elementReference =>
      match c.part? "object" with
      | some object => ofIndexArguments inside c object ++ inside object
      | none => []
    | .restAssignment => ofTargets children
    | .leftAssignmentList => ofTargets children
    | .destructuredLeftAssignment => ofTargets children
    | _ => []

/-- The targets among some children. -/
def ofTargets : List Cst → List Mention
  | [] => []
  | c :: cs => if c.isPlain then ofTarget c ++ ofTargets cs else ofTargets cs

end

/-- The value of an assignment. -/
def ofAssignedValue (c : Cst) : List Mention :=
  match c.kind with
  | .rightAssignmentList => ofAll inside c.plainChildren
  | _ => inside c

/-! ## Parameters and blocks -/

/-- The name of a parameter. -/
def ofParameterName (c : Cst) : List Mention :=
  match c.part? "name" with
  | some part => ofBinding o part
  | none => []

mutual

/-- One parameter. Its name stands in front of its default value. -/
def ofParameter : Cst → List Mention
  | .mk head children =>
    let c := Cst.mk head children
    match head.kind with
    | .identifier => ofBinding o c
    | .destructuredParameter => ofParameterList children
    | .forwardParameter => []
    | .hashSplatNil => []
    | .optionalParameter => ofParameterName o c ++ ofPart inside (c.part? "value")
    | .keywordParameter => ofParameterName o c ++ ofPart inside (c.part? "value")
    | _ => ofParameterName o c

/-- The parameters among some children. -/
def ofParameterList : List Cst → List Mention
  | [] => []
  | c :: cs => if c.isPlain then ofParameter c ++ ofParameterList cs else ofParameterList cs

end

/-- A parameter, or a variable that a block keeps to itself. -/
def ofParameterOrLocal (locals : List (Nat × Nat × Kind)) (c : Cst) : List Mention :=
  if locals.contains c.key then ofBinding o c else ofParameter o inside c

/-- The parameters of a block, lambda or method. -/
def ofParameters : Option Cst → List Mention
  | none => []
  | some c =>
    c.plainChildren.flatMap (ofParameterOrLocal o inside ((c.inRole "locals").map Cst.key))

/-- The parameters and the body of a block. -/
def ofBlock (block : Cst) : List Mention :=
  ofParameters o inside (block.part? "parameters") ++ ofBody inside block ["parameters"]

/-- The parameters and the body of a lambda literal. -/
def ofLambdaParts (c : Cst) : List Mention :=
  ofParameters o inside (c.part? "parameters") ++
    match c.part? "body" with
    | some body => ofBody inside body ["parameters"]
    | none => []

/-- The parameters and the body of a method. -/
def ofMethodParts (c : Cst) (otherRoles : List String) : List Mention :=
  ofParameters o inside (c.part? "parameters") ++ ofBody inside c otherRoles

/-! ## Constructs -/

/-- The arguments of a call. -/
def ofCallArguments : Option Cst → List Mention
  | some c => ofArguments inside c.plainChildren
  | none => []

/-- A call without its block. -/
def ofSend (c : Cst) : List Mention :=
  ofPart inside (c.part? "receiver") ++ ofCallArguments inside (c.part? "arguments")

/-- A call, with its block in a scope of its own. -/
def ofCall (c : Cst) : List Mention :=
  ofSend inside c ++
    match c.part? "block" with
    | some block => [.scope true (ofBlock o inside block)]
    | none => []

/-- An index: the arguments come before the indexed object. -/
def ofElementReference (c : Cst) : List Mention :=
  match c.part? "object" with
  | some object => ofIndexArguments inside c object ++ inside object
  | none => []

/-- An assignment, the target first. -/
def ofAssignment (c : Cst) : List Mention :=
  match c.part? "left", c.part? "right" with
  | some left, some right => ofTarget o inside left ++ ofAssignedValue inside right
  | _, _ => []

/-- An assignment that combines the old value with another. -/
def ofOperatorAssignment (c : Cst) : List Mention :=
  match c.part? "left", c.part? "right" with
  | some left, some right => ofTarget o inside left ++ inside right
  | _, _ => []

/-- The parts in some roles, one after the other. -/
def ofRoles (c : Cst) (first second : String) : List Mention :=
  ofPart inside (c.part? first) ++ ofPart inside (c.part? second)

/-- A condition and two branches. -/
def ofBranches (c : Cst) (first second : String) : List Mention :=
  ofPart inside (c.part? "condition") ++ ofClause inside (c.part? first) ++
    ofClause inside (c.part? second)

/-- A loop that tests before its body. -/
def ofLoop (c : Cst) : List Mention :=
  ofPart inside (c.part? "condition") ++ ofClause inside (c.part? "body")

/-- A case distinction: the branches come before the subject. -/
def ofCase (c : Cst) : List Mention :=
  ofAll inside (c.plainChildren.filter fun child => child.kind == .whenClause) ++
    ofPart inside (c.part? "value") ++
    ofClause inside (c.plainChildren.find? fun child => child.kind == .elseClause)

/-- One branch of a case distinction. -/
def ofWhen (c : Cst) : List Mention :=
  ofAll inside (c.inRole "pattern") ++ ofClause inside (c.part? "body")

/-- The pattern of a branch. -/
def ofMatchPattern (c : Cst) : List Mention :=
  match c.plainChildren with
  | [inner] => inside inner
  | _ => []

/-- What leaves with a jump. -/
def ofJumpValue (c : Cst) : List Mention :=
  if c.kind == .argumentList then ofArguments inside c.plainChildren else inside c

/-- The class that another one inherits from. -/
def ofSuperclass : Option Cst → List Mention
  | some c => ofPart inside c.plainChildren.head?
  | none => []

/-- A class definition. -/
def ofClass (c : Cst) : List Mention :=
  ofPart inside (c.part? "name") ++ ofSuperclass inside (c.part? "superclass") ++
    [.scope false (ofBody inside c ["name", "superclass"])]

/-- A definition whose body follows one part outside of it. -/
def ofBodyBehind (role : String) (c : Cst) : List Mention :=
  ofPart inside (c.part? role) ++ [.scope false (ofBody inside c [role])]

/-- A method defined on an object of its own. -/
def ofSingletonMethod (c : Cst) : List Mention :=
  ofPart inside (c.part? "object") ++
    [.scope false (ofMethodParts o inside c ["object", "name", "parameters"])]

/-- What one construct mentions, given what its parts do. -/
def ofConstruct (c : Cst) : List Mention :=
  match c.kind with
  | .string | .bareString | .delimitedSymbol | .bareSymbol | .regex =>
    c.plainChildren.flatMap (ofPiece inside)
  | .chainedString | .array | .stringArray | .symbolArray | .hash | .splatArgument
  | .hashSplatArgument => ofAll inside c.plainChildren
  | .parenthesizedStatements | .beginBlock => ofAll inside c.statements
  | .pair => ofRoles inside c "key" "value"
  | .blockArgument => ofPart inside c.plainChildren.head?
  | .range => ofRoles inside c "begin" "end"
  | .identifier => [.reads (o.nameOf c) c.head.start]
  | .scopeResolution => ofPart inside (c.part? "scope")
  | .assignment => ofAssignment o inside c
  | .operatorAssignment => ofOperatorAssignment o inside c
  | .call => ofCall o inside c
  | .lambda => [.scope true (ofLambdaParts o inside c)]
  | .elementReference => ofElementReference inside c
  | .binary => ofRoles inside c "left" "right"
  | .unary => ofPart inside (c.part? "operand" <|> c.plainChildren.getLast?)
  | .ifStatement | .elsifClause | .conditional =>
    ofBranches inside c "consequence" "alternative"
  | .unlessStatement => ofBranches inside c "alternative" "consequence"
  | .ifModifier | .unlessModifier | .whileModifier | .untilModifier =>
    ofRoles inside c "body" "condition"
  | .whileLoop | .untilLoop => ofLoop inside c
  | .caseStatement => ofCase inside c
  | .whenClause => ofWhen inside c
  | .matchPattern => ofMatchPattern inside c
  | .returnStatement | .breakStatement | .nextStatement | .yieldStatement =>
    c.plainChildren.flatMap (ofJumpValue inside)
  | .method => [.scope false (ofMethodParts o inside c ["name", "parameters"])]
  | .singletonMethod => ofSingletonMethod o inside c
  | .classDefinition => ofClass inside c
  | .moduleDefinition => ofBodyBehind inside "name" c
  | .singletonClass => ofBodyBehind inside "value" c
  | _ => []

end

end Mentions

/-- What a construct mentions, down to a number of levels. -/
def mentions (o : Origin) : Nat → Cst → List Mention
  | 0, _ => []
  | room + 1, c => Mentions.ofConstruct o (mentions o room) c

end RubyPattern.Ruby
