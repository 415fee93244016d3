/-
  RubyPattern.Proofs.Descent

  Assignments, calls, control structures and definitions follow their mentions,
  and with them the whole descent into the concrete syntax: side by side with a
  descent that resolves identifiers by a rule in place of the scopes.
-/
import RubyPattern.Proofs.Following

namespace RubyPattern.Ruby

namespace Context

/-- An identifier, resolved by a rule: a local variable, or a call without
    arguments. -/
def identifierBy (w : Context) (rule : String → Nat → Bool) (c : Cst) : Lowering Node := do
  let name ← w.text c
  if rule name c.head.start then w.located c "lvar" [.sym name]
  else w.located c "send" [.nil, .sym name]

/-- How a construct is lowered if a rule resolves identifiers. -/
def handlerBy (rule : String → Nat → Bool) (kind : Kind)
    (handler : Context → Cst → Lowering Node) : Context → Cst → Lowering Node :=
  match kind with
  | .identifier => fun w c => w.identifierBy rule c
  | _ => handler

end Context

/-- Lowers a construct with a budget of levels as `lower` does, except that a
    rule decides of every identifier whether it is a local variable, from its
    name and the offset where it stands. -/
def lowerBy (rule : String → Nat → Bool) (o : Origin) (limit : Int) : Nat → Cst → Lowering Node
  | room, c =>
    if c.head.missing then throw o.malformed
    else match Context.handler? c.kind with
      | none => throw (o.unsupported c)
      | some handler =>
        match room with
        | 0 => throw (.tooDeep limit)
        | room + 1 => Context.handlerBy rule c.kind handler ⟨o, lowerBy rule o limit room⟩ c

namespace Comparison

open Mentions

variable (v : Comparison)

-- ============================================================================
-- Arguments and assignments
-- ============================================================================

theorem positional (cs : List Cst) :
    Follows v.rule (v.plain.positional cs) (v.ruled.positional cs)
      (ofAll v.inside (cs.filter fun c => !Context.isKeyword c)) := by
  induction cs with
  | nil => exact .steady (.pure _)
  | cons c cs ih =>
    unfold Context.positional
    cases keyword : Context.isKeyword c with
    | true =>
      rw [List.filter_cons_of_neg (by simp [keyword]), if_pos rfl, if_pos rfl]
      exact ih
    | false =>
      rw [List.filter_cons_of_pos (by simp [keyword]), if_neg (by simp), if_neg (by simp)]
      refine (v.follows c).bind fun n => ih.before fun result => ?_
      dsimp only
      split
      next => exact .pure _
      next => exact .pure _

theorem arguments (items : List Cst) :
    Follows v.rule (v.plain.arguments items) (v.ruled.arguments items)
      (ofArguments v.inside items) := by
  refine (v.positional items).bind fun result => ?_
  dsimp only
  cases items.filter Context.isKeyword with
  | nil => exact .steady ((Steady.pure _).bind fun _ => .pure _)
  | cons first others =>
    rw [List.head?_cons, List.getLast?_cons]
    exact (v.lowerAll _).before fun _ => (Steady.span _ _ _).bind fun _ =>
      (Steady.pure _).bind fun _ => .pure _

theorem indexArguments (c object : Cst) :
    Follows v.rule (v.plain.indexArguments c object) (v.ruled.indexArguments c object)
      (ofIndexArguments v.inside c object) :=
  v.arguments _

mutual

theorem target (v : Comparison) (keepsName : Bool) (c : Cst) :
    Follows v.rule (v.plain.target keepsName c) (v.ruled.target keepsName c)
      (ofTarget v.origin v.inside c) := by
  obtain ⟨head, children⟩ := c
  unfold Context.target ofTarget
  dsimp only
  split
  next kind =>
    simp only [kind]
    exact .binding fun _ => .steady (.located _ _ _ _)
  next kind =>
    simp only [kind]
    exact .steady (.symbolNode _ _ _ _)
  next kind =>
    simp only [kind]
    exact .steady (.symbolNode _ _ _ _)
  next kind =>
    simp only [kind]
    exact .steady (.symbolNode _ _ _ _)
  next kind =>
    simp only [kind]
    exact .steady ((Steady.text _ _).bind fun _ => .located _ _ _ _)
  next kind =>
    simp only [kind]
    exact (v.pathScope _).before fun _ => (Steady.textOfRole _ _ _).bind fun _ =>
      .located _ _ _ _
  next kind =>
    simp only [kind]
    exact (v.lowerRole _ _).before fun _ => (Steady.textOfRole _ _ _).bind fun _ =>
      (Steady.callOperator _ _).bind fun _ => .located _ _ _ _
  next kind =>
    simp only [kind]
    cases (Cst.mk head children).part? "object" with
    | none => exact .fails (fun _ => rfl) fun _ => rfl
    | some object =>
      exact .afterPure ((v.indexArguments _ _).bind fun _ =>
        (v.follows _).before fun _ => .located _ _ _ _)
  next kind =>
    simp only [kind]
    exact (v.targets children).before fun _ => .located _ _ _ _
  next kind =>
    simp only [kind]
    exact (v.targets children).before fun _ => .located _ _ _ _
  next kind =>
    simp only [kind]
    exact (v.targets children).before fun _ => .located _ _ _ _
  next => exact .fails (fun _ => rfl) fun _ => rfl

theorem targets (v : Comparison) (cs : List Cst) :
    Follows v.rule (v.plain.targets cs) (v.ruled.targets cs) (ofTargets v.origin v.inside cs) := by
  cases cs with
  | nil => exact .steady (.pure [])
  | cons c cs =>
    unfold Context.targets ofTargets
    split
    next => exact (v.target false c).bind fun _ => (v.targets cs).before fun _ => .pure _
    next => exact v.targets cs

end

theorem assignedValue (c : Cst) :
    Follows v.rule (v.plain.assignedValue c) (v.ruled.assignedValue c)
      (ofAssignedValue v.inside c) := by
  unfold Context.assignedValue ofAssignedValue
  split
  next kind =>
    simp only [kind]
    exact v.collection "array" c
  next kind =>
    simp only [kind]
    exact (v.follows c).before fun _ => .located _ _ _ _
  next =>
    simp only
    exact v.follows c

theorem assignment (c : Cst) :
    Follows v.rule (v.plain.assignment c) (v.ruled.assignment c)
      (ofAssignment v.origin v.inside c) := by
  unfold Context.assignment ofAssignment
  cases c.part? "left" with
  | none => exact .fails (fun _ => rfl) fun _ => rfl
  | some left =>
    cases c.part? "right" with
    | none => exact .fails (fun _ => rfl) fun _ => rfl
    | some right =>
      refine (v.target false left).bind fun target => (v.assignedValue right).before fun value => ?_
      split
      next => exact .located _ _ _ _
      next => exact .located _ _ _ _

theorem operatorAssignment (c : Cst) :
    Follows v.rule (v.plain.operatorAssignment c) (v.ruled.operatorAssignment c)
      (ofOperatorAssignment v.origin v.inside c) := by
  unfold Context.operatorAssignment ofOperatorAssignment
  cases c.part? "left" with
  | none => exact .fails (fun _ => rfl) fun _ => rfl
  | some left =>
    cases c.part? "right" with
    | none => exact .fails (fun _ => rfl) fun _ => rfl
    | some right =>
      refine .after (.operatorText _ _) fun operator => (v.target true left).bind fun target => ?_
      refine (v.follows right).before fun value => ?_
      split
      next => exact .located _ _ _ _
      next =>
        split
        next => exact .located _ _ _ _
        next => exact .located _ _ _ _

-- ============================================================================
-- Parameters and calls
-- ============================================================================

theorem parameterName (c : Cst) :
    Follows v.rule (v.plain.parameterName c) (v.ruled.parameterName c)
      (ofParameterName v.origin c) := by
  unfold Context.parameterName ofParameterName
  cases c.part? "name" with
  | none => exact .steady (.pure none)
  | some part => exact .binding fun _ => .steady (.pure _)

mutual

theorem parameter (v : Comparison) (c : Cst) :
    Follows v.rule (v.plain.parameter c) (v.ruled.parameter c)
      (ofParameter v.origin v.inside c) := by
  obtain ⟨head, children⟩ := c
  unfold Context.parameter ofParameter
  dsimp only
  split
  next kind =>
    simp only [kind]
    exact .binding fun _ => .steady (.located _ _ _ _)
  next kind =>
    simp only [kind]
    exact (v.parameterList children).before fun _ => .located _ _ _ _
  next kind =>
    simp only [kind]
    exact .steady (.located _ _ _ _)
  next kind =>
    simp only [kind]
    exact .steady (.located _ _ _ _)
  next =>
    split
    next kind =>
      simp only [kind]
      exact (v.parameterName _).bind fun _ => (v.lowerRole _ _).before fun _ =>
        .located _ _ _ _
    next kind =>
      simp only [kind]
      refine (v.parameterName _).bind fun _ => ?_
      cases (Cst.mk head children).part? "value" with
      | none => exact .steady (.located _ _ _ _)
      | some value => exact (v.follows value).before fun _ => .located _ _ _ _
    next kind =>
      simp only [kind]
      exact (v.parameterName _).before fun _ => .located _ _ _ _
    next kind =>
      simp only [kind]
      exact (v.parameterName _).before fun _ => .located _ _ _ _
    next kind =>
      simp only [kind]
      exact (v.parameterName _).before fun _ => .located _ _ _ _
    next =>
      simp only
      exact (v.parameterName _).before fun _ => .throw _

theorem parameterList (v : Comparison) (cs : List Cst) :
    Follows v.rule (v.plain.parameterList cs) (v.ruled.parameterList cs)
      (ofParameterList v.origin v.inside cs) := by
  cases cs with
  | nil => exact .steady (.pure [])
  | cons c cs =>
    unfold Context.parameterList ofParameterList
    split
    next => exact (v.parameter c).bind fun _ => (v.parameterList cs).before fun _ => .pure _
    next => exact v.parameterList cs

end

theorem parameterOrLocal (locals : List (Nat × Nat × Kind)) (c : Cst) :
    Follows v.rule (v.plain.parameterOrLocal locals c) (v.ruled.parameterOrLocal locals c)
      (ofParameterOrLocal v.origin v.inside locals c) := by
  unfold Context.parameterOrLocal ofParameterOrLocal
  split
  next => exact .binding fun _ => .steady (.located _ _ _ _)
  next => exact v.parameter c

theorem parametersOrLocals (locals : List (Nat × Nat × Kind)) (cs : List Cst) :
    Follows v.rule (v.plain.parametersOrLocals locals cs) (v.ruled.parametersOrLocals locals cs)
      (cs.flatMap (ofParameterOrLocal v.origin v.inside locals)) := by
  induction cs with
  | nil => exact .steady (.pure [])
  | cons c cs ih => exact (v.parameterOrLocal locals c).bind fun _ => ih.before fun _ => .pure _

theorem parameters (part : Option Cst) :
    Follows v.rule (v.plain.parameters part) (v.ruled.parameters part)
      (ofParameters v.origin v.inside part) := by
  cases part with
  | none => exact .steady (.pure _)
  | some c => exact (v.parametersOrLocals _ _).before fun _ => .located _ _ _ _

theorem withBlock (c : Cst) (send : Node) (block : Cst) :
    Follows v.rule (v.plain.withBlock c send block) (v.ruled.withBlock c send block)
      [.scope true (ofBlock v.origin v.inside block)] := by
  refine Follows.before (Follows.withScope ?_) fun _ => .located _ _ _ _
  exact (v.parameters _).bind fun _ => (v.bodyOf _ _).before fun _ => .pure _

theorem lambda (c : Cst) :
    Follows v.rule (v.plain.lambda c) (v.ruled.lambda c)
      [.scope true (ofLambdaParts v.origin v.inside c)] := by
  refine Follows.before (Follows.withScope ?_) fun _ => .located _ _ _ _
  refine (v.parameters _).bind fun args => ?_
  cases c.part? "body" with
  | none => exact .steady ((Steady.pure _).bind fun _ => .pure _)
  | some body => exact (v.bodyOf body _).before fun _ => .pure _

theorem callArguments (part : Option Cst) :
    Follows v.rule (v.plain.callArguments part) (v.ruled.callArguments part)
      (ofCallArguments v.inside part) := by
  cases part with
  | none => exact .steady (.pure [])
  | some c => exact v.arguments _

theorem send (c : Cst) :
    Follows v.rule (v.plain.send c) (v.ruled.send c) (ofSend v.inside c) := by
  refine (v.lowerOptional _).bind fun receiver => (v.callArguments _).before fun args => ?_
  refine (Steady.span _ _ _).bind fun location => ?_
  split
  next => exact (Steady.callOperator _ _).bind fun _ => .pure _
  next =>
    split
    next => exact .pure _
    next =>
      exact (Steady.text _ _).bind fun _ => (Steady.callOperator _ _).bind fun _ => .pure _

theorem call (c : Cst) :
    Follows v.rule (v.plain.call c) (v.ruled.call c) (ofCall v.origin v.inside c) := by
  refine (v.send c).bind fun send => ?_
  cases c.part? "block" with
  | none => exact .steady (.pure _)
  | some block => exact v.withBlock c send block

theorem elementReference (c : Cst) :
    Follows v.rule (v.plain.elementReference c) (v.ruled.elementReference c)
      (ofElementReference v.inside c) := by
  unfold Context.elementReference ofElementReference
  cases c.part? "object" with
  | none => exact .fails (fun _ => rfl) fun _ => rfl
  | some object =>
    exact (v.indexArguments _ _).bind fun _ => (v.follows object).before fun _ =>
      .located _ _ _ _

theorem binary (c : Cst) :
    Follows v.rule (v.plain.binary c) (v.ruled.binary c) (ofRoles v.inside c "left" "right") := by
  refine (v.lowerRole c "left").bind fun left => .after (.operatorText _ _) fun operator => ?_
  refine (v.lowerRole c "right").before fun right => ?_
  split
  next => exact .located _ _ _ _
  next =>
    split
    next => exact .located _ _ _ _
    next => exact .located _ _ _ _

theorem unary (c : Cst) :
    Follows v.rule (v.plain.unary c) (v.ruled.unary c)
      (ofPart v.inside (c.part? "operand" <|> c.plainChildren.getLast?)) := by
  refine .after (.operatorText _ _) fun operator => ?_
  unfold Context.operand
  cases c.part? "operand" <|> c.plainChildren.getLast? with
  | none => exact .fails (fun _ => rfl) fun _ => rfl
  | some operand =>
    refine .afterPure ?_
    have send (name : String) : Follows v.rule (v.plain.operatorSend c name operand)
        (v.ruled.operatorSend c name operand) (v.inside operand) :=
      (v.follows operand).before fun _ => .located _ _ _ _
    split
    next => exact send _
    next =>
      split
      next => exact (v.follows operand).before fun _ => .located _ _ _ _
      next =>
        split
        next => exact (v.follows operand).before fun _ => .located _ _ _ _
        next =>
          split
          next => exact send _
          next => exact send _

-- ============================================================================
-- Control structures
-- ============================================================================

/-- A condition and two branches, lowered one after the other. -/
theorem branches (c : Cst) (first second : String)
    {next : Node → Option Node → Option Node → Lowering Node}
    (steady : ∀ condition n m, Steady (next condition n m)) :
    Follows v.rule
      (do
        let condition ← v.plain.lowerRole c "condition"
        let n ← v.plain.clause (c.part? first)
        let m ← v.plain.clause (c.part? second)
        next condition n m)
      (do
        let condition ← v.ruled.lowerRole c "condition"
        let n ← v.ruled.clause (c.part? first)
        let m ← v.ruled.clause (c.part? second)
        next condition n m)
      (ofBranches v.inside c first second) := by
  unfold ofBranches
  rw [List.append_assoc]
  exact (v.lowerRole _ _).bind fun _ => (v.clause _).bind fun _ => (v.clause _).before fun _ =>
    steady _ _ _

/-- A condition behind the part that depends on it. -/
theorem modifier (c : Cst) {next : Node → Node → Lowering Node}
    (steady : ∀ body condition, Steady (next body condition)) :
    Follows v.rule
      (do
        let body ← v.plain.lowerRole c "body"
        let condition ← v.plain.lowerRole c "condition"
        next body condition)
      (do
        let body ← v.ruled.lowerRole c "body"
        let condition ← v.ruled.lowerRole c "condition"
        next body condition)
      (ofRoles v.inside c "body" "condition") :=
  (v.lowerRole _ _).bind fun _ => (v.lowerRole _ _).before fun _ => steady _ _

theorem ifStatement (c : Cst) :
    Follows v.rule (v.plain.ifStatement c) (v.ruled.ifStatement c)
      (ofBranches v.inside c "consequence" "alternative") :=
  v.branches c _ _ fun _ _ _ => .located _ _ _ _

theorem unlessStatement (c : Cst) :
    Follows v.rule (v.plain.unlessStatement c) (v.ruled.unlessStatement c)
      (ofBranches v.inside c "alternative" "consequence") :=
  v.branches c _ _ fun _ _ _ => .located _ _ _ _

theorem ifModifier (c : Cst) :
    Follows v.rule (v.plain.ifModifier c) (v.ruled.ifModifier c)
      (ofRoles v.inside c "body" "condition") :=
  v.modifier c fun _ _ => .located _ _ _ _

theorem unlessModifier (c : Cst) :
    Follows v.rule (v.plain.unlessModifier c) (v.ruled.unlessModifier c)
      (ofRoles v.inside c "body" "condition") :=
  v.modifier c fun _ _ => .located _ _ _ _

theorem loop (type : String) (c : Cst) :
    Follows v.rule (v.plain.loop type c) (v.ruled.loop type c) (ofLoop v.inside c) :=
  (v.lowerRole _ _).bind fun _ => (v.clause _).before fun _ => .located _ _ _ _

theorem loopModifier (type : String) (c : Cst) :
    Follows v.rule (v.plain.loopModifier type c) (v.ruled.loopModifier type c)
      (ofRoles v.inside c "body" "condition") := by
  unfold Context.loopModifier ofRoles
  cases c.part? "body" with
  | none => exact .fails (fun _ => rfl) fun _ => rfl
  | some part =>
    exact .afterPure ((v.follows part).bind fun _ => (v.lowerRole _ _).before fun _ =>
      .located _ _ _ _)

theorem caseStatement (c : Cst) :
    Follows v.rule (v.plain.caseStatement c) (v.ruled.caseStatement c) (ofCase v.inside c) := by
  unfold ofCase
  rw [List.append_assoc]
  exact (v.lowerAll _).bind fun _ => (v.lowerOptional _).bind fun _ =>
    (v.clause _).before fun _ => .located _ _ _ _

theorem whenClause (c : Cst) :
    Follows v.rule (v.plain.whenClause c) (v.ruled.whenClause c) (ofWhen v.inside c) :=
  (v.lowerAll _).bind fun _ => (v.clause _).before fun _ => .located _ _ _ _

theorem matchPattern (c : Cst) :
    Follows v.rule (v.plain.matchPattern c) (v.ruled.matchPattern c)
      (ofMatchPattern v.inside c) := by
  unfold Context.matchPattern ofMatchPattern
  match c.plainChildren with
  | [] => exact .fails (fun _ => rfl) fun _ => rfl
  | [inner] => exact v.follows inner
  | _ :: _ :: _ => exact .fails (fun _ => rfl) fun _ => rfl

theorem jumpValues (cs : List Cst) :
    Follows v.rule (v.plain.jumpValues cs) (v.ruled.jumpValues cs)
      (cs.flatMap (ofJumpValue v.inside)) := by
  induction cs with
  | nil => exact .steady (.pure [])
  | cons c cs ih =>
    unfold Context.jumpValues
    rw [List.flatMap_cons]
    unfold ofJumpValue
    split
    next => exact (v.arguments _).bind fun _ => ih.before fun _ => .pure _
    next =>
      exact (v.follows c).bind fun _ => .after (.pure _) fun _ => ih.before fun _ => .pure _

theorem jump (type : String) (c : Cst) :
    Follows v.rule (v.plain.jump type c) (v.ruled.jump type c)
      (c.plainChildren.flatMap (ofJumpValue v.inside)) :=
  (v.jumpValues _).before fun _ => .located _ _ _ _

-- ============================================================================
-- Definitions
-- ============================================================================

theorem methodParts (c : Cst) (otherRoles : List String) :
    Follows v.rule (v.plain.methodParts c otherRoles) (v.ruled.methodParts c otherRoles)
      [.scope false (ofMethodParts v.origin v.inside c otherRoles)] :=
  .withScope ((v.parameters _).bind fun _ => (v.bodyOf _ _).before fun _ => .pure _)

theorem method (c : Cst) :
    Follows v.rule (v.plain.method c) (v.ruled.method c)
      [.scope false (ofMethodParts v.origin v.inside c ["name", "parameters"])] :=
  .after (.textOfRole _ _ _) fun _ => (v.methodParts _ _).before fun _ => .located _ _ _ _

theorem singletonMethod (c : Cst) :
    Follows v.rule (v.plain.singletonMethod c) (v.ruled.singletonMethod c)
      (ofSingletonMethod v.origin v.inside c) :=
  (v.lowerRole _ _).bind fun _ => .after (.textOfRole _ _ _) fun _ =>
    (v.methodParts _ _).before fun _ => .located _ _ _ _

theorem superclass (part : Option Cst) :
    Follows v.rule (v.plain.superclass part) (v.ruled.superclass part)
      (ofSuperclass v.inside part) := by
  cases part with
  | none => exact .steady (.pure none)
  | some c => exact v.lowerOptional _

theorem classDefinition (c : Cst) :
    Follows v.rule (v.plain.classDefinition c) (v.ruled.classDefinition c)
      (ofClass v.inside c) := by
  unfold ofClass
  rw [List.append_assoc]
  exact (v.lowerRole _ _).bind fun _ => (v.superclass _).bind fun _ =>
    (v.bodyOf _ _).withScope.before fun _ => .located _ _ _ _

theorem moduleDefinition (c : Cst) :
    Follows v.rule (v.plain.moduleDefinition c) (v.ruled.moduleDefinition c)
      (ofBodyBehind v.inside "name" c) :=
  (v.lowerRole _ _).bind fun _ => (v.bodyOf _ _).withScope.before fun _ => .located _ _ _ _

theorem singletonClass (c : Cst) :
    Follows v.rule (v.plain.singletonClass c) (v.ruled.singletonClass c)
      (ofBodyBehind v.inside "value" c) :=
  (v.lowerRole _ _).bind fun _ => (v.bodyOf _ _).withScope.before fun _ => .located _ _ _ _

-- ============================================================================
-- All constructs
-- ============================================================================

theorem identifier (c : Cst) :
    Follows v.rule (v.plain.identifier c) (v.ruled.identifierBy v.rule c)
      [.reads (v.origin.nameOf c) c.head.start] := by
  unfold Context.identifier Context.identifierBy Origin.nameOf Origin.text Origin.textBetween
  cases slice? v.origin.chars c.head.start c.head.stop with
  | none => exact .fails (fun _ => rfl) fun _ => rfl
  | some cs => exact .afterPure (.lookup (.located _ _ _ _) (.located _ _ _ _))

/-- Every way to lower a construct follows its mentions. -/
theorem handler {c : Cst} {handler : Context → Cst → Lowering Node}
    (found : Context.handler? c.kind = some handler) :
    Follows v.rule (handler v.plain c) (Context.handlerBy v.rule c.kind handler v.ruled c)
      (ofConstruct v.origin v.inside c) := by
  unfold ofConstruct Context.handlerBy
  generalize c.kind = kind at found ⊢
  unfold Context.handler? at found
  split at found <;> cases found
  · exact v.integer c
  · exact v.float c
  · exact .steady (.located _ _ _ _)
  · exact .steady (.located _ _ _ _)
  · exact .steady (.located _ _ _ _)
  · exact .steady (.located _ _ _ _)
  · exact v.stringNode _ _ _ c
  · exact v.stringNode _ _ _ c
  · exact v.collection _ c
  · exact v.character c
  · exact .steady (.symbolNode _ _ _ _)
  · exact .steady (.symbolNode _ _ _ _)
  · exact v.stringNode _ _ _ c
  · exact v.stringNode _ _ _ c
  · exact v.regex c
  · exact v.collection _ c
  · exact v.collection _ c
  · exact v.collection _ c
  · exact v.collection _ c
  · exact v.pair c
  · exact v.collection _ c
  · exact v.collection _ c
  · exact v.blockArgument c
  · exact .steady (.located _ _ _ _)
  · exact v.range c
  · exact v.statementGroup _ c
  · exact v.statementGroup _ c
  · exact v.identifier c
  · exact .steady (.symbolNode _ _ _ _)
  · exact .steady (.symbolNode _ _ _ _)
  · exact .steady (.symbolNode _ _ _ _)
  · exact v.constant c
  · exact .steady (.located _ _ _ _)
  · exact v.scopeResolution c
  · exact v.assignment c
  · exact v.operatorAssignment c
  · exact v.call c
  · exact v.lambda c
  · exact v.elementReference c
  · exact v.binary c
  · exact v.unary c
  · exact v.ifStatement c
  · exact v.ifStatement c
  · exact v.unlessStatement c
  · exact v.ifStatement c
  · exact v.ifModifier c
  · exact v.unlessModifier c
  · exact v.loop _ c
  · exact v.loop _ c
  · exact v.loopModifier _ c
  · exact v.loopModifier _ c
  · exact v.caseStatement c
  · exact v.whenClause c
  · exact v.matchPattern c
  · exact v.jump _ c
  · exact v.jump _ c
  · exact v.jump _ c
  · exact v.jump _ c
  · exact .steady (.located _ _ _ _)
  · exact .steady (.located _ _ _ _)
  · exact v.method c
  · exact v.singletonMethod c
  · exact v.classDefinition c
  · exact v.moduleDefinition c
  · exact v.singletonClass c

end Comparison

/-- The descent follows the mentions of a construct, whatever its budget. -/
theorem follows_lower (rule : String → Nat → Bool) (o : Origin) (limit : Int) (room : Nat)
    (c : Cst) :
    Follows rule (lower o limit room c) (lowerBy rule o limit room c) (mentions o room c) := by
  induction room generalizing c with
  | zero =>
    unfold lower lowerBy
    split
    next => exact .fails (fun _ => rfl) fun _ => rfl
    next =>
      cases Context.handler? c.kind with
      | none => exact .fails (fun _ => rfl) fun _ => rfl
      | some handler => exact .fails (fun _ => rfl) fun _ => rfl
  | succ room ih =>
    unfold lower lowerBy
    split
    next => exact .fails (fun _ => rfl) fun _ => rfl
    next =>
      cases found : Context.handler? c.kind with
      | none => exact .fails (fun _ => rfl) fun _ => rfl
      | some handler =>
        exact Comparison.handler
          ⟨rule, o, lower o limit room, lowerBy rule o limit room, mentions o room, ih⟩ found

/-- The descent with a budget, side by side with the one by the rule. -/
def descent (rule : String → Nat → Bool) (o : Origin) (limit : Int) (room : Nat) : Comparison where
  rule := rule
  origin := o
  lower := lower o limit room
  lowerRuled := lowerBy rule o limit room
  inside := mentions o room
  follows := follows_lower rule o limit room

end RubyPattern.Ruby
