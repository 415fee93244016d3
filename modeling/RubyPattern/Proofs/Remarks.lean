/-
  RubyPattern.Proofs.Remarks

  Remarks are invisible. A remark is a comment or an empty statement without a
  role; it may stand among the children of any construct. Every function of
  lowering gives the same for a construct and for the construct stripped of all
  remarks inside it, from every state of the scopes: it reaches for children in
  roles, for children of interest or for punctuation, and remarks are neither.
-/
import RubyPattern.Ruby.Parser

namespace RubyPattern.Ruby

namespace Cst

-- ============================================================================
-- Constructs with and without remarks
-- ============================================================================

/-- A comment or an empty statement without a role. -/
def isRemark (c : Cst) : Bool :=
  c.head.named && c.kind.isIgnored && c.head.field.isNone

mutual

/-- The second construct is the first one with remarks inserted among the
    children, at any depth. -/
inductive Remarked : Cst → Cst → Prop
  | mk {head : Head} {cs ds : List Cst} (children : RemarkedAll cs ds) :
      Remarked (.mk head cs) (.mk head ds)

/-- The second list is the first one with remarks inserted. -/
inductive RemarkedAll : List Cst → List Cst → Prop
  | nil : RemarkedAll [] []
  | keep {c d : Cst} {cs ds : List Cst} (first : Remarked c d) (others : RemarkedAll cs ds) :
      RemarkedAll (c :: cs) (d :: ds)
  | insert {r : Cst} {cs ds : List Cst} (remark : r.isRemark = true)
      (others : RemarkedAll cs ds) : RemarkedAll cs (r :: ds)

end

mutual

/-- A construct without the remarks inside it. -/
def stripped : Cst → Cst
  | .mk head children => .mk head (strippedAll children)

/-- Constructs without remarks among them or inside them. -/
def strippedAll : List Cst → List Cst
  | [] => []
  | c :: cs => if c.isRemark then strippedAll cs else stripped c :: strippedAll cs

end

@[simp] theorem head_stripped (c : Cst) : c.stripped.head = c.head := by
  cases c
  rfl

@[simp] theorem kind_stripped (c : Cst) : c.stripped.kind = c.kind := by
  simp [kind]

@[simp] theorem key_stripped (c : Cst) : c.stripped.key = c.key := by
  simp [key]

@[simp] theorem isPlain_stripped (c : Cst) : c.stripped.isPlain = c.isPlain := by
  simp [isPlain]

@[simp] theorem isRemark_stripped (c : Cst) : c.stripped.isRemark = c.isRemark := by
  simp [isRemark]

theorem strippedAll_eq (cs : List Cst) :
    strippedAll cs = (cs.map stripped).filter fun c => !c.isRemark := by
  induction cs with
  | nil => rfl
  | cons c cs ih =>
    rw [strippedAll]
    cases here : c.isRemark <;> simp [here, ih]

@[simp] theorem children_stripped (c : Cst) :
    c.stripped.children = (c.children.map stripped).filter fun child => !child.isRemark := by
  cases c
  exact strippedAll_eq _

mutual

/-- Inserted remarks are stripped with the others. -/
theorem Remarked.stripped_eq {c d : Cst} (h : c.Remarked d) : c.stripped = d.stripped := by
  cases h with
  | mk children => rw [stripped, stripped, children.strippedAll_eq]

theorem RemarkedAll.strippedAll_eq {cs ds : List Cst} (h : RemarkedAll cs ds) :
    strippedAll cs = strippedAll ds := by
  cases h with
  | nil => rfl
  | @keep c d _ _ first others =>
    have same : c.isRemark = d.isRemark := by
      cases first
      rfl
    rw [strippedAll, strippedAll, first.stripped_eq, others.strippedAll_eq, same]
  | insert remark others => rw [others.strippedAll_eq, strippedAll, if_pos remark]

end

-- ============================================================================
-- Children of a stripped construct
-- ============================================================================

theorem filter_map_stripped {test : Cst → Bool} (cs : List Cst)
    (stable : ∀ child, test child.stripped = test child) :
    (cs.map stripped).filter test = (cs.filter test).map stripped := by
  rw [List.filter_map]
  exact congrArg (fun test => (cs.filter test).map stripped) (funext stable)

theorem find?_map_stripped {test : Cst → Bool} (cs : List Cst)
    (stable : ∀ child, test child.stripped = test child) :
    (cs.map stripped).find? test = (cs.find? test).map stripped := by
  rw [List.find?_map]
  exact congrArg (fun test => (cs.find? test).map stripped) (funext stable)

/-- A child that passes a test which no remark passes is found as before. -/
theorem find?_children_stripped {test : Cst → Bool} (c : Cst)
    (stable : ∀ child, test child.stripped = test child)
    (sees : ∀ child, child.isRemark = true → test child = false) :
    c.stripped.children.find? test = (c.children.find? test).map stripped := by
  have same : (fun child => decide ((!child.isRemark) = true ∧ test child = true)) = test := by
    funext child
    cases remark : child.isRemark <;> simp [remark, sees]
  rw [children_stripped, List.find?_filter, same, find?_map_stripped _ stable]

theorem filter_children_stripped {test : Cst → Bool} (c : Cst)
    (stable : ∀ child, test child.stripped = test child)
    (sees : ∀ child, child.isRemark = true → test child = false) :
    c.stripped.children.filter test = (c.children.filter test).map stripped := by
  have same : (fun child => test child && !child.isRemark) = test := by
    funext child
    cases remark : child.isRemark <;> simp [remark, sees]
  rw [children_stripped, List.filter_filter, same, filter_map_stripped _ stable]

section Remark

variable {r : Cst} (remark : r.isRemark = true)
include remark

theorem named_of_isRemark : r.head.named = true := by
  simp only [isRemark, Bool.and_eq_true] at remark
  exact remark.1.1

theorem kind_of_isRemark : r.kind = .comment ∨ r.kind = .emptyStatement := by
  simp only [isRemark, Bool.and_eq_true, Kind.isIgnored] at remark
  obtain ⟨⟨-, ignored⟩, -⟩ := remark
  split at ignored
  next kind => exact .inl kind
  next kind => exact .inr kind
  next => cases ignored

theorem field_of_isRemark : r.head.field = none := by
  simp only [isRemark, Bool.and_eq_true, Option.isNone_iff_eq_none] at remark
  exact remark.2

theorem isPlain_of_isRemark : r.isPlain = false := by
  rcases kind_of_isRemark remark with kind | kind <;> simp [isPlain, kind, Kind.isIgnored]

end Remark

@[simp] theorem plainChildren_stripped (c : Cst) :
    c.stripped.plainChildren = c.plainChildren.map stripped :=
  filter_children_stripped c isPlain_stripped fun _ remark => isPlain_of_isRemark remark

@[simp] theorem inRole_stripped (c : Cst) (role : String) :
    c.stripped.inRole role = (c.inRole role).map stripped :=
  filter_children_stripped c (by simp) fun _ remark => by simp [field_of_isRemark remark]

@[simp] theorem part?_stripped (c : Cst) (role : String) :
    c.stripped.part? role = (c.part? role).map stripped :=
  find?_children_stripped c (by simp) fun _ remark => by simp [field_of_isRemark remark]

theorem flatten_filter_isRemark (cs : List Cst) :
    flatten (cs.filter fun c => !c.isRemark) = flatten cs := by
  induction cs with
  | nil => rfl
  | cons c cs ih =>
    cases remark : c.isRemark with
    | true => simp [remark, flatten, isPlain_of_isRemark remark, ih]
    | false => simp [remark, flatten, ih]

mutual

@[simp] theorem statements_stripped :
    ∀ c : Cst, c.stripped.statements = c.statements.map stripped
  | .mk head children => by
    rw [stripped, statements, statements, strippedAll_eq, flatten_filter_isRemark,
      flatten_map_stripped]

theorem flatten_map_stripped :
    ∀ cs : List Cst, flatten (cs.map stripped) = (flatten cs).map stripped
  | [] => rfl
  | c :: cs => by
    rw [List.map_cons, flatten, flatten, isPlain_stripped, kind_stripped, flatten_map_stripped cs]
    split
    next =>
      split
      next => rw [statements_stripped c, List.map_append]
      next => rfl
    next => rfl

end

/-- Keeping some of the children keeps the statements among them. -/
theorem flatten_filter_children_stripped {keep : Cst → Bool} (c : Cst)
    (stable : ∀ child, keep child.stripped = keep child) :
    flatten (c.stripped.children.filter keep) =
      (flatten (c.children.filter keep)).map stripped := by
  have swap : c.stripped.children.filter keep =
      ((c.children.map stripped).filter keep).filter fun child => !child.isRemark := by
    rw [children_stripped, List.filter_filter, List.filter_filter]
    simp only [Bool.and_comm]
  rw [swap, flatten_filter_isRemark, filter_map_stripped _ stable, flatten_map_stripped]

end Cst

-- ============================================================================
-- Parts
-- ============================================================================

namespace Origin

variable (o : Origin) (c d : Cst)

@[simp] theorem unsupported_stripped : o.unsupported c.stripped = o.unsupported c := by
  simp [unsupported]

@[simp] theorem text_stripped : o.text c.stripped = o.text c := by
  simp [text]

@[simp] theorem span_stripped : o.span c.stripped d.stripped = o.span c d := by
  simp [span]

@[simp] theorem located_stripped (type : String) (children : List Value) :
    o.located c.stripped type children = o.located c type children := by
  simp [located]

end Origin

/-- A step on constructs that does not see the remarks inside them. -/
def Blind {α : Type} (step : Cst → Lowering α) : Prop :=
  ∀ c : Cst, step c.stripped = step c

namespace Context

variable {w : Context}

theorem blind_textOfRole (role : String) : Blind (w.textOfRole · role) := by
  intro c
  simp only [textOfRole, Cst.part?_stripped]
  cases c.part? role with
  | none => rfl
  | some part => simp [requirePart]

section Parts

variable (hw : Blind w.lower)
include hw

theorem blind_lowerRole (role : String) : Blind (w.lowerRole · role) := by
  intro c
  simp only [lowerRole, Cst.part?_stripped]
  cases c.part? role with
  | none => rfl
  | some part => simp [requirePart, hw part]

theorem lowerOptional_stripped (part : Option Cst) :
    w.lowerOptional (part.map Cst.stripped) = w.lowerOptional part := by
  cases part with
  | none => rfl
  | some c => simp [lowerOptional, hw c]

theorem lowerAll_stripped (cs : List Cst) :
    w.lowerAll (cs.map Cst.stripped) = w.lowerAll cs := by
  induction cs with
  | nil => rfl
  | cons c cs ih => simp [lowerAll, hw c, ih]

theorem compound_stripped (statements : List Cst) :
    w.compound (statements.map Cst.stripped) = w.compound statements := by
  simp only [compound, lowerAll_stripped hw, List.head?_map, List.getLast?_map]
  cases statements.head? <;> cases statements.getLast? <;> simp

theorem clause_stripped (part : Option Cst) :
    w.clause (part.map Cst.stripped) = w.clause part := by
  cases part with
  | none => rfl
  | some c => simp [clause, compound_stripped hw, hw c]

theorem blind_bodyOf (otherRoles : List String) : Blind (w.bodyOf · otherRoles) := by
  intro c
  have taken : (otherRoles.flatMap c.stripped.inRole).map Cst.key =
      (otherRoles.flatMap c.inRole).map Cst.key := by
    simp [List.map_flatMap, Function.comp_def]
  simp only [bodyOf, Cst.part?_stripped]
  cases c.part? "body" with
  | some body => exact clause_stripped hw (some body)
  | none =>
    simp only [Option.map_none, taken]
    rw [Cst.flatten_filter_children_stripped c (by simp), compound_stripped hw]

end Parts

theorem blind_operatorText : Blind w.operatorText := by
  intro c
  have punctuation : c.stripped.children.find? (fun child => !child.head.named) =
      (c.children.find? fun child => !child.head.named).map Cst.stripped :=
    Cst.find?_children_stripped c (by simp) fun _ remark => by
      simp [Cst.named_of_isRemark remark]
  simp only [operatorText, Cst.part?_stripped, punctuation, Origin.unsupported_stripped]
  cases c.part? "operator" with
  | some operator => exact w.text_stripped operator
  | none =>
    cases c.children.find? fun child => !child.head.named with
    | some child => exact w.text_stripped child
    | none => rfl

-- ============================================================================
-- Literals
-- ============================================================================

theorem blind_keyword (type : String) : Blind (w.keyword type) := by
  intro c
  simp [keyword]

theorem blind_symbolNode (type : String) (dropped : Nat) : Blind (w.symbolNode type dropped) := by
  intro c
  simp [symbolNode]

theorem blind_integer : Blind w.integer := by
  intro c
  simp [integer]

theorem blind_float : Blind w.float := by
  intro c
  simp [float]

theorem blind_character : Blind w.character := by
  intro c
  simp [character]

theorem blind_identifier : Blind w.identifier := by
  intro c
  simp [identifier]

theorem blind_constant : Blind w.constant := by
  intro c
  simp [constant]

section Literals

variable (hw : Blind w.lower)
include hw

theorem blind_collection (type : String) : Blind (w.collection type) := by
  intro c
  simp [collection, lowerAll_stripped hw]

theorem blind_statementGroup (type : String) : Blind (w.statementGroup type) := by
  intro c
  simp [statementGroup, lowerAll_stripped hw]

theorem blind_piece : Blind w.piece := by
  intro c
  simp [piece, lowerAll_stripped hw]

theorem pieces_stripped (cs : List Cst) : w.pieces (cs.map Cst.stripped) = w.pieces cs := by
  induction cs with
  | nil => rfl
  | cons c cs ih => simp [pieces, blind_piece hw c, ih]

theorem blind_stringNode (plain dynamic : String) (wrap : String → Value) :
    Blind (w.stringNode plain dynamic wrap) := by
  intro c
  simp [stringNode, stringPieces, pieces_stripped hw]

theorem blind_regex : Blind w.regex := by
  intro c
  simp [regex, stringPieces, pieces_stripped hw]

theorem blind_pair : Blind w.pair := by
  intro c
  simp only [pair, Cst.part?_stripped]
  cases c.part? "key" with
  | none => simp
  | some key => cases c.part? "value" <;> simp [hw key, hw _]

theorem blind_blockArgument : Blind w.blockArgument := by
  intro c
  simp [blockArgument, lowerOptional_stripped hw]

theorem blind_range : Blind w.range := by
  intro c
  have dots : isOpenRange c.stripped = isOpenRange c := by
    rw [isOpenRange, Cst.find?_children_stripped c (by simp) fun r remark => ?_]
    · simp [isOpenRange, Option.any_map]
    · rcases Cst.kind_of_isRemark remark with kind | kind <;> simp [kind]
  simp [range, dots, lowerOptional_stripped hw]

theorem pathScope_stripped (part : Option Cst) :
    w.pathScope (part.map Cst.stripped) = w.pathScope part := by
  cases part with
  | none => rfl
  | some c => exact hw c

theorem blind_scopeResolution : Blind w.scopeResolution := by
  intro c
  simp only [scopeResolution, Cst.part?_stripped, pathScope_stripped hw]
  cases c.part? "name" <;> simp

end Literals

-- ============================================================================
-- Arguments and assignments
-- ============================================================================

theorem blind_callOperator : Blind w.callOperator := by
  intro c
  simp only [callOperator, Cst.part?_stripped]
  cases c.part? "operator" with
  | some operator => exact w.text_stripped operator
  | none =>
    simp only [Option.map_none]
    rw [Cst.find?_children_stripped c (by simp) fun r remark => ?_]
    · simp [Function.comp_def]
    · rcases Cst.kind_of_isRemark remark with kind | kind <;> simp [kind]

section Assignments

variable (hw : Blind w.lower)
include hw

theorem positional_stripped (cs : List Cst) :
    w.positional (cs.map Cst.stripped) = w.positional cs := by
  induction cs with
  | nil => rfl
  | cons c cs ih => simp [positional, isKeyword, hw c, ih]

theorem arguments_stripped (items : List Cst) :
    w.arguments (items.map Cst.stripped) = w.arguments items := by
  have keywords : (items.map Cst.stripped).filter isKeyword =
      (items.filter isKeyword).map Cst.stripped :=
    Cst.filter_map_stripped items (by simp [isKeyword])
  simp only [arguments, positional_stripped hw, keywords, List.head?_map, List.getLast?_map,
    lowerAll_stripped hw]
  cases (items.filter isKeyword).head? <;> cases (items.filter isKeyword).getLast? <;> simp

theorem indexArguments_stripped (c object : Cst) :
    w.indexArguments c.stripped object.stripped = w.indexArguments c object := by
  have others : (c.plainChildren.map Cst.stripped).filter (fun child => child.key != object.key) =
      (c.plainChildren.filter fun child => child.key != object.key).map Cst.stripped :=
    Cst.filter_map_stripped _ (by simp)
  simp only [indexArguments, Cst.plainChildren_stripped, Cst.key_stripped, others,
    arguments_stripped hw]

end Assignments

mutual

theorem target_stripped (hw : Blind w.lower) (keepsName : Bool) :
    ∀ c : Cst, w.target keepsName c.stripped = w.target keepsName c
  | .mk head children => by
    have whole : Cst.mk head (Cst.strippedAll children) = (Cst.mk head children).stripped := rfl
    rw [Cst.stripped, target, target, targets_strippedAll hw children, whole]
    split
    next => simp
    next => simp [blind_symbolNode _ _ _]
    next => simp [blind_symbolNode _ _ _]
    next => simp [blind_symbolNode _ _ _]
    next => simp
    next => simp [pathScope_stripped hw, blind_textOfRole _ _]
    next => simp [blind_lowerRole hw _ _, blind_textOfRole _ _, blind_callOperator _]
    next =>
      simp only [Cst.part?_stripped]
      cases (Cst.mk head children).part? "object" with
      | none => rfl
      | some object => simp [requirePart, indexArguments_stripped hw, hw object]
    next => simp
    next => simp
    next => simp
    next => simp

theorem targets_strippedAll (hw : Blind w.lower) :
    ∀ cs : List Cst, w.targets (Cst.strippedAll cs) = w.targets cs
  | [] => rfl
  | c :: cs => by
    rw [Cst.strippedAll, targets]
    split
    next remark => simp [Cst.isPlain_of_isRemark remark, targets_strippedAll hw cs]
    next =>
      rw [targets, Cst.isPlain_stripped, targets_strippedAll hw cs, target_stripped hw false c]

end

section Assignments

variable (hw : Blind w.lower)
include hw

theorem blind_assignedValue : Blind w.assignedValue := by
  intro c
  simp only [assignedValue, Cst.kind_stripped]
  split
  next => exact blind_collection hw "array" c
  next => simp [hw c]
  next => exact hw c

theorem blind_assignment : Blind w.assignment := by
  intro c
  simp only [assignment, Cst.part?_stripped]
  cases c.part? "left" <;> cases c.part? "right" <;>
    simp [target_stripped hw _ _, blind_assignedValue hw _]

theorem blind_operatorAssignment : Blind w.operatorAssignment := by
  intro c
  simp only [operatorAssignment, Cst.part?_stripped]
  cases c.part? "left" <;> cases c.part? "right" <;>
    simp [blind_operatorText c, target_stripped hw _ _, hw _]

end Assignments

-- ============================================================================
-- Parameters
-- ============================================================================

theorem blind_parameterName : Blind w.parameterName := by
  intro c
  simp only [parameterName, Cst.part?_stripped]
  cases c.part? "name" <;> simp

mutual

theorem parameter_stripped (hw : Blind w.lower) :
    ∀ c : Cst, w.parameter c.stripped = w.parameter c
  | .mk head children => by
    have whole : Cst.mk head (Cst.strippedAll children) = (Cst.mk head children).stripped := rfl
    rw [Cst.stripped, parameter, parameter, parameterList_strippedAll hw children, whole]
    split
    next => simp
    next => simp
    next => exact blind_keyword _ _
    next => exact blind_keyword _ _
    next =>
      rw [blind_parameterName]
      refine bind_congr fun name => ?_
      split
      next => simp [blind_lowerRole hw _ _]
      next =>
        simp only [Cst.part?_stripped]
        cases (Cst.mk head children).part? "value" <;> simp [hw _]
      next => simp
      next => simp
      next => simp
      next => simp

theorem parameterList_strippedAll (hw : Blind w.lower) :
    ∀ cs : List Cst, w.parameterList (Cst.strippedAll cs) = w.parameterList cs
  | [] => rfl
  | c :: cs => by
    rw [Cst.strippedAll, parameterList]
    split
    next remark => simp [Cst.isPlain_of_isRemark remark, parameterList_strippedAll hw cs]
    next =>
      rw [parameterList, Cst.isPlain_stripped, parameterList_strippedAll hw cs,
        parameter_stripped hw c]

end

section Calls

variable (hw : Blind w.lower)
include hw

theorem parametersOrLocals_stripped (locals : List (Nat × Nat × Kind)) (cs : List Cst) :
    w.parametersOrLocals locals (cs.map Cst.stripped) = w.parametersOrLocals locals cs := by
  induction cs with
  | nil => rfl
  | cons c cs ih => simp [parametersOrLocals, parameterOrLocal, parameter_stripped hw c, ih]

theorem parameters_stripped (part : Option Cst) :
    w.parameters (part.map Cst.stripped) = w.parameters part := by
  cases part with
  | none => rfl
  | some c => simp [parameters, parametersOrLocals_stripped hw, Function.comp_def]

-- ============================================================================
-- Calls
-- ============================================================================

theorem withBlock_stripped (c : Cst) (send : Node) (block : Cst) :
    w.withBlock c.stripped send block.stripped = w.withBlock c send block := by
  simp [withBlock, parameters_stripped hw, blind_bodyOf hw _ _]

theorem blind_lambda : Blind w.lambda := by
  intro c
  simp only [lambda, Cst.part?_stripped, parameters_stripped hw]
  cases c.part? "body" <;> simp [blind_bodyOf hw _ _]

theorem callArguments_stripped (part : Option Cst) :
    w.callArguments (part.map Cst.stripped) = w.callArguments part := by
  cases part with
  | none => rfl
  | some c => simp [callArguments, arguments_stripped hw]

theorem blind_send : Blind w.send := by
  intro c
  have last : ((((c.part? "arguments").map Cst.stripped <|> (c.part? "method").map Cst.stripped) <|>
      (c.part? "receiver").map Cst.stripped).getD c.stripped) =
      (((c.part? "arguments" <|> c.part? "method") <|> c.part? "receiver").getD c).stripped := by
    cases c.part? "arguments" <;> cases c.part? "method" <;> cases c.part? "receiver" <;> rfl
  simp only [send, Cst.part?_stripped, lowerOptional_stripped hw, callArguments_stripped hw, last,
    Origin.span_stripped, blind_callOperator c]
  cases c.part? "method" <;> simp

theorem blind_call : Blind w.call := by
  intro c
  simp only [call, blind_send hw c, Cst.part?_stripped]
  cases c.part? "block" <;> simp [withBlock_stripped hw]

theorem blind_elementReference : Blind w.elementReference := by
  intro c
  simp only [elementReference, Cst.part?_stripped]
  cases c.part? "object" <;> simp [indexArguments_stripped hw, hw _]

theorem blind_binary : Blind w.binary := by
  intro c
  simp [binary, blind_lowerRole hw _ _, blind_operatorText c]

theorem operatorSend_stripped (c : Cst) (operator : String) (operand : Cst) :
    w.operatorSend c.stripped operator operand.stripped = w.operatorSend c operator operand := by
  simp [operatorSend, hw operand]

theorem blind_unary : Blind w.unary := by
  intro c
  have operand : (c.stripped.part? "operand" <|> c.stripped.plainChildren.getLast?) =
      (c.part? "operand" <|> c.plainChildren.getLast?).map Cst.stripped := by
    cases h : c.part? "operand" <;> simp [h]
  simp only [unary, Context.operand, operand, blind_operatorText c]
  cases c.part? "operand" <|> c.plainChildren.getLast? with
  | none => rfl
  | some operand => simp [operatorSend_stripped hw, hw operand]

end Calls

-- ============================================================================
-- Control flow
-- ============================================================================

section Control

variable (hw : Blind w.lower)
include hw

theorem blind_ifStatement : Blind w.ifStatement := by
  intro c
  simp [ifStatement, blind_lowerRole hw _ _, clause_stripped hw]

theorem blind_unlessStatement : Blind w.unlessStatement := by
  intro c
  simp [unlessStatement, blind_lowerRole hw _ _, clause_stripped hw]

theorem blind_ifModifier : Blind w.ifModifier := by
  intro c
  simp [ifModifier, blind_lowerRole hw _ _]

theorem blind_unlessModifier : Blind w.unlessModifier := by
  intro c
  simp [unlessModifier, blind_lowerRole hw _ _]

theorem blind_loop (type : String) : Blind (w.loop type) := by
  intro c
  simp [loop, blind_lowerRole hw _ _, clause_stripped hw]

theorem blind_loopModifier (type : String) : Blind (w.loopModifier type) := by
  intro c
  simp only [loopModifier, Cst.part?_stripped]
  cases c.part? "body" with
  | none => rfl
  | some part => simp [requirePart, hw part, blind_lowerRole hw _ _]

theorem blind_caseStatement : Blind w.caseStatement := by
  intro c
  have branches : (c.plainChildren.map Cst.stripped).filter
      (fun child => child.kind == .whenClause) =
        (c.plainChildren.filter fun child => child.kind == .whenClause).map Cst.stripped :=
    Cst.filter_map_stripped _ (by simp)
  have otherwise : (c.plainChildren.map Cst.stripped).find?
      (fun child => child.kind == .elseClause) =
        (c.plainChildren.find? fun child => child.kind == .elseClause).map Cst.stripped :=
    Cst.find?_map_stripped _ (by simp)
  simp only [caseStatement, Cst.plainChildren_stripped, branches, otherwise, Cst.part?_stripped,
    lowerAll_stripped hw, lowerOptional_stripped hw, clause_stripped hw, Origin.located_stripped]

theorem blind_whenClause : Blind w.whenClause := by
  intro c
  simp [whenClause, lowerAll_stripped hw, clause_stripped hw]

theorem blind_matchPattern : Blind w.matchPattern := by
  intro c
  simp only [matchPattern, Cst.plainChildren_stripped, Origin.unsupported_stripped]
  match c.plainChildren with
  | [] => rfl
  | [inner] => exact hw inner
  | _ :: _ :: _ => rfl

theorem jumpValues_stripped (cs : List Cst) :
    w.jumpValues (cs.map Cst.stripped) = w.jumpValues cs := by
  induction cs with
  | nil => rfl
  | cons c cs ih => simp [jumpValues, arguments_stripped hw, hw c, ih]

theorem blind_jump (type : String) : Blind (w.jump type) := by
  intro c
  simp [jump, jumpValues_stripped hw]

-- ============================================================================
-- Definitions
-- ============================================================================

theorem blind_methodParts (otherRoles : List String) : Blind (w.methodParts · otherRoles) := by
  intro c
  simp [methodParts, parameters_stripped hw, blind_bodyOf hw _ _]

theorem blind_method : Blind w.method := by
  intro c
  simp [method, blind_textOfRole _ _, blind_methodParts hw _ _]

theorem blind_singletonMethod : Blind w.singletonMethod := by
  intro c
  simp [singletonMethod, blind_lowerRole hw _ _, blind_textOfRole _ _, blind_methodParts hw _ _]

theorem superclass_stripped (part : Option Cst) :
    w.superclass (part.map Cst.stripped) = w.superclass part := by
  cases part with
  | none => rfl
  | some c => simp [superclass, lowerOptional_stripped hw]

theorem blind_classDefinition : Blind w.classDefinition := by
  intro c
  simp [classDefinition, blind_lowerRole hw _ _, superclass_stripped hw, blind_bodyOf hw _ _]

theorem blind_moduleDefinition : Blind w.moduleDefinition := by
  intro c
  simp [moduleDefinition, blind_lowerRole hw _ _, blind_bodyOf hw _ _]

theorem blind_singletonClass : Blind w.singletonClass := by
  intro c
  simp [singletonClass, blind_lowerRole hw _ _, blind_bodyOf hw _ _]

-- ============================================================================
-- The descent
-- ============================================================================

/-- No handler sees the remarks inside its construct if the lowering of parts
    does not. -/
theorem blind_handler {kind : Kind} {handler : Context → Cst → Lowering Node}
    (h : handler? kind = some handler) : Blind (handler w) := by
  unfold handler? at h
  split at h <;> cases h
  · exact blind_integer
  · exact blind_float
  · exact blind_keyword _
  · exact blind_keyword _
  · exact blind_keyword _
  · exact blind_keyword _
  · exact blind_stringNode hw _ _ _
  · exact blind_stringNode hw _ _ _
  · exact blind_collection hw _
  · exact blind_character
  · exact blind_symbolNode _ _
  · exact blind_symbolNode _ _
  · exact blind_stringNode hw _ _ _
  · exact blind_stringNode hw _ _ _
  · exact blind_regex hw
  · exact blind_collection hw _
  · exact blind_collection hw _
  · exact blind_collection hw _
  · exact blind_collection hw _
  · exact blind_pair hw
  · exact blind_collection hw _
  · exact blind_collection hw _
  · exact blind_blockArgument hw
  · exact blind_keyword _
  · exact blind_range hw
  · exact blind_statementGroup hw _
  · exact blind_statementGroup hw _
  · exact blind_identifier
  · exact blind_symbolNode _ _
  · exact blind_symbolNode _ _
  · exact blind_symbolNode _ _
  · exact blind_constant
  · exact blind_keyword _
  · exact blind_scopeResolution hw
  · exact blind_assignment hw
  · exact blind_operatorAssignment hw
  · exact blind_call hw
  · exact blind_lambda hw
  · exact blind_elementReference hw
  · exact blind_binary hw
  · exact blind_unary hw
  · exact blind_ifStatement hw
  · exact blind_ifStatement hw
  · exact blind_unlessStatement hw
  · exact blind_ifStatement hw
  · exact blind_ifModifier hw
  · exact blind_unlessModifier hw
  · exact blind_loop hw _
  · exact blind_loop hw _
  · exact blind_loopModifier hw _
  · exact blind_loopModifier hw _
  · exact blind_caseStatement hw
  · exact blind_whenClause hw
  · exact blind_matchPattern hw
  · exact blind_jump hw _
  · exact blind_jump hw _
  · exact blind_jump hw _
  · exact blind_jump hw _
  · exact blind_keyword _
  · exact blind_keyword _
  · exact blind_method hw
  · exact blind_singletonMethod hw
  · exact blind_classDefinition hw
  · exact blind_moduleDefinition hw
  · exact blind_singletonClass hw

end Control

end Context

theorem blind_lower (o : Origin) (limit : Int) (room : Nat) : Blind (lower o limit room) := by
  induction room with
  | zero =>
    intro c
    simp only [lower, Cst.head_stripped, Cst.kind_stripped, Origin.unsupported_stripped]
  | succ room ih =>
    intro c
    simp only [lower, Cst.head_stripped, Cst.kind_stripped, Origin.unsupported_stripped]
    split
    next => rfl
    next =>
      split
      next => rfl
      next handler found =>
        exact Context.blind_handler (w := ⟨o, lower o limit room⟩) ih found c

namespace Parser

theorem lowerProgram_stripped (p : Parser) (source : String) (root : Cst) :
    p.lowerProgram source root.stripped = p.lowerProgram source root := by
  let w : Context := ⟨p.origin source, lower (p.origin source) p.maxDepth p.maxDepth.toNat⟩
  have blind : Blind w.lower := blind_lower _ _ _
  simp only [lowerProgram, Cst.statements_stripped]
  exact Context.compound_stripped blind root.statements

/-- A source whose concrete syntax has remarks inserted, among the children of
    any constructs and in any number, is parsed to the same tree with the same
    locations, or refused with the same fault. -/
theorem parse_eq_of_remarked {grammar grammar' : String → Option Cst} {source : String}
    {root root' : Cst} (read : grammar source = some root) (read' : grammar' source = some root')
    (remarked : root.Remarked root') (rubyVersion : String) (maxDepth : Int) :
    (Parser.mk grammar' rubyVersion maxDepth).parse source =
      (Parser.mk grammar rubyVersion maxDepth).parse source := by
  have lowered : (Parser.mk grammar' rubyVersion maxDepth).lowerProgram source root' =
      (Parser.mk grammar rubyVersion maxDepth).lowerProgram source root := by
    rw [← lowerProgram_stripped _ _ root, ← lowerProgram_stripped _ _ root', remarked.stripped_eq]
    rfl
  have head : root'.head = root.head := by
    cases remarked
    rfl
  simp only [parse, read, read', head, lowered]
  rfl

/-- The source of two lines, `[1, # a` and ` 2]`, with what stands between the
    comma and the second item. -/
def arrayOfTwo (between : List Cst) : Cst :=
  .mk ⟨.other "program", 0, 11, none, true, false, false⟩
    [.mk ⟨.array, 0, 11, none, true, false, false⟩
      (.mk ⟨.other "[", 0, 1, none, false, false, false⟩ [] ::
       .mk ⟨.integer, 1, 2, none, true, false, false⟩ [] ::
       .mk ⟨.other ",", 2, 3, none, false, false, false⟩ [] ::
       between ++
        [.mk ⟨.integer, 9, 10, none, true, false, false⟩ [],
         .mk ⟨.other "]", 10, 11, none, false, false, false⟩ []])]

/-- The comment behind the first item changes nothing. -/
theorem parse_eq_of_remarked_arrayOfTwo :
    let comment := Cst.mk ⟨.comment, 4, 7, none, true, false, false⟩ []
    (arrayOfTwo []).Remarked (arrayOfTwo [comment]) ∧
      ∃ tree, (Parser.ofGrammar fun _ => some (arrayOfTwo [comment])).parse
          "[1, # a\n 2]" = .ok tree ∧
        (Parser.ofGrammar fun _ => some (arrayOfTwo [])).parse "[1, # a\n 2]" = .ok tree := by
  intro comment
  have same : ∀ c : Cst, c.children = [] → c.Remarked c := by
    rintro ⟨_, _⟩ rfl
    exact .mk .nil
  have remarked : (arrayOfTwo []).Remarked (arrayOfTwo [comment]) :=
    .mk (.keep (.mk (.keep (same _ rfl) (.keep (same _ rfl) (.keep (same _ rfl)
      (.insert rfl (.keep (same _ rfl) (.keep (same _ rfl) .nil))))))) .nil)
  obtain ⟨tree, parsed⟩ : ∃ tree, (Parser.ofGrammar fun _ => some (arrayOfTwo [])).parse
      "[1, # a\n 2]" = .ok tree := ⟨_, rfl⟩
  refine ⟨remarked, tree, ?_, parsed⟩
  rw [← parsed]
  exact parse_eq_of_remarked rfl rfl remarked _ _

end Parser

end RubyPattern.Ruby
