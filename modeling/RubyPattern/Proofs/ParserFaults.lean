/-
  RubyPattern.Proofs.ParserFaults

  What reading a source fails for. Assignments, calls, control structures and
  definitions fail where one of their parts does or falls short, and so does the
  descent through all kinds of constructs. If no construct of the source begins
  or ends inside a character, reading gives a tree or one of three refusals, or
  some construct falls short.
-/
import RubyPattern.Proofs.LoweringFaults

namespace RubyPattern.Ruby

namespace Context

variable {w : Context} {limit : Int} {root c : Cst}

section

variable (hw : ∀ d ∈ root.constructs, FailsOnly (w.lower d) (Failure w.toOrigin limit root))
include hw

-- ============================================================================
-- Arguments
-- ============================================================================

theorem fails_positional {cs : List Cst} (mem : ∀ d ∈ cs, d ∈ root.constructs) :
    FailsOnly (w.positional cs) (Failure w.toOrigin limit root) := by
  induction cs with
  | nil => exact .pure _
  | cons d cs ih =>
    rw [List.forall_mem_cons] at mem
    unfold positional
    split
    next => exact ih mem.2
    next =>
      refine (hw d mem.1).after fun n => (ih mem.2).after fun result => ?_
      dsimp only
      split <;> exact .pure _

theorem fails_arguments {items : List Cst} (mem : ∀ d ∈ items, d ∈ root.constructs) :
    FailsOnly (w.arguments items) (Failure w.toOrigin limit root) := by
  have keywords : ∀ d ∈ items.filter isKeyword, d ∈ root.constructs :=
    fun d hd => mem d (List.mem_of_mem_filter hd)
  refine (fails_positional hw mem).after fun result => ?_
  dsimp only
  split
  next first last opens closes =>
    refine (fails_lowerAll hw keywords).after fun pairs => ?_
    exact (fails_span (keywords first (List.mem_of_mem_head? opens))
      (keywords last (List.mem_of_getLast? closes))).after fun _ => .pure _
  next => exact .pure _

theorem fails_indexArguments (hc : c ∈ root.constructs) (object : Cst) :
    FailsOnly (w.indexArguments c object) (Failure w.toOrigin limit root) :=
  fails_arguments hw fun d hd => Cst.mem_constructs_of_plain hc d (List.mem_of_mem_filter hd)

-- ============================================================================
-- Assignments
-- ============================================================================

omit hw in
mutual

theorem fails_target
    (hw : ∀ d ∈ root.constructs, FailsOnly (w.lower d) (Failure w.toOrigin limit root))
    (keepsName : Bool) {c : Cst} (hc : c ∈ root.constructs) (assigned : Assigned root c) :
    FailsOnly (w.target keepsName c) (Failure w.toOrigin limit root) := by
  obtain ⟨head, children⟩ := c
  have needs {k : Kind} {role : String} (kind : head.kind = k) (listed : role ∈ k.targetRoles) :
      Needs root (.mk head children) role := .of_assigned assigned kind listed
  have parts (lists : head.kind.listsTargets = true) :=
    fails_targets hw children fun d hd =>
      ⟨Cst.mem_constructs_of_child hc hd, Assigned.listed assigned lists hd⟩
  unfold target
  dsimp only
  split
  next => exact fails_binding hc fun _ => fails_located hc _ _
  next => exact fails_symbolNode hc _ _
  next => exact fails_symbolNode hc _ _
  next => exact fails_symbolNode hc _ _
  next => exact (fails_text hc).after fun _ => fails_located hc _ _
  next kind =>
    refine (fails_pathScope hw hc).after fun _ => ?_
    exact (fails_textOfRole hc (needs kind (by decide))).after fun _ => fails_located hc _ _
  next kind =>
    refine (fails_lowerRole hw hc (needs kind (by decide))).after fun _ => ?_
    refine (fails_textOfRole hc (needs kind (by decide))).after fun _ => ?_
    exact (fails_callOperator hc).after fun _ => fails_located hc _ _
  next kind =>
    refine (fails_requirePart hc (needs kind (by decide))).bind (yields_requirePart _)
      fun object part => ?_
    refine (fails_indexArguments hw hc object).after fun _ => ?_
    exact (hw object (Cst.mem_constructs_of_part hc part)).after fun _ => fails_located hc _ _
  next kind => exact (parts (by rw [kind]; rfl)).after fun _ => fails_located hc _ _
  next kind => exact (parts (by rw [kind]; rfl)).after fun _ => fails_located hc _ _
  next kind => exact (parts (by rw [kind]; rfl)).after fun _ => fails_located hc _ _
  next => exact .throw (.unsupported hc)

theorem fails_targets
    (hw : ∀ d ∈ root.constructs, FailsOnly (w.lower d) (Failure w.toOrigin limit root))
    (cs : List Cst) (mem : ∀ d ∈ cs, d ∈ root.constructs ∧ Assigned root d) :
    FailsOnly (w.targets cs) (Failure w.toOrigin limit root) := by
  cases cs with
  | nil => exact .pure _
  | cons d cs =>
    rw [List.forall_mem_cons] at mem
    unfold targets
    split
    next =>
      exact (fails_target hw false mem.1.1 mem.1.2).after fun _ =>
        (fails_targets hw cs mem.2).after fun _ => .pure _
    next => exact fails_targets hw cs mem.2

end

theorem fails_assignedValue (hc : c ∈ root.constructs) :
    FailsOnly (w.assignedValue c) (Failure w.toOrigin limit root) := by
  unfold assignedValue
  split
  next => exact fails_collection hw hc _
  next => exact (hw c hc).after fun _ => fails_located hc _ _
  next => exact hw c hc

theorem fails_assignment (hc : c ∈ root.constructs) (kind : c.kind = .assignment) :
    FailsOnly (w.assignment c) (Failure w.toOrigin limit root) := by
  unfold assignment
  split
  next left right hleft hright =>
    have target := fails_target hw false (Cst.mem_constructs_of_part hc hleft)
      (.left hc (.inl kind) hleft)
    refine target.after fun _ => ?_
    refine (fails_assignedValue hw (Cst.mem_constructs_of_part hc hright)).after fun _ => ?_
    split <;> exact fails_located hc _ _
  next => exact .throw (.unsupported hc)

theorem fails_operatorAssignment (hc : c ∈ root.constructs)
    (kind : c.kind = .operatorAssignment) :
    FailsOnly (w.operatorAssignment c) (Failure w.toOrigin limit root) := by
  unfold operatorAssignment
  split
  next left right hleft hright =>
    refine (fails_operatorText hc).after fun _ => ?_
    have target := fails_target hw true (Cst.mem_constructs_of_part hc hleft)
      (.left hc (.inr kind) hleft)
    refine target.after fun _ => ?_
    refine (hw right (Cst.mem_constructs_of_part hc hright)).after fun _ => ?_
    split
    next => exact fails_located hc _ _
    next => split <;> exact fails_located hc _ _
  next => exact .throw (.unsupported hc)

-- ============================================================================
-- Parameters
-- ============================================================================

omit hw in
theorem fails_parameterName (hc : c ∈ root.constructs) :
    FailsOnly (w.parameterName c) (Failure w.toOrigin limit root) := by
  unfold parameterName
  split
  next name part =>
    exact fails_binding (Cst.mem_constructs_of_part hc part) fun _ => .pure _
  next => exact .pure _

omit hw in
mutual

theorem fails_parameter
    (hw : ∀ d ∈ root.constructs, FailsOnly (w.lower d) (Failure w.toOrigin limit root))
    {c : Cst} (hc : c ∈ root.constructs) :
    FailsOnly (w.parameter c) (Failure w.toOrigin limit root) := by
  obtain ⟨head, children⟩ := c
  have parts := fails_parameterList hw children fun d hd => Cst.mem_constructs_of_child hc hd
  unfold parameter
  dsimp only
  split
  next => exact fails_binding hc fun _ => fails_located hc _ _
  next => exact parts.after fun _ => fails_located hc _ _
  next => exact fails_keyword hc _
  next => exact fails_keyword hc _
  next =>
    refine (fails_parameterName hc).after fun name => ?_
    split
    next kind =>
      exact (fails_lowerRole hw hc (.of_kind kind (by decide))).after fun _ =>
        fails_located hc _ _
    next =>
      split
      next => exact fails_located hc _ _
      next value part =>
        exact (hw value (Cst.mem_constructs_of_part hc part)).after fun _ =>
          fails_located hc _ _
    next => exact fails_located hc _ _
    next => exact fails_located hc _ _
    next => exact fails_located hc _ _
    next => exact .throw (.unsupported hc)

theorem fails_parameterList
    (hw : ∀ d ∈ root.constructs, FailsOnly (w.lower d) (Failure w.toOrigin limit root))
    (cs : List Cst) (mem : ∀ d ∈ cs, d ∈ root.constructs) :
    FailsOnly (w.parameterList cs) (Failure w.toOrigin limit root) := by
  cases cs with
  | nil => exact .pure _
  | cons d cs =>
    rw [List.forall_mem_cons] at mem
    unfold parameterList
    split
    next =>
      exact (fails_parameter hw mem.1).after fun _ =>
        (fails_parameterList hw cs mem.2).after fun _ => .pure _
    next => exact fails_parameterList hw cs mem.2

end

theorem fails_parameterOrLocal (hc : c ∈ root.constructs) (locals : List (Nat × Nat × Kind)) :
    FailsOnly (w.parameterOrLocal locals c) (Failure w.toOrigin limit root) := by
  unfold parameterOrLocal
  split
  next => exact fails_binding hc fun _ => fails_located hc _ _
  next => exact fails_parameter hw hc

theorem fails_parametersOrLocals (locals : List (Nat × Nat × Kind)) {cs : List Cst}
    (mem : ∀ d ∈ cs, d ∈ root.constructs) :
    FailsOnly (w.parametersOrLocals locals cs) (Failure w.toOrigin limit root) := by
  induction cs with
  | nil => exact .pure _
  | cons d cs ih =>
    rw [List.forall_mem_cons] at mem
    exact (fails_parameterOrLocal hw mem.1 locals).after fun _ => (ih mem.2).after fun _ => .pure _

theorem fails_parameters (hc : c ∈ root.constructs) :
    FailsOnly (w.parameters (c.part? "parameters")) (Failure w.toOrigin limit root) := by
  cases part : c.part? "parameters" with
  | none => exact .pure _
  | some d =>
    have hd := Cst.mem_constructs_of_part hc part
    exact (fails_parametersOrLocals hw _ (Cst.mem_constructs_of_plain hd)).after fun _ =>
      fails_located hd _ _

-- ============================================================================
-- Calls
-- ============================================================================

/-- The parameters and the body of a block, a lambda or a method. -/
theorem fails_parametersAndBody (hc : c ∈ root.constructs) {body : Lowering (Option Node)}
    (hbody : FailsOnly body (Failure w.toOrigin limit root)) :
    FailsOnly (do
      let args ← w.parameters (c.part? "parameters")
      let body ← body
      return (args, body)) (Failure w.toOrigin limit root) :=
  (fails_parameters hw hc).after fun _ => hbody.after fun _ => .pure _

theorem fails_withBlock (hc : c ∈ root.constructs) (callee : Node) {block : Cst}
    (hblock : block ∈ root.constructs) :
    FailsOnly (w.withBlock c callee block) (Failure w.toOrigin limit root) := by
  have parts := fails_parametersAndBody hw hblock (fails_bodyOf hw hblock ["parameters"])
  exact parts.withScope.after fun _ => fails_located hc _ _

theorem fails_lambda (hc : c ∈ root.constructs) :
    FailsOnly (w.lambda c) (Failure w.toOrigin limit root) := by
  refine .after (FailsOnly.withScope ((fails_parameters hw hc).after fun args => ?_)) fun _ =>
    fails_located hc _ _
  split
  next body part =>
    exact (fails_bodyOf hw (Cst.mem_constructs_of_part hc part) _).after fun _ => .pure _
  next => exact .afterPure (.pure _)

theorem fails_callArguments (hc : c ∈ root.constructs) :
    FailsOnly (w.callArguments (c.part? "arguments")) (Failure w.toOrigin limit root) := by
  cases part : c.part? "arguments" with
  | none => exact .pure _
  | some d =>
    exact fails_arguments hw
      (Cst.mem_constructs_of_plain (Cst.mem_constructs_of_part hc part))

theorem fails_send (hc : c ∈ root.constructs) :
    FailsOnly (w.send c) (Failure w.toOrigin limit root) := by
  have last : ∀ d, c.callParts.getLast?.getD c = d → d ∈ root.constructs := by
    rintro _ rfl
    cases h : c.callParts.getLast? with
    | none => exact hc
    | some d =>
      exact Cst.mem_constructs_of_child hc (Cst.mem_of_callParts (List.mem_of_getLast? h))
  refine (fails_lowerOptional hw fun _ => Cst.mem_constructs_of_part hc).after fun receiver => ?_
  refine (fails_callArguments hw hc).after fun arguments => ?_
  rw [← Cst.getLast?_callParts]
  refine (fails_span hc (last _ rfl)).after fun l => ?_
  split
  next => exact (fails_callOperator hc).after fun _ => .pure _
  next method part =>
    split
    next => exact .pure _
    next =>
      exact (fails_text (Cst.mem_constructs_of_part hc part)).after fun _ =>
        (fails_callOperator hc).after fun _ => .pure _

theorem fails_call (hc : c ∈ root.constructs) :
    FailsOnly (w.call c) (Failure w.toOrigin limit root) := by
  refine (fails_send hw hc).after fun callee => ?_
  split
  next block part =>
    exact fails_withBlock hw hc callee (Cst.mem_constructs_of_part hc part)
  next => exact .pure _

-- ============================================================================
-- Operators
-- ============================================================================

theorem fails_elementReference (hc : c ∈ root.constructs) :
    FailsOnly (w.elementReference c) (Failure w.toOrigin limit root) := by
  unfold elementReference
  split
  next => exact .throw (.unsupported hc)
  next object part =>
    exact (fails_indexArguments hw hc object).after fun _ =>
      (hw object (Cst.mem_constructs_of_part hc part)).after fun _ => fails_located hc _ _

theorem fails_binary (hc : c ∈ root.constructs) (kind : c.kind = .binary) :
    FailsOnly (w.binary c) (Failure w.toOrigin limit root) := by
  refine (fails_lowerRole hw hc (.of_kind kind (by decide))).after fun _ => ?_
  refine (fails_operatorText hc).after fun operator => ?_
  refine (fails_lowerRole hw hc (.of_kind kind (by decide))).after fun _ => ?_
  split
  next => exact fails_located hc _ _
  next => split <;> exact fails_located hc _ _

omit hw in
theorem fails_operand (hc : c ∈ root.constructs) (kind : c.kind = .unary) :
    FailsOnly (operand c) (Failure w.toOrigin limit root) := by
  unfold operand
  split
  next => exact .pure _
  next none =>
    obtain ⟨absent, last⟩ := (Option.orElse_eq_none _ _).mp none
    exact .throw (.lapse hc (.operand kind absent (List.getLast?_eq_none_iff.mp last)))

theorem fails_operatorSend (hc : c ∈ root.constructs) (operator : String) {operand : Cst}
    (mem : operand ∈ root.constructs) :
    FailsOnly (w.operatorSend c operator operand) (Failure w.toOrigin limit root) :=
  (hw operand mem).after fun _ => fails_located hc _ _

theorem fails_unary (hc : c ∈ root.constructs) (kind : c.kind = .unary) :
    FailsOnly (w.unary c) (Failure w.toOrigin limit root) := by
  refine (fails_operatorText hc).after fun operator => ?_
  refine (fails_operand hc kind).bind (yields_operand c) fun operand child => ?_
  have mem := Cst.mem_constructs_of_child hc child
  split
  next => exact fails_operatorSend hw hc _ mem
  next =>
    split
    next => exact (hw operand mem).after fun _ => fails_located hc _ _
    next =>
      split
      next => exact (hw operand mem).after fun _ => fails_located hc _ _
      next => split <;> exact fails_operatorSend hw hc _ mem

-- ============================================================================
-- Control structures
-- ============================================================================

theorem fails_branch (hc : c ∈ root.constructs) (role : String) :
    FailsOnly (w.clause (c.part? role)) (Failure w.toOrigin limit root) :=
  fails_clause hw fun _ => Cst.mem_constructs_of_part hc

theorem fails_ifStatement (hc : c ∈ root.constructs)
    (needed : Needs root c "condition") :
    FailsOnly (w.ifStatement c) (Failure w.toOrigin limit root) :=
  (fails_lowerRole hw hc needed).after fun _ => (fails_branch hw hc _).after fun _ =>
    (fails_branch hw hc _).after fun _ => fails_located hc _ _

theorem fails_unlessStatement (hc : c ∈ root.constructs)
    (needed : Needs root c "condition") :
    FailsOnly (w.unlessStatement c) (Failure w.toOrigin limit root) :=
  (fails_lowerRole hw hc needed).after fun _ => (fails_branch hw hc _).after fun _ =>
    (fails_branch hw hc _).after fun _ => fails_located hc _ _

theorem fails_ifModifier (hc : c ∈ root.constructs) (kind : c.kind = .ifModifier) :
    FailsOnly (w.ifModifier c) (Failure w.toOrigin limit root) :=
  (fails_lowerRole hw hc (.of_kind kind (by decide))).after fun _ =>
    (fails_lowerRole hw hc (.of_kind kind (by decide))).after fun _ =>
      fails_located hc _ _

theorem fails_unlessModifier (hc : c ∈ root.constructs) (kind : c.kind = .unlessModifier) :
    FailsOnly (w.unlessModifier c) (Failure w.toOrigin limit root) :=
  (fails_lowerRole hw hc (.of_kind kind (by decide))).after fun _ =>
    (fails_lowerRole hw hc (.of_kind kind (by decide))).after fun _ =>
      fails_located hc _ _

theorem fails_loop (hc : c ∈ root.constructs) (needed : Needs root c "condition")
    (type : String) : FailsOnly (w.loop type c) (Failure w.toOrigin limit root) :=
  (fails_lowerRole hw hc needed).after fun _ => (fails_branch hw hc _).after fun _ =>
    fails_located hc _ _

theorem fails_loopModifier (hc : c ∈ root.constructs) (body : Needs root c "body")
    (condition : Needs root c "condition") (type : String) :
    FailsOnly (w.loopModifier type c) (Failure w.toOrigin limit root) := by
  refine (fails_requirePart hc body).bind (yields_requirePart _) fun part found => ?_
  refine (hw part (Cst.mem_constructs_of_part hc found)).after fun _ => ?_
  exact (fails_lowerRole hw hc condition).after fun _ => fails_located hc _ _

theorem fails_caseStatement (hc : c ∈ root.constructs) :
    FailsOnly (w.caseStatement c) (Failure w.toOrigin limit root) := by
  have plain := Cst.mem_constructs_of_plain hc
  refine (fails_lowerAll hw fun d hd => plain d (List.mem_of_mem_filter hd)).after fun _ => ?_
  refine (fails_lowerOptional hw fun _ => Cst.mem_constructs_of_part hc).after fun _ => ?_
  refine (fails_clause hw fun d hd => plain d (List.mem_of_find?_eq_some hd)).after fun _ => ?_
  exact fails_located hc _ _

theorem fails_whenClause (hc : c ∈ root.constructs) :
    FailsOnly (w.whenClause c) (Failure w.toOrigin limit root) := by
  refine (fails_lowerAll hw fun d hd => ?_).after fun _ =>
    (fails_branch hw hc _).after fun _ => fails_located hc _ _
  exact Cst.mem_constructs_of_child hc (List.mem_of_mem_filter hd)

theorem fails_matchPattern (hc : c ∈ root.constructs) :
    FailsOnly (w.matchPattern c) (Failure w.toOrigin limit root) := by
  unfold matchPattern
  split
  next inner single =>
    refine hw inner (Cst.mem_constructs_of_plain hc inner ?_)
    rw [single]
    exact List.mem_singleton_self inner
  next => exact .throw (.unsupported hc)

theorem fails_jumpValues {cs : List Cst} (mem : ∀ d ∈ cs, d ∈ root.constructs) :
    FailsOnly (w.jumpValues cs) (Failure w.toOrigin limit root) := by
  induction cs with
  | nil => exact .pure _
  | cons d cs ih =>
    rw [List.forall_mem_cons] at mem
    unfold jumpValues
    split
    next =>
      exact (fails_arguments hw (Cst.mem_constructs_of_plain mem.1)).after fun _ =>
        (ih mem.2).after fun _ => .pure _
    next =>
      exact (hw d mem.1).after fun _ => .afterPure ((ih mem.2).after fun _ => .pure _)

theorem fails_jump (hc : c ∈ root.constructs) (type : String) :
    FailsOnly (w.jump type c) (Failure w.toOrigin limit root) :=
  (fails_jumpValues hw (Cst.mem_constructs_of_plain hc)).after fun _ => fails_located hc _ _

-- ============================================================================
-- Definitions
-- ============================================================================

theorem fails_methodParts (hc : c ∈ root.constructs) (otherRoles : List String) :
    FailsOnly (w.methodParts c otherRoles) (Failure w.toOrigin limit root) :=
  (fails_parametersAndBody hw hc (fails_bodyOf hw hc otherRoles)).withScope

theorem fails_method (hc : c ∈ root.constructs) (kind : c.kind = .method) :
    FailsOnly (w.method c) (Failure w.toOrigin limit root) :=
  (fails_textOfRole hc (.of_kind kind (by decide))).after fun _ =>
    (fails_methodParts hw hc _).after fun _ => fails_located hc _ _

theorem fails_singletonMethod (hc : c ∈ root.constructs) (kind : c.kind = .singletonMethod) :
    FailsOnly (w.singletonMethod c) (Failure w.toOrigin limit root) :=
  (fails_lowerRole hw hc (.of_kind kind (by decide))).after fun _ =>
    (fails_textOfRole hc (.of_kind kind (by decide))).after fun _ =>
      (fails_methodParts hw hc _).after fun _ => fails_located hc _ _

theorem fails_superclass (hc : c ∈ root.constructs) :
    FailsOnly (w.superclass (c.part? "superclass")) (Failure w.toOrigin limit root) := by
  cases part : c.part? "superclass" with
  | none => exact .pure _
  | some d =>
    have hd := Cst.mem_constructs_of_part hc part
    exact fails_lowerOptional hw fun e he =>
      Cst.mem_constructs_of_plain hd e (List.mem_of_mem_head? he)

theorem fails_classDefinition (hc : c ∈ root.constructs) (kind : c.kind = .classDefinition) :
    FailsOnly (w.classDefinition c) (Failure w.toOrigin limit root) :=
  (fails_lowerRole hw hc (.of_kind kind (by decide))).after fun _ =>
    (fails_superclass hw hc).after fun _ =>
      (fails_bodyOf hw hc _).withScope.after fun _ => fails_located hc _ _

theorem fails_moduleDefinition (hc : c ∈ root.constructs) (kind : c.kind = .moduleDefinition) :
    FailsOnly (w.moduleDefinition c) (Failure w.toOrigin limit root) :=
  (fails_lowerRole hw hc (.of_kind kind (by decide))).after fun _ =>
    (fails_bodyOf hw hc _).withScope.after fun _ => fails_located hc _ _

theorem fails_singletonClass (hc : c ∈ root.constructs) (kind : c.kind = .singletonClass) :
    FailsOnly (w.singletonClass c) (Failure w.toOrigin limit root) :=
  (fails_lowerRole hw hc (.of_kind kind (by decide))).after fun _ =>
    (fails_bodyOf hw hc _).withScope.after fun _ => fails_located hc _ _

-- ============================================================================
-- All constructs
-- ============================================================================

/-- Every way to lower a construct fails where a part of it does or it falls
    short itself. -/
theorem fails_handler
    (hmade : ∀ d, Yields (w.lower d) fun n =>
      MadeNode w.toOrigin d n ∧ Becomes w.toOrigin limit d n)
    (hc : c ∈ root.constructs) {handler : Context → Cst → Lowering Node}
    (h : handler? c.kind = some handler) :
    FailsOnly (handler w c) (Failure w.toOrigin limit root) := by
  unfold handler? at h
  split at h <;> cases h
  next kind => exact fails_integer hc kind
  next kind => exact fails_float hc kind
  · exact fails_keyword hc _
  · exact fails_keyword hc _
  · exact fails_keyword hc _
  · exact fails_keyword hc _
  · exact fails_stringNode hw hc _ _ _
  · exact fails_stringNode hw hc _ _ _
  · exact fails_collection hw hc _
  next kind => exact fails_character hc kind
  · exact fails_symbolNode hc _ _
  · exact fails_symbolNode hc _ _
  · exact fails_stringNode hw hc _ _ _
  · exact fails_stringNode hw hc _ _ _
  · exact fails_regex hw hc
  · exact fails_collection hw hc _
  · exact fails_collection hw hc _
  · exact fails_collection hw hc _
  · exact fails_collection hw hc _
  next kind => exact fails_pair hw hmade hc kind
  · exact fails_collection hw hc _
  · exact fails_collection hw hc _
  · exact fails_blockArgument hw hc
  · exact fails_keyword hc _
  · exact fails_range hw hc
  · exact fails_statementGroup hw hc _
  · exact fails_statementGroup hw hc _
  · exact fails_identifier hc
  · exact fails_symbolNode hc _ _
  · exact fails_symbolNode hc _ _
  · exact fails_symbolNode hc _ _
  · exact fails_constant hc
  · exact fails_keyword hc _
  · exact fails_scopeResolution hw hc
  next kind => exact fails_assignment hw hc kind
  next kind => exact fails_operatorAssignment hw hc kind
  · exact fails_call hw hc
  · exact fails_lambda hw hc
  · exact fails_elementReference hw hc
  next kind => exact fails_binary hw hc kind
  next kind => exact fails_unary hw hc kind
  next kind => exact fails_ifStatement hw hc (.of_kind kind (by decide))
  next kind => exact fails_ifStatement hw hc (.of_kind kind (by decide))
  next kind => exact fails_unlessStatement hw hc (.of_kind kind (by decide))
  next kind => exact fails_ifStatement hw hc (.of_kind kind (by decide))
  next kind => exact fails_ifModifier hw hc kind
  next kind => exact fails_unlessModifier hw hc kind
  next kind => exact fails_loop hw hc (.of_kind kind (by decide)) _
  next kind => exact fails_loop hw hc (.of_kind kind (by decide)) _
  next kind =>
    exact fails_loopModifier hw hc (.of_kind kind (by decide))
      (.of_kind kind (by decide)) _
  next kind =>
    exact fails_loopModifier hw hc (.of_kind kind (by decide))
      (.of_kind kind (by decide)) _
  · exact fails_caseStatement hw hc
  · exact fails_whenClause hw hc
  · exact fails_matchPattern hw hc
  · exact fails_jump hw hc _
  · exact fails_jump hw hc _
  · exact fails_jump hw hc _
  · exact fails_jump hw hc _
  · exact fails_keyword hc _
  · exact fails_keyword hc _
  next kind => exact fails_method hw hc kind
  next kind => exact fails_singletonMethod hw hc kind
  next kind => exact fails_classDefinition hw hc kind
  next kind => exact fails_moduleDefinition hw hc kind
  next kind => exact fails_singletonClass hw hc kind

end

end Context

-- ============================================================================
-- The descent
-- ============================================================================

/-- The descent fails at a construct of the tree, whatever its budget. -/
theorem fails_lower {o : Origin} {limit : Int} {root c : Cst} (room : Nat)
    (hc : c ∈ root.constructs) : FailsOnly (lower o limit room c) (Failure o limit root) := by
  induction room generalizing c with
  | zero =>
    unfold lower
    split
    next => exact .throw .malformed
    next =>
      split
      next => exact .throw (.unsupported hc)
      next => exact .throw .tooDeep
  | succ room ih =>
    unfold lower
    split
    next => exact .throw .malformed
    next =>
      split
      next => exact .throw (.unsupported hc)
      next handler found =>
        have hmade : ∀ d, Yields (lower o limit room d)
            fun n => MadeNode o d n ∧ Becomes o limit d n :=
          fun d s n t run => ⟨yields_lower o limit room d s n t run, room, s, t, run⟩
        exact Context.fails_handler (fun d hd => ih hd) hmade hc found

-- ============================================================================
-- Sources
-- ============================================================================

/-- Between two places between characters there is a stretch of text, also when
    they are in the wrong order. -/
theorem slice?_ne_none {cs : List Char} {start stop : Nat} (starts : AtBoundary cs start)
    (stops : AtBoundary cs stop) : slice? cs start stop ≠ none := by
  by_cases ordered : start ≤ stop
  · obtain ⟨stretch, found, -⟩ := exists_slice starts stops ordered
    rw [found]
    exact Option.some_ne_none stretch
  · rw [slice?, if_pos (by omega)]
    exact Option.some_ne_none []

namespace Parser

/-- A fault of reading comes from the lowering of the concrete syntax, or the
    source is malformed. -/
theorem fault_of_parse {p : Parser} {source : String} {fault : Fault}
    (h : p.parse source = .error fault) : fault = (p.origin source).malformed ∨
      ∃ root, p.grammar source = some root ∧
        p.lowerProgram source root Scopes.initial = .error fault := by
  unfold parse at h
  split at h
  next =>
    cases h
    exact .inl rfl
  next root grammar =>
    split at h
    next =>
      cases h
      exact .inl rfl
    next =>
      split at h
      next run =>
        cases h
        exact .inr ⟨root, grammar, run⟩
      next =>
        cases h
        exact .inl rfl
      next => cases h

/-- Reading a source whose constructs begin and end between characters gives a
    tree, or refuses the source as malformed, as too deep, or as unsupported at
    one of its constructs; unless one of its constructs falls short: a number that
    does not read, an escape beyond Unicode, a unary operation on nothing, a key
    without a name, or a part that is not there. Nothing else goes wrong. -/
theorem tree_or_fault (p : Parser) (source : String)
    (between : ∀ root ∈ p.grammar source, ∀ c ∈ root.constructs,
      AtBoundary source.toList c.head.start ∧ AtBoundary source.toList c.head.stop) :
    (∃ tree, p.parse source = .ok tree) ∨
    p.parse source = .error (.malformedSource source p.rubyVersion) ∨
    p.parse source = .error (.tooDeep p.maxDepth) ∨
    ∃ root ∈ p.grammar source, ∃ c ∈ root.constructs,
      p.parse source = .error ((p.origin source).unsupported c) ∨
      ∃ fault, Lapse (p.origin source) p.maxDepth root c fault ∧
        p.parse source = .error fault := by
  cases outcome : p.parse source with
  | ok tree => exact .inl ⟨tree, rfl⟩
  | error fault =>
    refine .inr ?_
    rcases fault_of_parse outcome with rfl | ⟨root, grammar, run⟩
    · exact .inl rfl
    · have self := Cst.mem_constructs_self root
      have program : FailsOnly (p.lowerProgram source root)
          (Failure (p.origin source) p.maxDepth root) :=
        Context.fails_compound (fun d hd => fails_lower _ hd)
          (Cst.mem_constructs_of_statement self)
      cases program _ _ run with
      | malformed => exact .inl rfl
      | tooDeep => exact .inr (.inl rfl)
      | @unsupported c mem => exact .inr (.inr ⟨root, grammar, c, mem, .inl rfl⟩)
      | @lapse c fault mem lapse =>
        exact .inr (.inr ⟨root, grammar, c, mem, .inr ⟨fault, lapse, rfl⟩⟩)
      | split hc hd inside =>
        have starts := (between root grammar _ hc).1
        have stops := (between root grammar _ hd).2
        exact absurd inside (slice?_ne_none starts stops)

/-- The source `08`, one integer literal. -/
def octalDigits : Cst :=
  .mk ⟨.other "program", 0, 2, none, true, false, false⟩
    [.mk ⟨.integer, 0, 2, none, true, false, false⟩ []]

theorem tree_or_fault_octalDigits :
    ∃ c ∈ octalDigits.constructs, c.kind = .integer ∧
      Lapse ((ofGrammar fun _ => some octalDigits).origin "08") defaultDepth octalDigits c
        (.badNumber "08") ∧
      (ofGrammar fun _ => some octalDigits).parse "08" = .error (.badNumber "08") := by
  have failed : (ofGrammar fun _ => some octalDigits).parse "08" = .error (.badNumber "08") := rfl
  have between : ∀ root ∈ (ofGrammar fun _ => some octalDigits).grammar "08",
      ∀ c ∈ root.constructs,
        AtBoundary "08".toList c.head.start ∧ AtBoundary "08".toList c.head.stop := by
    rintro _ ⟨⟩
    decide
  rcases tree_or_fault _ _ between with ⟨tree, parsed⟩ | refused | refused |
    ⟨root, grammar, c, mem, refused | ⟨fault, lapse, refused⟩⟩
  · rw [failed] at parsed
    cases parsed
  · rw [failed] at refused
    cases refused
  · rw [failed] at refused
    cases refused
  · rw [failed] at refused
    cases refused
  · rw [failed] at refused
    cases refused
    cases grammar
    refine ⟨c, mem, ?_, lapse, failed⟩
    cases lapse with
    | integer kind => exact kind
    | float kind =>
      have integers : ∀ c ∈ octalDigits.constructs, c.kind ≠ .float := by decide
      exact absurd kind (integers c mem)

end Parser

end RubyPattern.Ruby
