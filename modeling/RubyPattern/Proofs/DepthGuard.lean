/-
  RubyPattern.Proofs.DepthGuard

  How high parsed trees are. The limit on depth counts the constructs that are
  lowered one inside another, and each of them puts at most three nodes above
  what is inside it. Lists of targets and parameters in parentheses are not
  counted: the ones inside them are made without a look at the limit, and each
  list adds a node. So a tree is at most three times as high as the limit, one
  node for a program of several statements, and these lists.
-/
import RubyPattern.Proofs.Heights

namespace RubyPattern.Ruby

namespace Context

variable {w : Context} {h k : Nat} {c : Cst}

section

variable (hw : ∀ d, Yields (w.lower d) fun n => n.toValue.height ≤ h + d.destructuring)
include hw

-- ============================================================================
-- Parameters
-- ============================================================================

omit hw in
mutual

/-- A list of parameters is one node higher than the parameters in it, and nothing
    else makes parameters higher than what stands for them by default. -/
theorem height_parameter
    (hw : ∀ d, Yields (w.lower d) fun n => n.toValue.height ≤ h + d.destructuring) (c : Cst) :
    Yields (w.parameter c) fun n => n.toValue.height ≤ h + c.destructuring + 1 := by
  obtain ⟨head, children⟩ := c
  have defaulted : ∀ {value : Node} (type name),
      value.toValue.height ≤ h + (Cst.mk head children).destructuring →
      Yields (w.located (.mk head children) type [nameChild name, value]) fun n =>
        n.toValue.height ≤ h + (Cst.mk head children).destructuring + 1 := by
    intro value type name hvalue
    refine height_located ?_
    cases name with
    | none => exact Nat.max_le.mpr ⟨Nat.zero_le _, Nat.max_le.mpr ⟨hvalue, Nat.zero_le _⟩⟩
    | some name => exact Nat.max_le.mpr ⟨Nat.zero_le _, Nat.max_le.mpr ⟨hvalue, Nat.zero_le _⟩⟩
  have named : ∀ name, Value.heightAll [nameChild name] = 0 := by
    intro name
    cases name <;> rfl
  have collecting : ∀ name : Option String, Value.heightAll (name.toList.map .sym) = 0 := by
    intro name
    cases name <;> rfl
  unfold parameter
  dsimp only
  split
  next => exact .after fun name => .after fun _ => height_locatedLeaves rfl
  next kind =>
    refine (height_parameterList hw children).bind fun parts hparts => ?_
    refine (height_located hparts).mono fun n hn => ?_
    have lists : head.kind.destructures = true := by rw [kind]; rfl
    rw [Cst.destructuring, if_pos lists]
    omega
  next => exact height_locatedLeaves rfl
  next => exact height_locatedLeaves rfl
  next =>
    refine .after fun name => ?_
    split
    next => exact (height_lowerRole hw _ _).bind fun value hvalue => defaulted _ name hvalue
    next =>
      split
      next => exact height_locatedLeaves (named name)
      next part =>
        exact (height_lower hw (Cst.destructuring_le_of_part part)).bind fun value hvalue =>
          defaulted _ name hvalue
    next => exact height_locatedLeaves (collecting name)
    next => exact height_locatedLeaves (collecting name)
    next => exact height_locatedLeaves (named name)
    next => exact .throw _

theorem height_parameterList
    (hw : ∀ d, Yields (w.lower d) fun n => n.toValue.height ≤ h + d.destructuring)
    (cs : List Cst) :
    Yields (w.parameterList cs) fun ns =>
      Value.heightAll (asChildren ns) ≤ h + Cst.destructuringOf cs + 1 := by
  cases cs with
  | nil => exact .pure (Nat.zero_le _)
  | cons c cs =>
    have later := (height_parameterList hw cs).mono fun ns hns =>
      hns.trans (by rw [Cst.destructuringOf]; omega : _ ≤ h + Cst.destructuringOf (c :: cs) + 1)
    unfold parameterList
    split
    next =>
      refine (height_parameter hw c).bind fun n hn => later.bind fun ns hns => .pure ?_
      refine Nat.max_le.mpr ⟨hn.trans ?_, hns⟩
      rw [Cst.destructuringOf]
      omega
    next => exact later

end

theorem height_parameterOrLocal (locals : List (Nat × Nat × Kind)) {d : Cst}
    (hd : d.destructuring ≤ k) :
    Yields (w.parameterOrLocal locals d) fun n => n.toValue.height ≤ h + k + 1 := by
  unfold parameterOrLocal
  split
  next => exact .after fun name => .after fun _ => height_located (Nat.zero_le _)
  next => exact (height_parameter hw d).mono fun n hn => hn.trans (by omega)

theorem height_parameters (c : Cst) :
    Yields (w.parameters (c.part? "parameters")) fun n =>
      n.toValue.height ≤ h + c.destructuring + 2 := by
  cases part : c.part? "parameters" with
  | none => exact .pure (Nat.succ_le_succ (Nat.zero_le _))
  | some d =>
    have low : ∀ e ∈ d.plainChildren, e.destructuring ≤ c.destructuring := fun e he =>
      (Cst.destructuring_le_of_plain he).trans (Cst.destructuring_le_of_part part)
    refine (yields_parametersOrLocals_of_mem fun e he =>
      height_parameterOrLocal hw _ (low e he)).bind fun items hitems => height_located ?_
    exact Value.heightAll_le_iff.mpr (forall_mem_asChildren.mpr hitems)

-- ============================================================================
-- Calls and operators
-- ============================================================================

/-- The parameters and the body of a block, a lambda or a method. -/
theorem height_parametersAndBody (c : Cst) {body : Lowering (Option Node)}
    (hbody : Yields body fun n => (Value.ofNode? n).height ≤ h + c.destructuring + 1) :
    Yields (do
      let args ← w.parameters (c.part? "parameters")
      let body ← body
      return (args, body)) fun result =>
        result.1.toValue.height ≤ h + c.destructuring + 2 ∧
          (Value.ofNode? result.2).height ≤ h + c.destructuring + 1 :=
  (height_parameters hw c).bind fun _ hargs => hbody.bind fun _ hbody => .pure ⟨hargs, hbody⟩

theorem height_withBlock {callee : Node}
    (hcallee : callee.toValue.height ≤ h + c.destructuring + 2) {block : Cst}
    (part : c.part? "block" = some block) :
    Yields (w.withBlock c callee block) fun n => n.toValue.height ≤ h + c.destructuring + 3 := by
  have low := Cst.destructuring_le_of_part part
  have parts := height_parametersAndBody hw block (height_bodyOf hw block ["parameters"])
  refine parts.withScope.bind fun result hresult => ?_
  obtain ⟨args, body⟩ := result
  obtain ⟨hargs, hbody⟩ := hresult
  dsimp only at hargs hbody
  exact height_located (by simp only [Value.heightAll]; omega)

theorem height_lambda (c : Cst) :
    Yields (w.lambda c) fun n => n.toValue.height ≤ h + c.destructuring + 3 := by
  have keyword : (Node.bare "lambda" []).toValue.height = 1 := rfl
  have finish : ∀ {parts : Lowering (Node × Option Node)},
      Yields parts (fun result => result.1.toValue.height ≤ h + c.destructuring + 2 ∧
        (Value.ofNode? result.2).height ≤ h + c.destructuring + 1) →
      Yields (withScope true parts >>= fun result =>
        w.located c "block" [Node.bare "lambda" [], result.1, .ofNode? result.2])
          fun n => n.toValue.height ≤ h + c.destructuring + 3 := by
    intro parts hparts
    refine hparts.withScope.bind fun result hresult => ?_
    obtain ⟨hargs, hbody⟩ := hresult
    exact height_located (by simp only [Value.heightAll]; omega)
  refine finish ((height_parameters hw c).bind fun args hargs => ?_)
  split
  next d part =>
    refine (height_bodyOf hw d _).bind fun body hbody => .pure ⟨hargs, hbody.trans ?_⟩
    exact Nat.succ_le_succ (Nat.add_le_add_left (Cst.destructuring_le_of_part part) h)
  next => exact .pure ⟨hargs, Nat.zero_le _⟩

theorem height_callArguments (c : Cst) :
    Yields (w.callArguments (c.part? "arguments")) fun ns =>
      Value.heightAll (asChildren ns) ≤ h + c.destructuring + 1 := by
  cases part : c.part? "arguments" with
  | none => exact .pure (Nat.zero_le _)
  | some d =>
    exact height_arguments hw fun e he =>
      (Cst.destructuring_le_of_plain he).trans (Cst.destructuring_le_of_part part)

theorem height_send (c : Cst) :
    Yields (w.send c) fun n => n.toValue.height ≤ h + c.destructuring + 2 := by
  refine (height_lowerOptional hw fun _ => Cst.destructuring_le_of_part).bind
    fun receiver hreceiver => ?_
  refine (height_callArguments hw c).bind fun arguments harguments => .after fun l => ?_
  have sent : ∀ operator name, (⟨.plain (sendType operator),
      .ofNode? receiver :: .sym name :: asChildren arguments, some l⟩ : Node).toValue.height ≤
        h + c.destructuring + 2 := by
    intro operator name
    rw [Node.height_toValue]
    simp only [Value.heightAll, Value.height]
    omega
  split
  next => exact .after fun operator => .pure (sent operator "call")
  next =>
    split
    next => exact .pure (Nat.succ_le_succ harguments)
    next => exact .after fun name => .after fun operator => .pure (sent operator name)

theorem height_call (c : Cst) :
    Yields (w.call c) fun n => n.toValue.height ≤ h + c.destructuring + 3 := by
  refine (height_send hw c).bind fun callee hcallee => ?_
  split
  next part => exact height_withBlock hw hcallee part
  next => exact .pure (Nat.le_succ_of_le hcallee)

theorem height_elementReference (c : Cst) :
    Yields (w.elementReference c) fun n => n.toValue.height ≤ h + c.destructuring + 2 := by
  unfold elementReference
  split
  next => exact .throw _
  next object part =>
    refine (height_indexArguments hw c object).bind fun arguments harguments => ?_
    refine (height_lower hw (Cst.destructuring_le_of_part part)).bind fun receiver hreceiver => ?_
    exact height_located (by simp only [Value.heightAll, Value.height]; omega)

theorem height_binary (c : Cst) :
    Yields (w.binary c) fun n => n.toValue.height ≤ h + c.destructuring + 1 := by
  refine (height_lowerRole hw c _).bind fun left hleft => .after fun operator => ?_
  refine (height_lowerRole hw c _).bind fun right hright => ?_
  split
  next => exact height_located (by simp only [Value.heightAll]; omega)
  next =>
    split
    next => exact height_located (by simp only [Value.heightAll]; omega)
    next => exact height_located (by simp only [Value.heightAll, Value.height]; omega)

omit hw in
theorem height_negated (v : Value) : (negated v).height = v.height := by
  cases v <;> rfl

omit hw in
theorem heightAll_map_negated (vs : List Value) :
    Value.heightAll (vs.map negated) = Value.heightAll vs := by
  induction vs with
  | nil => rfl
  | cons v vs ih => rw [List.map_cons, Value.heightAll, Value.heightAll, height_negated, ih]

theorem height_unary (c : Cst) :
    Yields (w.unary c) fun n => n.toValue.height ≤ h + c.destructuring + 1 := by
  refine .after fun operator => (yields_operand c).bind fun operand mem => ?_
  have lowered := height_lower hw (Cst.destructuring_le_of_child mem)
  have sent : ∀ operator, Yields (w.operatorSend c operator operand) fun n =>
      n.toValue.height ≤ h + c.destructuring + 1 := fun operator =>
    lowered.bind fun receiver hreceiver =>
      height_located (by simp only [Value.heightAll, Value.height]; omega)
  split
  next => exact sent _
  next =>
    split
    next =>
      exact lowered.bind fun inner hinner => height_located (Nat.max_le.mpr ⟨hinner, Nat.zero_le _⟩)
    next =>
      split
      next =>
        refine lowered.bind fun number hnumber => height_located ?_
        rw [heightAll_map_negated]
        exact (Nat.le_succ _).trans hnumber
      next =>
        split
        next => exact sent _
        next => exact sent _

-- ============================================================================
-- Control structures
-- ============================================================================

theorem height_ifStatement (c : Cst) :
    Yields (w.ifStatement c) fun n => n.toValue.height ≤ h + c.destructuring + 2 := by
  refine (height_lowerRole hw c _).bind fun condition hcondition => ?_
  refine (height_clauseOfRole hw c _).bind fun consequence hconsequence => ?_
  refine (height_clauseOfRole hw c _).bind fun alternative halternative => ?_
  exact height_located (by simp only [Value.heightAll]; omega)

theorem height_unlessStatement (c : Cst) :
    Yields (w.unlessStatement c) fun n => n.toValue.height ≤ h + c.destructuring + 2 := by
  refine (height_lowerRole hw c _).bind fun condition hcondition => ?_
  refine (height_clauseOfRole hw c _).bind fun alternative halternative => ?_
  refine (height_clauseOfRole hw c _).bind fun consequence hconsequence => ?_
  exact height_located (by simp only [Value.heightAll]; omega)

theorem height_ifModifier (c : Cst) :
    Yields (w.ifModifier c) fun n => n.toValue.height ≤ h + c.destructuring + 1 := by
  refine (height_lowerRole hw c _).bind fun body hbody => ?_
  refine (height_lowerRole hw c _).bind fun condition hcondition => ?_
  exact height_located (by simp only [Value.heightAll, Value.height]; omega)

theorem height_unlessModifier (c : Cst) :
    Yields (w.unlessModifier c) fun n => n.toValue.height ≤ h + c.destructuring + 1 := by
  refine (height_lowerRole hw c _).bind fun body hbody => ?_
  refine (height_lowerRole hw c _).bind fun condition hcondition => ?_
  exact height_located (by simp only [Value.heightAll, Value.height]; omega)

theorem height_loop (type : String) (c : Cst) :
    Yields (w.loop type c) fun n => n.toValue.height ≤ h + c.destructuring + 2 := by
  refine (height_lowerRole hw c _).bind fun condition hcondition => ?_
  refine (height_clauseOfRole hw c _).bind fun body hbody => ?_
  exact height_located (by simp only [Value.heightAll]; omega)

theorem height_loopModifier (type : String) (c : Cst) :
    Yields (w.loopModifier type c) fun n => n.toValue.height ≤ h + c.destructuring + 1 := by
  refine (yields_requirePart _).bind fun part hpart => ?_
  refine (height_lower hw (Cst.destructuring_le_of_part hpart)).bind fun body hbody => ?_
  refine (height_lowerRole hw c _).bind fun condition hcondition => ?_
  exact height_located (by simp only [Value.heightAll]; omega)

theorem height_caseStatement (c : Cst) :
    Yields (w.caseStatement c) fun n => n.toValue.height ≤ h + c.destructuring + 2 := by
  have clauses : ∀ d ∈ c.plainChildren.filter fun child => child.kind == .whenClause,
      d.destructuring ≤ c.destructuring := fun d hd =>
    Cst.destructuring_le_of_plain (List.mem_filter.mp hd).1
  have otherwise : ∀ d ∈ c.plainChildren.find? fun child => child.kind == .elseClause,
      d.destructuring ≤ c.destructuring := fun d hd =>
    Cst.destructuring_le_of_plain (List.mem_of_find?_eq_some hd)
  refine (height_lowerAll hw clauses).bind fun branches hbranches => ?_
  refine (height_lowerOptional hw fun _ => Cst.destructuring_le_of_part).bind
    fun subject hsubject => ?_
  refine (height_clause hw otherwise).bind fun other hother => height_located ?_
  rw [Value.heightAll_append]
  simp only [Value.heightAll]
  omega

theorem height_whenClause (c : Cst) :
    Yields (w.whenClause c) fun n => n.toValue.height ≤ h + c.destructuring + 2 := by
  have patterns : ∀ d ∈ c.inRole "pattern", d.destructuring ≤ c.destructuring := fun d hd =>
    Cst.destructuring_le_of_child (List.mem_filter.mp hd).1
  refine (height_lowerAll hw patterns).bind fun patterns hpatterns => ?_
  refine (height_clauseOfRole hw c _).bind fun body hbody => height_located ?_
  rw [Value.heightAll_append]
  simp only [Value.heightAll]
  omega

theorem height_matchPattern (c : Cst) :
    Yields (w.matchPattern c) fun n => n.toValue.height ≤ h + c.destructuring := by
  unfold matchPattern
  split
  next inner single =>
    have mem : inner ∈ c.plainChildren := by rw [single]; exact List.mem_singleton_self inner
    exact height_lower hw (Cst.destructuring_le_of_plain mem)
  next => exact .throw _

theorem height_jump (type : String) (c : Cst) :
    Yields (w.jump type c) fun n => n.toValue.height ≤ h + c.destructuring + 2 := by
  have low : Yields (w.jumpValues c.plainChildren) fun ns =>
      ∀ n ∈ ns, n.toValue.height ≤ h + c.destructuring + 1 := by
    refine yields_jumpValues_of_mem (fun d hd => ?_) fun d hd => ?_
    · have below : ∀ e ∈ d.plainChildren, e.destructuring ≤ c.destructuring := fun e he =>
        (Cst.destructuring_le_of_plain he).trans (Cst.destructuring_le_of_plain hd)
      exact (height_arguments hw below).mono fun ns hns =>
        forall_mem_asChildren.mp (Value.heightAll_le_iff.mp hns)
    · exact (height_lower hw (Cst.destructuring_le_of_plain hd)).mono fun n hn =>
        Nat.le_succ_of_le hn
  exact low.bind fun values hvalues =>
    height_located (Value.heightAll_le_iff.mpr (forall_mem_asChildren.mpr hvalues))

-- ============================================================================
-- Definitions
-- ============================================================================

theorem height_methodParts (c : Cst) (otherRoles : List String) :
    Yields (w.methodParts c otherRoles) fun result =>
      result.1.toValue.height ≤ h + c.destructuring + 2 ∧
        (Value.ofNode? result.2).height ≤ h + c.destructuring + 1 :=
  (height_parametersAndBody hw c (height_bodyOf hw c otherRoles)).withScope

theorem height_method (c : Cst) :
    Yields (w.method c) fun n => n.toValue.height ≤ h + c.destructuring + 3 := by
  refine .after fun name => (height_methodParts hw c _).bind fun parts hparts => ?_
  obtain ⟨args, body⟩ := parts
  obtain ⟨hargs, hbody⟩ := hparts
  dsimp only at hargs hbody
  exact height_located (by simp only [Value.heightAll, Value.height]; omega)

theorem height_singletonMethod (c : Cst) :
    Yields (w.singletonMethod c) fun n => n.toValue.height ≤ h + c.destructuring + 3 := by
  refine (height_lowerRole hw c _).bind fun object hobject => .after fun name => ?_
  refine (height_methodParts hw c _).bind fun parts hparts => ?_
  obtain ⟨args, body⟩ := parts
  obtain ⟨hargs, hbody⟩ := hparts
  dsimp only at hargs hbody
  exact height_located (by simp only [Value.heightAll, Value.height]; omega)

theorem height_superclass (c : Cst) :
    Yields (w.superclass (c.part? "superclass")) fun n =>
      (Value.ofNode? n).height ≤ h + c.destructuring := by
  cases part : c.part? "superclass" with
  | none => exact .pure (Nat.zero_le _)
  | some d =>
    have first : ∀ e ∈ d.plainChildren.head?, e.destructuring ≤ c.destructuring := fun e he =>
      (Cst.destructuring_le_of_plain (List.mem_of_mem_head? he)).trans
        (Cst.destructuring_le_of_part part)
    exact height_lowerOptional hw first

theorem height_classDefinition (c : Cst) :
    Yields (w.classDefinition c) fun n => n.toValue.height ≤ h + c.destructuring + 2 := by
  refine (height_lowerRole hw c _).bind fun name hname => ?_
  refine (height_superclass hw c).bind fun superclass hsuperclass => ?_
  refine (height_bodyOf hw c _).withScope.bind fun body hbody => ?_
  exact height_located (by simp only [Value.heightAll]; omega)

theorem height_moduleDefinition (c : Cst) :
    Yields (w.moduleDefinition c) fun n => n.toValue.height ≤ h + c.destructuring + 2 := by
  refine (height_lowerRole hw c _).bind fun name hname => ?_
  refine (height_bodyOf hw c _).withScope.bind fun body hbody => ?_
  exact height_located (by simp only [Value.heightAll]; omega)

theorem height_singletonClass (c : Cst) :
    Yields (w.singletonClass c) fun n => n.toValue.height ≤ h + c.destructuring + 2 := by
  refine (height_lowerRole hw c _).bind fun value hvalue => ?_
  refine (height_bodyOf hw c _).withScope.bind fun body hbody => ?_
  exact height_located (by simp only [Value.heightAll]; omega)

-- ============================================================================
-- All constructs
-- ============================================================================

/-- Every way to lower a construct puts at most three nodes above what is lowered
    inside it. -/
theorem height_handler {handler : Context → Cst → Lowering Node}
    (found : handler? c.kind = some handler) :
    Yields (handler w c) fun n => n.toValue.height ≤ h + c.destructuring + 3 := by
  have keyword : ∀ type, Yields (w.keyword type c) fun n =>
      n.toValue.height ≤ h + c.destructuring + 3 := fun type => height_locatedLeaves rfl
  have symbol : ∀ type dropped, Yields (w.symbolNode type dropped c) fun n =>
      n.toValue.height ≤ h + c.destructuring + 3 := fun type dropped =>
    .after fun s => height_locatedLeaves rfl
  have two {step : Lowering Node}
      (low : Yields step fun n => n.toValue.height ≤ h + c.destructuring + 2) :
      Yields step fun n => n.toValue.height ≤ h + c.destructuring + 3 :=
    low.mono fun n hn => Nat.le_succ_of_le hn
  have one {step : Lowering Node}
      (low : Yields step fun n => n.toValue.height ≤ h + c.destructuring + 1) :
      Yields step fun n => n.toValue.height ≤ h + c.destructuring + 3 :=
    two (low.mono fun n hn => Nat.le_succ_of_le hn)
  unfold handler? at found
  split at found <;> cases found
  · exact .after fun s => .after fun n => height_locatedLeaves rfl
  · refine .after fun s => ?_
    split
    next =>
      refine height_locatedLeaves ?_
      rw [Value.heightAll, Value.height_of_isLeaf (Value.isLeaf_ofFloat _ _)]
      rfl
    next => exact .throw _
  · exact keyword _
  · exact keyword _
  · exact keyword _
  · exact keyword _
  · exact two (height_stringNode hw _ _ (fun _ => rfl) c)
  · exact two (height_stringNode hw _ _ (fun _ => rfl) c)
  · exact one (height_collection hw _ c)
  · exact .after fun s => .after fun body => height_locatedLeaves rfl
  · exact symbol _ _
  · exact symbol _ _
  · exact two (height_stringNode hw _ _ (fun _ => rfl) c)
  · exact two (height_stringNode hw _ _ (fun _ => rfl) c)
  · exact two (height_regex hw c)
  · exact one (height_collection hw _ c)
  · exact one (height_collection hw _ c)
  · exact one (height_collection hw _ c)
  · exact one (height_collection hw _ c)
  · exact two (height_pair hw c)
  · exact one (height_collection hw _ c)
  · exact one (height_collection hw _ c)
  · exact one (height_blockArgument hw c)
  · exact keyword _
  · exact one (height_range hw c)
  · exact one (height_statementGroup hw _ c)
  · exact one (height_statementGroup hw _ c)
  · refine .after fun name => .after fun known => ?_
    split
    next => exact height_locatedLeaves rfl
    next => exact height_locatedLeaves rfl
  · exact symbol _ _
  · exact symbol _ _
  · exact symbol _ _
  · exact .after fun name => height_locatedLeaves rfl
  · exact keyword _
  · exact two (height_scopeResolution hw c)
  · exact height_assignment hw c
  · exact height_operatorAssignment hw c
  · exact height_call hw c
  · exact height_lambda hw c
  · exact two (height_elementReference hw c)
  · exact one (height_binary hw c)
  · exact one (height_unary hw c)
  · exact two (height_ifStatement hw c)
  · exact two (height_ifStatement hw c)
  · exact two (height_unlessStatement hw c)
  · exact two (height_ifStatement hw c)
  · exact one (height_ifModifier hw c)
  · exact one (height_unlessModifier hw c)
  · exact two (height_loop hw _ c)
  · exact two (height_loop hw _ c)
  · exact one (height_loopModifier hw _ c)
  · exact one (height_loopModifier hw _ c)
  · exact two (height_caseStatement hw c)
  · exact two (height_whenClause hw c)
  · exact one ((height_matchPattern hw c).mono fun n hn => Nat.le_succ_of_le hn)
  · exact two (height_jump hw _ c)
  · exact two (height_jump hw _ c)
  · exact two (height_jump hw _ c)
  · exact two (height_jump hw _ c)
  · exact keyword _
  · exact keyword _
  · exact height_method hw c
  · exact height_singletonMethod hw c
  · exact two (height_classDefinition hw c)
  · exact two (height_moduleDefinition hw c)
  · exact two (height_singletonClass hw c)

end

end Context

-- ============================================================================
-- The descent
-- ============================================================================

/-- Each level of the budget is good for three nodes. -/
theorem height_of_lower (o : Origin) (limit : Int) (room : Nat) (c : Cst) :
    Yields (lower o limit room c) fun n => n.toValue.height ≤ 3 * room + c.destructuring := by
  induction room using Nat.strongRecOn generalizing c with
  | ind room ih =>
    refine yields_lower_of_handler room fun handler smaller less found => ?_
    refine (Context.height_handler (ih smaller less) found).mono fun n hn => ?_
    omega

namespace Parser

/-- A parsed tree is at most three times as high as the limit on depth allows
    constructs inside one another, and one node more, if its source has no targets
    or parameters in lists; each of the lists that are one inside another adds a
    node. So it stays below eight times the limit unless they are many. -/
theorem height_le_of_parse {p : Parser} {source : String} {root : Cst} {n : Node}
    (grammar : p.grammar source = some root) (parsed : p.parse source = .ok n) :
    n.toValue.height ≤ 3 * p.maxDepth.toNat + 1 + root.destructuring ∧
      (root.destructuring ≤ 5 * p.maxDepth.toNat + 7 →
        n.toValue.height ≤ 8 * p.maxDepth.toNat + 8) := by
  obtain ⟨t, run⟩ := lowerProgram_of_parse grammar parsed
  have program : Yields (p.lowerProgram source root) fun n =>
      (Value.ofNode? n).height ≤ 3 * p.maxDepth.toNat + root.destructuring + 1 :=
    Context.height_compound (fun d => height_of_lower _ _ _ d)
      fun _ => Cst.destructuring_le_of_statement
  have low : n.toValue.height ≤ 3 * p.maxDepth.toNat + root.destructuring + 1 :=
    program _ _ _ run
  exact ⟨by omega, fun few => by omega⟩

end Parser

-- ============================================================================
-- Parameters in parentheses
-- ============================================================================

/-- A step of lowering has a result, whatever the scopes are, and every result of it
    satisfies a condition. -/
def Succeeds {α : Type} (step : Lowering α) (post : α → Prop) : Prop :=
  ∀ s, ∃ a t, step s = .ok (a, t) ∧ post a

namespace Succeeds

variable {α β : Type} {step : Lowering α} {next : α → Lowering β} {pre : α → Prop}
  {post : β → Prop}

theorem pure {b : β} (h : post b) : Succeeds (Pure.pure b) post :=
  fun s => ⟨b, s, rfl, h⟩

theorem bind (first : Succeeds step pre) (then_ : ∀ a, pre a → Succeeds (next a) post) :
    Succeeds (step >>= next) post := by
  intro s
  obtain ⟨a, t, run, ha⟩ := first s
  obtain ⟨b, u, run', hb⟩ := then_ a ha t
  refine ⟨b, u, ?_, hb⟩
  simp only [Bind.bind, StateT.bind, Except.bind, run]
  exact run'

theorem mono {post' : β → Prop} {step : Lowering β} (h : Succeeds step post)
    (weaker : ∀ b, post b → post' b) : Succeeds step post' := by
  intro s
  obtain ⟨b, t, run, hb⟩ := h s
  exact ⟨b, t, run, weaker b hb⟩

theorem modify (f : Scopes → Scopes) : Succeeds (modify f) fun _ => True :=
  fun s => ⟨(), f s, rfl, trivial⟩

theorem withScope {inherit : Bool} {inner : Lowering β} (h : Succeeds inner post) :
    Succeeds (withScope inherit inner) post :=
  (modify _).bind fun _ _ => h.bind fun _ hb => (modify _).bind fun _ _ => pure hb

end Succeeds

section

variable {cs : List Char} (narrow : ∀ c ∈ cs, c.utf8Size = 1)
include narrow

/-- No offset falls inside a character if all of them have one byte. -/
theorem dropBytes_of_narrow (n : Nat) : dropBytes cs n = some (cs.drop n) := by
  induction cs generalizing n with
  | nil => cases n <;> rfl
  | cons c cs ih =>
    rw [List.forall_mem_cons] at narrow
    cases n with
    | zero => rfl
    | succ n =>
      rw [dropBytes, narrow.1, if_pos (Nat.le_add_left 1 n), Nat.add_sub_cancel, ih narrow.2,
        List.drop_succ_cons]

theorem takeBytes_of_narrow (n : Nat) : takeBytes cs n = some (cs.take n) := by
  induction cs generalizing n with
  | nil => cases n <;> rfl
  | cons c cs ih =>
    rw [List.forall_mem_cons] at narrow
    cases n with
    | zero => rfl
    | succ n =>
      rw [takeBytes, narrow.1, if_pos (Nat.le_add_left 1 n), Nat.add_sub_cancel, ih narrow.2,
        List.take_succ_cons]
      rfl

theorem isSome_slice?_of_narrow (start stop : Nat) : (slice? cs start stop).isSome := by
  unfold slice?
  split
  next => rfl
  next =>
    have behind : ∀ c ∈ cs.drop start, c.utf8Size = 1 := fun c mem =>
      narrow c (List.mem_of_mem_drop mem)
    rw [dropBytes_of_narrow narrow, Option.bind_some, takeBytes_of_narrow behind]
    rfl

end

/-- A parenthesis at an offset. -/
def parenthesis (name : String) (start : Nat) : Cst :=
  .mk ⟨.other name, start, start + 1, none, false, false, false⟩ []

/-- A parameter of one letter in so many pairs of parentheses, from an offset on. -/
def parenthesized : Nat → Nat → Cst
  | 0, start => .mk ⟨.identifier, start, start + 1, none, true, false, false⟩ []
  | k + 1, start =>
    .mk ⟨.destructuredParameter, start, start + (2 * k + 3), none, true, false, false⟩
      [parenthesis "(" start, parenthesized k (start + 1), parenthesis ")" (start + (2 * k + 2))]

/-- The source of a method with such a parameter. -/
def parenthesizedSource (k : Nat) : String :=
  String.ofList ("def f(".toList ++ List.replicate k '(' ++ 'a' :: List.replicate k ')' ++
    ");end".toList)

/-- The method, as the grammar reads it. -/
def parenthesizedMethod (k : Nat) : Cst :=
  .mk ⟨.method, 0, 2 * k + 12, none, true, false, false⟩
    [.mk ⟨.other "def", 0, 3, none, false, false, false⟩ [],
      .mk ⟨.identifier, 4, 5, some "name", true, false, false⟩ [],
      .mk ⟨.other "method_parameters", 5, 2 * k + 8, some "parameters", true, false, false⟩
        [parenthesis "(" 5, parenthesized k 6, parenthesis ")" (2 * k + 7)],
      .mk ⟨.other ";", 2 * k + 8, 2 * k + 9, none, false, false, false⟩ [],
      .mk ⟨.other "end", 2 * k + 9, 2 * k + 12, none, false, false, false⟩ []]

/-- The program that is the method. -/
def parenthesizedProgram (k : Nat) : Cst :=
  .mk ⟨.other "program", 0, 2 * k + 12, none, true, false, false⟩ [parenthesizedMethod k]

theorem toList_parenthesizedSource (k : Nat) : (parenthesizedSource k).toList =
    "def f(".toList ++ List.replicate k '(' ++ 'a' :: List.replicate k ')' ++ ");end".toList :=
  String.toList_ofList

theorem narrow_parenthesizedSource (k : Nat) :
    ∀ c ∈ (parenthesizedSource k).toList, c.utf8Size = 1 := by
  have front : "def f(".toList.all (fun c => c.utf8Size == 1) = true := by decide
  have back : ");end".toList.all (fun c => c.utf8Size == 1) = true := by decide
  have narrow : ∀ {cs : List Char}, cs.all (fun c => c.utf8Size == 1) = true →
      ∀ c ∈ cs, c.utf8Size = 1 := fun all c mem => eq_of_beq (List.all_eq_true.mp all c mem)
  rw [toList_parenthesizedSource, List.forall_mem_append, List.forall_mem_append,
    List.forall_mem_append, List.forall_mem_cons]
  refine ⟨⟨⟨narrow front, fun c mem => ?_⟩, rfl, fun c mem => ?_⟩, narrow back⟩
  · rw [List.eq_of_mem_replicate mem]
    rfl
  · rw [List.eq_of_mem_replicate mem]
    rfl

theorem isPlain_parenthesized (k start : Nat) : (parenthesized k start).isPlain = true := by
  cases k <;> rfl

namespace Context

variable {w : Context} {c : Cst}

section

variable (narrow : ∀ c ∈ w.chars, c.utf8Size = 1)
include narrow

theorem succeeds_text (c : Cst) : Succeeds (w.text c) fun _ => True := fun s =>
  ⟨_, s, Origin.text_eq (isSome_slice?_of_narrow narrow _ _) s, trivial⟩

theorem succeeds_located (c : Cst) (type : String) (children : List Value) :
    Succeeds (w.located c type children) fun n =>
      n.toValue.height = Value.heightAll children + 1 := by
  obtain ⟨l, -, run⟩ := Origin.span_eq (isSome_slice?_of_narrow narrow c.head.start c.head.stop)
  have span : Succeeds (w.span c c) fun _ => True := fun s => ⟨l, s, run s, trivial⟩
  exact span.bind fun l _ => .pure rfl

/-- Each pair of parentheses is a node around what is inside. -/
theorem succeeds_parenthesized (k start : Nat) :
    Succeeds (w.parameter (parenthesized k start)) fun n => n.toValue.height = k + 1 := by
  induction k generalizing start with
  | zero =>
    unfold parenthesized parameter
    exact (succeeds_text narrow _).bind fun name _ => (Succeeds.modify _).bind fun _ _ =>
      succeeds_located narrow _ _ _
  | succ k ih =>
    have inside : Succeeds (w.parameterList [parenthesis "(" start, parenthesized k (start + 1),
        parenthesis ")" (start + (2 * k + 2))]) fun ns =>
          Value.heightAll (asChildren ns) = k + 1 := by
      have skipped : ∀ name start, (parenthesis name start).isPlain = false := fun _ _ => rfl
      simp only [parameterList, skipped, isPlain_parenthesized, Bool.false_eq_true, if_false,
        if_true]
      refine (ih (start + 1)).bind fun n hn => ?_
      have none : Succeeds (Pure.pure [] : Lowering (List Node)) fun ns => ns = [] := .pure rfl
      refine none.bind fun ns hns => .pure ?_
      rw [hns, asChildren, List.map_singleton, Value.heightAll, hn]
      exact Nat.max_zero _
    unfold parenthesized parameter
    refine inside.bind fun parts hparts => (succeeds_located narrow _ _ _).mono fun n hn => ?_
    rw [hn, hparts]

theorem succeeds_parenthesizedParameters (k : Nat) :
    Succeeds (w.parameters ((parenthesizedMethod k).part? "parameters")) fun n =>
      n.toValue.height = k + 2 := by
  obtain ⟨d, part, plain, locals⟩ : ∃ d, (parenthesizedMethod k).part? "parameters" = some d ∧
      d.plainChildren = [parenthesized k 6] ∧ d.inRole "locals" = [] := by
    refine ⟨_, rfl, ?_, ?_⟩
    · cases k <;> rfl
    · cases k <;> rfl
  have items : Succeeds (w.parametersOrLocals [] [parenthesized k 6]) fun ns =>
      Value.heightAll (asChildren ns) = k + 1 := by
    refine (succeeds_parenthesized narrow k 6).bind fun n hn => ?_
    have none : Succeeds (w.parametersOrLocals [] []) fun ns => ns = [] := .pure rfl
    refine none.bind fun ns hns => .pure ?_
    rw [hns, asChildren, List.map_singleton, Value.heightAll, hn]
    exact Nat.max_zero _
  rw [part, parameters, locals, plain]
  refine items.bind fun ns hns => (succeeds_located narrow _ _ _).mono fun n hn => ?_
  rw [hn, hns]

omit narrow in
/-- There is nothing in the method but its name and its parameters. -/
theorem succeeds_parenthesizedBody (k : Nat) :
    Succeeds (w.bodyOf (parenthesizedMethod k) ["name", "parameters"]) fun n => n = none := by
  have empty : ∀ {cs : List Cst}, (∀ c ∈ cs, c.isPlain = false) → Cst.flatten cs = [] := by
    intro cs unnamed
    induction cs with
    | nil => rfl
    | cons c cs ih =>
      rw [List.forall_mem_cons] at unnamed
      rw [Cst.flatten, unnamed.1, ih unnamed.2]
      rfl
  have absent : (parenthesizedMethod k).part? "body" = none := rfl
  rw [bodyOf, absent]
  dsimp only
  rw [empty]
  · exact .pure rfl
  · intro c mem
    obtain ⟨child, untaken⟩ := List.mem_filter.mp mem
    simp only [parenthesizedMethod, Cst.children, List.mem_cons, List.not_mem_nil,
      or_false] at child
    rcases child with rfl | rfl | rfl | rfl | rfl
    · rfl
    · simp [parenthesizedMethod, Cst.inRole, Cst.children, Cst.head, Cst.key] at untaken
    · simp [parenthesizedMethod, Cst.inRole, Cst.children, Cst.head, Cst.key] at untaken
    · rfl
    · rfl

theorem succeeds_parenthesizedMethod (k : Nat) :
    Succeeds (w.method (parenthesizedMethod k)) fun n => n.toValue.height = k + 3 := by
  have parts : Succeeds (w.methodParts (parenthesizedMethod k) ["name", "parameters"])
      fun result => result.1.toValue.height = k + 2 ∧ result.2 = none :=
    Succeeds.withScope ((succeeds_parenthesizedParameters narrow k).bind fun args hargs =>
      (succeeds_parenthesizedBody k).bind fun body hbody => .pure ⟨hargs, hbody⟩)
  refine (succeeds_text narrow _).bind fun name _ => parts.bind fun result hresult => ?_
  obtain ⟨args, body⟩ := result
  obtain ⟨hargs, rfl⟩ := hresult
  dsimp only at hargs
  refine (succeeds_located narrow _ _ _).mono fun n hn => ?_
  rw [hn]
  simp only [Value.heightAll, Value.height, Value.ofNode?]
  omega

end

end Context

namespace Parser

/-- The parser of such a program, with a limit of one construct and some more. -/
def ofParenthesized (limit k : Nat) : Parser :=
  ⟨fun _ => some (parenthesizedProgram k), defaultVersion, limit + 1⟩

theorem parse_parenthesized (limit k : Nat) :
    ∃ n, (ofParenthesized limit k).parse (parenthesizedSource k) = .ok n ∧
      n.toValue.height = k + 3 := by
  let p := ofParenthesized limit k
  let o := p.origin (parenthesizedSource k)
  have narrow := narrow_parenthesizedSource k
  have levels : p.maxDepth.toNat = limit + 1 := by
    show ((limit : Int) + 1).toNat = limit + 1
    omega
  have lowered : Succeeds (lower o p.maxDepth (limit + 1) (parenthesizedMethod k))
      fun n => n.toValue.height = k + 3 := Context.succeeds_parenthesizedMethod narrow k
  have single : Succeeds
      (Context.lowerAll ⟨o, lower o p.maxDepth (limit + 1)⟩ [parenthesizedMethod k])
      fun ns => ∃ n, ns = [n] ∧ n.toValue.height = k + 3 :=
    lowered.bind fun n hn => .pure ⟨n, rfl, hn⟩
  have program : Succeeds (p.lowerProgram (parenthesizedSource k) (parenthesizedProgram k))
      fun m => ∃ n, m = some n ∧ n.toValue.height = k + 3 := by
    have statements : (parenthesizedProgram k).statements = [parenthesizedMethod k] := rfl
    rw [lowerProgram, levels, statements]
    refine single.bind fun ns hns => ?_
    obtain ⟨n, rfl, hn⟩ := hns
    exact .pure ⟨n, rfl, hn⟩
  obtain ⟨_, t, run, n, rfl, hn⟩ := program Scopes.initial
  have grammar : p.grammar (parenthesizedSource k) = some (parenthesizedProgram k) := rfl
  have whole : (parenthesizedProgram k).head.broken = false := rfl
  refine ⟨n, ?_, hn⟩
  show p.parse (parenthesizedSource k) = .ok n
  rw [parse, grammar]
  simp only [whole, run, Bool.false_eq_true, if_false]

/-- No limit on depth bounds the height of trees: parameters in parentheses are made
    without a look at it, however many pairs there are. -/
theorem exists_parse_higher (limit bound : Nat) :
    ∃ (p : Parser) (source : String) (n : Node), p.maxDepth = limit + 1 ∧
      p.parse source = .ok n ∧ bound < n.toValue.height := by
  obtain ⟨n, parsed, height⟩ := parse_parenthesized limit bound
  exact ⟨ofParenthesized limit bound, parenthesizedSource bound, n, rfl, parsed, by omega⟩

/-- Twelve pairs of parentheses are few enough for a limit of one construct. -/
theorem height_le_of_parse_twelvePairs :
    ∃ n, (ofParenthesized 0 12).parse (parenthesizedSource 12) = .ok n ∧
      (parenthesizedProgram 12).destructuring = 12 ∧ n.toValue.height = 15 ∧
      n.toValue.height ≤ 8 * 1 + 8 := by
  obtain ⟨n, parsed, height⟩ := parse_parenthesized 0 12
  have lists : (parenthesizedProgram 12).destructuring = 12 := by decide
  have few : (parenthesizedProgram 12).destructuring ≤ 5 * 1 + 7 := Nat.le_of_eq lists
  exact ⟨n, parsed, lists, height, (height_le_of_parse rfl parsed).2 few⟩

end Parser

end RubyPattern.Ruby
