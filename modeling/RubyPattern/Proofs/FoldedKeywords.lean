/-
  RubyPattern.Proofs.FoldedKeywords

  Parsed trees have their keywords in hashes, if the source has them in hashes, arguments,
  arrays and indexes only, and none of them is exposed. The keywords of calls, indexes and
  jumps are folded. Those in an array are not: it has them for children.
-/
import RubyPattern.Proofs.HashKeywords

namespace RubyPattern.Ruby

namespace Context

variable {w : Context} {root c : Cst}

section

variable (listed : root.KeywordsListed)
  (hw : ∀ d ∈ root.constructs, Yields (w.lower d) (w.Folds root d))
include listed hw

-- ============================================================================
-- Parameters
-- ============================================================================

omit listed hw in
theorem seated_nameChild {stray : Node → Prop} (name : Option String) :
    (nameChild name).Seated stray := by
  cases name with
  | none => exact Value.seated_nil
  | some name => exact Value.seated_sym name

omit listed hw in
theorem isLeaf_collecting (name : Option String) :
    ∀ v ∈ name.toList.map Value.sym, v.isLeaf = true :=
  List.forall_mem_map.mpr fun _ _ => rfl

omit listed hw in
mutual

theorem ordinary_parameter (listed : root.KeywordsListed)
    (hw : ∀ d ∈ root.constructs, Yields (w.lower d) (w.Folds root d)) (c : Cst)
    (mem : c ∈ root.constructs) :
    Yields (w.parameter c) (Node.Ordinary (w.Stray root)) := by
  obtain ⟨head, children⟩ := c
  unfold parameter
  dsimp only
  split
  next =>
    exact .after fun name => .after fun _ =>
      ordinary_located (by decide) (List.forall_mem_singleton.mpr (Value.seated_sym _))
  next =>
    have inside : ∀ d ∈ children, d ∈ root.constructs := fun d child =>
      Cst.mem_constructs_of_child mem child
    exact (ordinary_parameterList listed hw children inside).bind fun parts hparts =>
      ordinary_located (by decide) (forall_mem_asChildren.mpr fun n hn => (hparts n hn).seated)
  next => exact ordinary_keyword (by decide) _
  next => exact ordinary_keyword (by decide) _
  next =>
    refine .after fun name => ?_
    have named : (nameChild name).Seated (w.Stray root) := seated_nameChild name
    split
    next kind =>
      have loose : Loose root (.mk head children) := .of_kind listed mem kind rfl
      exact (seated_lowerRole hw loose _).bind fun value seated =>
        ordinary_located (by decide) (by simp [named, seated])
    next kind =>
      split
      next => exact ordinary_located (by decide) (List.forall_mem_singleton.mpr named)
      next part =>
        have loose : Loose root (.mk head children) := .of_kind listed mem kind rfl
        exact (seated_lower hw (loose.part part)).bind fun value seated =>
          ordinary_located (by decide) (by simp [named, seated])
    next => exact ordinary_locatedLeaves (by decide) (isLeaf_collecting name)
    next => exact ordinary_locatedLeaves (by decide) (isLeaf_collecting name)
    next => exact ordinary_located (by decide) (List.forall_mem_singleton.mpr named)
    next => exact .throw _

theorem ordinary_parameterList (listed : root.KeywordsListed)
    (hw : ∀ d ∈ root.constructs, Yields (w.lower d) (w.Folds root d)) (cs : List Cst)
    (mem : ∀ c ∈ cs, c ∈ root.constructs) :
    Yields (w.parameterList cs) fun ns => ∀ n ∈ ns, n.Ordinary (w.Stray root) := by
  cases cs with
  | nil => exact .pure (List.forall_mem_nil _)
  | cons c cs =>
    rw [List.forall_mem_cons] at mem
    have later := ordinary_parameterList listed hw cs mem.2
    unfold parameterList
    split
    next =>
      exact (ordinary_parameter listed hw c mem.1).bind fun n hn => later.bind fun ns hns =>
        .pure (List.forall_mem_cons.mpr ⟨hn, hns⟩)
    next => exact later

end

theorem ordinary_parameterOrLocal (locals : List (Nat × Nat × Kind))
    (mem : c ∈ root.constructs) :
    Yields (w.parameterOrLocal locals c) (Node.Ordinary (w.Stray root)) := by
  unfold parameterOrLocal
  split
  next =>
    exact .after fun name => .after fun _ =>
      ordinary_located (by decide) (List.forall_mem_singleton.mpr (Value.seated_sym _))
  next => exact ordinary_parameter listed hw c mem

theorem seated_parameters (mem : c ∈ root.constructs) :
    Yields (w.parameters (c.part? "parameters")) fun n => n.toValue.Seated (w.Stray root) := by
  cases part : c.part? "parameters" with
  | none => exact .pure (Node.ordinary_of_leaves rfl (List.forall_mem_nil _)).seated
  | some d =>
    have inside := Cst.mem_constructs_of_plain (Cst.mem_constructs_of_part mem part)
    refine (yields_parametersOrLocals_of_mem fun e he =>
      ordinary_parameterOrLocal listed hw _ (inside e he)).bind fun items hitems => ?_
    refine (ordinary_located (by decide) ?_).mono fun _ hn => hn.seated
    exact forall_mem_asChildren.mpr fun n hn => (hitems n hn).seated

/-- The parameters and the body of a block, a lambda or a method. -/
theorem seated_parametersAndBody (mem : c ∈ root.constructs) {body : Lowering (Option Node)}
    (hbody : Yields body fun n => (Value.ofNode? n).Seated (w.Stray root)) :
    Yields (do
      let args ← w.parameters (c.part? "parameters")
      let body ← body
      return (args, body)) fun result =>
        result.1.toValue.Seated (w.Stray root) ∧
          (Value.ofNode? result.2).Seated (w.Stray root) :=
  (seated_parameters listed hw mem).bind fun _ hargs => hbody.bind fun _ hbody =>
    .pure ⟨hargs, hbody⟩

-- ============================================================================
-- Calls and operators
-- ============================================================================

theorem ordinary_withBlock {callee : Node} (hcallee : callee.toValue.Seated (w.Stray root))
    {block : Cst} (opened : Opened root block) :
    Yields (w.withBlock c callee block) (Node.Ordinary (w.Stray root)) := by
  have body := seated_bodyOf listed hw (.of_opened opened) ["parameters"]
  have parts := seated_parametersAndBody listed hw opened.mem body
  refine parts.withScope.bind fun result hresult => ?_
  obtain ⟨args, body⟩ := result
  obtain ⟨hargs, hbody⟩ := hresult
  dsimp only at hargs hbody
  exact ordinary_located (by decide) (by simp [hcallee, hargs, hbody])

theorem ordinary_lambda (mem : c ∈ root.constructs) (kind : c.kind = .lambda) :
    Yields (w.lambda c) (Node.Ordinary (w.Stray root)) := by
  have keyword : (Node.bare "lambda" []).toValue.Seated (w.Stray root) :=
    (Node.ordinary_of_leaves rfl (List.forall_mem_nil _)).seated
  have finish : ∀ {parts : Lowering (Node × Option Node)},
      Yields parts (fun result => result.1.toValue.Seated (w.Stray root) ∧
        (Value.ofNode? result.2).Seated (w.Stray root)) →
      Yields (withScope true parts >>= fun result =>
        w.located c "block" [Node.bare "lambda" [], result.1, .ofNode? result.2])
          (Node.Ordinary (w.Stray root)) := by
    intro parts hparts
    refine hparts.withScope.bind fun result hresult => ?_
    exact ordinary_located (by decide) (by simp [keyword, hresult])
  refine finish ((seated_parameters listed hw mem).bind fun args hargs => ?_)
  split
  next d part =>
    have opened : Opened root d := .body mem kind part
    exact (seated_bodyOf listed hw (.of_opened opened) _).bind fun body hbody =>
      .pure ⟨hargs, hbody⟩
  next => exact .pure ⟨hargs, Value.seated_nil⟩

omit listed in
theorem seated_callArguments (mem : c ∈ root.constructs) :
    Yields (w.callArguments (c.part? "arguments")) fun ns =>
      ∀ n ∈ ns, n.toValue.Seated (w.Stray root) := by
  cases part : c.part? "arguments" with
  | none => exact .pure (List.forall_mem_nil _)
  | some d =>
    exact seated_arguments hw (Cst.mem_constructs_of_plain (Cst.mem_constructs_of_part mem part))

omit listed in
theorem ordinary_send (mem : c ∈ root.constructs) (loose : Loose root c) :
    Yields (w.send c) (Node.Ordinary (w.Stray root)) := by
  refine (seated_lowerOptional hw fun _ => loose.part).bind fun receiver hreceiver => ?_
  refine (seated_callArguments hw mem).bind fun arguments harguments => .after fun l => ?_
  have children := forall_mem_asChildren.mpr harguments
  have sent : ∀ operator name, (⟨.plain (sendType operator),
      .ofNode? receiver :: .sym name :: asChildren arguments, some l⟩ : Node).Ordinary
        (w.Stray root) := by
    intro operator name
    refine ⟨Node.folded_of_seated ?_, isKeyword_eq_false_of_type rfl (sendType_not_keyword _)⟩
    rw [List.forall_mem_cons, List.forall_mem_cons]
    exact ⟨hreceiver, Value.seated_sym name, children⟩
  split
  next => exact .after fun operator => .pure (sent operator "call")
  next =>
    split
    next => exact .pure ⟨Node.folded_of_seated children, rfl⟩
    next => exact .after fun name => .after fun operator => .pure (sent operator name)

theorem ordinary_call (mem : c ∈ root.constructs) (kind : c.kind = .call) :
    Yields (w.call c) (Node.Ordinary (w.Stray root)) := by
  have loose : Loose root c := .of_kind listed mem kind rfl
  refine (ordinary_send hw mem loose).bind fun callee hcallee => ?_
  split
  next part => exact ordinary_withBlock listed hw hcallee.seated (.block mem kind part)
  next => exact .pure hcallee

omit listed in
theorem ordinary_elementReference (mem : c ∈ root.constructs)
    (kind : c.kind = .elementReference) :
    Yields (w.elementReference c) (Node.Ordinary (w.Stray root)) := by
  unfold elementReference
  split
  next => exact .throw _
  next object part =>
    refine (seated_indexArguments hw mem object).bind fun arguments harguments => ?_
    have standing : Standing root object :=
      ⟨Cst.mem_constructs_of_part mem part, fun _ => .indexed mem kind part⟩
    refine (seated_lower hw standing).bind fun receiver hreceiver => ?_
    refine ordinary_located (by decide) ?_
    rw [List.forall_mem_cons, List.forall_mem_cons]
    exact ⟨hreceiver, Value.seated_sym _, forall_mem_asChildren.mpr harguments⟩

omit listed in
theorem ordinary_binary (loose : Loose root c) :
    Yields (w.binary c) (Node.Ordinary (w.Stray root)) := by
  refine (seated_lowerRole hw loose _).bind fun left hleft => .after fun operator => ?_
  refine (seated_lowerRole hw loose _).bind fun right hright => ?_
  have children : ∀ v ∈ [left.toValue, right.toValue], v.Seated (w.Stray root) := by
    simp [hleft, hright]
  split
  next => exact ordinary_located (by decide) children
  next =>
    split
    next => exact ordinary_located (by decide) children
    next => exact ordinary_located (by decide) (by simp [hleft, hright])

omit listed hw in
theorem mem_or_seated_of_negated {stray : Node → Prop} (vs : List Value) :
    ∀ v ∈ vs.map negated, v ∈ vs ∨ v.Seated stray := by
  rw [List.forall_mem_map]
  intro v mem
  cases v with
  | int n => exact .inr (Value.seated_int (-n))
  | float x => exact .inr (Value.seated_of_isLeaf rfl)
  | _ => exact .inl mem

theorem ordinary_unary (mem : c ∈ root.constructs) (kind : c.kind = .unary) :
    Yields (w.unary c) (Node.Ordinary (w.Stray root)) := by
  refine .after fun operator => (yields_operand c).bind fun operand child => ?_
  have plain : isKeyword operand = false := listed.isKeyword_eq_false mem kind rfl child
  have lowered := ordinary_lower hw (Cst.mem_constructs_of_child mem child) plain
  have sent : ∀ operator, Yields (w.operatorSend c operator operand)
      (Node.Ordinary (w.Stray root)) := fun operator =>
    lowered.bind fun receiver hreceiver =>
      ordinary_located (by decide) (by simp [hreceiver.seated])
  split
  next => exact sent _
  next =>
    split
    next =>
      exact lowered.bind fun inner hinner =>
        ordinary_located (by decide) (List.forall_mem_singleton.mpr hinner.seated)
    next =>
      split
      next =>
        exact lowered.bind fun number hnumber =>
          ordinary_retyped hnumber (mem_or_seated_of_negated number.children)
      next =>
        split
        next => exact sent _
        next => exact sent _

-- ============================================================================
-- Control structures
-- ============================================================================

theorem ordinary_ifStatement (loose : Loose root c) :
    Yields (w.ifStatement c) (Node.Ordinary (w.Stray root)) := by
  refine (seated_lowerRole hw loose _).bind fun condition hcondition => ?_
  refine (seated_clauseOfRole listed hw loose _).bind fun consequence hconsequence => ?_
  refine (seated_clauseOfRole listed hw loose _).bind fun alternative halternative => ?_
  exact ordinary_located (by decide) (by simp [hcondition, hconsequence, halternative])

theorem ordinary_unlessStatement (loose : Loose root c) :
    Yields (w.unlessStatement c) (Node.Ordinary (w.Stray root)) := by
  refine (seated_lowerRole hw loose _).bind fun condition hcondition => ?_
  refine (seated_clauseOfRole listed hw loose _).bind fun alternative halternative => ?_
  refine (seated_clauseOfRole listed hw loose _).bind fun consequence hconsequence => ?_
  exact ordinary_located (by decide) (by simp [hcondition, hconsequence, halternative])

omit listed in
theorem ordinary_ifModifier (loose : Loose root c) :
    Yields (w.ifModifier c) (Node.Ordinary (w.Stray root)) := by
  refine (seated_lowerRole hw loose _).bind fun body hbody => ?_
  refine (seated_lowerRole hw loose _).bind fun condition hcondition => ?_
  exact ordinary_located (by decide) (by simp [hbody, hcondition])

omit listed in
theorem ordinary_unlessModifier (loose : Loose root c) :
    Yields (w.unlessModifier c) (Node.Ordinary (w.Stray root)) := by
  refine (seated_lowerRole hw loose _).bind fun body hbody => ?_
  refine (seated_lowerRole hw loose _).bind fun condition hcondition => ?_
  exact ordinary_located (by decide) (by simp [hbody, hcondition])

theorem ordinary_loop {type : String} (plain : type ∉ ["pair", "kwsplat"])
    (loose : Loose root c) : Yields (w.loop type c) (Node.Ordinary (w.Stray root)) := by
  refine (seated_lowerRole hw loose _).bind fun condition hcondition => ?_
  refine (seated_clauseOfRole listed hw loose _).bind fun body hbody => ?_
  exact ordinary_located plain (by simp [hcondition, hbody])

omit listed in
theorem ordinary_loopModifier {type : String} (plain : type ∉ ["pair", "kwsplat"])
    (post : type ++ "_post" ∉ ["pair", "kwsplat"]) (loose : Loose root c) :
    Yields (w.loopModifier type c) (Node.Ordinary (w.Stray root)) := by
  refine (yields_requirePart _).bind fun part hpart => ?_
  refine (seated_lower hw (loose.part hpart)).bind fun body hbody => ?_
  refine (seated_lowerRole hw loose _).bind fun condition hcondition => ?_
  have either : (if part.kind == .beginBlock then type ++ "_post" else type) ∉
      ["pair", "kwsplat"] := by
    split
    next => exact post
    next => exact plain
  exact ordinary_located either (by simp [hcondition, hbody])

theorem ordinary_caseStatement (loose : Loose root c) :
    Yields (w.caseStatement c) (Node.Ordinary (w.Stray root)) := by
  have clauses : ∀ d ∈ c.plainChildren.filter fun child => child.kind == .whenClause,
      Standing root d := fun d mem => loose.plain d (List.mem_of_mem_filter mem)
  have otherwise : ∀ d ∈ c.plainChildren.find? fun child => child.kind == .elseClause,
      Standing root d := fun d found => loose.plain d (List.mem_of_find?_eq_some found)
  refine (seated_lowerAll hw clauses).bind fun branches hbranches => ?_
  refine (seated_lowerOptional hw fun _ => loose.part).bind fun subject hsubject => ?_
  refine (seated_clause listed hw otherwise).bind fun other hother => ?_
  refine ordinary_located (by decide) ?_
  rw [List.forall_mem_append, List.forall_mem_cons, List.forall_mem_singleton]
  exact ⟨⟨hsubject, forall_mem_asChildren.mpr hbranches⟩, hother⟩

theorem ordinary_whenClause (loose : Loose root c) :
    Yields (w.whenClause c) (Node.Ordinary (w.Stray root)) := by
  have patterns : ∀ d ∈ c.inRole "pattern", Standing root d := fun d mem =>
    loose d (List.mem_of_mem_filter mem)
  refine (seated_lowerAll hw patterns).bind fun patterns hpatterns => ?_
  refine (seated_clauseOfRole listed hw loose _).bind fun body hbody => ?_
  refine ordinary_located (by decide) ?_
  rw [List.forall_mem_append, List.forall_mem_singleton]
  exact ⟨forall_mem_asChildren.mpr hpatterns, hbody⟩

theorem ordinary_matchPattern (mem : c ∈ root.constructs) (kind : c.kind = .matchPattern) :
    Yields (w.matchPattern c) (Node.Ordinary (w.Stray root)) := by
  unfold matchPattern
  split
  next inner single =>
    have child : inner ∈ c.children :=
      c.plainChildren_sublist.mem (by rw [single]; exact List.mem_singleton_self inner)
    exact ordinary_lower hw (Cst.mem_constructs_of_child mem child)
      (listed.isKeyword_eq_false mem kind rfl child)
  next => exact .throw _

omit listed in
/-- The arguments that leave with a jump are folded, and what leaves by itself is no
    keyword. -/
theorem ordinary_jump {type : String} (plain : type ∉ ["pair", "kwsplat"])
    (loose : Loose root c) : Yields (w.jump type c) (Node.Ordinary (w.Stray root)) := by
  have arguments : ∀ d ∈ c.plainChildren, Yields (w.arguments d.plainChildren) fun ns =>
      ∀ n ∈ ns, n.toValue.Seated (w.Stray root) := fun d inside =>
    seated_arguments hw (Cst.mem_constructs_of_plain (loose.plain d inside).mem)
  refine (yields_jumpValues_of_mem arguments fun d inside =>
    seated_lower hw (loose.plain d inside)).bind fun _ hvalues => ?_
  exact ordinary_located plain (forall_mem_asChildren.mpr hvalues)

-- ============================================================================
-- Definitions
-- ============================================================================

theorem seated_methodParts (mem : c ∈ root.constructs) (loose : Loose root c)
    (otherRoles : List String) :
    Yields (w.methodParts c otherRoles) fun result =>
      result.1.toValue.Seated (w.Stray root) ∧
        (Value.ofNode? result.2).Seated (w.Stray root) :=
  (seated_parametersAndBody listed hw mem (seated_bodyOf listed hw loose otherRoles)).withScope

theorem ordinary_method (mem : c ∈ root.constructs) (loose : Loose root c) :
    Yields (w.method c) (Node.Ordinary (w.Stray root)) := by
  refine .after fun name => (seated_methodParts listed hw mem loose _).bind fun parts hparts => ?_
  obtain ⟨args, body⟩ := parts
  obtain ⟨hargs, hbody⟩ := hparts
  dsimp only at hargs hbody
  exact ordinary_located (by decide) (by simp [hargs, hbody])

theorem ordinary_singletonMethod (mem : c ∈ root.constructs) (loose : Loose root c) :
    Yields (w.singletonMethod c) (Node.Ordinary (w.Stray root)) := by
  refine (seated_lowerRole hw loose _).bind fun object hobject => .after fun name => ?_
  refine (seated_methodParts listed hw mem loose _).bind fun parts hparts => ?_
  obtain ⟨args, body⟩ := parts
  obtain ⟨hargs, hbody⟩ := hparts
  dsimp only at hargs hbody
  exact ordinary_located (by decide) (by simp [hobject, hargs, hbody])

omit listed in
theorem seated_superclass (mem : c ∈ root.constructs) (kind : c.kind = .classDefinition) :
    Yields (w.superclass (c.part? "superclass")) fun n =>
      (Value.ofNode? n).Seated (w.Stray root) := by
  cases part : c.part? "superclass" with
  | none => exact .pure Value.seated_nil
  | some d =>
    have loose : Loose root d := .of_opened (.superclass mem kind part)
    exact seated_lowerOptional hw fun e first => loose.plain e (List.mem_of_mem_head? first)

theorem ordinary_classDefinition (mem : c ∈ root.constructs)
    (kind : c.kind = .classDefinition) :
    Yields (w.classDefinition c) (Node.Ordinary (w.Stray root)) := by
  have loose : Loose root c := .of_kind listed mem kind rfl
  refine (seated_lowerRole hw loose _).bind fun name hname => ?_
  refine (seated_superclass hw mem kind).bind fun superclass hsuperclass => ?_
  refine (seated_bodyOf listed hw loose _).withScope.bind fun body hbody => ?_
  exact ordinary_located (by decide) (by simp [hname, hsuperclass, hbody])

theorem ordinary_moduleDefinition (loose : Loose root c) :
    Yields (w.moduleDefinition c) (Node.Ordinary (w.Stray root)) := by
  refine (seated_lowerRole hw loose _).bind fun name hname => ?_
  refine (seated_bodyOf listed hw loose _).withScope.bind fun body hbody => ?_
  exact ordinary_located (by decide) (by simp [hname, hbody])

theorem ordinary_singletonClass (loose : Loose root c) :
    Yields (w.singletonClass c) (Node.Ordinary (w.Stray root)) := by
  refine (seated_lowerRole hw loose _).bind fun value hvalue => ?_
  refine (seated_bodyOf listed hw loose _).withScope.bind fun body hbody => ?_
  exact ordinary_located (by decide) (by simp [hvalue, hbody])

-- ============================================================================
-- All constructs
-- ============================================================================

omit listed in
theorem folds_keywordSplat (kind : c.kind = .hashSplatArgument) (loose : Loose root c) :
    Yields (w.collection "kwsplat" c) (w.Folds root c) := by
  have keyword : isKeyword c = true := by rw [isKeyword, kind]; rfl
  exact (seated_lowerAll hw loose.plain).bind fun _ hns =>
    folds_locatedKeyword keyword (forall_mem_asChildren.mpr hns)

/-- Every construct but a keyword becomes a node that is no keyword, with those below it in
    hashes. -/
theorem folds_handler {handler : Context → Cst → Lowering Node} (mem : c ∈ root.constructs)
    (found : handler? c.kind = some handler) : Yields (handler w c) (w.Folds root c) := by
  have ordinary {step : Lowering Node} (h : Yields step (Node.Ordinary (w.Stray root))) :
      Yields step (w.Folds root c) := h.mono fun _ hn => .of_ordinary hn
  have leaves {type : String} {v : Value} (plain : type ∉ ["pair", "kwsplat"])
      (leaf : v.isLeaf = true) : Yields (w.located c type [v]) (w.Folds root c) :=
    ordinary (ordinary_locatedLeaves plain (List.forall_mem_singleton.mpr leaf))
  have string {plain dynamic : String} {wrap : String → Value}
      (hplain : plain ∉ ["pair", "kwsplat"]) (hdynamic : dynamic ∉ ["pair", "kwsplat"])
      (leaf : ∀ s, (wrap s).isLeaf = true) :
      Yields (w.stringNode plain dynamic wrap c) (w.Folds root c) :=
    ordinary (ordinary_stringNode listed hw hplain hdynamic leaf mem)
  have keyword {type : String} (plain : type ∉ ["pair", "kwsplat"]) :
      Yields (w.keyword type c) (w.Folds root c) := ordinary (ordinary_keyword plain c)
  have symbol {type : String} (plain : type ∉ ["pair", "kwsplat"]) (dropped : Nat) :
      Yields (w.symbolNode type dropped c) (w.Folds root c) :=
    ordinary (ordinary_symbolNode plain dropped c)
  have loose {k : Kind} (kind : c.kind = k) (unlisted : k.listsKeywords = false) :
      Loose root c := .of_kind listed mem kind unlisted
  unfold handler? at found
  split at found <;> cases found
  next => exact .after fun s => .after fun n => leaves (by decide) rfl
  next =>
    refine .after fun s => ?_
    split
    next => exact leaves (by decide) (Value.isLeaf_ofFloat _ _)
    next => exact .throw _
  next => exact keyword (by decide)
  next => exact keyword (by decide)
  next => exact keyword (by decide)
  next => exact keyword (by decide)
  next => exact string (by decide) (by decide) fun _ => rfl
  next => exact string (by decide) (by decide) fun _ => rfl
  next kind => exact ordinary (ordinary_collection hw (by decide) (loose kind rfl))
  next => exact .after fun s => .after fun body => leaves (by decide) rfl
  next => exact symbol (by decide) _
  next => exact symbol (by decide) _
  next => exact string (by decide) (by decide) fun _ => rfl
  next => exact string (by decide) (by decide) fun _ => rfl
  next => exact ordinary (ordinary_regex listed hw mem)
  next kind => exact ordinary (ordinary_collection hw (by decide) (.of_array mem kind))
  next kind => exact ordinary (ordinary_collection hw (by decide) (loose kind rfl))
  next kind => exact ordinary (ordinary_collection hw (by decide) (loose kind rfl))
  next => exact ordinary (ordinary_hashLiteral hw mem)
  next kind => exact folds_pair listed hw mem kind
  next kind => exact ordinary (ordinary_collection hw (by decide) (loose kind rfl))
  next kind => exact folds_keywordSplat hw kind (loose kind rfl)
  next kind => exact ordinary (ordinary_blockArgument hw (loose kind rfl))
  next => exact keyword (by decide)
  next kind => exact ordinary (ordinary_range hw (loose kind rfl))
  next kind => exact ordinary (ordinary_statementGroup listed hw (by decide) (loose kind rfl))
  next kind => exact ordinary (ordinary_statementGroup listed hw (by decide) (loose kind rfl))
  next =>
    refine .after fun name => .after fun known => ?_
    split
    next => exact leaves (by decide) rfl
    next => exact ordinary (ordinary_located (by decide) (by simp))
  next => exact symbol (by decide) _
  next => exact symbol (by decide) _
  next => exact symbol (by decide) _
  next => exact .after fun name => ordinary (ordinary_located (by decide) (by simp))
  next => exact keyword (by decide)
  next kind => exact ordinary (ordinary_scopeResolution hw (loose kind rfl))
  next kind => exact ordinary (ordinary_assignment listed hw (loose kind rfl))
  next kind => exact ordinary (ordinary_operatorAssignment listed hw (loose kind rfl))
  next kind => exact ordinary (ordinary_call listed hw mem kind)
  next kind => exact ordinary (ordinary_lambda listed hw mem kind)
  next kind => exact ordinary (ordinary_elementReference hw mem kind)
  next kind => exact ordinary (ordinary_binary hw (loose kind rfl))
  next kind => exact ordinary (ordinary_unary listed hw mem kind)
  next kind => exact ordinary (ordinary_ifStatement listed hw (loose kind rfl))
  next kind => exact ordinary (ordinary_ifStatement listed hw (loose kind rfl))
  next kind => exact ordinary (ordinary_unlessStatement listed hw (loose kind rfl))
  next kind => exact ordinary (ordinary_ifStatement listed hw (loose kind rfl))
  next kind => exact ordinary (ordinary_ifModifier hw (loose kind rfl))
  next kind => exact ordinary (ordinary_unlessModifier hw (loose kind rfl))
  next kind => exact ordinary (ordinary_loop listed hw (by decide) (loose kind rfl))
  next kind => exact ordinary (ordinary_loop listed hw (by decide) (loose kind rfl))
  next kind => exact ordinary (ordinary_loopModifier hw (by decide) (by decide) (loose kind rfl))
  next kind => exact ordinary (ordinary_loopModifier hw (by decide) (by decide) (loose kind rfl))
  next kind => exact ordinary (ordinary_caseStatement listed hw (loose kind rfl))
  next kind => exact ordinary (ordinary_whenClause listed hw (loose kind rfl))
  next kind => exact ordinary (ordinary_matchPattern listed hw mem kind)
  next kind => exact ordinary (ordinary_jump hw (by decide) (loose kind rfl))
  next kind => exact ordinary (ordinary_jump hw (by decide) (loose kind rfl))
  next kind => exact ordinary (ordinary_jump hw (by decide) (loose kind rfl))
  next kind => exact ordinary (ordinary_jump hw (by decide) (loose kind rfl))
  next => exact keyword (by decide)
  next => exact keyword (by decide)
  next kind => exact ordinary (ordinary_method listed hw mem (loose kind rfl))
  next kind => exact ordinary (ordinary_singletonMethod listed hw mem (loose kind rfl))
  next kind => exact ordinary (ordinary_classDefinition listed hw mem kind)
  next kind => exact ordinary (ordinary_moduleDefinition listed hw (loose kind rfl))
  next kind => exact ordinary (ordinary_singletonClass listed hw (loose kind rfl))

end

end Context

-- ============================================================================
-- The descent
-- ============================================================================

variable {o : Origin} {limit : Int} {root c d : Cst}

theorem folds_lower (listed : root.KeywordsListed) (o : Origin) (limit : Int) (room : Nat)
    (mem : c ∈ root.constructs) : Yields (lower o limit room c) (o.Folds root c) := by
  induction room using Nat.strongRecOn generalizing c with
  | ind room ih =>
    refine yields_lower_of_handler room fun handler smaller less found => ?_
    exact Context.folds_handler listed (fun d mem => ih smaller less mem) mem found

/-- A pair or a keyword splat of a parsed tree that is not the child of a hash is the node of an
    exposed keyword, if the keywords of the source are in hashes, arguments, arrays and indexes
    only. So all of them are in hashes if no array has one for an element; the grammar has no
    others that are exposed. -/
theorem Parser.exposed_of_hasLoose {p : Parser} {source : String} {tree : Node}
    (listed : root.KeywordsListed) (grammar : p.grammar source = some root)
    (parsed : p.parse source = .ok tree) {k : Node} (loose : tree.HasLoose k) :
    ∃ d, Context.isKeyword d = true ∧ Exposed root d ∧ (p.origin source).Locates d k := by
  obtain ⟨t, run⟩ := lowerProgram_of_parse grammar parsed
  have program : Yields (p.lowerProgram source root) fun n =>
      (Value.ofNode? n).Seated ((p.origin source).Stray root) :=
    Context.seated_compound (fun d mem => folds_lower listed _ _ _ mem)
      ((Loose.of_opened .program).statements listed)
  have seated : tree.toValue.Seated ((p.origin source).Stray root) := program _ _ _ run
  obtain ⟨keyword, rfl | ⟨m, mem, other, child⟩⟩ := loose
  · exact seated.keyword k rfl keyword
  · exact seated.folded m mem other k child keyword

/-- The source `f [a: 1], b: 2`, with a pair in an array and one among arguments. -/
def mixedPairs : Cst :=
  .mk ⟨.other "program", 0, 14, none, true, false, false⟩
    [.mk ⟨.call, 0, 14, none, true, false, false⟩
      [.mk ⟨.identifier, 0, 1, some "method", true, false, false⟩ [],
       .mk ⟨.argumentList, 2, 14, some "arguments", true, false, false⟩
        [.mk ⟨.array, 2, 8, none, true, false, false⟩
          [.mk ⟨.other "[", 2, 3, none, false, false, false⟩ [],
           .mk ⟨.pair, 3, 7, none, true, false, false⟩
            [.mk ⟨.hashKeySymbol, 3, 4, some "key", true, false, false⟩ [],
             .mk ⟨.other ":", 4, 5, none, false, false, false⟩ [],
             .mk ⟨.integer, 6, 7, some "value", true, false, false⟩ []],
           .mk ⟨.other "]", 7, 8, none, false, false, false⟩ []],
         .mk ⟨.other ",", 8, 9, none, false, false, false⟩ [],
         .mk ⟨.pair, 10, 14, none, true, false, false⟩
          [.mk ⟨.hashKeySymbol, 10, 11, some "key", true, false, false⟩ [],
           .mk ⟨.other ":", 11, 12, none, false, false, false⟩ [],
           .mk ⟨.integer, 13, 14, some "value", true, false, false⟩ []]]]]

/-- The parser whose grammar reads this source. -/
def Parser.ofMixedPairs : Parser :=
  .ofGrammar fun _ => some mixedPairs

theorem Parser.exposed_of_hasLoose_mixedPairs :
    mixedPairs.KeywordsListed ∧ ∃ tree, ofMixedPairs.parse "f [a: 1], b: 2" = .ok tree ∧
      tree.toValue.render.toOption =
        some "(send nil :f (array (pair (sym :a) (int 1))) (hash (pair (sym :b) (int 2))))" ∧
      ∃ k, tree.HasLoose k ∧
        ∃ d, Context.isKeyword d = true ∧ Exposed mixedPairs d ∧
          (ofMixedPairs.origin "f [a: 1], b: 2").Locates d k := by
  have listed : mixedPairs.KeywordsListed := by decide
  have parsed : ∃ tree, ofMixedPairs.parse "f [a: 1], b: 2" = .ok tree ∧
      tree.toValue.render.toOption =
        some "(send nil :f (array (pair (sym :a) (int 1))) (hash (pair (sym :b) (int 2))))" ∧
      (tree.nodes.any fun m => m.type != .plain "hash" && m.childNodes.any Node.isKeyword) = true :=
    ⟨_, rfl, by decide +kernel, by decide +kernel⟩
  obtain ⟨tree, parsed, rendered, found⟩ := parsed
  obtain ⟨m, mem, found⟩ := List.any_eq_true.mp found
  rw [Bool.and_eq_true, bne_iff_ne, List.any_eq_true] at found
  obtain ⟨other, k, child, keyword⟩ := found
  have loose : tree.HasLoose k := ⟨keyword, .inr ⟨m, mem, other, child⟩⟩
  exact ⟨listed, tree, parsed, rendered, k, loose, exposed_of_hasLoose listed rfl parsed loose⟩

-- ============================================================================
-- Keywords in arrays
-- ============================================================================

namespace Context

variable {w : Context}

theorem keyword_of_pair (c : Cst) :
    Yields (w.pair c) fun n => n.isKeyword = true ∧ w.Locates c n := by
  have finish (key : Node) (value : Lowering Node) :
      Yields (value >>= fun valueNode => w.located c "pair" [key, valueNode]) fun n =>
        n.isKeyword = true ∧ w.Locates c n := by
    refine .after fun valueNode => ?_
    refine (yields_located_node _ _ c).mono fun n hn => ?_
    obtain ⟨type, -, located⟩ := hn
    refine ⟨?_, located⟩
    rw [Node.isKeyword, type]
    rfl
  unfold pair
  split
  next => exact .throw _
  next =>
    refine .after fun key => ?_
    cases c.part? "value" with
    | none =>
      dsimp only
      split
      next => exact .after fun name => .after fun key => finish key _
      next => exact .after fun key => finish key _
    | some value =>
      dsimp only
      split
      next => exact .after fun name => .after fun key => finish key _
      next => exact .after fun key => finish key _

theorem exists_of_lowerAll {post : Node → Prop} {ds : List Cst} (mem : d ∈ ds)
    (here : Yields (w.lower d) post) : Yields (w.lowerAll ds) fun ns => ∃ n ∈ ns, post n := by
  induction ds with
  | nil => cases mem
  | cons e ds ih =>
    unfold lowerAll
    rcases List.mem_cons.mp mem with rfl | later
    · exact here.bind fun n hn => .after fun ns => .pure ⟨n, List.mem_cons_self, hn⟩
    · refine .after fun n => (ih later).bind fun ns hns => .pure ?_
      obtain ⟨m, mem, hm⟩ := hns
      exact ⟨m, List.mem_cons_of_mem n mem, hm⟩

end Context

theorem keyword_of_lower (o : Origin) (limit : Int) (room : Nat)
    (keyword : Context.isKeyword d = true) :
    Yields (lower o limit room d) fun n => n.isKeyword = true ∧ o.Locates d n := by
  rw [Context.isKeyword, Bool.or_eq_true, beq_iff_eq, beq_iff_eq] at keyword
  refine yields_lower_of_handler room fun handler smaller _ found => ?_
  rcases keyword with pair | splat
  · rw [pair] at found
    cases found
    exact Context.keyword_of_pair d
  · rw [splat] at found
    cases found
    refine .after fun ns => (Context.yields_located_node _ _ d).mono fun n hn => ?_
    obtain ⟨type, -, located⟩ := hn
    refine ⟨?_, located⟩
    rw [Node.isKeyword, type]
    rfl

/-- No array folds: each keyword among its elements is a child of its node. -/
theorem hasLoose_of_array {room : Nat} {s t : Scopes} {n : Node} (kind : c.kind = .array)
    (element : d ∈ c.plainChildren) (keyword : Context.isKeyword d = true)
    (run : lower o limit room c s = .ok (n, t)) : ∃ k, n.HasLoose k ∧ o.Locates d k := by
  have keeps : Yields (lower o limit room c) fun n => n.type = .plain "array" ∧
      ∃ k, k.toValue ∈ n.children ∧ k.isKeyword = true ∧ o.Locates d k := by
    refine yields_lower_of_handler room fun handler smaller _ found => ?_
    rw [kind] at found
    cases found
    have lowered := keyword_of_lower o limit smaller keyword
    refine (Context.exists_of_lowerAll element lowered).bind fun ns hns => ?_
    obtain ⟨k, mem, hk⟩ := hns
    refine (Context.yields_located_node _ _ c).mono fun n hn => ?_
    obtain ⟨type, children, -⟩ := hn
    refine ⟨type, k, ?_, hk⟩
    rw [children]
    exact List.mem_map_of_mem mem
  obtain ⟨type, k, child, isKeyword, located⟩ := keeps s n t run
  have other : n.type ≠ .plain "hash" := by
    rw [type]
    decide
  have top : n ∈ n.nodes := List.mem_cons_self
  exact ⟨k, ⟨isKeyword, .inr ⟨n, top, other, Value.mem_childNodes.mpr child⟩⟩, located⟩

end RubyPattern.Ruby
