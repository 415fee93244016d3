/-
  RubyPattern.Proofs.MadeTrees

  Every tree is made of its concrete syntax: assignments, calls, control
  structures and definitions make nodes of known shapes out of their parts, and
  so does the descent through all kinds of constructs, however deep it may go.
-/
import Mathlib.Data.Option.Basic
import RubyPattern.Proofs.Making

namespace RubyPattern.Ruby

namespace Context

variable {w : Context} {c : Cst}

section

variable (hw : ∀ d, Yields (w.lower d) (MadeNode w.toOrigin d))
include hw

-- ============================================================================
-- Arguments
-- ============================================================================

omit hw in
/-- The positional arguments satisfy what each of them does. -/
theorem yields_positional_of_mem {post : Node → Prop} {ds : List Cst}
    (each : ∀ d ∈ ds, ¬ isKeyword d = true → Yields (w.lower d) post) :
    Yields (w.positional ds) fun result =>
      (∀ n ∈ result.1, post n) ∧ ∀ n ∈ result.2, post n := by
  induction ds with
  | nil => exact .pure ⟨List.forall_mem_nil _, fun _ none => nomatch none⟩
  | cons d ds ih =>
    rw [List.forall_mem_cons] at each
    have later := ih each.2
    unfold positional
    split
    next => exact later
    next plain =>
      refine (each.1 plain).bind fun n hn => later.bind fun result hresult => ?_
      obtain ⟨ns, block⟩ := result
      obtain ⟨hns, hblock⟩ := hresult
      dsimp only
      split
      next =>
        refine .pure ⟨hns, ?_⟩
        cases block with
        | none => simpa using hn
        | some m => simpa using hblock
      next => exact .pure ⟨List.forall_mem_cons.mpr ⟨hn, hns⟩, hblock⟩

omit hw in
/-- Arguments satisfy what each of the positional ones and the hash of the keywords
    do. -/
theorem yields_arguments_of_mem {post : Node → Prop} {ds : List Cst}
    (each : ∀ d ∈ ds, ¬ isKeyword d = true → Yields (w.lower d) post)
    (folded : ∀ first last, (ds.filter isKeyword).head? = some first →
      (ds.filter isKeyword).getLast? = some last →
      Yields (w.lowerAll (ds.filter isKeyword)) fun ns =>
        ∀ l, w.Spans first last l → post ⟨.plain "hash", asChildren ns, some l⟩) :
    Yields (w.arguments ds) fun ns => ∀ n ∈ ns, post n := by
  refine (yields_positional_of_mem each).bind fun result hresult => ?_
  obtain ⟨ns, block⟩ := result
  obtain ⟨hns, hblock⟩ := hresult
  have all : ∀ {hash : List Node}, (∀ n ∈ hash, post n) →
      ∀ n ∈ ns ++ hash ++ block.toList, post n := by
    intro hash hhash
    rw [List.forall_mem_append, List.forall_mem_append]
    exact ⟨⟨hns, hhash⟩, fun n last => hblock n (Option.mem_toList.mp last)⟩
  dsimp only
  split
  next first last opens closes =>
    refine (folded first last opens closes).bind fun pairs hpairs => ?_
    refine (yields_span w.toOrigin first last).bind fun l span => .pure (all ?_)
    exact List.forall_mem_singleton.mpr (hpairs l span)
  next => exact .pure (all (List.forall_mem_nil _))

/-- The folded hash covers the keywords, which are a row of the construct's
    children. -/
theorem yields_arguments {items : List Cst} (sublist : items.Sublist c.children) :
    Yields (w.arguments items) fun ns => ∀ n ∈ ns, MadeNode w.toOrigin c n := by
  have picked : Picked c.children (items.filter isKeyword) :=
    .of_sublist (List.filter_sublist.trans sublist)
  refine yields_arguments_of_mem (fun d hd _ => yields_child hw (sublist.mem hd)) ?_
  intro first last opens closes
  exact (yields_lowerAll hw _).mono fun pairs hpairs l span =>
    Made.of_row picked opens closes span rfl hpairs

theorem yields_indexArguments (c object : Cst) :
    Yields (w.indexArguments c object) fun ns => ∀ n ∈ ns, MadeNode w.toOrigin c n :=
  yields_arguments hw (List.filter_sublist.trans c.plainChildren_sublist)

omit hw in
/-- Calls and safe calls have one shape. -/
theorem shape_sendType (operator : String) : Shape.ofType? (sendType operator) =
    some [(.nodeOrNil, .one), (.symbol, .one), (.node, .many)] := by
  unfold sendType
  split <;> rfl

-- ============================================================================
-- Assignments
-- ============================================================================

/-- A target that a value can be appended to. Only lists of targets cannot, which
    stand beside their value. -/
def TakesValue (n : Node) : Prop :=
  n.type = .plain "mlhs" ∨ ∀ m : Node, Fits n.type.text (n.children ++ [m.toValue])

omit hw in
/-- A node that covers a construct, with what its children say about it. -/
theorem yields_target_located {type : String} {children : List Value}
    (fits : Fits type children) (made : ∀ v ∈ children, Made w.toOrigin c v)
    (takes : type = "mlhs" ∨ ∀ m : Node, Fits type (children ++ [m.toValue])) :
    Yields (w.located c type children) fun n => MadeNode w.toOrigin c n ∧ TakesValue n :=
  (yields_span w.toOrigin c c).bind fun _ span => .pure
    ⟨.whole span fits made, takes.imp (congrArg Label.plain) id⟩

omit hw in
/-- A variable takes the value as its second child. -/
theorem yields_target_variable {type : String}
    (shape : Shape.ofType? type = some [(.symbol, .one), (.node, .optional)]) (name : String) :
    Yields (w.located c type [.sym name]) fun n => MadeNode w.toOrigin c n ∧ TakesValue n :=
  yields_target_located ⟨_, shape, .one rfl (.absent .nil)⟩ (by simp)
    (.inr fun _ => ⟨_, shape, .one rfl (.present rfl .nil)⟩)

omit hw in
/-- A constant takes the value as its third child. -/
theorem yields_target_constant {scope : Value} (hscope : Slot.nodeOrNil.admits scope = true)
    (made : Made w.toOrigin c scope) (name : String) :
    Yields (w.located c "casgn" [scope, .sym name]) fun n =>
      MadeNode w.toOrigin c n ∧ TakesValue n :=
  yields_target_located ⟨_, rfl, .one hscope (.one rfl (.absent .nil))⟩ (by simpa using made)
    (.inr fun _ => ⟨_, rfl, .one hscope (.one rfl (.present rfl .nil))⟩)

omit hw in
/-- A call takes the value as its last argument. -/
theorem yields_target_call {type : String}
    (shape : Shape.ofType? type = some [(.nodeOrNil, .one), (.symbol, .one), (.node, .many)])
    {receiver : Node} (hreceiver : MadeNode w.toOrigin c receiver) (name : String)
    {arguments : List Node} (harguments : ∀ n ∈ arguments, MadeNode w.toOrigin c n) :
    Yields (w.located c type (receiver.toValue :: .sym name :: asChildren arguments)) fun n =>
      MadeNode w.toOrigin c n ∧ TakesValue n := by
  have all := Slot.node_admits_asChildren arguments
  refine yields_target_located (.send shape rfl name all) ?_ (.inr fun m => ?_)
  · rw [List.forall_mem_cons, List.forall_mem_cons, Made.asChildren_iff]
    exact ⟨hreceiver, .sym name, harguments⟩
  · exact .send shape rfl name (Slot.node_admits_concat all m)

omit hw in
mutual

theorem yields_target (hw : ∀ d, Yields (w.lower d) (MadeNode w.toOrigin d)) (keepsName : Bool)
    (c : Cst) :
    Yields (w.target keepsName c) fun n => MadeNode w.toOrigin c n ∧ TakesValue n := by
  obtain ⟨head, children⟩ := c
  have parts := yields_targets hw (c := .mk head children) children fun _ mem => mem
  unfold target
  dsimp only
  split
  next => exact .after fun name => .after fun _ => yields_target_variable rfl name
  next => exact .after fun _ => yields_target_variable rfl _
  next => exact .after fun _ => yields_target_variable rfl _
  next => exact .after fun _ => yields_target_variable rfl _
  next => exact .after fun name => yields_target_constant rfl .nil name
  next =>
    refine (yields_pathScope hw fun _ => Cst.mem_of_part?).bind fun scope hscope => ?_
    exact .after fun name => yields_target_constant rfl hscope name
  next =>
    refine (yields_lowerRole hw _ _).bind fun receiver hreceiver => ?_
    refine .after fun method => .after fun operator => ?_
    exact yields_target_call (shape_sendType operator) hreceiver _ (List.forall_mem_nil _)
  next =>
    refine (yields_requirePart _).bind fun object hobject => ?_
    refine (yields_indexArguments hw _ object).bind fun arguments harguments => ?_
    refine (yields_child hw (Cst.mem_of_part? hobject)).bind fun receiver hreceiver => ?_
    exact yields_target_call rfl hreceiver _ harguments
  next =>
    refine parts.bind fun parts hparts => ?_
    have all := Slot.node_admits_asChildren parts
    refine yields_target_located (.nodes rfl all) (Made.asChildren_iff.mpr hparts) ?_
    exact .inr fun m => .nodes rfl (Slot.node_admits_concat all m)
  next =>
    refine parts.bind fun parts hparts => ?_
    exact yields_target_located (.nodes rfl (Slot.node_admits_asChildren parts))
      (Made.asChildren_iff.mpr hparts) (.inl rfl)
  next =>
    refine parts.bind fun parts hparts => ?_
    exact yields_target_located (.nodes rfl (Slot.node_admits_asChildren parts))
      (Made.asChildren_iff.mpr hparts) (.inl rfl)
  next => exact .throw _

theorem yields_targets (hw : ∀ d, Yields (w.lower d) (MadeNode w.toOrigin d)) {c : Cst}
    (cs : List Cst) (mem : ∀ d ∈ cs, d ∈ c.children) :
    Yields (w.targets cs) fun ns => ∀ n ∈ ns, MadeNode w.toOrigin c n := by
  cases cs with
  | nil => exact .pure (by simp)
  | cons d cs =>
    rw [List.forall_mem_cons] at mem
    unfold targets
    split
    next =>
      exact (yields_target hw false d).bind fun n hn =>
        (yields_targets hw cs mem.2).bind fun ns hns =>
          .pure (List.forall_mem_cons.mpr ⟨.inside mem.1 hn.1, hns⟩)
    next => exact yields_targets hw cs mem.2

end

theorem yields_assignedValue (c : Cst) :
    Yields (w.assignedValue c) (MadeNode w.toOrigin c) := by
  unfold assignedValue
  split
  next => exact yields_collection hw rfl c
  next =>
    exact (hw c).bind fun n hn => yields_locatedNodes rfl (List.forall_mem_singleton.mpr hn)
  next => exact hw c

theorem yields_assignment (c : Cst) : Yields (w.assignment c) (MadeNode w.toOrigin c) := by
  unfold assignment
  split
  next left right hleft hright =>
    refine (yields_target hw false left).bind fun target htarget => ?_
    refine (yields_assignedValue hw right).bind fun value hvalue => ?_
    obtain ⟨made, takes⟩ := htarget
    have made : MadeNode w.toOrigin c target := .inside (Cst.mem_of_part? hleft) made
    have hvalue : MadeNode w.toOrigin c value := .inside (Cst.mem_of_part? hright) hvalue
    split
    next => exact yields_located (.pair rfl _ _) (by simpa using ⟨made, hvalue⟩)
    next single =>
      have fits := takes.resolve_left (ne_of_beq_false (eq_false_of_ne_true single)) value
      refine yields_located fits ?_
      rw [List.forall_mem_append, List.forall_mem_singleton]
      exact ⟨made.children, hvalue⟩
  next => exact .throw _

theorem yields_operatorAssignment (c : Cst) :
    Yields (w.operatorAssignment c) (MadeNode w.toOrigin c) := by
  unfold operatorAssignment
  split
  next left right hleft hright =>
    refine .after fun operator => (yields_target hw true left).bind fun target htarget => ?_
    refine (yields_child hw (Cst.mem_of_part? hright)).bind fun value hvalue => ?_
    have made : MadeNode w.toOrigin c target := .inside (Cst.mem_of_part? hleft) htarget.1
    split
    next => exact yields_located (.pair rfl _ _) (by simpa using ⟨made, hvalue⟩)
    next =>
      split
      next => exact yields_located (.pair rfl _ _) (by simpa using ⟨made, hvalue⟩)
      next =>
        exact yields_located ⟨_, rfl, .one rfl (.one rfl (.one rfl .nil))⟩
          (by simpa using ⟨made, hvalue⟩)
  next => exact .throw _

-- ============================================================================
-- Parameters
-- ============================================================================

omit hw in
theorem made_nameChild {o : Origin} (name : Option String) : Made o c (nameChild name) := by
  cases name with
  | none => exact .nil
  | some name => exact .sym name

omit hw in
/-- A parameter that collects the others has its name, if it has one. -/
theorem yields_collecting {type : String}
    (shape : Shape.ofType? type = some [(.symbol, .optional)]) (name : Option String) :
    Yields (w.located c type (name.toList.map .sym)) (MadeNode w.toOrigin c) := by
  cases name with
  | none => exact yields_located ⟨_, shape, .absent .nil⟩ (by simp)
  | some name => exact yields_located ⟨_, shape, .present rfl .nil⟩ (by simp)

omit hw in
/-- A parameter with a default value. -/
theorem yields_defaulted {type : String}
    (shape : Shape.ofType? type = some [(.symbolOrNil, .one), (.node, .one)])
    (name : Option String) {value : Node} (hvalue : MadeNode w.toOrigin c value) :
    Yields (w.located c type [nameChild name, value]) (MadeNode w.toOrigin c) :=
  yields_located ⟨_, shape, .one (by simp) (.one rfl .nil)⟩
    (by simpa using ⟨made_nameChild name, hvalue⟩)

omit hw in
/-- A parameter of its name alone. -/
theorem yields_named {type : String}
    (shape : Shape.ofType? type = some [(.symbolOrNil, .one)]) (name : Option String) :
    Yields (w.located c type [nameChild name]) (MadeNode w.toOrigin c) :=
  yields_located ⟨_, shape, .one (by simp) .nil⟩ (by simpa using made_nameChild name)

omit hw in
mutual

theorem yields_parameter (hw : ∀ d, Yields (w.lower d) (MadeNode w.toOrigin d)) (c : Cst) :
    Yields (w.parameter c) (MadeNode w.toOrigin c) := by
  obtain ⟨head, children⟩ := c
  have parts := yields_parameterList hw (c := .mk head children) children fun _ mem => mem
  unfold parameter
  dsimp only
  split
  next => exact .after fun name => .after fun _ => yields_located (.symbol rfl name) (by simp)
  next => exact parts.bind fun ns hns => yields_locatedNodes rfl hns
  next => exact yields_keyword rfl _
  next => exact yields_keyword rfl _
  next =>
    refine .after fun name => ?_
    split
    next =>
      exact (yields_lowerRole hw _ _).bind fun value hvalue => yields_defaulted rfl name hvalue
    next =>
      split
      next => exact yields_named rfl name
      next part =>
        exact (yields_child hw (Cst.mem_of_part? part)).bind fun value hvalue =>
          yields_defaulted rfl name hvalue
    next => exact yields_collecting rfl name
    next => exact yields_collecting rfl name
    next => exact yields_named rfl name
    next => exact .throw _

theorem yields_parameterList (hw : ∀ d, Yields (w.lower d) (MadeNode w.toOrigin d)) {c : Cst}
    (cs : List Cst) (mem : ∀ d ∈ cs, d ∈ c.children) :
    Yields (w.parameterList cs) fun ns => ∀ n ∈ ns, MadeNode w.toOrigin c n := by
  cases cs with
  | nil => exact .pure (by simp)
  | cons d cs =>
    rw [List.forall_mem_cons] at mem
    unfold parameterList
    split
    next =>
      exact (yields_parameter hw d).bind fun n hn =>
        (yields_parameterList hw cs mem.2).bind fun ns hns =>
          .pure (List.forall_mem_cons.mpr ⟨.inside mem.1 hn, hns⟩)
    next => exact yields_parameterList hw cs mem.2

end

theorem yields_parameterOrLocal (locals : List (Nat × Nat × Kind)) (c : Cst) :
    Yields (w.parameterOrLocal locals c) (MadeNode w.toOrigin c) := by
  unfold parameterOrLocal
  split
  next => exact .after fun name => .after fun _ => yields_located (.symbol rfl name) (by simp)
  next => exact yields_parameter hw c

omit hw in
theorem yields_parametersOrLocals_of_mem {post : Node → Prop} {locals : List (Nat × Nat × Kind)}
    {ds : List Cst} (each : ∀ d ∈ ds, Yields (w.parameterOrLocal locals d) post) :
    Yields (w.parametersOrLocals locals ds) fun ns => ∀ n ∈ ns, post n := by
  induction ds with
  | nil => exact .pure (List.forall_mem_nil _)
  | cons d ds ih =>
    rw [List.forall_mem_cons] at each
    exact each.1.bind fun n hn => (ih each.2).bind fun ns hns =>
      .pure (List.forall_mem_cons.mpr ⟨hn, hns⟩)

theorem yields_parameters (c : Cst) :
    Yields (w.parameters (c.part? "parameters")) (MadeArgs w.toOrigin c) := by
  cases part : c.part? "parameters" with
  | none => exact .pure ⟨.of_bare (.nodes rfl (by simp)) (by simp), rfl⟩
  | some d =>
    have each (locals : List (Nat × Nat × Kind)) : ∀ e ∈ d.plainChildren,
        Yields (w.parameterOrLocal locals e) (MadeNode w.toOrigin d) := fun e he =>
      (yields_parameterOrLocal hw locals e).mono fun n hn =>
        .inside (d.plainChildren_sublist.mem he) hn
    refine (yields_parametersOrLocals_of_mem (each _)).bind fun items hitems => ?_
    have made : Yields (w.located d "args" (asChildren items)) (MadeNode w.toOrigin d) :=
      yields_locatedNodes rfl hitems
    refine (made.and (yields_located_type _ _)).mono fun n hn => ?_
    exact ⟨.inside (Cst.mem_of_part? part) hn.1, hn.2⟩

-- ============================================================================
-- Calls
-- ============================================================================

/-- The parameters and the body of a block, a lambda or a method. -/
theorem yields_parametersAndBody (c : Cst) {body : Lowering (Option Node)}
    (hbody : Yields body fun n => ∀ m ∈ n, MadeNode w.toOrigin c m) :
    Yields (do
      let args ← w.parameters (c.part? "parameters")
      let body ← body
      return (args, body)) fun result =>
        MadeArgs w.toOrigin c result.1 ∧ ∀ n ∈ result.2, MadeNode w.toOrigin c n :=
  (yields_parameters hw c).bind fun _ hargs => hbody.bind fun _ hbody => .pure ⟨hargs, hbody⟩

omit hw in
/-- A block covers the construct with its call, its parameters and its body. -/
theorem yields_block {callee args : Node} {body : Option Node}
    (hcallee : MadeNode w.toOrigin c callee) (hargs : MadeArgs w.toOrigin c args)
    (hbody : ∀ n ∈ body, MadeNode w.toOrigin c n) :
    Yields (w.located c "block" [callee, args, .ofNode? body]) (MadeNode w.toOrigin c) :=
  yields_located ⟨_, rfl, .one rfl (.one (by simpa using hargs.2) (.one (by simp) .nil))⟩
    (by simpa using ⟨hcallee, hargs.1, hbody⟩)

theorem yields_withBlock {callee : Node} (hcallee : MadeNode w.toOrigin c callee) {block : Cst}
    (mem : block ∈ c.children) :
    Yields (w.withBlock c callee block) (MadeNode w.toOrigin c) := by
  have parts := yields_parametersAndBody hw block (yields_bodyOf hw block ["parameters"])
  refine parts.withScope.bind fun result hresult => ?_
  obtain ⟨args, body⟩ := result
  obtain ⟨hargs, hbody⟩ := hresult
  exact yields_block hcallee ⟨.inside mem hargs.1, hargs.2⟩ fun n hn => .inside mem (hbody n hn)

theorem yields_lambda (c : Cst) : Yields (w.lambda c) (MadeNode w.toOrigin c) := by
  have keyword : MadeNode w.toOrigin c (Node.bare "lambda" []) := .of_bare (.none rfl) (by simp)
  have finish : ∀ {parts : Lowering (Node × Option Node)},
      Yields parts (fun result =>
        MadeArgs w.toOrigin c result.1 ∧ ∀ n ∈ result.2, MadeNode w.toOrigin c n) →
      Yields (withScope true parts >>= fun result =>
        w.located c "block" [Node.bare "lambda" [], result.1, .ofNode? result.2])
          (MadeNode w.toOrigin c) := fun parts =>
    parts.withScope.bind fun _ hresult => yields_block keyword hresult.1 hresult.2
  refine finish ((yields_parameters hw c).bind fun args hargs => ?_)
  split
  next d part =>
    refine (yields_bodyOf hw d _).bind fun body hbody => .pure ⟨hargs, fun n hn => ?_⟩
    exact .inside (Cst.mem_of_part? part) (hbody n hn)
  next => exact .pure ⟨hargs, by simp⟩

theorem yields_receiver (c : Cst) :
    Yields (w.lowerOptional (c.part? "receiver")) fun n =>
      ∀ m ∈ n, ∃ d ∈ c.callParts, MadeNode w.toOrigin d m := by
  cases part : c.part? "receiver" with
  | none => exact .pure (by simp)
  | some d =>
    refine (hw d).bind fun n hn => .pure ?_
    rintro _ ⟨⟩
    exact ⟨d, Cst.mem_callParts_receiver part, hn⟩

theorem yields_callArguments (c : Cst) :
    Yields (w.callArguments (c.part? "arguments")) fun ns =>
      ∀ n ∈ ns, ∃ d ∈ c.callParts, MadeNode w.toOrigin d n := by
  cases part : c.part? "arguments" with
  | none => exact .pure (by simp)
  | some d =>
    exact (yields_arguments hw d.plainChildren_sublist).mono fun ns hns n hn =>
      ⟨d, Cst.mem_callParts_arguments part, hns n hn⟩

/-- A call without its block ends with the last of its receiver, method and
    arguments, and its children are made of these. -/
theorem yields_send (kind : c.kind = .call) :
    Yields (w.send c) (MadeNode w.toOrigin c) := by
  refine (yields_receiver hw c).bind fun receiver hreceiver => ?_
  refine (yields_callArguments hw c).bind fun arguments harguments => ?_
  rw [← Cst.getLast?_callParts]
  refine (yields_span w.toOrigin c _).bind fun l span => ?_
  have fromArguments : ∀ v ∈ asChildren arguments,
      v.isLeaf = true ∨ ∃ d ∈ c.callParts, Made w.toOrigin d v := by
    rw [forall_mem_asChildren]
    exact fun n hn => .inr (harguments n hn)
  have fromReceiver : (Value.ofNode? receiver).isLeaf = true ∨
      ∃ d ∈ c.callParts, Made w.toOrigin d (.ofNode? receiver) := by
    cases receiver with
    | none => exact .inl rfl
    | some n => exact .inr (hreceiver n rfl)
  have sent : ∀ operator name, MadeNode w.toOrigin c
      ⟨.plain (sendType operator), .ofNode? receiver :: .sym name :: asChildren arguments,
        some l⟩ := by
    intro operator name
    refine .of_callParts kind span (.send (shape_sendType operator) (by simp) name
      (Slot.node_admits_asChildren arguments)) ?_
    rw [List.forall_mem_cons, List.forall_mem_cons]
    exact ⟨fromReceiver, .inl rfl, fromArguments⟩
  split
  next => exact .after fun operator => .pure (sent operator "call")
  next =>
    split
    next =>
      exact .pure (.of_callParts kind span (.nodes rfl (Slot.node_admits_asChildren arguments))
        fromArguments)
    next => exact .after fun name => .after fun operator => .pure (sent operator name)

theorem yields_call (kind : c.kind = .call) : Yields (w.call c) (MadeNode w.toOrigin c) := by
  refine (yields_send hw kind).bind fun callee hcallee => ?_
  split
  next part => exact yields_withBlock hw hcallee (Cst.mem_of_part? part)
  next => exact .pure hcallee

-- ============================================================================
-- Operators
-- ============================================================================

omit hw in
/-- A call that covers the construct. -/
theorem yields_locatedSend {receiver : Node} (hreceiver : MadeNode w.toOrigin c receiver)
    (name : String) {arguments : List Node}
    (harguments : ∀ n ∈ arguments, MadeNode w.toOrigin c n) :
    Yields (w.located c "send" (receiver.toValue :: .sym name :: asChildren arguments))
      (MadeNode w.toOrigin c) := by
  refine yields_located (.send rfl rfl name (Slot.node_admits_asChildren arguments)) ?_
  rw [List.forall_mem_cons, List.forall_mem_cons, Made.asChildren_iff]
  exact ⟨hreceiver, .sym name, harguments⟩

theorem yields_elementReference (c : Cst) :
    Yields (w.elementReference c) (MadeNode w.toOrigin c) := by
  unfold elementReference
  split
  next => exact .throw _
  next object hobject =>
    refine (yields_indexArguments hw c object).bind fun arguments harguments => ?_
    refine (yields_child hw (Cst.mem_of_part? hobject)).bind fun receiver hreceiver => ?_
    exact yields_locatedSend hreceiver "[]" harguments

theorem yields_binary (c : Cst) : Yields (w.binary c) (MadeNode w.toOrigin c) := by
  refine (yields_lowerRole hw c _).bind fun left hleft => .after fun operator => ?_
  refine (yields_lowerRole hw c _).bind fun right hright => ?_
  split
  next => exact yields_located (.pair rfl _ _) (by simpa using ⟨hleft, hright⟩)
  next =>
    split
    next => exact yields_located (.pair rfl _ _) (by simpa using ⟨hleft, hright⟩)
    next => exact yields_locatedSend hleft operator (List.forall_mem_singleton.mpr hright)

omit hw in
theorem yields_operand (c : Cst) : Yields (operand c) fun d => d ∈ c.children := by
  unfold operand
  split
  next d found =>
    refine .pure ?_
    rcases (Option.orElse_eq_some _ _ _).mp found with part | ⟨_, last⟩
    · exact Cst.mem_of_part? part
    · exact c.plainChildren_sublist.mem (List.mem_of_getLast? last)
  next => exact .throw _

omit hw in
theorem admits_negated (slot : Slot) (v : Value) (h : slot.admits v = true) :
    slot.admits (negated v) = true := by
  cases slot <;> cases v <;> exact h

omit hw in
theorem made_negated {o : Origin} {v : Value} (h : Made o c v) : Made o c (negated v) := by
  cases v with
  | int n => exact .int (-n)
  | float x => exact .leaf rfl
  | _ => exact h

theorem yields_operatorSend (operator : String) {operand : Cst} (mem : operand ∈ c.children) :
    Yields (w.operatorSend c operator operand) (MadeNode w.toOrigin c) :=
  (yields_child hw mem).bind fun _ hreceiver =>
    yields_locatedSend hreceiver operator (List.forall_mem_nil _)

theorem yields_unary (c : Cst) : Yields (w.unary c) (MadeNode w.toOrigin c) := by
  refine .after fun operator => (yields_operand c).bind fun operand mem => ?_
  split
  next => exact yields_operatorSend hw _ mem
  next =>
    split
    next =>
      exact (yields_child hw mem).bind fun inner hinner =>
        yields_located ⟨_, rfl, .one rfl .nil⟩ (by simpa using hinner)
    next =>
      split
      next =>
        refine (yields_child hw mem).bind fun number hnumber => ?_
        refine yields_located (hnumber.fits.2.map admits_negated) ?_
        rw [List.forall_mem_map]
        exact fun v hv => made_negated (hnumber.children v hv)
      next =>
        split
        next => exact yields_operatorSend hw _ mem
        next => exact yields_operatorSend hw _ mem

-- ============================================================================
-- Control structures
-- ============================================================================

omit hw in
/-- A condition with two branches, either of which may be absent. -/
theorem yields_conditional {condition : Node} {yes no : Value}
    (hcondition : MadeNode w.toOrigin c condition)
    (hyes : Slot.nodeOrNil.admits yes = true ∧ Made w.toOrigin c yes)
    (hno : Slot.nodeOrNil.admits no = true ∧ Made w.toOrigin c no) :
    Yields (w.located c "if" [condition, yes, no]) (MadeNode w.toOrigin c) :=
  yields_located ⟨_, rfl, .one rfl (.one hyes.1 (.one hno.1 .nil))⟩
    (by simpa using ⟨hcondition, hyes.2, hno.2⟩)

omit hw in
/-- A branch that may be absent. -/
theorem made_branch {o : Origin} {n : Option Node} (hn : ∀ m ∈ n, MadeNode o c m) :
    Slot.nodeOrNil.admits (.ofNode? n) = true ∧ Made o c (.ofNode? n) :=
  ⟨by simp, Made.ofNode?_iff.mpr hn⟩

theorem yields_ifStatement (c : Cst) : Yields (w.ifStatement c) (MadeNode w.toOrigin c) := by
  refine (yields_lowerRole hw c _).bind fun condition hcondition => ?_
  refine (yields_clause hw fun _ => Cst.mem_of_part?).bind fun consequence hconsequence => ?_
  refine (yields_clause hw fun _ => Cst.mem_of_part?).bind fun alternative halternative => ?_
  exact yields_conditional hcondition (made_branch hconsequence) (made_branch halternative)

theorem yields_unlessStatement (c : Cst) :
    Yields (w.unlessStatement c) (MadeNode w.toOrigin c) := by
  refine (yields_lowerRole hw c _).bind fun condition hcondition => ?_
  refine (yields_clause hw fun _ => Cst.mem_of_part?).bind fun alternative halternative => ?_
  refine (yields_clause hw fun _ => Cst.mem_of_part?).bind fun consequence hconsequence => ?_
  exact yields_conditional hcondition (made_branch halternative) (made_branch hconsequence)

theorem yields_ifModifier (c : Cst) : Yields (w.ifModifier c) (MadeNode w.toOrigin c) := by
  refine (yields_lowerRole hw c _).bind fun body hbody => ?_
  refine (yields_lowerRole hw c _).bind fun condition hcondition => ?_
  exact yields_conditional hcondition ⟨rfl, hbody⟩ ⟨rfl, .nil⟩

theorem yields_unlessModifier (c : Cst) :
    Yields (w.unlessModifier c) (MadeNode w.toOrigin c) := by
  refine (yields_lowerRole hw c _).bind fun body hbody => ?_
  refine (yields_lowerRole hw c _).bind fun condition hcondition => ?_
  exact yields_conditional hcondition ⟨rfl, .nil⟩ ⟨rfl, hbody⟩

theorem yields_loop {type : String}
    (shape : Shape.ofType? type = some [(.node, .one), (.nodeOrNil, .one)]) (c : Cst) :
    Yields (w.loop type c) (MadeNode w.toOrigin c) := by
  refine (yields_lowerRole hw c _).bind fun condition hcondition => ?_
  refine (yields_clause hw fun _ => Cst.mem_of_part?).bind fun body hbody => ?_
  exact yields_located ⟨_, shape, .one rfl (.one (by simp) .nil)⟩
    (by simpa using ⟨hcondition, hbody⟩)

theorem yields_loopModifier {type : String}
    (shape : Shape.ofType? type = some [(.node, .one), (.nodeOrNil, .one)])
    (shapePost : Shape.ofType? (type ++ "_post") = some [(.node, .one), (.nodeOrNil, .one)])
    (c : Cst) : Yields (w.loopModifier type c) (MadeNode w.toOrigin c) := by
  refine (yields_requirePart _).bind fun part hpart => ?_
  refine (yields_child hw (Cst.mem_of_part? hpart)).bind fun body hbody => ?_
  refine (yields_lowerRole hw c _).bind fun condition hcondition => ?_
  refine yields_located ?_ (by simpa using ⟨hcondition, hbody⟩)
  split
  next => exact ⟨_, shapePost, .one rfl (.one rfl .nil)⟩
  next => exact ⟨_, shape, .one rfl (.one rfl .nil)⟩

/-- The branches of a case distinction are the nodes of its clauses. -/
theorem yields_caseStatement
    (hbranch : ∀ d, d.kind = .whenClause → Yields (w.lower d) fun n => n.type = .plain "when")
    (c : Cst) : Yields (w.caseStatement c) (MadeNode w.toOrigin c) := by
  have clauses : ∀ d ∈ c.plainChildren.filter fun child => child.kind == .whenClause,
      d.kind = .whenClause := fun d hd => eq_of_beq (List.mem_filter.mp hd).2
  have typed := yields_lowerAll_of_mem fun d hd => hbranch d (clauses d hd)
  have picked : Picked c.children (c.plainChildren.filter fun child => child.kind == .whenClause) :=
    .of_sublist (List.filter_sublist.trans c.plainChildren_sublist)
  have otherwise : ∀ d ∈ c.plainChildren.find? fun child => child.kind == .elseClause,
      d ∈ c.children := fun d hd => c.plainChildren_sublist.mem (List.mem_of_find?_eq_some hd)
  refine ((yields_lowerPicked hw picked).and typed).bind fun branches hbranches => ?_
  refine (yields_lowerOptional hw fun _ => Cst.mem_of_part?).bind fun subject hsubject => ?_
  refine (yields_clause hw otherwise).bind fun other hother => ?_
  have whens : ∀ v ∈ asChildren branches, (Slot.typed "when").admits v = true := by
    rw [forall_mem_asChildren]
    exact fun n hn => Slot.typed_admits.mpr (hbranches.2 n hn)
  refine yields_located ⟨_, rfl, .one (by simp) (.append whens (.one (by simp) .nil))⟩ ?_
  rw [List.forall_mem_append, List.forall_mem_cons, List.forall_mem_singleton,
    Made.asChildren_iff, Made.ofNode?_iff, Made.ofNode?_iff]
  exact ⟨⟨hsubject, hbranches.1⟩, hother⟩

theorem yields_whenClause (c : Cst) : Yields (w.whenClause c) (MadeNode w.toOrigin c) := by
  have picked : Picked c.children (c.inRole "pattern") := .of_sublist List.filter_sublist
  refine (yields_lowerPicked hw picked).bind fun patterns hpatterns => ?_
  refine (yields_clause hw fun _ => Cst.mem_of_part?).bind fun body hbody => ?_
  have all := Slot.node_admits_asChildren patterns
  refine yields_located ⟨_, rfl, .append all (.one (by simp) .nil)⟩ ?_
  rw [List.forall_mem_append, List.forall_mem_singleton, Made.asChildren_iff, Made.ofNode?_iff]
  exact ⟨hpatterns, hbody⟩

theorem yields_matchPattern (c : Cst) : Yields (w.matchPattern c) (MadeNode w.toOrigin c) := by
  unfold matchPattern
  split
  next inner single =>
    have mem : inner ∈ c.plainChildren := by rw [single]; exact List.mem_singleton_self inner
    exact yields_child hw (c.plainChildren_sublist.mem mem)
  next => exact .throw _

omit hw in
/-- What leaves with a jump satisfies what arguments and single values do. -/
theorem yields_jumpValues_of_mem {post : Node → Prop} {ds : List Cst}
    (arguments : ∀ d ∈ ds, Yields (w.arguments d.plainChildren) fun ns => ∀ n ∈ ns, post n)
    (single : ∀ d ∈ ds, Yields (w.lower d) post) :
    Yields (w.jumpValues ds) fun ns => ∀ n ∈ ns, post n := by
  induction ds with
  | nil => exact .pure (List.forall_mem_nil _)
  | cons d ds ih =>
    rw [List.forall_mem_cons] at arguments single
    have finish : ∀ {here : Lowering (List Node)}, Yields here (fun ns => ∀ n ∈ ns, post n) →
        Yields (do
          let here ← here
          let rest ← w.jumpValues ds
          return here ++ rest) fun ns => ∀ n ∈ ns, post n := fun hhere =>
      hhere.bind fun _ hns => (ih arguments.2 single.2).bind fun _ hrest =>
        .pure (List.forall_mem_append.mpr ⟨hns, hrest⟩)
    unfold jumpValues
    split
    next => exact finish arguments.1
    next =>
      exact single.1.bind fun n hn => finish (.pure (List.forall_mem_singleton.mpr hn))

theorem yields_jump {type : String} (shape : Shape.ofType? type = some [(.node, .many)])
    (c : Cst) : Yields (w.jump type c) (MadeNode w.toOrigin c) := by
  have mem : ∀ d ∈ c.plainChildren, d ∈ c.children := fun _ hd => c.plainChildren_sublist.mem hd
  refine (yields_jumpValues_of_mem (fun d hd => ?_) fun d hd => yields_child hw (mem d hd)).bind
    fun _ hvalues => yields_locatedNodes shape hvalues
  exact (yields_arguments hw d.plainChildren_sublist).mono fun ns hns n hn =>
    .inside (mem d hd) (hns n hn)

-- ============================================================================
-- Definitions
-- ============================================================================

theorem yields_methodParts (c : Cst) (otherRoles : List String) :
    Yields (w.methodParts c otherRoles) fun result =>
      MadeArgs w.toOrigin c result.1 ∧ ∀ n ∈ result.2, MadeNode w.toOrigin c n :=
  (yields_parametersAndBody hw c (yields_bodyOf hw c otherRoles)).withScope

theorem yields_method (c : Cst) : Yields (w.method c) (MadeNode w.toOrigin c) := by
  refine .after fun name => (yields_methodParts hw c _).bind fun parts hparts => ?_
  obtain ⟨hargs, hbody⟩ := hparts
  exact yields_located
    ⟨_, rfl, .one rfl (.one (by simpa using hargs.2) (.one (by simp) .nil))⟩
    (by simpa using ⟨hargs.1, hbody⟩)

theorem yields_singletonMethod (c : Cst) :
    Yields (w.singletonMethod c) (MadeNode w.toOrigin c) := by
  refine (yields_lowerRole hw c _).bind fun object hobject => .after fun name => ?_
  refine (yields_methodParts hw c _).bind fun parts hparts => ?_
  obtain ⟨hargs, hbody⟩ := hparts
  exact yields_located
    ⟨_, rfl, .one rfl (.one rfl (.one (by simpa using hargs.2) (.one (by simp) .nil)))⟩
    (by simpa using ⟨hobject, hargs.1, hbody⟩)

theorem yields_superclass (c : Cst) :
    Yields (w.superclass (c.part? "superclass")) fun n => ∀ m ∈ n, MadeNode w.toOrigin c m := by
  cases part : c.part? "superclass" with
  | none => exact .pure (by simp)
  | some d =>
    have first : ∀ e ∈ d.plainChildren.head?, e ∈ d.children := fun e he =>
      d.plainChildren_sublist.mem (List.mem_of_mem_head? he)
    exact (yields_lowerOptional hw first).mono fun n hn m hm =>
      .inside (Cst.mem_of_part? part) (hn m hm)

theorem yields_classDefinition (c : Cst) :
    Yields (w.classDefinition c) (MadeNode w.toOrigin c) := by
  refine (yields_lowerRole hw c _).bind fun name hname => ?_
  refine (yields_superclass hw c).bind fun superclass hsuperclass => ?_
  refine (yields_bodyOf hw c _).withScope.bind fun body hbody => ?_
  exact yields_located ⟨_, rfl, .one rfl (.one (by simp) (.one (by simp) .nil))⟩
    (by simpa using ⟨hname, hsuperclass, hbody⟩)

theorem yields_moduleDefinition (c : Cst) :
    Yields (w.moduleDefinition c) (MadeNode w.toOrigin c) := by
  refine (yields_lowerRole hw c _).bind fun name hname => ?_
  refine (yields_bodyOf hw c _).withScope.bind fun body hbody => ?_
  exact yields_located ⟨_, rfl, .one rfl (.one (by simp) .nil)⟩ (by simpa using ⟨hname, hbody⟩)

theorem yields_singletonClass (c : Cst) :
    Yields (w.singletonClass c) (MadeNode w.toOrigin c) := by
  refine (yields_lowerRole hw c _).bind fun value hvalue => ?_
  refine (yields_bodyOf hw c _).withScope.bind fun body hbody => ?_
  exact yields_located ⟨_, rfl, .one rfl (.one (by simp) .nil)⟩ (by simpa using ⟨hvalue, hbody⟩)

-- ============================================================================
-- All constructs
-- ============================================================================

/-- Every way to lower a construct makes a node of it. -/
theorem yields_handler
    (hbranch : ∀ d, d.kind = .whenClause → Yields (w.lower d) fun n => n.type = .plain "when")
    {handler : Context → Cst → Lowering Node} (h : handler? c.kind = some handler) :
    Yields (handler w c) (MadeNode w.toOrigin c) := by
  unfold handler? at h
  split at h <;> cases h
  · exact yields_integer c
  · exact yields_float c
  · exact yields_keyword rfl c
  · exact yields_keyword rfl c
  · exact yields_keyword rfl c
  · exact yields_keyword rfl c
  · exact yields_string hw c
  · exact yields_string hw c
  · exact yields_collection hw rfl c
  · exact yields_character c
  · exact yields_symbolNode rfl _ c
  · exact yields_symbolNode rfl _ c
  · exact yields_quotedSymbol hw c
  · exact yields_quotedSymbol hw c
  · exact yields_regex hw c
  · exact yields_collection hw rfl c
  · exact yields_collection hw rfl c
  · exact yields_collection hw rfl c
  · exact yields_collection hw rfl c
  · exact yields_pair hw c
  · exact yields_collection hw rfl c
  · exact yields_collection hw rfl c
  · exact yields_blockArgument hw c
  · exact yields_keyword rfl c
  · exact yields_range hw c
  · exact yields_statementGroup hw rfl c
  · exact yields_statementGroup hw rfl c
  · exact yields_identifier c
  · exact yields_symbolNode rfl _ c
  · exact yields_symbolNode rfl _ c
  · exact yields_symbolNode rfl _ c
  · exact yields_constant c
  · exact yields_keyword rfl c
  · exact yields_scopeResolution hw c
  · exact yields_assignment hw c
  · exact yields_operatorAssignment hw c
  next kind => exact yields_call hw kind
  · exact yields_lambda hw c
  · exact yields_elementReference hw c
  · exact yields_binary hw c
  · exact yields_unary hw c
  · exact yields_ifStatement hw c
  · exact yields_ifStatement hw c
  · exact yields_unlessStatement hw c
  · exact yields_ifStatement hw c
  · exact yields_ifModifier hw c
  · exact yields_unlessModifier hw c
  · exact yields_loop hw rfl c
  · exact yields_loop hw rfl c
  · exact yields_loopModifier hw rfl rfl c
  · exact yields_loopModifier hw rfl rfl c
  · exact yields_caseStatement hw hbranch c
  · exact yields_whenClause hw c
  · exact yields_matchPattern hw c
  · exact yields_jump hw rfl c
  · exact yields_jump hw rfl c
  · exact yields_jump hw rfl c
  · exact yields_jump hw rfl c
  · exact yields_keyword rfl c
  · exact yields_keyword rfl c
  · exact yields_method hw c
  · exact yields_singletonMethod hw c
  · exact yields_classDefinition hw c
  · exact yields_moduleDefinition hw c
  · exact yields_singletonClass hw c

end

end Context

-- ============================================================================
-- The descent
-- ============================================================================

/-- What each construct satisfies if its handler does, the descent does too. -/
theorem yields_lower_of_handler {o : Origin} {limit : Int} {post : Node → Prop} {c : Cst}
    (room : Nat) (handled : ∀ handler smaller, smaller < room →
      Context.handler? c.kind = some handler → Yields (handler ⟨o, lower o limit smaller⟩ c) post) :
    Yields (lower o limit room c) post := by
  unfold lower
  split
  next => exact .throw _
  next =>
    split
    next => exact .throw _
    next handler found =>
      cases room with
      | zero => exact .throw _
      | succ room => exact handled handler room (Nat.lt_succ_self room) found

/-- Clauses of a case distinction become its branches. -/
theorem yields_lower_whenClause (o : Origin) (limit : Int) (room : Nat) {c : Cst}
    (kind : c.kind = .whenClause) :
    Yields (lower o limit room c) fun n => n.type = .plain "when" := by
  refine yields_lower_of_handler room fun handler smaller _ found => ?_
  rw [kind] at found
  cases found
  exact .after fun _ => .after fun _ => Context.yields_located_type _ _

/-- The descent makes a node of each construct, whatever its budget. -/
theorem yields_lower (o : Origin) (limit : Int) (room : Nat) (c : Cst) :
    Yields (lower o limit room c) (MadeNode o c) := by
  induction room using Nat.strongRecOn generalizing c with
  | ind room ih =>
    refine yields_lower_of_handler room fun handler smaller less found => ?_
    exact Context.yields_handler (ih smaller less)
      (fun d => yields_lower_whenClause o limit smaller) found

/-- A parsed tree is made of the concrete syntax of its source. -/
theorem Parser.made_of_parse {p : Parser} {source : String} {root : Cst} {n : Node}
    (grammar : p.grammar source = some root) (h : p.parse source = .ok n) :
    MadeNode (p.origin source) root n := by
  obtain ⟨t, run⟩ := lowerProgram_of_parse grammar h
  have program : Yields (p.lowerProgram source root) fun n =>
      ∀ m ∈ n, MadeNode (p.origin source) root m :=
    Context.yields_compound (yields_lower _ _ _) (picked_statements root)
  exact program _ _ _ run n rfl

end RubyPattern.Ruby
