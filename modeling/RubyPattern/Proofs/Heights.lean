/-
  RubyPattern.Proofs.Heights

  How high the nodes are that lowering makes of a construct, against what it makes
  of the constructs inside. The height of a tree is the number of nodes on its
  longest path. Lists of targets, and parameters in parentheses, can be one inside
  another without a construct between them that is lowered by itself; how often
  they are is counted apart. This module has the steps that all constructs share,
  literals, arguments and assignments.
-/
import RubyPattern.Proofs.LoweringFaults

namespace RubyPattern

-- ============================================================================
-- Heights
-- ============================================================================

namespace Value

mutual

/-- The number of nodes on the longest path from a value down. -/
def height : Value → Nat
  | .node _ children _ => heightAll children + 1
  | _ => 0

/-- The height of the highest of some values. -/
def heightAll : List Value → Nat
  | [] => 0
  | v :: vs => max (height v) (heightAll vs)

end

theorem heightAll_append (vs us : List Value) :
    heightAll (vs ++ us) = max (heightAll vs) (heightAll us) := by
  induction vs with
  | nil => rw [List.nil_append, heightAll, Nat.zero_max]
  | cons v vs ih => rw [List.cons_append, heightAll, heightAll, ih, Nat.max_assoc]

theorem height_of_isLeaf {v : Value} (h : v.isLeaf = true) : v.height = 0 := by
  cases v with
  | node type children location => cases h
  | _ => rfl

theorem heightAll_le_iff {vs : List Value} {b : Nat} :
    heightAll vs ≤ b ↔ ∀ v ∈ vs, v.height ≤ b := by
  induction vs with
  | nil => simp [heightAll]
  | cons v vs ih => rw [heightAll, List.forall_mem_cons, ← ih, Nat.max_le]

end Value

theorem Node.height_toValue (n : Node) : n.toValue.height = Value.heightAll n.children + 1 := rfl

namespace Ruby

-- ============================================================================
-- Lists of targets and parameters
-- ============================================================================

/-- The kinds that list targets or parameters inside a target or a parameter. -/
def Kind.destructures (k : Kind) : Bool :=
  k.listsTargets || k == .destructuredParameter

namespace Cst

mutual

/-- How many lists of targets or parameters are one inside another at most. -/
def destructuring : Cst → Nat
  | .mk head children => destructuringOf children + if head.kind.destructures then 1 else 0

/-- How many there are at most in one of some constructs. -/
def destructuringOf : List Cst → Nat
  | [] => 0
  | c :: cs => max (destructuring c) (destructuringOf cs)

end

variable {c d : Cst} {k : Nat}

theorem destructuring_le_of_mem {cs : List Cst} (h : d ∈ cs) :
    d.destructuring ≤ destructuringOf cs := by
  induction cs with
  | nil => cases h
  | cons c cs ih =>
    rw [destructuringOf]
    rcases List.mem_cons.mp h with rfl | later
    · exact Nat.le_max_left _ _
    · exact (ih later).trans (Nat.le_max_right _ _)

theorem destructuring_le_of_child (h : d ∈ c.children) : d.destructuring ≤ c.destructuring := by
  obtain ⟨head, children⟩ := c
  rw [destructuring]
  exact (destructuring_le_of_mem h).trans (Nat.le_add_right _ _)

theorem destructuring_le_of_part {role : String} (h : c.part? role = some d) :
    d.destructuring ≤ c.destructuring :=
  destructuring_le_of_child (mem_of_part? h)

theorem destructuring_le_of_plain (h : d ∈ c.plainChildren) :
    d.destructuring ≤ c.destructuring :=
  destructuring_le_of_child (c.plainChildren_sublist.mem h)

theorem destructuring_le_of_picked {cs ds : List Cst} (picked : Picked cs ds)
    (low : ∀ c ∈ cs, c.destructuring ≤ k) : ∀ d ∈ ds, d.destructuring ≤ k :=
  picked.forall_mem (fun _ hc _ hd => (destructuring_le_of_child hd).trans hc) low

theorem destructuring_le_of_statement (h : d ∈ c.statements) :
    d.destructuring ≤ c.destructuring :=
  destructuring_le_of_picked (picked_statements c) (fun _ hd => destructuring_le_of_child hd) d h

end Cst

namespace Context

variable {w : Context} {h k : Nat} {c : Cst}

-- ============================================================================
-- Parts and statements
-- ============================================================================

/-- A node that covers a construct is one higher than its highest child. -/
theorem height_located {type : String} {children : List Value} {b : Nat}
    (low : Value.heightAll children ≤ b) :
    Yields (w.located c type children) fun n => n.toValue.height ≤ b + 1 :=
  .after fun _ => .pure (Nat.succ_le_succ low)

/-- A node without nodes in it is no higher than any other. -/
theorem height_locatedLeaves {type : String} {children : List Value} {b : Nat}
    (leaves : Value.heightAll children = 0) :
    Yields (w.located c type children) fun n => n.toValue.height ≤ b + 1 :=
  height_located (leaves ▸ Nat.zero_le b)

section

-- What is lowered inside a construct is low, but for the lists in it.
variable (hw : ∀ d, Yields (w.lower d) fun n => n.toValue.height ≤ h + d.destructuring)
include hw

theorem height_lower {d : Cst} (hd : d.destructuring ≤ k) :
    Yields (w.lower d) fun n => n.toValue.height ≤ h + k :=
  (hw d).mono fun _ hn => hn.trans (Nat.add_le_add_left hd h)

theorem height_lowerRole (c : Cst) (role : String) :
    Yields (w.lowerRole c role) fun n => n.toValue.height ≤ h + c.destructuring :=
  (yields_requirePart _).bind fun _ part => height_lower hw (Cst.destructuring_le_of_part part)

theorem height_lowerOptional {part : Option Cst} (hd : ∀ d ∈ part, d.destructuring ≤ k) :
    Yields (w.lowerOptional part) fun n => (Value.ofNode? n).height ≤ h + k := by
  cases part with
  | none => exact .pure (Nat.zero_le _)
  | some d => exact (height_lower hw (hd d rfl)).bind fun n hn => .pure hn

theorem height_lowerAll {ds : List Cst} (hd : ∀ d ∈ ds, d.destructuring ≤ k) :
    Yields (w.lowerAll ds) fun ns => Value.heightAll (asChildren ns) ≤ h + k := by
  refine (yields_lowerAll_of_mem fun d mem => height_lower hw (hd d mem)).mono fun ns hns => ?_
  exact Value.heightAll_le_iff.mpr (forall_mem_asChildren.mpr hns)

/-- Several statements are one node higher than the highest of them. -/
theorem height_compound {ds : List Cst} (hd : ∀ d ∈ ds, d.destructuring ≤ k) :
    Yields (w.compound ds) fun n => (Value.ofNode? n).height ≤ h + k + 1 := by
  refine (height_lowerAll hw hd).bind fun ns hns => ?_
  split
  next => exact .pure (Nat.zero_le _)
  next n =>
    have alone : n.toValue.height ≤ h + k := (Nat.max_le.mp hns).1
    exact .pure (Nat.le_succ_of_le alone)
  next =>
    split
    next => exact .after fun _ => .pure (Nat.succ_le_succ hns)
    next => exact .pure (Nat.zero_le _)

theorem height_clause {part : Option Cst} (hd : ∀ d ∈ part, d.destructuring ≤ k) :
    Yields (w.clause part) fun n => (Value.ofNode? n).height ≤ h + k + 1 := by
  cases part with
  | none => exact .pure (Nat.zero_le _)
  | some d =>
    have low := hd d rfl
    unfold clause
    dsimp only
    split
    next =>
      exact height_compound hw fun e he => (Cst.destructuring_le_of_statement he).trans low
    next => exact (height_lower hw low).bind fun n hn => .pure (Nat.le_succ_of_le hn)

theorem height_clauseOfRole (c : Cst) (role : String) :
    Yields (w.clause (c.part? role)) fun n =>
      (Value.ofNode? n).height ≤ h + c.destructuring + 1 :=
  height_clause hw fun _ => Cst.destructuring_le_of_part

theorem height_bodyOf (c : Cst) (otherRoles : List String) :
    Yields (w.bodyOf c otherRoles) fun n =>
      (Value.ofNode? n).height ≤ h + c.destructuring + 1 := by
  unfold bodyOf
  split
  next d part =>
    refine height_clause hw ?_
    rintro _ ⟨⟩
    exact Cst.destructuring_le_of_part part
  next =>
    refine height_compound hw (Cst.destructuring_le_of_picked ?_ fun _ =>
      Cst.destructuring_le_of_child)
    exact (picked_flatten _).mono List.filter_sublist

-- ============================================================================
-- Literals and variables
-- ============================================================================

theorem height_collection (type : String) (c : Cst) :
    Yields (w.collection type c) fun n => n.toValue.height ≤ h + c.destructuring + 1 :=
  (height_lowerAll hw fun _ => Cst.destructuring_le_of_plain).bind fun _ => height_located

theorem height_statementGroup (type : String) (c : Cst) :
    Yields (w.statementGroup type c) fun n => n.toValue.height ≤ h + c.destructuring + 1 :=
  (height_lowerAll hw fun _ => Cst.destructuring_le_of_statement).bind fun _ => height_located

/-- A piece of text is a node of its own; an interpolation is one around its
    statements. -/
theorem height_piece {d : Cst} (hd : d.destructuring ≤ k) :
    Yields (w.piece d) fun p => p.toValue.height ≤ h + k + 1 := by
  unfold piece
  split
  next => exact .after fun s => .pure (Nat.succ_le_succ (Nat.zero_le _))
  next => exact .after fun _ => .after fun s => .pure (Nat.succ_le_succ (Nat.zero_le _))
  next =>
    refine (height_lowerAll hw fun e he =>
      (Cst.destructuring_le_of_statement he).trans hd).bind fun ns hns => ?_
    exact (height_located hns).bind fun n hn => .pure hn
  next => exact .throw _

theorem height_stringPieces (c : Cst) :
    Yields (w.stringPieces c) fun ps =>
      Value.heightAll (ps.map Piece.toValue) ≤ h + c.destructuring + 1 := by
  have text : ∀ s, (Piece.text s).toValue.height ≤ h + c.destructuring + 1 := fun s =>
    Nat.succ_le_succ (Nat.zero_le _)
  have each : ∀ d ∈ c.plainChildren, Yields (w.piece d) fun p =>
      p.toValue.height ≤ h + c.destructuring + 1 := fun d hd =>
    height_piece hw (Cst.destructuring_le_of_plain hd)
  refine (yields_stringPieces_of_mem text each).mono fun ps hps => ?_
  rw [Value.heightAll_le_iff, List.forall_mem_map]
  exact hps

theorem height_stringNode (plain dynamic : String) {wrap : String → Value}
    (leaf : ∀ s, (wrap s).height = 0) (c : Cst) :
    Yields (w.stringNode plain dynamic wrap c) fun n => n.toValue.height ≤ h + c.destructuring + 2 := by
  refine (height_stringPieces hw c).bind fun ps hps => ?_
  split
  next => exact height_located (by rw [Value.heightAll, leaf]; exact Nat.zero_le _)
  next => exact height_located (by rw [Value.heightAll, leaf]; exact Nat.zero_le _)
  next => exact height_located hps

theorem height_regex (c : Cst) :
    Yields (w.regex c) fun n => n.toValue.height ≤ h + c.destructuring + 2 := by
  refine (height_stringPieces hw c).bind fun ps hps => .after fun s => ?_
  have flags : ∀ fs : List Char,
      Value.heightAll (fs.map fun flag => .sym (String.singleton flag)) = 0 := by
    intro fs
    induction fs with
    | nil => rfl
    | cons f fs ih => rw [List.map_cons, Value.heightAll, ih]; rfl
  refine height_located ?_
  rw [Value.heightAll_append, Value.heightAll, Node.height_toValue, Node.bare, flags,
    Value.heightAll]
  omega

omit hw in
theorem height_shorthandValue (key : Node) :
    Yields (shorthandValue key) fun n => n.toValue.height ≤ 1 := by
  refine .after fun name => .after fun known => ?_
  split
  next => exact .pure (Nat.le_refl 1)
  next => exact .pure (Nat.le_refl 1)

theorem height_pair (c : Cst) : Yields (w.pair c) fun n => n.toValue.height ≤ h + c.destructuring + 2 := by
  unfold pair
  split
  next => exact .throw _
  next key hkey =>
    refine (height_lower hw (Cst.destructuring_le_of_part hkey)).bind fun keyNode hkeyNode => ?_
    -- Whatever the key has become, a value follows and both are put together.
    have finish : ∀ {keyNode : Node} {value : Lowering Node},
        keyNode.toValue.height ≤ h + c.destructuring + 1 →
        Yields value (fun n => n.toValue.height ≤ h + c.destructuring + 1) →
        Yields (value >>= fun valueNode => w.located c "pair" [keyNode, valueNode])
          fun n => n.toValue.height ≤ h + c.destructuring + 2 := by
      intro keyNode value hkey hvalue
      exact hvalue.bind fun valueNode hvalue =>
        height_located (by simp only [Value.heightAll]; omega)
    have symbol : ∀ name, Yields
        (Pure.pure ⟨.plain "sym", [.sym name], keyNode.location⟩ : Lowering Node)
        fun n => n.toValue.height ≤ h + c.destructuring + 1 := fun name =>
      .pure (Nat.succ_le_succ (Nat.zero_le _))
    have same : Yields (Pure.pure keyNode : Lowering Node)
        fun n => n.toValue.height ≤ h + c.destructuring + 1 := .pure (Nat.le_succ_of_le hkeyNode)
    cases hvalue : c.part? "value" with
    | none =>
      have short : ∀ key, Yields (shorthandValue key)
          fun n => n.toValue.height ≤ h + c.destructuring + 1 := fun key =>
        (height_shorthandValue key).mono fun n hn => hn.trans (Nat.le_add_left 1 _)
      dsimp only
      split
      next =>
        exact .after fun name => (symbol name).bind fun key hkey => finish hkey (short key)
      next => exact same.bind fun key hkey => finish hkey (short key)
    | some value =>
      have lowered := (height_lower hw (Cst.destructuring_le_of_part hvalue)).mono
        fun n hn => Nat.le_succ_of_le hn
      dsimp only
      split
      next => exact .after fun name => (symbol name).bind fun key hkey => finish hkey lowered
      next => exact same.bind fun key hkey => finish hkey lowered

theorem height_blockArgument (c : Cst) :
    Yields (w.blockArgument c) fun n => n.toValue.height ≤ h + c.destructuring + 1 := by
  have first : ∀ d ∈ c.plainChildren.head?, d.destructuring ≤ c.destructuring := fun d hd =>
    Cst.destructuring_le_of_plain (List.mem_of_mem_head? hd)
  exact (height_lowerOptional hw first).bind fun value hvalue =>
    height_located (by simp only [Value.heightAll]; omega)

theorem height_range (c : Cst) :
    Yields (w.range c) fun n => n.toValue.height ≤ h + c.destructuring + 1 := by
  refine (height_lowerOptional hw fun _ => Cst.destructuring_le_of_part).bind fun first hfirst => ?_
  refine (height_lowerOptional hw fun _ => Cst.destructuring_le_of_part).bind fun last hlast => ?_
  exact height_located (by simp only [Value.heightAll]; omega)

/-- A scope is a construct, or the node for the top. -/
theorem height_pathScope (c : Cst) :
    Yields (w.pathScope (c.part? "scope")) fun n => n.toValue.height ≤ h + c.destructuring + 1 := by
  cases part : c.part? "scope" with
  | none => exact .pure (Nat.succ_le_succ (Nat.zero_le _))
  | some d =>
    exact (height_lower hw (Cst.destructuring_le_of_part part)).mono
      fun n hn => Nat.le_succ_of_le hn

theorem height_scopeResolution (c : Cst) :
    Yields (w.scopeResolution c) fun n => n.toValue.height ≤ h + c.destructuring + 2 := by
  unfold scopeResolution
  split
  next => exact .throw _
  next =>
    refine (height_pathScope hw c).bind fun scope hscope => .after fun text => ?_
    exact height_located (by simp only [Value.heightAll, Value.height]; omega)

-- ============================================================================
-- Arguments and assignments
-- ============================================================================

/-- The keywords are one node higher, in their hash. -/
theorem height_arguments {ds : List Cst} (hd : ∀ d ∈ ds, d.destructuring ≤ k) :
    Yields (w.arguments ds) fun ns => Value.heightAll (asChildren ns) ≤ h + k + 1 := by
  have keywords : ∀ d ∈ ds.filter isKeyword, d.destructuring ≤ k := fun d mem =>
    hd d (List.mem_filter.mp mem).1
  have low : Yields (w.arguments ds) fun ns => ∀ n ∈ ns, n.toValue.height ≤ h + k + 1 := by
    refine yields_arguments_of_mem (fun d mem _ => ?_) fun first last _ _ => ?_
    · exact (height_lower hw (hd d mem)).mono fun n hn => Nat.le_succ_of_le hn
    · exact (height_lowerAll hw keywords).mono fun ns hns l _ => Nat.succ_le_succ hns
  refine low.mono fun ns hns => ?_
  exact Value.heightAll_le_iff.mpr (forall_mem_asChildren.mpr hns)

theorem height_indexArguments (c object : Cst) :
    Yields (w.indexArguments c object) fun ns =>
      Value.heightAll (asChildren ns) ≤ h + c.destructuring + 1 :=
  height_arguments hw fun _ mem => Cst.destructuring_le_of_plain (List.mem_filter.mp mem).1

omit hw in
mutual

/-- A list of targets is one node higher than the targets in it, and nothing else
    makes targets higher than two nodes. -/
theorem height_target (hw : ∀ d, Yields (w.lower d) fun n => n.toValue.height ≤ h + d.destructuring)
    (keepsName : Bool) (c : Cst) :
    Yields (w.target keepsName c) fun n => n.toValue.height ≤ h + c.destructuring + 2 := by
  obtain ⟨head, children⟩ := c
  -- A list counts once more than what is in it, which pays for its own node.
  have listed : head.kind.destructures = true → ∀ type,
      Yields (do
        let parts ← w.targets children
        w.located (.mk head children) type (asChildren parts)) fun n =>
          n.toValue.height ≤ h + (Cst.mk head children).destructuring + 2 := by
    intro lists type
    refine (height_targets hw children).bind fun parts hparts => ?_
    refine (height_located hparts).mono fun n hn => ?_
    rw [Cst.destructuring, if_pos lists]
    omega
  unfold target
  dsimp only
  split
  next => exact .after fun name => .after fun _ => height_locatedLeaves rfl
  next => exact .after fun _ => height_locatedLeaves rfl
  next => exact .after fun _ => height_locatedLeaves rfl
  next => exact .after fun _ => height_locatedLeaves rfl
  next => exact .after fun name => height_locatedLeaves rfl
  next =>
    refine (height_pathScope hw _).bind fun scope hscope => .after fun name => ?_
    exact height_located (by simp only [Value.heightAll, Value.height]; omega)
  next =>
    refine (height_lowerRole hw _ _).bind fun receiver hreceiver => ?_
    refine .after fun method => .after fun operator => ?_
    exact height_located (by simp only [Value.heightAll, Value.height]; omega)
  next =>
    refine (yields_requirePart _).bind fun object hobject => ?_
    refine (height_indexArguments hw _ object).bind fun arguments harguments => ?_
    refine (height_lower hw (Cst.destructuring_le_of_part hobject)).bind fun receiver hreceiver => ?_
    exact height_located (by simp only [Value.heightAll, Value.height]; omega)
  next kind => exact listed (by rw [kind]; rfl) _
  next kind => exact listed (by rw [kind]; rfl) _
  next kind => exact listed (by rw [kind]; rfl) _
  next => exact .throw _

theorem height_targets (hw : ∀ d, Yields (w.lower d) fun n => n.toValue.height ≤ h + d.destructuring)
    (cs : List Cst) :
    Yields (w.targets cs) fun ns =>
      Value.heightAll (asChildren ns) ≤ h + Cst.destructuringOf cs + 2 := by
  cases cs with
  | nil => exact .pure (Nat.zero_le _)
  | cons c cs =>
    have later := (height_targets hw cs).mono fun ns hns =>
      hns.trans (by rw [Cst.destructuringOf]; omega : _ ≤ h + Cst.destructuringOf (c :: cs) + 2)
    unfold targets
    split
    next =>
      refine (height_target hw false c).bind fun n hn => later.bind fun ns hns => .pure ?_
      refine Nat.max_le.mpr ⟨hn.trans ?_, hns⟩
      rw [Cst.destructuringOf]
      omega
    next => exact later

end

/-- Several values make an array, and one with a star does too. -/
theorem height_assignedValue (c : Cst) :
    Yields (w.assignedValue c) fun n => n.toValue.height ≤ h + c.destructuring + 1 := by
  unfold assignedValue
  split
  next => exact height_collection hw _ c
  next =>
    refine (hw c).bind fun n hn => height_located ?_
    exact Nat.max_le.mpr ⟨hn, Nat.zero_le _⟩
  next => exact (hw c).mono fun n hn => Nat.le_succ_of_le hn

theorem height_assignment (c : Cst) :
    Yields (w.assignment c) fun n => n.toValue.height ≤ h + c.destructuring + 3 := by
  unfold assignment
  split
  next left right hleft hright =>
    have lowLeft := Cst.destructuring_le_of_part hleft
    have lowRight := Cst.destructuring_le_of_part hright
    refine (height_target hw false left).bind fun target htarget => ?_
    refine (height_assignedValue hw right).bind fun value hvalue => ?_
    split
    next => exact height_located (by simp only [Value.heightAll]; omega)
    next =>
      refine height_located ?_
      rw [Node.height_toValue] at htarget
      rw [Value.heightAll_append]
      simp only [Value.heightAll]
      omega
  next => exact .throw _

theorem height_operatorAssignment (c : Cst) :
    Yields (w.operatorAssignment c) fun n => n.toValue.height ≤ h + c.destructuring + 3 := by
  unfold operatorAssignment
  split
  next left right hleft hright =>
    have lowLeft := Cst.destructuring_le_of_part hleft
    have lowRight := Cst.destructuring_le_of_part hright
    refine .after fun operator => (height_target hw true left).bind fun target htarget => ?_
    refine (height_lower hw lowRight).bind fun value hvalue => ?_
    split
    next => exact height_located (by simp only [Value.heightAll]; omega)
    next =>
      split
      next => exact height_located (by simp only [Value.heightAll]; omega)
      next => exact height_located (by simp only [Value.heightAll, Value.height]; omega)
  next => exact .throw _

end

end Context

end Ruby

end RubyPattern
