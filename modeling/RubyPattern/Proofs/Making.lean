/-
  RubyPattern.Proofs.Making

  What lowering makes of concrete syntax. A value is made of a construct if it is
  a leaf, if it is made of a part of the construct, or if it is a node of a known
  shape whose children are made of the construct and whose location covers it, a
  row of its parts or, for a call, all but its block. This module has the steps
  that all constructs share, and literals and names.
-/
import Mathlib.Data.List.Forall2
import Mathlib.Tactic.Choose
import RubyPattern.Proofs.Shapes
import RubyPattern.Proofs.Yields

namespace RubyPattern

/-- The plain values that are children of parsed nodes. -/
def Value.isLeaf : Value → Bool
  | .nil => true
  | .str _ => true
  | .sym _ => true
  | .int _ => true
  | .float _ => true
  | .nan _ => true
  | _ => false

@[simp] theorem Value.isLeaf_ofFloat (tag : Nat) (x : Float) :
    (Value.ofFloat tag x).isLeaf = true := by
  unfold ofFloat
  split <;> rfl

namespace Ruby

-- ============================================================================
-- Constructs
-- ============================================================================

/-- Constructs picked from a list in their order, wrappers opened. -/
inductive Picked : List Cst → List Cst → Prop
  | nil : Picked [] []
  | skip {c : Cst} {cs ds : List Cst} (later : Picked cs ds) : Picked (c :: cs) ds
  | keep {c : Cst} {cs ds : List Cst} (later : Picked cs ds) : Picked (c :: cs) (c :: ds)
  | inside {c : Cst} {cs es ds : List Cst} (inner : Picked c.children es)
      (later : Picked cs ds) : Picked (c :: cs) (es ++ ds)

theorem Picked.of_sublist {ds cs : List Cst} (h : ds.Sublist cs) : Picked cs ds := by
  induction h with
  | slnil => exact .nil
  | cons c later ih => exact .skip ih
  | cons_cons c later ih => exact .keep ih

theorem Picked.mono {ds cs cs' : List Cst} (h : Picked cs ds) (sublist : cs.Sublist cs') :
    Picked cs' ds := by
  induction sublist generalizing ds with
  | slnil => exact h
  | cons c later ih => exact .skip (ih h)
  | cons_cons c later ih =>
    cases h with
    | skip h => exact .skip (ih h)
    | keep h => exact .keep (ih h)
    | inside inner h => exact .inside inner (ih h)

/-- What holds of constructs and goes over to their children holds of what is picked
    from them. -/
theorem Picked.forall_mem {P : Cst → Prop} (down : ∀ c, P c → ∀ d ∈ c.children, P d)
    {cs ds : List Cst} (picked : Picked cs ds) (all : ∀ c ∈ cs, P c) : ∀ d ∈ ds, P d := by
  induction picked with
  | nil => exact List.forall_mem_nil _
  | skip later ih =>
    rw [List.forall_mem_cons] at all
    exact ih all.2
  | keep later ih =>
    rw [List.forall_mem_cons] at all
    exact List.forall_mem_cons.mpr ⟨all.1, ih all.2⟩
  | inside inner later ihInner ih =>
    rw [List.forall_mem_cons] at all
    exact List.forall_mem_append.mpr ⟨ihInner (down _ all.1), ih all.2⟩

mutual

/-- The statements among some constructs are picked from them. -/
theorem picked_statements (c : Cst) : Picked c.children c.statements := by
  obtain ⟨head, children⟩ := c
  rw [Cst.statements]
  exact picked_flatten children

theorem picked_flatten (cs : List Cst) : Picked cs (Cst.flatten cs) := by
  cases cs with
  | nil => exact .nil
  | cons c cs =>
    have later := picked_flatten cs
    have inner := picked_statements c
    rw [Cst.flatten]
    split
    next =>
      split
      next => exact .inside inner later
      next => exact .keep later
    next => exact .skip later

end

namespace Cst

variable {c d : Cst}

theorem mem_of_part? {role : String} (h : c.part? role = some d) : d ∈ c.children :=
  List.mem_of_find?_eq_some h

theorem plainChildren_sublist (c : Cst) : c.plainChildren.Sublist c.children :=
  List.filter_sublist

/-- The parts of a call that its node covers: receiver, method and arguments. -/
def callParts (c : Cst) : List Cst :=
  (c.part? "receiver").toList ++ (c.part? "method").toList ++ (c.part? "arguments").toList

theorem mem_callParts_receiver (h : c.part? "receiver" = some d) : d ∈ c.callParts := by
  simp [callParts, h]

theorem mem_callParts_arguments (h : c.part? "arguments" = some d) : d ∈ c.callParts := by
  simp [callParts, h]

/-- The last of these parts is the one that a call without its block ends with. -/
theorem getLast?_callParts (c : Cst) : c.callParts.getLast? =
    ((c.part? "arguments" <|> c.part? "method") <|> c.part? "receiver") := by
  unfold callParts
  cases c.part? "arguments" <;> cases c.part? "method" <;> cases c.part? "receiver" <;> rfl

theorem mem_of_callParts (h : d ∈ c.callParts) : d ∈ c.children := by
  unfold callParts at h
  rw [List.mem_append, List.mem_append, Option.mem_toList, Option.mem_toList,
    Option.mem_toList] at h
  rcases h with (h | h) | h <;> exact mem_of_part? h

end Cst

theorem forall_mem_asChildren {P : Value → Prop} {ns : List Node} :
    (∀ v ∈ asChildren ns, P v) ↔ ∀ n ∈ ns, P n.toValue := by
  rw [asChildren, List.forall_mem_map]

/-- A location that reaches from the start of one construct to the end of
    another. -/
def Origin.Spans (o : Origin) (first last : Cst) (l : Location) : Prop :=
  ∃ s t, o.span first last s = .ok (l, t)

theorem yields_span (o : Origin) (first last : Cst) :
    Yields (o.span first last) (o.Spans first last) :=
  fun s _ t run => ⟨s, t, run⟩

-- ============================================================================
-- Made of a construct
-- ============================================================================

/-- A value is made of a construct. -/
inductive Made (o : Origin) : Cst → Value → Prop
  /-- A plain value. -/
  | leaf {c : Cst} {v : Value} (plain : v.isLeaf = true) : Made o c v
  /-- What is made of a child. -/
  | inside {c d : Cst} {v : Value} (mem : d ∈ c.children) (made : Made o d v) : Made o c v
  /-- A node that covers the construct. -/
  | whole {c : Cst} {type : String} {children : List Value} {l : Location}
      (span : o.Spans c c l) (fits : Fits type children) (made : ∀ v ∈ children, Made o c v) :
      Made o c (.node (.plain type) children (some l))
  /-- A node without a place, and without nodes inside it. -/
  | bare {c : Cst} {type : String} {children : List Value} (fits : Fits type children)
      (leaves : ∀ v ∈ children, v.isLeaf = true) : Made o c (.node (.plain type) children none)
  /-- A node that covers a row of constructs and has a child for each of them. -/
  | row {c first last : Cst} {cs : List Cst} {type : String} {children : List Value}
      {l : Location} (picked : Picked c.children cs) (opens : cs.head? = some first)
      (closes : cs.getLast? = some last) (span : o.Spans first last l)
      (fits : Fits type children) (lengths : cs.length = children.length)
      (made : ∀ d v, (d, v) ∈ cs.zip children → Made o d v) :
      Made o c (.node (.plain type) children (some l))
  /-- A node that covers a call through the last of the parts that it needs. The
      children are made of these parts, and `place` says of which. -/
  | call {c : Cst} {type : String} {children : List Value} {place : Value → Cst} {l : Location}
      (kind : c.kind = .call) (span : o.Spans c (c.callParts.getLast?.getD c) l)
      (fits : Fits type children)
      (places : ∀ v ∈ children, v.isLeaf = true ∨ place v ∈ c.callParts)
      (made : ∀ v ∈ children, Made o (place v) v) :
      Made o c (.node (.plain type) children (some l))
  /-- A node of plain values in the place of another node. -/
  | renamed {c : Cst} {type : String} {label : Label} {children replaced : List Value}
      {l : Option Location} (fits : Fits type children)
      (leaves : ∀ v ∈ children, v.isLeaf = true) (made : Made o c (.node label replaced l)) :
      Made o c (.node (.plain type) children l)

/-- A node is made of a construct. -/
def MadeNode (o : Origin) (c : Cst) (n : Node) : Prop :=
  Made o c n.toValue

/-- A node of parameters that is made of a construct. -/
def MadeArgs (o : Origin) (c : Cst) (n : Node) : Prop :=
  MadeNode o c n ∧ n.type = .plain "args"

namespace Made

variable {o : Origin} {c : Cst} {v : Value}

theorem of_picked {cs ds : List Cst} (picked : Picked cs ds) {d : Cst} (mem : d ∈ ds)
    (made : Made o d v) : ∃ child ∈ cs, Made o child v := by
  induction picked with
  | nil => cases mem
  | @skip c cs ds later ih =>
    obtain ⟨child, hchild, inner⟩ := ih mem
    exact ⟨child, List.mem_cons_of_mem c hchild, inner⟩
  | @keep c cs ds later ih =>
    rcases List.mem_cons.mp mem with rfl | mem
    · exact ⟨d, List.mem_cons_self, made⟩
    · obtain ⟨child, hchild, inner⟩ := ih mem
      exact ⟨child, List.mem_cons_of_mem c hchild, inner⟩
  | @inside c cs es ds inner later ihInner ih =>
    rcases List.mem_append.mp mem with mem | mem
    · obtain ⟨child, hchild, made⟩ := ihInner mem
      exact ⟨c, List.mem_cons_self, .inside hchild made⟩
    · obtain ⟨child, hchild, inner⟩ := ih mem
      exact ⟨child, List.mem_cons_of_mem c hchild, inner⟩

/-- What is made of a picked construct is made of the one that it is picked
    from. -/
theorem picked {ds : List Cst} (picked : Picked c.children ds) {d : Cst} (mem : d ∈ ds)
    (made : Made o d v) : Made o c v := by
  obtain ⟨child, hchild, inner⟩ := of_picked picked mem made
  exact .inside hchild inner

theorem exists_mem_zip {cs : List Cst} {vs : List Value} (lengths : cs.length = vs.length)
    (hv : v ∈ vs) : ∃ d ∈ cs, (d, v) ∈ cs.zip vs := by
  rw [← List.map_snd_zip (Nat.le_of_eq lengths.symm)] at hv
  obtain ⟨⟨d, u⟩, pair, rfl⟩ := List.mem_map.mp hv
  exact ⟨d, (List.of_mem_zip pair).1, pair⟩

/-- What stands in a row with picked constructs is made of one of them. -/
theorem of_zip {cs : List Cst} {vs : List Value} (picked : Picked c.children cs)
    (lengths : cs.length = vs.length) (made : ∀ d v, (d, v) ∈ cs.zip vs → Made o d v) :
    ∀ v ∈ vs, Made o c v := by
  intro v hv
  obtain ⟨d, hd, pair⟩ := exists_mem_zip lengths hv
  exact .picked picked hd (made d v pair)

/-- The children of a node that is made of a construct are made of it too. -/
theorem children {type : Label} {children : List Value} {l : Option Location}
    (h : Made o c (.node type children l)) : ∀ v ∈ children, Made o c v := by
  generalize hnode : Value.node type children l = n at h
  induction h generalizing children l with
  | leaf plain =>
    subst hnode
    cases plain
  | inside mem made ih =>
    intro v hv
    exact .inside mem (ih hnode v hv)
  | whole span fits made ih =>
    cases hnode
    exact made
  | bare fits leaves =>
    cases hnode
    exact fun v hv => .leaf (leaves v hv)
  | row picked opens closes span fits lengths made ih =>
    cases hnode
    exact .of_zip picked lengths made
  | call kind span fits places made ih =>
    cases hnode
    intro v hv
    rcases places v hv with plain | part
    · exact .leaf plain
    · exact .inside (Cst.mem_of_callParts part) (made v hv)
  | renamed fits leaves made ih =>
    cases hnode
    exact fun v hv => .leaf (leaves v hv)

/-- A node that is made of a construct has a plain type and the shape of it. -/
theorem fits {type : Label} {children : List Value} {l : Option Location}
    (h : Made o c (.node type children l)) :
    type = .plain type.text ∧ Fits type.text children := by
  generalize hnode : Value.node type children l = n at h
  induction h generalizing children l with
  | leaf plain =>
    subst hnode
    cases plain
  | inside mem made ih => exact ih hnode
  | whole _ fits | bare fits | row picked opens closes span fits | call kind span fits
  | renamed fits =>
    cases hnode
    exact ⟨rfl, fits⟩

theorem of_bare {type : String} {children : List Value} (fits : Fits type children)
    (leaves : ∀ v ∈ children, v.isLeaf = true) : MadeNode o c (Node.bare type children) :=
  .bare fits leaves

/-- A node of plain values in the place of another, such as the key of a pair. -/
theorem of_renamed {type : String} {children : List Value} {replaced : Node}
    (fits : Fits type children) (leaves : ∀ v ∈ children, v.isLeaf = true)
    (made : MadeNode o c replaced) : MadeNode o c ⟨.plain type, children, replaced.location⟩ :=
  .renamed fits leaves made

/-- A call is made of its parts, whichever part each child is made of. -/
theorem of_callParts {type : String} {children : List Value} {l : Location}
    (kind : c.kind = .call) (span : o.Spans c (c.callParts.getLast?.getD c) l)
    (fits : Fits type children)
    (parts : ∀ v ∈ children, v.isLeaf = true ∨ ∃ d ∈ c.callParts, Made o d v) :
    Made o c (.node (.plain type) children (some l)) := by
  have placed : ∀ v, ∃ d, v ∈ children →
      (v.isLeaf = true ∨ d ∈ c.callParts) ∧ Made o d v := by
    intro v
    by_cases hv : v ∈ children
    · rcases parts v hv with plain | ⟨d, hd, made⟩
      · exact ⟨c, fun _ => ⟨.inl plain, .leaf plain⟩⟩
      · exact ⟨d, fun _ => ⟨.inr hd, made⟩⟩
    · exact ⟨c, fun mem => absurd mem hv⟩
  choose place hplace using placed
  exact .call kind span fits (fun v hv => (hplace v hv).1) fun v hv => (hplace v hv).2

@[simp] theorem nil : Made o c .nil := .leaf rfl

@[simp] theorem str (s : String) : Made o c (.str s) := .leaf rfl

@[simp] theorem sym (name : String) : Made o c (.sym name) := .leaf rfl

@[simp] theorem int (n : Int) : Made o c (.int n) := .leaf rfl

@[simp] theorem ofFloat (tag : Nat) (x : Float) : Made o c (.ofFloat tag x) := .leaf (by simp)

@[simp] theorem toValue_iff {n : Node} : Made o c n.toValue ↔ MadeNode o c n := Iff.rfl

@[simp] theorem ofNode?_iff {n : Option Node} :
    Made o c (.ofNode? n) ↔ ∀ m ∈ n, MadeNode o c m := by
  cases n <;> simp [Value.ofNode?]

@[simp] theorem asChildren_iff {ns : List Node} :
    (∀ v ∈ asChildren ns, Made o c v) ↔ ∀ n ∈ ns, MadeNode o c n :=
  forall_mem_asChildren

theorem of_forall₂ {cs : List Cst} {ns : List Node} (picked : Picked c.children cs)
    (made : List.Forall₂ (MadeNode o) cs ns) : ∀ n ∈ ns, MadeNode o c n := by
  have values : List.Forall₂ (Made o) cs (asChildren ns) := List.forall₂_map_right_iff.mpr made
  obtain ⟨lengths, pairs⟩ := List.forall₂_iff_zip.mp values
  exact asChildren_iff.mp (.of_zip picked lengths fun d v => pairs)

/-- A node of the nodes that stand in a row with picked constructs. -/
theorem of_row {type : String} {cs : List Cst} {ns : List Node} {first last : Cst} {l : Location}
    (picked : Picked c.children cs) (opens : cs.head? = some first)
    (closes : cs.getLast? = some last) (span : o.Spans first last l)
    (shape : Shape.ofType? type = some [(.node, .many)])
    (made : List.Forall₂ (MadeNode o) cs ns) :
    MadeNode o c ⟨.plain type, asChildren ns, some l⟩ := by
  have values : List.Forall₂ (Made o) cs (asChildren ns) := List.forall₂_map_right_iff.mpr made
  obtain ⟨lengths, pairs⟩ := List.forall₂_iff_zip.mp values
  exact .row picked opens closes span (.nodes shape (Slot.node_admits_asChildren ns)) lengths fun d v => pairs

end Made

namespace Context

variable {w : Context} {c : Cst}

-- ============================================================================
-- Parts and statements
-- ============================================================================

theorem yields_located {type : String} {children : List Value} (fits : Fits type children)
    (made : ∀ v ∈ children, Made w.toOrigin c v) :
    Yields (w.located c type children) (MadeNode w.toOrigin c) :=
  (yields_span w.toOrigin c c).bind fun _ span => .pure (.whole span fits made)

theorem yields_located_type (type : String) (children : List Value) :
    Yields (w.located c type children) fun n => n.type = .plain type :=
  .after fun _ => .pure rfl

theorem yields_requirePart (part : Option Cst) :
    Yields (requirePart part) fun d => part = some d := by
  cases part with
  | none => exact .throw _
  | some d => exact .pure rfl

section

variable (hw : ∀ d, Yields (w.lower d) (MadeNode w.toOrigin d))
include hw

theorem yields_child {d : Cst} (mem : d ∈ c.children) :
    Yields (w.lower d) (MadeNode w.toOrigin c) :=
  (hw d).mono fun _ hn => .inside mem hn

theorem yields_lowerRole (c : Cst) (role : String) :
    Yields (w.lowerRole c role) (MadeNode w.toOrigin c) :=
  (yields_requirePart _).bind fun _ part => yields_child hw (Cst.mem_of_part? part)

theorem yields_lowerOptional {part : Option Cst} (parts : ∀ d ∈ part, d ∈ c.children) :
    Yields (w.lowerOptional part) fun n => ∀ m ∈ n, MadeNode w.toOrigin c m := by
  cases part with
  | none => exact .pure (by simp)
  | some d => exact (yields_child hw (parts d rfl)).bind fun n hn => .pure (by simpa using hn)

/-- Constructs that are lowered one after the other have a node each. -/
theorem yields_lowerAll (cs : List Cst) :
    Yields (w.lowerAll cs) (List.Forall₂ (MadeNode w.toOrigin) cs) := by
  induction cs with
  | nil => exact .pure .nil
  | cons c cs ih => exact (hw c).bind fun n hn => ih.bind fun ns hns => .pure (.cons hn hns)

omit hw in
theorem yields_lowerAll_of_mem {post : Node → Prop} {cs : List Cst}
    (each : ∀ d ∈ cs, Yields (w.lower d) post) :
    Yields (w.lowerAll cs) fun ns => ∀ n ∈ ns, post n := by
  induction cs with
  | nil => exact .pure (by simp)
  | cons d cs ih =>
    rw [List.forall_mem_cons] at each
    exact each.1.bind fun n hn => (ih each.2).bind fun ns hns =>
      .pure (List.forall_mem_cons.mpr ⟨hn, hns⟩)

theorem yields_lowerPicked {cs : List Cst} (picked : Picked c.children cs) :
    Yields (w.lowerAll cs) fun ns => ∀ n ∈ ns, MadeNode w.toOrigin c n := by
  refine (yields_lowerAll hw cs).mono fun ns hns => ?_
  exact Made.of_forall₂ picked hns

theorem yields_compound {statements : List Cst} (picked : Picked c.children statements) :
    Yields (w.compound statements) fun n => ∀ m ∈ n, MadeNode w.toOrigin c m := by
  refine (yields_lowerAll hw statements).bind fun ns hns => ?_
  split
  next => exact .pure (by simp)
  next n => exact .pure (by simpa using Made.of_forall₂ picked hns)
  next =>
    split
    next first last opens closes =>
      refine (yields_span w.toOrigin first last).bind fun l span => .pure ?_
      rintro _ ⟨⟩
      exact Made.of_row picked opens closes span rfl hns
    next => exact .pure (by simp)

theorem yields_clause {part : Option Cst} (parts : ∀ d ∈ part, d ∈ c.children) :
    Yields (w.clause part) fun n => ∀ m ∈ n, MadeNode w.toOrigin c m := by
  cases part with
  | none => exact .pure (by simp)
  | some d =>
    have mem := parts d rfl
    unfold clause
    dsimp only
    split
    next =>
      exact (yields_compound hw (picked_statements d)).mono fun n hn m hm =>
        .inside mem (hn m hm)
    next => exact (yields_child hw mem).bind fun n hn => .pure (by simpa using hn)

theorem yields_bodyOf (c : Cst) (otherRoles : List String) :
    Yields (w.bodyOf c otherRoles) fun n => ∀ m ∈ n, MadeNode w.toOrigin c m := by
  unfold bodyOf
  split
  next d part =>
    refine yields_clause hw ?_
    rintro _ ⟨⟩
    exact Cst.mem_of_part? part
  next => exact yields_compound hw ((picked_flatten _).mono List.filter_sublist)

-- ============================================================================
-- Literals and variables
-- ============================================================================

omit hw in
theorem yields_keyword {type : String} (shape : Shape.ofType? type = some []) (c : Cst) :
    Yields (w.keyword type c) (MadeNode w.toOrigin c) :=
  yields_located (.none shape) (by simp)

omit hw in
/-- A node that covers a construct, of nodes that are made of it. -/
theorem yields_locatedNodes {type : String} (shape : Shape.ofType? type = some [(.node, .many)])
    {ns : List Node} (hns : ∀ n ∈ ns, MadeNode w.toOrigin c n) :
    Yields (w.located c type (asChildren ns)) (MadeNode w.toOrigin c) :=
  yields_located (.nodes shape (Slot.node_admits_asChildren ns)) (Made.asChildren_iff.mpr hns)

theorem yields_collection {type : String}
    (shape : Shape.ofType? type = some [(.node, .many)]) (c : Cst) :
    Yields (w.collection type c) (MadeNode w.toOrigin c) :=
  (yields_lowerPicked hw (.of_sublist c.plainChildren_sublist)).bind fun _ hitems =>
    yields_locatedNodes shape hitems

theorem yields_statementGroup {type : String}
    (shape : Shape.ofType? type = some [(.node, .many)]) (c : Cst) :
    Yields (w.statementGroup type c) (MadeNode w.toOrigin c) :=
  (yields_lowerPicked hw (picked_statements c)).bind fun _ hitems =>
    yields_locatedNodes shape hitems

omit hw in
theorem yields_symbolNode {type : String} (shape : Shape.ofType? type = some [(.symbol, .one)])
    (dropped : Nat) (c : Cst) :
    Yields (w.symbolNode type dropped c) (MadeNode w.toOrigin c) :=
  .after fun _ => yields_located (.symbol shape _) (by simp)

omit hw in
theorem yields_integer (c : Cst) : Yields (w.integer c) (MadeNode w.toOrigin c) :=
  .after fun _ => .after fun _ => yields_located ⟨_, rfl, .one rfl .nil⟩ (by simp)

omit hw in
theorem yields_float (c : Cst) : Yields (w.float c) (MadeNode w.toOrigin c) := by
  refine .after fun s => ?_
  split
  next => exact yields_located ⟨_, rfl, .one (by simp) .nil⟩ (by simp)
  next => exact .throw _

omit hw in
theorem made_text {o : Origin} (s : String) : Made o c (Piece.text s).toValue :=
  Made.of_bare ⟨_, rfl, .one rfl .nil⟩ (by simp [Value.isLeaf])

theorem yields_piece {d : Cst} (mem : d ∈ c.children) :
    Yields (w.piece d) fun p => Made w.toOrigin c p.toValue := by
  unfold piece
  split
  next => exact .after fun s => .pure (made_text s)
  next => exact .after fun _ => .after fun s => .pure (made_text s)
  next =>
    refine (yields_lowerPicked hw (picked_statements d)).bind fun ns hns => ?_
    exact (yields_locatedNodes rfl hns).bind fun n hn => .pure (.inside mem hn)
  next => exact .throw _

omit hw in
theorem yields_pieces_of_mem {post : Piece → Prop} {cs : List Cst}
    (each : ∀ d ∈ cs, Yields (w.piece d) post) :
    Yields (w.pieces cs) fun ps => ∀ p ∈ ps, post p := by
  induction cs with
  | nil => exact .pure (List.forall_mem_nil _)
  | cons d cs ih =>
    rw [List.forall_mem_cons] at each
    exact each.1.bind fun p hp => (ih each.2).bind fun ps hps =>
      .pure (List.forall_mem_cons.mpr ⟨hp, hps⟩)

omit hw in
/-- What holds of all texts and of some pieces holds of these with their texts
    joined. -/
theorem forall_mem_joinTexts {P : Piece → Prop} (text : ∀ s, P (.text s)) {ps : List Piece}
    (all : ∀ p ∈ ps, P p) : ∀ p ∈ joinTexts ps, P p := by
  fun_induction joinTexts with
  | case1 => exact List.forall_mem_nil _
  | case2 n ps ih =>
    rw [List.forall_mem_cons] at all ⊢
    exact ⟨all.1, ih all.2⟩
  | case3 s ps t rest joined ih =>
    rw [List.forall_mem_cons] at all ⊢
    have later := ih all.2
    rw [joined, List.forall_mem_cons] at later
    exact ⟨text _, later.2⟩
  | case4 s ps noText ih =>
    rw [List.forall_mem_cons] at all ⊢
    exact ⟨text s, ih all.2⟩

omit hw in
/-- The pieces of a string satisfy what all texts and each of its pieces do. -/
theorem yields_stringPieces_of_mem {P : Piece → Prop} (text : ∀ s, P (.text s))
    (each : ∀ d ∈ c.plainChildren, Yields (w.piece d) P) :
    Yields (w.stringPieces c) fun ps => ∀ p ∈ ps, P p :=
  (yields_pieces_of_mem each).bind fun _ hps => .pure (forall_mem_joinTexts text hps)

omit hw in
theorem node_admits_pieces (ps : List Piece) :
    ∀ v ∈ ps.map Piece.toValue, Slot.node.admits v = true := by
  intro v hv
  obtain ⟨p, _, rfl⟩ := List.mem_map.mp hv
  cases p <;> rfl

theorem yields_stringPieces (c : Cst) :
    Yields (w.stringPieces c) fun ps => ∀ v ∈ ps.map Piece.toValue, Made w.toOrigin c v := by
  have each : ∀ d ∈ c.plainChildren, Yields (w.piece d) fun p => Made w.toOrigin c p.toValue :=
    fun d hd => yields_piece hw (c.plainChildren_sublist.mem hd)
  exact (yields_stringPieces_of_mem made_text each).mono fun ps hps => List.forall_mem_map.mpr hps

theorem yields_stringNode {plain dynamic : String} {wrap : String → Value}
    (hplain : ∀ s, Fits plain [wrap s]) (hwrap : ∀ s, (wrap s).isLeaf = true)
    (hdynamic : Shape.ofType? dynamic = some [(.node, .many)]) (c : Cst) :
    Yields (w.stringNode plain dynamic wrap c) (MadeNode w.toOrigin c) := by
  have one : ∀ s, ∀ v ∈ [wrap s], Made w.toOrigin c v := fun s v hv =>
    .leaf (List.eq_of_mem_singleton hv ▸ hwrap s)
  refine (yields_stringPieces hw c).bind fun ps hps => ?_
  split
  next => exact yields_located (hplain _) (one _)
  next s => exact yields_located (hplain _) (one _)
  next => exact yields_located (.nodes hdynamic (node_admits_pieces ps)) hps

theorem yields_string (c : Cst) : Yields (w.string c) (MadeNode w.toOrigin c) :=
  yields_stringNode hw (fun _ => ⟨_, rfl, .one rfl .nil⟩) (fun _ => rfl) rfl c

theorem yields_quotedSymbol (c : Cst) : Yields (w.quotedSymbol c) (MadeNode w.toOrigin c) :=
  yields_stringNode hw (fun _ => .symbol rfl _) (fun _ => rfl) rfl c

omit hw in
theorem yields_character (c : Cst) : Yields (w.character c) (MadeNode w.toOrigin c) :=
  .after fun _ => .after fun _ => yields_located ⟨_, rfl, .one rfl .nil⟩ (by simp)

theorem yields_regex (c : Cst) : Yields (w.regex c) (MadeNode w.toOrigin c) := by
  refine (yields_stringPieces hw c).bind fun ps hps => .after fun s => ?_
  have flags : ∀ v ∈ (regexFlags s).map fun flag => Value.sym (String.singleton flag),
      Slot.symbol.admits v = true ∧ v.isLeaf = true := by
    rw [List.forall_mem_map]
    exact fun _ _ => ⟨rfl, rfl⟩
  have symbols : Fits "regopt" ((regexFlags s).map fun flag => .sym (String.singleton flag)) := by
    have admits := Shape.Admits.append (fun v hv => (flags v hv).1) .nil
    rw [List.append_nil] at admits
    exact ⟨_, rfl, admits⟩
  refine yields_located ⟨_, rfl, .append (node_admits_pieces ps) (.one rfl .nil)⟩ ?_
  rw [List.forall_mem_append, List.forall_mem_singleton]
  exact ⟨hps, .bare symbols fun v hv => (flags v hv).2⟩

omit hw in
theorem yields_shorthandValue {o : Origin} {key : Node} (hkey : MadeNode o c key) :
    Yields (shorthandValue key) (MadeNode o c) := by
  refine .after fun name => .after fun known => ?_
  split
  next => exact .pure (Made.of_renamed (.symbol rfl _) (by simp [Value.isLeaf]) hkey)
  next => exact .pure (Made.of_renamed (.send rfl rfl _ (by simp)) (by simp [Value.isLeaf]) hkey)

theorem yields_pair (c : Cst) : Yields (w.pair c) (MadeNode w.toOrigin c) := by
  unfold pair
  split
  next => exact .throw _
  next key hkey =>
    refine (yields_child hw (Cst.mem_of_part? hkey)).bind fun keyNode hkeyNode => ?_
    -- Whatever the key has become, a value follows and both are put together.
    have finish : ∀ {keyNode : Node} {value : Lowering Node}, MadeNode w.toOrigin c keyNode →
        Yields value (MadeNode w.toOrigin c) →
        Yields (value >>= fun valueNode => w.located c "pair" [keyNode, valueNode])
          (MadeNode w.toOrigin c) := by
      intro keyNode value hkey hvalue
      exact hvalue.bind fun _ hvalue =>
        yields_located (.pair rfl _ _) (by simpa using ⟨hkey, hvalue⟩)
    have symbol : ∀ name, MadeNode w.toOrigin c ⟨.plain "sym", [.sym name], keyNode.location⟩ :=
      fun name => Made.of_renamed (.symbol rfl name) (by simp [Value.isLeaf]) hkeyNode
    cases hvalue : c.part? "value" with
    | none =>
      dsimp only
      split
      next =>
        exact .after fun name => (Yields.pure (symbol name)).bind fun key hkey =>
          finish hkey (yields_shorthandValue hkey)
      next =>
        exact (Yields.pure hkeyNode).bind fun key hkey =>
          finish hkey (yields_shorthandValue hkey)
    | some value =>
      have lowered := yields_child hw (Cst.mem_of_part? hvalue)
      dsimp only
      split
      next =>
        exact .after fun name => (Yields.pure (symbol name)).bind fun key hkey =>
          finish hkey lowered
      next => exact (Yields.pure hkeyNode).bind fun key hkey => finish hkey lowered

theorem yields_blockArgument (c : Cst) :
    Yields (w.blockArgument c) (MadeNode w.toOrigin c) := by
  have part : ∀ d ∈ c.plainChildren.head?, d ∈ c.children := fun d hd =>
    c.plainChildren_sublist.mem (List.mem_of_mem_head? hd)
  exact (yields_lowerOptional hw part).bind fun _ hvalue =>
    yields_located ⟨_, rfl, .one (by simp) .nil⟩ (by simpa using hvalue)

theorem yields_range (c : Cst) : Yields (w.range c) (MadeNode w.toOrigin c) := by
  refine (yields_lowerOptional hw fun _ => Cst.mem_of_part?).bind fun first hfirst => ?_
  refine (yields_lowerOptional hw fun _ => Cst.mem_of_part?).bind fun last hlast => ?_
  refine yields_located ?_ (by simpa using ⟨hfirst, hlast⟩)
  split <;> exact ⟨_, rfl, .one (by simp) (.one (by simp) .nil)⟩

omit hw in
theorem yields_identifier (c : Cst) : Yields (w.identifier c) (MadeNode w.toOrigin c) := by
  refine .after fun name => .after fun known => ?_
  split
  next => exact yields_located (.symbol rfl _) (by simp)
  next => exact yields_located (.send rfl rfl _ (by simp)) (by simp)

omit hw in
theorem yields_constant (c : Cst) : Yields (w.constant c) (MadeNode w.toOrigin c) :=
  .after fun _ => yields_located ⟨_, rfl, .one rfl (.one rfl .nil)⟩ (by simp)

theorem yields_pathScope {part : Option Cst} (parts : ∀ d ∈ part, d ∈ c.children) :
    Yields (w.pathScope part) (MadeNode w.toOrigin c) := by
  cases part with
  | none => exact .pure (.of_bare (.none rfl) (by simp))
  | some d => exact yields_child hw (parts d rfl)

theorem yields_scopeResolution (c : Cst) :
    Yields (w.scopeResolution c) (MadeNode w.toOrigin c) := by
  unfold scopeResolution
  split
  next => exact .throw _
  next =>
    refine (yields_pathScope hw fun _ => Cst.mem_of_part?).bind fun scope hscope => ?_
    refine .after fun text => yields_located ?_ (by simpa using hscope)
    split
    next => exact ⟨_, rfl, .one rfl (.one rfl .nil)⟩
    next => exact .send rfl rfl _ (by simp)

end

end Context

end Ruby

end RubyPattern
