/-
  RubyPattern.Proofs.LoweringFaults

  What lowering fails for. Apart from source that is malformed, unsupported or
  too deep, a construct can fall short: its text is a number that does not read,
  an escape in it is beyond Unicode, or a part that its kind needs is not there.
  Lowering looks for none of this in advance. This module has the steps that all
  constructs share, and literals and names.
-/
import RubyPattern.Proofs.ParsedTrees
import RubyPattern.Proofs.RefusedTexts
import RubyPattern.Proofs.SourceRanges

namespace RubyPattern

-- ============================================================================
-- Faults of steps
-- ============================================================================

namespace Ruby

/-- Every fault of a step of lowering satisfies a condition. -/
def FailsOnly {α : Type} (step : Lowering α) (cond : Fault → Prop) : Prop :=
  ∀ s fault, step s = .error fault → cond fault

namespace FailsOnly

variable {α β : Type} {step : Lowering α} {next : α → Lowering β} {pre : α → Prop}
  {cond : Fault → Prop}

theorem pure (a : α) : FailsOnly (Pure.pure a : Lowering α) cond := by
  rintro s fault ⟨⟩

theorem throw {fault : Fault} (h : cond fault) :
    FailsOnly (MonadExcept.throw fault : Lowering α) cond := by
  rintro s _ ⟨⟩
  exact h

theorem lift {outcome : Except Fault α} (h : ∀ fault, outcome = .error fault → cond fault) :
    FailsOnly (liftM outcome) cond := by
  intro s fault failed
  cases outcome with
  | ok a => cases failed
  | error other =>
    cases failed
    exact h _ rfl

theorem bind (first : FailsOnly step cond) (yields : Yields step pre)
    (then_ : ∀ a, pre a → FailsOnly (next a) cond) : FailsOnly (step >>= next) cond := by
  intro s fault h
  cases run : step s with
  | error other =>
    simp only [Bind.bind, StateT.bind, Except.bind, run] at h
    cases h
    exact first s _ run
  | ok result =>
    obtain ⟨a, t⟩ := result
    simp only [Bind.bind, StateT.bind, Except.bind, run] at h
    exact then_ a (yields s a t run) t fault h

/-- What the first step results in does not matter. -/
theorem after (first : FailsOnly step cond) (then_ : ∀ a, FailsOnly (next a) cond) :
    FailsOnly (step >>= next) cond :=
  have yields : Yields step fun _ => True := fun _ _ _ _ => trivial
  first.bind yields fun a _ => then_ a

theorem afterPure {a : α} (h : FailsOnly (next a) cond) :
    FailsOnly (Pure.pure a >>= next) cond :=
  h

theorem modify (f : Scopes → Scopes) : FailsOnly (modify f) cond := by
  rintro s fault ⟨⟩

theorem isLocal (name : String) : FailsOnly (isLocal name) cond := by
  rintro s fault ⟨⟩

theorem withScope {inherit : Bool} (inner : FailsOnly step cond) :
    FailsOnly (withScope inherit step) cond :=
  (modify _).after fun _ => inner.after fun _ => (modify _).after fun _ => pure _

end FailsOnly

-- ============================================================================
-- Constructs of a tree
-- ============================================================================

namespace Cst

variable {root c d : Cst}

mutual

/-- The constructs of a construct in a tree are constructs of the tree. -/
theorem mem_constructs_trans {c e : Cst} (hd : d ∈ c.constructs) (he : e ∈ d.constructs) :
    e ∈ c.constructs := by
  obtain ⟨head, children⟩ := c
  rw [constructs, List.mem_cons] at hd
  rcases hd with rfl | hd
  · exact he
  · rw [constructs]
    exact List.mem_cons_of_mem _ (mem_constructsOf_trans hd he)

theorem mem_constructsOf_trans {cs : List Cst} {e : Cst} (hd : d ∈ constructsOf cs)
    (he : e ∈ d.constructs) : e ∈ constructsOf cs := by
  cases cs with
  | nil => cases hd
  | cons c cs =>
    rw [constructsOf, List.mem_append] at hd ⊢
    rcases hd with hd | hd
    · exact .inl (mem_constructs_trans hd he)
    · exact .inr (mem_constructsOf_trans hd he)

end

theorem mem_constructs_of_child (hc : c ∈ root.constructs) (hd : d ∈ c.children) :
    d ∈ root.constructs :=
  mem_constructs_trans hc (mem_constructs_of_mem hd (mem_constructs_self d))

theorem mem_constructs_of_part (hc : c ∈ root.constructs) {role : String}
    (part : c.part? role = some d) : d ∈ root.constructs :=
  mem_constructs_of_child hc (mem_of_part? part)

theorem mem_constructs_of_plain (hc : c ∈ root.constructs) :
    ∀ d ∈ c.plainChildren, d ∈ root.constructs :=
  fun _ hd => mem_constructs_of_child hc (c.plainChildren_sublist.mem hd)

theorem mem_constructs_of_picked {cs ds : List Cst} (picked : Picked cs ds)
    (mem : ∀ c ∈ cs, c ∈ root.constructs) : ∀ d ∈ ds, d ∈ root.constructs :=
  picked.forall_mem (fun _ hc _ hd => mem_constructs_of_child hc hd) mem

theorem mem_constructs_of_statement (hc : c ∈ root.constructs) :
    ∀ d ∈ c.statements, d ∈ root.constructs :=
  mem_constructs_of_picked (picked_statements c) fun _ hd => mem_constructs_of_child hc hd

end Cst

-- ============================================================================
-- Constructs that fall short
-- ============================================================================

/-- The roles that constructs of a kind cannot do without. -/
def Kind.neededRoles : Kind → List String
  | .optionalParameter => ["value"]
  | .binary => ["left", "right"]
  | .ifStatement | .elsifClause | .conditional | .unlessStatement => ["condition"]
  | .whileLoop | .untilLoop => ["condition"]
  | .ifModifier | .unlessModifier | .whileModifier | .untilModifier => ["body", "condition"]
  | .method | .classDefinition | .moduleDefinition => ["name"]
  | .singletonMethod => ["object", "name"]
  | .singletonClass => ["value"]
  | _ => []

/-- The roles that constructs of a kind cannot do without when they are assigned
    to. -/
def Kind.targetRoles : Kind → List String
  | .scopeResolution => ["name"]
  | .call => ["receiver", "method"]
  | .elementReference => ["object"]
  | _ => []

/-- The kinds of constructs that list the targets of an assignment. -/
def Kind.listsTargets (k : Kind) : Bool :=
  k == .restAssignment || k == .leftAssignmentList || k == .destructuredLeftAssignment

/-- A construct of a tree is assigned to: it is on the left of an assignment, or
    in a list of targets there. -/
inductive Assigned (root : Cst) : Cst → Prop
  | left {assignment c : Cst} (mem : assignment ∈ root.constructs)
      (kind : assignment.kind = .assignment ∨ assignment.kind = .operatorAssignment)
      (part : assignment.part? "left" = some c) : Assigned root c
  | listed {targets c : Cst} (outer : Assigned root targets)
      (lists : targets.kind.listsTargets = true) (child : c ∈ targets.children) : Assigned root c

/-- A construct of a tree cannot do without a part in a role. -/
inductive Needs (root c : Cst) (role : String) : Prop
  | always (listed : role ∈ c.kind.neededRoles) : Needs root c role
  | assigned (assigned : Assigned root c) (listed : role ∈ c.kind.targetRoles) :
      Needs root c role

namespace Needs

variable {root c : Cst} {k : Kind} {role : String}

theorem of_kind (kind : c.kind = k) (listed : role ∈ k.neededRoles) : Needs root c role := by
  rw [← kind] at listed
  exact .always listed

theorem of_assigned (target : Assigned root c) (kind : c.kind = k)
    (listed : role ∈ k.targetRoles) : Needs root c role := by
  rw [← kind] at listed
  exact .assigned target listed

end Needs

/-- A text is the source text of a construct. -/
def Origin.Covers (o : Origin) (c : Cst) (s : String) : Prop :=
  slice? o.chars c.head.start c.head.stop = some s.toList

/-- The source text of a construct; none if it begins or ends inside a character. -/
def Origin.sourceOf (o : Origin) (c : Cst) : List Char :=
  (slice? o.chars c.head.start c.head.stop).getD []

/-- A construct is lowered to a node, with some budget and in some scopes. -/
def Becomes (o : Origin) (limit : Int) (c : Cst) (n : Node) : Prop :=
  ∃ room s t, lower o limit room c s = .ok (n, t)

/-- A construct of a tree falls short, and this is the fault that comes of it. -/
inductive Lapse (o : Origin) (limit : Int) (root c : Cst) : Fault → Prop
  /-- An integer literal whose digits do not read, such as an octal one with an 8. -/
  | integer {s : String} (kind : c.kind = .integer) (text : o.Covers c s)
      (unread : integerLiteral s = .error (.badNumber s)) : Lapse o limit root c (.badNumber s)
  /-- A float literal that does not read. -/
  | float {s : String} (kind : c.kind = .float) (text : o.Covers c s)
      (unread : Number.float? (String.ofList (s.toList.filter (· != '_'))) = none) :
      Lapse o limit root c (.badNumber s)
  /-- An escape sequence for a code point beyond Unicode. -/
  | escape {s : String} {code : Nat} (kind : c.kind = .escapeSequence) (text : o.Covers c s)
      (large : Escape.Oversized s.toList code) : Lapse o limit root c (.badCodePoint code)
  /-- A character literal for such a code point. -/
  | character {s : String} {code : Nat} (kind : c.kind = .character) (text : o.Covers c s)
      (large : Escape.Oversized (s.toList.drop 1) code) : Lapse o limit root c (.badCodePoint code)
  /-- No part in a role that the construct needs. -/
  | part {role : String} (needed : Needs root c role) (absent : c.part? role = none) :
      Lapse o limit root c .missingPart
  /-- A unary operation on nothing. -/
  | operand (kind : c.kind = .unary) (absent : c.part? "operand" = none)
      (childless : c.plainChildren = []) : Lapse o limit root c .missingOperand
  /-- A pair without a value whose key is lowered to a node that has no children
      to name the value. -/
  | keyName {key : Cst} {n : Node} (kind : c.kind = .pair) (part : c.part? "key" = some key)
      (short : c.part? "value" = none) (becomes : Becomes o limit key n)
      (nameless : n.children = []) : Lapse o limit root c .missingKeyName

/-- What the lowering of the constructs of a tree fails for. -/
inductive Failure (o : Origin) (limit : Int) (root : Cst) : Fault → Prop
  | malformed : Failure o limit root o.malformed
  | tooDeep : Failure o limit root (.tooDeep limit)
  | unsupported {c : Cst} (mem : c ∈ root.constructs) : Failure o limit root (o.unsupported c)
  | lapse {c : Cst} {fault : Fault} (mem : c ∈ root.constructs)
      (lapse : Lapse o limit root c fault) : Failure o limit root fault
  /-- A stretch of constructs that begins or ends inside a character. -/
  | split {c d : Cst} (hc : c ∈ root.constructs) (hd : d ∈ root.constructs)
      (inside : slice? o.chars c.head.start d.head.stop = none) :
      Failure o limit root (.splitCharacter c.head.start d.head.stop)

-- ============================================================================
-- Text and locations
-- ============================================================================

section

variable {o : Origin} {limit : Int} {root c d : Cst}

theorem fails_textBetween (hc : c ∈ root.constructs) (hd : d ∈ root.constructs) :
    FailsOnly (o.textBetween c.head.start d.head.stop) (Failure o limit root) := by
  unfold Origin.textBetween
  split
  next => exact .pure _
  next inside => exact .throw (.split hc hd inside)

theorem fails_text (hc : c ∈ root.constructs) :
    FailsOnly (o.text c) (Failure o limit root) :=
  fails_textBetween hc hc

theorem yields_text (o : Origin) (c : Cst) : Yields (o.text c) (o.Covers c) := by
  unfold Origin.text Origin.textBetween
  split
  next cs found => exact .pure (by rw [Origin.Covers, found, String.toList_ofList])
  next => exact .throw _

/-- A construct between characters has a text. -/
theorem Origin.text_eq (readable : (slice? o.chars c.head.start c.head.stop).isSome) (s : Scopes) :
    o.text c s = .ok (String.ofList (o.sourceOf c), s) := by
  obtain ⟨cs, found⟩ := Option.isSome_iff_exists.mp readable
  rw [Origin.text, Origin.textBetween, Origin.sourceOf, found]
  rfl

/-- It has a location too. -/
theorem Origin.span_eq (readable : (slice? o.chars c.head.start c.head.stop).isSome) :
    ∃ l, o.Spans c c l ∧ ∀ s, o.span c c s = .ok (l, s) := by
  have place : ∃ l, ∀ s, o.span c c s = .ok (l, s) := by
    constructor
    intro s
    have text := Origin.text_eq readable s
    rw [Origin.text] at text
    simp only [Origin.span, bind, StateT.bind, Except.bind, text]
    rfl
  obtain ⟨l, run⟩ := place
  exact ⟨l, ⟨Scopes.initial, _, run _⟩, run⟩

/-- A name is read from the source and becomes a local variable. -/
theorem fails_binding {α : Type} {next : String → Lowering α} (hc : c ∈ root.constructs)
    (then_ : ∀ name, FailsOnly (next name) (Failure o limit root)) :
    FailsOnly (o.text c >>= fun name => declare name >>= fun _ => next name)
      (Failure o limit root) :=
  (fails_text hc).after fun name => (FailsOnly.modify _).after fun _ => then_ name

theorem fails_span (hc : c ∈ root.constructs) (hd : d ∈ root.constructs) :
    FailsOnly (o.span c d) (Failure o limit root) :=
  (fails_textBetween hc hd).after fun _ => .pure _

theorem fails_located (hc : c ∈ root.constructs) (type : String) (children : List Value) :
    FailsOnly (o.located c type children) (Failure o limit root) :=
  (fails_span hc hc).after fun _ => .pure _

end

namespace Context

variable {w : Context} {limit : Int} {root c : Cst}

-- ============================================================================
-- Parts and statements
-- ============================================================================

theorem fails_requirePart (hc : c ∈ root.constructs) {role : String}
    (needed : Needs root c role) :
    FailsOnly (requirePart (c.part? role)) (Failure w.toOrigin limit root) := by
  cases part : c.part? role with
  | none => exact .throw (.lapse hc (.part needed part))
  | some d => exact .pure d

theorem fails_textOfRole (hc : c ∈ root.constructs) {role : String}
    (needed : Needs root c role) :
    FailsOnly (w.textOfRole c role) (Failure w.toOrigin limit root) :=
  (fails_requirePart hc needed).bind (yields_requirePart _) fun _ part =>
    fails_text (Cst.mem_constructs_of_part hc part)

theorem fails_operatorText (hc : c ∈ root.constructs) :
    FailsOnly (w.operatorText c) (Failure w.toOrigin limit root) := by
  unfold operatorText
  split
  next operator part => exact fails_text (Cst.mem_constructs_of_part hc part)
  next =>
    split
    next child found =>
      exact fails_text (Cst.mem_constructs_of_child hc (List.mem_of_find?_eq_some found))
    next => exact .throw (.unsupported hc)

theorem fails_callOperator (hc : c ∈ root.constructs) :
    FailsOnly (w.callOperator c) (Failure w.toOrigin limit root) := by
  unfold callOperator
  split
  next operator part => exact fails_text (Cst.mem_constructs_of_part hc part)
  next => exact .pure _

theorem fails_keyword (hc : c ∈ root.constructs) (type : String) :
    FailsOnly (w.keyword type c) (Failure w.toOrigin limit root) :=
  fails_located hc _ _

theorem fails_symbolNode (hc : c ∈ root.constructs) (type : String) (dropped : Nat) :
    FailsOnly (w.symbolNode type dropped c) (Failure w.toOrigin limit root) :=
  (fails_text hc).after fun _ => fails_located hc _ _

section

variable (hw : ∀ d ∈ root.constructs, FailsOnly (w.lower d) (Failure w.toOrigin limit root))
include hw

theorem fails_lowerRole (hc : c ∈ root.constructs) {role : String}
    (needed : Needs root c role) :
    FailsOnly (w.lowerRole c role) (Failure w.toOrigin limit root) :=
  (fails_requirePart hc needed).bind (yields_requirePart _) fun d part =>
    hw d (Cst.mem_constructs_of_part hc part)

theorem fails_lowerOptional {part : Option Cst} (mem : ∀ d ∈ part, d ∈ root.constructs) :
    FailsOnly (w.lowerOptional part) (Failure w.toOrigin limit root) := by
  cases part with
  | none => exact .pure _
  | some d => exact (hw d (mem d rfl)).after fun _ => .pure _

theorem fails_lowerAll {cs : List Cst} (mem : ∀ d ∈ cs, d ∈ root.constructs) :
    FailsOnly (w.lowerAll cs) (Failure w.toOrigin limit root) := by
  induction cs with
  | nil => exact .pure _
  | cons d cs ih =>
    rw [List.forall_mem_cons] at mem
    exact (hw d mem.1).after fun _ => (ih mem.2).after fun _ => .pure _

theorem fails_compound {statements : List Cst} (mem : ∀ d ∈ statements, d ∈ root.constructs) :
    FailsOnly (w.compound statements) (Failure w.toOrigin limit root) := by
  refine (fails_lowerAll hw mem).after fun ns => ?_
  split
  next => exact .pure _
  next => exact .pure _
  next =>
    split
    next first last opens closes =>
      exact (fails_span (mem first (List.mem_of_mem_head? opens))
        (mem last (List.mem_of_getLast? closes))).after fun _ => .pure _
    next => exact .pure _

theorem fails_clause {part : Option Cst} (mem : ∀ d ∈ part, d ∈ root.constructs) :
    FailsOnly (w.clause part) (Failure w.toOrigin limit root) := by
  cases part with
  | none => exact .pure _
  | some d =>
    have hd := mem d rfl
    unfold clause
    dsimp only
    split
    next => exact fails_compound hw (Cst.mem_constructs_of_statement hd)
    next => exact (hw d hd).after fun _ => .pure _

theorem fails_bodyOf (hc : c ∈ root.constructs) (otherRoles : List String) :
    FailsOnly (w.bodyOf c otherRoles) (Failure w.toOrigin limit root) := by
  unfold bodyOf
  split
  next body part =>
    refine fails_clause hw ?_
    rintro _ ⟨⟩
    exact Cst.mem_constructs_of_part hc part
  next =>
    refine fails_compound hw (Cst.mem_constructs_of_picked (picked_flatten _) fun d hd => ?_)
    exact Cst.mem_constructs_of_child hc (List.mem_of_mem_filter hd)

-- ============================================================================
-- Numbers, strings and collections
-- ============================================================================

theorem fails_collection (hc : c ∈ root.constructs) (type : String) :
    FailsOnly (w.collection type c) (Failure w.toOrigin limit root) :=
  (fails_lowerAll hw (Cst.mem_constructs_of_plain hc)).after fun _ => fails_located hc _ _

theorem fails_statementGroup (hc : c ∈ root.constructs) (type : String) :
    FailsOnly (w.statementGroup type c) (Failure w.toOrigin limit root) :=
  (fails_lowerAll hw (Cst.mem_constructs_of_statement hc)).after fun _ => fails_located hc _ _

omit hw in
theorem fails_integer (hc : c ∈ root.constructs) (kind : c.kind = .integer) :
    FailsOnly (w.integer c) (Failure w.toOrigin limit root) := by
  refine (fails_text hc).bind (yields_text _ _) fun s text => ?_
  refine .after (.lift fun fault failed => ?_) fun _ => fails_located hc _ _
  have unread := failed
  unfold integerLiteral at failed
  dsimp only at failed
  split at failed
  next => cases failed
  next =>
    cases failed
    exact .lapse hc (.integer kind text unread)

omit hw in
theorem fails_float (hc : c ∈ root.constructs) (kind : c.kind = .float) :
    FailsOnly (w.float c) (Failure w.toOrigin limit root) := by
  refine (fails_text hc).bind (yields_text _ _) fun s text => ?_
  split
  next => exact fails_located hc _ _
  next unread => exact .throw (.lapse hc (.float kind text unread))

omit hw in
/-- Decoding fails at an escape beyond Unicode and nowhere else. -/
theorem fails_decodeString {cond : Fault → Prop} {s : String}
    (h : ∀ code, Escape.Oversized s.toList code → cond (.badCodePoint code)) :
    FailsOnly (liftM (Escape.decodeString s)) cond := by
  refine .lift fun fault failed => ?_
  obtain ⟨code, rfl, large⟩ := Escape.decode_eq_error_iff.mp (Escape.map_eq_error_iff.mp failed)
  exact h code large

theorem fails_piece (hc : c ∈ root.constructs) :
    FailsOnly (w.piece c) (Failure w.toOrigin limit root) := by
  unfold piece
  split
  next => exact (fails_text hc).after fun _ => .pure _
  next kind =>
    refine (fails_text hc).bind (yields_text _ _) fun s text => ?_
    refine .after (fails_decodeString fun code large => ?_) fun _ => .pure _
    exact .lapse hc (.escape kind text large)
  next =>
    exact (fails_lowerAll hw (Cst.mem_constructs_of_statement hc)).after fun _ =>
      (fails_located hc _ _).after fun _ => .pure _
  next => exact .throw (.unsupported hc)

theorem fails_pieces {cs : List Cst} (mem : ∀ d ∈ cs, d ∈ root.constructs) :
    FailsOnly (w.pieces cs) (Failure w.toOrigin limit root) := by
  induction cs with
  | nil => exact .pure _
  | cons d cs ih =>
    rw [List.forall_mem_cons] at mem
    exact (fails_piece hw mem.1).after fun _ => (ih mem.2).after fun _ => .pure _

theorem fails_stringPieces (hc : c ∈ root.constructs) :
    FailsOnly (w.stringPieces c) (Failure w.toOrigin limit root) :=
  (fails_pieces hw (Cst.mem_constructs_of_plain hc)).after fun _ => .pure _

theorem fails_stringNode (hc : c ∈ root.constructs) (plain dynamic : String)
    (wrap : String → Value) :
    FailsOnly (w.stringNode plain dynamic wrap c) (Failure w.toOrigin limit root) := by
  refine (fails_stringPieces hw hc).after fun ps => ?_
  split <;> exact fails_located hc _ _

omit hw in
theorem fails_character (hc : c ∈ root.constructs) (kind : c.kind = .character) :
    FailsOnly (w.character c) (Failure w.toOrigin limit root) := by
  refine (fails_text hc).bind (yields_text _ _) fun s text => ?_
  refine .after (fails_decodeString fun code large => ?_) fun _ => fails_located hc _ _
  rw [String.toList_ofList] at large
  exact .lapse hc (.character kind text large)

theorem fails_regex (hc : c ∈ root.constructs) :
    FailsOnly (w.regex c) (Failure w.toOrigin limit root) :=
  (fails_stringPieces hw hc).after fun _ => (fails_text hc).after fun _ => fails_located hc _ _

-- ============================================================================
-- Pairs
-- ============================================================================

omit hw in
/-- What is made of a construct can be shown. -/
theorem exists_display {o : Origin} {v : Value} (h : Made o c v) :
    ∃ text, v.display = .ok text := by
  rcases h.leaf_or_node with plain | ⟨n, rfl⟩
  · cases v <;> first | exact ⟨_, rfl⟩ | cases plain
  · exact Value.exists_render h.lowered

omit hw in
/-- Only a key without children has no name. -/
theorem fails_keyName {o : Origin} {cond : Fault → Prop} {key : Node} (made : MadeNode o c key)
    (nameless : key.children = [] → cond .missingKeyName) : FailsOnly (keyName key) cond := by
  unfold keyName
  split
  next none => exact .throw (nameless none)
  next v vs children =>
    have inside := made.children v (by rw [children]; exact List.mem_cons_self)
    obtain ⟨text, shown⟩ := exists_display inside
    refine .lift fun fault failed => ?_
    rw [shown] at failed
    cases failed

omit hw in
theorem fails_shorthandValue {o : Origin} {cond : Fault → Prop} {key : Node}
    (made : MadeNode o c key) (nameless : key.children = [] → cond .missingKeyName) :
    FailsOnly (shorthandValue key) cond := by
  refine (fails_keyName made nameless).after fun name => ?_
  refine (FailsOnly.isLocal name).after fun known => ?_
  split <;> exact .pure _

omit hw in
/-- A plain string node has its text for a child. -/
theorem children_ne_nil_of_str {o : Origin} {n : Node} (made : MadeNode o c n)
    (type : n.type = .plain "str") : n.children ≠ [] := by
  obtain ⟨shape, found, admits⟩ := made.fits.2
  have plain : shape = [(.string, .one)] := by
    rw [type] at found
    exact Option.some.inj found.symm
  intro none
  rw [plain, none] at admits
  cases admits

theorem fails_pair
    (hmade : ∀ d, Yields (w.lower d) fun n =>
      MadeNode w.toOrigin d n ∧ Becomes w.toOrigin limit d n)
    (hc : c ∈ root.constructs) (kind : c.kind = .pair) :
    FailsOnly (w.pair c) (Failure w.toOrigin limit root) := by
  unfold pair
  split
  next => exact .throw (.unsupported hc)
  next key hkey =>
    have mem := Cst.mem_constructs_of_part hc hkey
    refine (hw key mem).bind (hmade key) fun keyNode answer => ?_
    obtain ⟨made, becomes⟩ := answer
    -- Whatever the key has become, a value follows and both are put together.
    have finish : ∀ {keyNode : Node} {value : Lowering Node},
        FailsOnly value (Failure w.toOrigin limit root) →
        FailsOnly (value >>= fun valueNode => w.located c "pair" [keyNode, valueNode])
          (Failure w.toOrigin limit root) :=
      fun hvalue => hvalue.after fun _ => fails_located hc _ _
    have symbol : ∀ name,
        MadeNode w.toOrigin key ⟨.plain "sym", [.sym name], keyNode.location⟩ :=
      fun name => Made.of_renamed (.symbol rfl name) (by simp [Value.isLeaf]) made
    have named : keyNode.type = .plain "str" →
        FailsOnly (keyName keyNode) (Failure w.toOrigin limit root) := fun plain =>
      fails_keyName made fun nameless => absurd nameless (children_ne_nil_of_str made plain)
    cases hvalue : c.part? "value" with
    | none =>
      dsimp only
      split
      next renamed =>
        simp only [Bool.and_eq_true, beq_iff_eq] at renamed
        exact (named renamed.1.2).after fun name => .afterPure
          (finish (fails_shorthandValue (symbol name) (by simp)))
      next =>
        refine .afterPure (finish (fails_shorthandValue made fun nameless => ?_))
        exact .lapse hc (.keyName kind hkey hvalue becomes nameless)
    | some value =>
      have lowered := hw value (Cst.mem_constructs_of_part hc hvalue)
      dsimp only
      split
      next renamed =>
        simp only [Bool.and_eq_true, beq_iff_eq] at renamed
        exact (named renamed.1.2).after fun name => .afterPure (finish lowered)
      next => exact .afterPure (finish lowered)

-- ============================================================================
-- Ranges and names
-- ============================================================================

theorem fails_blockArgument (hc : c ∈ root.constructs) :
    FailsOnly (w.blockArgument c) (Failure w.toOrigin limit root) := by
  refine (fails_lowerOptional hw fun d hd => ?_).after fun _ => fails_located hc _ _
  exact Cst.mem_constructs_of_plain hc d (List.mem_of_mem_head? hd)

theorem fails_range (hc : c ∈ root.constructs) :
    FailsOnly (w.range c) (Failure w.toOrigin limit root) :=
  (fails_lowerOptional hw fun _ => Cst.mem_constructs_of_part hc).after fun _ =>
    (fails_lowerOptional hw fun _ => Cst.mem_constructs_of_part hc).after fun _ =>
      fails_located hc _ _

omit hw in
theorem fails_identifier (hc : c ∈ root.constructs) :
    FailsOnly (w.identifier c) (Failure w.toOrigin limit root) := by
  refine (fails_text hc).after fun name => (FailsOnly.isLocal name).after fun known => ?_
  split <;> exact fails_located hc _ _

omit hw in
theorem fails_constant (hc : c ∈ root.constructs) :
    FailsOnly (w.constant c) (Failure w.toOrigin limit root) :=
  (fails_text hc).after fun _ => fails_located hc _ _

theorem fails_pathScope (hc : c ∈ root.constructs) :
    FailsOnly (w.pathScope (c.part? "scope")) (Failure w.toOrigin limit root) := by
  cases part : c.part? "scope" with
  | none => exact .pure _
  | some d => exact hw d (Cst.mem_constructs_of_part hc part)

theorem fails_scopeResolution (hc : c ∈ root.constructs) :
    FailsOnly (w.scopeResolution c) (Failure w.toOrigin limit root) := by
  unfold scopeResolution
  split
  next => exact .throw (.unsupported hc)
  next name part =>
    exact (fails_pathScope hw hc).after fun _ =>
      (fails_text (Cst.mem_constructs_of_part hc part)).after fun _ => fails_located hc _ _

end

end Context

end Ruby

end RubyPattern
