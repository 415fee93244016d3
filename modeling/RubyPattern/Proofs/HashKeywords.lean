/-
  RubyPattern.Proofs.HashKeywords

  Pairs and keyword splats as parts of a hash. Arguments fold them into one, and a hash has
  its own. What lowers its children one by one does not fold: an array that has pairs for
  children becomes a node that has them too. This module says which keywords are exposed in
  this way, and has the steps that all constructs share, literals, arguments and assignments.
-/
import RubyPattern.Proofs.LoweringFaults

namespace RubyPattern

-- ============================================================================
-- Keywords of a tree
-- ============================================================================

/-- A pair, or a splat of keywords. -/
def Node.isKeyword (n : Node) : Bool :=
  n.type.text == "pair" || n.type.text == "kwsplat"

/-- A keyword of a tree that is the tree itself or the child of a node other than a hash. -/
def Node.HasLoose (tree k : Node) : Prop :=
  k.isKeyword = true ∧
    (k = tree ∨ ∃ m ∈ tree.nodes, m.type ≠ .plain "hash" ∧ k ∈ m.childNodes)

namespace Value

variable {stray : Node → Prop}

/-- The keywords below a value are children of hashes, but for some strays. -/
def Folded (stray : Node → Prop) (v : Value) : Prop :=
  ∀ m ∈ v.nodes, m.type ≠ .plain "hash" → ∀ k ∈ m.childNodes, k.isKeyword = true → stray k

/-- A value that keeps this up when it becomes the child of any node: if it is a keyword, it
    is a stray. -/
structure Seated (stray : Node → Prop) (v : Value) : Prop where
  folded : v.Folded stray
  keyword : ∀ k, v = k.toValue → k.isKeyword = true → stray k

theorem mem_childNodes {n k : Node} : k ∈ n.childNodes ↔ k.toValue ∈ n.children := by
  rw [Node.childNodes, List.mem_filterMap]
  constructor
  · rintro ⟨v, mem, found⟩
    cases v with
    | node type children location =>
      cases found
      exact mem
    | _ => cases found
  · exact fun mem => ⟨k.toValue, mem, rfl⟩

theorem folded_of_isLeaf {v : Value} (leaf : v.isLeaf = true) : v.Folded stray := by
  cases v with
  | node type children location => cases leaf
  | _ => exact fun _ mem => nomatch mem

theorem seated_of_isLeaf {v : Value} (leaf : v.isLeaf = true) : v.Seated stray where
  folded := folded_of_isLeaf leaf
  keyword := by
    rintro k rfl
    cases leaf

/-- The keywords directly below a node count unless it is a hash, and those further below do
    whatever it is. -/
theorem folded_toValue {n : Node}
    (here : n.type ≠ .plain "hash" → ∀ k ∈ n.childNodes, k.isKeyword = true → stray k)
    (below : ∀ v ∈ n.children, v.Folded stray) : n.toValue.Folded stray := by
  intro m mem
  rw [← Node.nodes, Node.nodes_eq, List.mem_cons, List.mem_flatMap] at mem
  rcases mem with rfl | ⟨child, mem, inside⟩
  · exact here
  · exact below child.toValue (mem_childNodes.mp mem) m inside

end Value

namespace Node

variable {stray : Node → Prop} {n : Node}

/-- A node other than a keyword, with the keywords below it in hashes. -/
structure Ordinary (stray : Node → Prop) (n : Node) : Prop where
  folded : n.toValue.Folded stray
  plain : n.isKeyword = false

theorem Ordinary.seated (h : n.Ordinary stray) : n.toValue.Seated stray where
  folded := h.folded
  keyword := by
    intro k same keyword
    obtain rfl : n = k := Option.some.inj (congrArg Value.node? same)
    rw [h.plain] at keyword
    cases keyword

theorem folded_child (folded : n.toValue.Folded stray) : ∀ v ∈ n.children, v.Folded stray := by
  intro v mem
  cases v with
  | node type children location =>
    intro m inside
    refine folded m ?_
    rw [← Node.nodes, Node.nodes_eq, List.mem_cons, List.mem_flatMap]
    exact .inr ⟨⟨type, children, location⟩, Value.mem_childNodes.mpr mem, inside⟩
  | _ => exact fun _ inside => nomatch inside

/-- The children of a node other than a hash are what they are below any other. -/
theorem seated_of_folded (folded : n.toValue.Folded stray) (other : n.type ≠ .plain "hash") :
    ∀ v ∈ n.children, v.Seated stray := by
  refine fun v mem => ⟨folded_child folded v mem, ?_⟩
  rintro k rfl keyword
  have top : n ∈ n.toValue.nodes := List.mem_cons_self
  exact folded n top other k (Value.mem_childNodes.mpr mem) keyword

theorem folded_of_seated (seated : ∀ v ∈ n.children, v.Seated stray) : n.toValue.Folded stray :=
  Value.folded_toValue
    (fun _ k mem keyword => (seated _ (Value.mem_childNodes.mp mem)).keyword k rfl keyword)
    (fun v mem => (seated v mem).folded)

/-- A node of leaves. -/
theorem ordinary_of_leaves (plain : n.isKeyword = false)
    (leaves : ∀ v ∈ n.children, v.isLeaf = true) : n.Ordinary stray where
  folded := folded_of_seated fun v mem => Value.seated_of_isLeaf (leaves v mem)
  plain := plain

end Node

namespace Value

variable {stray : Node → Prop}

@[simp] theorem seated_nil : Seated stray .nil := seated_of_isLeaf rfl

@[simp] theorem seated_sym (name : String) : Seated stray (.sym name) := seated_of_isLeaf rfl

@[simp] theorem seated_int (n : Int) : Seated stray (.int n) := seated_of_isLeaf rfl

end Value

namespace Ruby

-- ============================================================================
-- Keywords of the source
-- ============================================================================

/-- The kinds of constructs that may have keywords for children. -/
def Kind.listsKeywords (k : Kind) : Bool :=
  k == .hash || k == .argumentList || k == .array || k == .elementReference

theorem Kind.listsKeywords_of_isContainer {k : Kind} (container : k.isContainer = true) :
    k.listsKeywords = false := by
  cases k <;> first | rfl | cases container

/-- Pairs and keyword splats are children of hashes, argument lists, arrays and indexes
    only. -/
def Cst.KeywordsListed (root : Cst) : Prop :=
  ∀ c ∈ root.constructs, ∀ d ∈ c.children,
    Context.isKeyword d = true → c.kind.listsKeywords = true

theorem Cst.KeywordsListed.isKeyword_eq_false {root c d : Cst} {k : Kind}
    (listed : root.KeywordsListed) (mem : c ∈ root.constructs) (kind : c.kind = k)
    (unlisted : k.listsKeywords = false) (child : d ∈ c.children) :
    Context.isKeyword d = false := by
  refine Bool.eq_false_iff.mpr fun keyword => ?_
  have lists := listed c mem d child keyword
  rw [kind, unlisted] at lists
  cases lists

instance (root : Cst) : Decidable root.KeywordsListed :=
  inferInstanceAs (Decidable (∀ c ∈ root.constructs, ∀ d ∈ c.children, _ → _))

/-- A construct whose children another one lowers as if they were its own: the program itself,
    the block of a call, the body of a lambda and the superclass of a class. The grammar of
    Ruby has constructs of their own for these, which list no keywords. -/
inductive Opened (root : Cst) : Cst → Prop
  | program : Opened root root
  | block {c d : Cst} (mem : c ∈ root.constructs) (kind : c.kind = .call)
      (part : c.part? "block" = some d) : Opened root d
  | body {c d : Cst} (mem : c ∈ root.constructs) (kind : c.kind = .lambda)
      (part : c.part? "body" = some d) : Opened root d
  | superclass {c d : Cst} (mem : c ∈ root.constructs) (kind : c.kind = .classDefinition)
      (part : c.part? "superclass" = some d) : Opened root d

/-- A construct that is lowered by itself though it is a child of one that lists keywords: an
    element of an array, an indexed object, or a child of an opened construct. -/
inductive Exposed (root d : Cst) : Prop
  | element {c : Cst} (mem : c ∈ root.constructs) (kind : c.kind = .array)
      (child : d ∈ c.children)
  | indexed {c : Cst} (mem : c ∈ root.constructs) (kind : c.kind = .elementReference)
      (part : c.part? "object" = some d)
  | opened {c : Cst} (opened : Opened root c) (child : d ∈ c.children)

theorem Opened.mem {root c : Cst} (h : Opened root c) : c ∈ root.constructs := by
  cases h with
  | program => exact Cst.mem_constructs_self _
  | block mem kind part => exact Cst.mem_constructs_of_part mem part
  | body mem kind part => exact Cst.mem_constructs_of_part mem part
  | superclass mem kind part => exact Cst.mem_constructs_of_part mem part

/-- A node covers a construct. -/
def Origin.Locates (o : Origin) (c : Cst) (n : Node) : Prop :=
  ∃ l, n.location = some l ∧ o.Spans c c l

/-- A node of an exposed keyword. -/
def Origin.Stray (o : Origin) (root : Cst) (k : Node) : Prop :=
  ∃ d, Context.isKeyword d = true ∧ Exposed root d ∧ o.Locates d k

/-- What a construct is to be lowered to: the keywords below it are in hashes, and it is a
    keyword itself only if the construct is one. -/
structure Origin.Folds (o : Origin) (root c : Cst) (n : Node) : Prop where
  folded : n.toValue.Folded (o.Stray root)
  keyword : n.isKeyword = true → Context.isKeyword c = true ∧ o.Locates c n

theorem Origin.Folds.of_ordinary {o : Origin} {root c : Cst} {n : Node}
    (h : n.Ordinary (o.Stray root)) : o.Folds root c n where
  folded := h.folded
  keyword keyword := by
    rw [h.plain] at keyword
    cases keyword

/-- A construct of a tree that may stand by itself: it is no keyword, or an exposed one. -/
structure Standing (root d : Cst) : Prop where
  mem : d ∈ root.constructs
  exposed : Context.isKeyword d = true → Exposed root d

theorem Standing.of_plain {root d : Cst} (mem : d ∈ root.constructs)
    (plain : ¬ Context.isKeyword d = true) : Standing root d :=
  ⟨mem, fun keyword => absurd keyword plain⟩

/-- A construct of a tree whose children may stand by themselves. -/
def Loose (root c : Cst) : Prop :=
  ∀ d ∈ c.children, Standing root d

namespace Loose

variable {root c d : Cst}

theorem of_opened (h : Opened root c) : Loose root c := fun _ child =>
  ⟨Cst.mem_constructs_of_child h.mem child, fun _ => .opened h child⟩

theorem of_array (mem : c ∈ root.constructs) (kind : c.kind = .array) : Loose root c :=
  fun _ child => ⟨Cst.mem_constructs_of_child mem child, fun _ => .element mem kind child⟩

theorem of_kind {k : Kind} (listed : root.KeywordsListed) (mem : c ∈ root.constructs)
    (kind : c.kind = k) (unlisted : k.listsKeywords = false) : Loose root c := by
  refine fun d child => ⟨Cst.mem_constructs_of_child mem child, fun keyword => ?_⟩
  rw [listed.isKeyword_eq_false mem kind unlisted child] at keyword
  cases keyword

theorem part (h : Loose root c) {role : String} (part : c.part? role = some d) :
    Standing root d :=
  h d (Cst.mem_of_part? part)

theorem plain (h : Loose root c) : ∀ d ∈ c.plainChildren, Standing root d :=
  fun d mem => h d (c.plainChildren_sublist.mem mem)

end Loose

mutual

/-- Wrappers of statements list no keywords, so the statements in them may stand by
    themselves. -/
theorem Loose.statements {root c : Cst} (listed : root.KeywordsListed) (h : Loose root c) :
    ∀ d ∈ c.statements, Standing root d := by
  obtain ⟨head, children⟩ := c
  rw [Cst.statements]
  exact standing_of_flatten listed h

theorem standing_of_flatten {root : Cst} {cs : List Cst} (listed : root.KeywordsListed)
    (h : ∀ c ∈ cs, Standing root c) : ∀ d ∈ Cst.flatten cs, Standing root d := by
  cases cs with
  | nil => exact List.forall_mem_nil _
  | cons c cs =>
    rw [List.forall_mem_cons] at h
    have later := standing_of_flatten listed h.2
    rw [Cst.flatten]
    split
    next =>
      split
      next container =>
        have unlisted := Kind.listsKeywords_of_isContainer container
        have inside := Loose.of_kind listed h.1.mem rfl unlisted
        exact List.forall_mem_append.mpr ⟨inside.statements listed, later⟩
      next => exact List.forall_mem_cons.mpr ⟨h.1, later⟩
    next => exact later

end

namespace Context

variable {w : Context} {root c : Cst} {stray : Node → Prop}

-- ============================================================================
-- Nodes that cover a construct
-- ============================================================================

theorem yields_located_node (type : String) (children : List Value) (c : Cst) :
    Yields (w.located c type children) fun n =>
      n.type = .plain type ∧ n.children = children ∧ w.Locates c n :=
  (yields_span w.toOrigin c c).bind fun l span => .pure ⟨rfl, rfl, l, rfl, span⟩

/-- A type that no keyword has. -/
theorem isKeyword_eq_false_of_type {n : Node} {type : String} (same : n.type = .plain type)
    (plain : type ∉ ["pair", "kwsplat"]) : n.isKeyword = false := by
  rw [Node.isKeyword, same, Label.plain]
  simpa using plain

theorem ordinary_located {type : String} {children : List Value}
    (plain : type ∉ ["pair", "kwsplat"]) (seated : ∀ v ∈ children, v.Seated stray) :
    Yields (w.located c type children) (Node.Ordinary stray) := by
  refine (yields_located_node type children c).mono fun n hn => ?_
  obtain ⟨same, inside, -⟩ := hn
  rw [← inside] at seated
  exact ⟨Node.folded_of_seated seated, isKeyword_eq_false_of_type same plain⟩

theorem ordinary_locatedLeaves {type : String} {children : List Value}
    (plain : type ∉ ["pair", "kwsplat"]) (leaves : ∀ v ∈ children, v.isLeaf = true) :
    Yields (w.located c type children) (Node.Ordinary stray) :=
  ordinary_located plain fun v mem => Value.seated_of_isLeaf (leaves v mem)

/-- A hash may have any keywords for children. -/
theorem ordinary_hash {n : Node} (hash : n.type = .plain "hash")
    (folded : ∀ v ∈ n.children, v.Folded stray) : n.Ordinary stray where
  folded := Value.folded_toValue (fun other => absurd hash other) folded
  plain := isKeyword_eq_false_of_type hash (by decide)

/-- A node of the type of another, with children of it and others. -/
theorem ordinary_retyped {n : Node} {children : List Value} (h : n.Ordinary stray)
    (kept : ∀ v ∈ children, v ∈ n.children ∨ v.Seated stray) :
    Yields (w.located c n.type.text children) (Node.Ordinary stray) := by
  by_cases hash : n.type.text = "hash"
  · refine (yields_located_node _ children c).mono fun m hm => ?_
    obtain ⟨same, inside, -⟩ := hm
    rw [hash] at same
    refine ordinary_hash same ?_
    rw [inside]
    exact fun v mem => (kept v mem).elim (Node.folded_child h.folded v) Value.Seated.folded
  · have other : n.type ≠ .plain "hash" := fun same => hash (congrArg Label.text same)
    have plain : n.type.text ∉ ["pair", "kwsplat"] := by simpa [Node.isKeyword] using h.plain
    exact ordinary_located plain fun v mem =>
      (kept v mem).elim (Node.seated_of_folded h.folded other v) id

/-- A keyword is the node of its construct. -/
theorem folds_locatedKeyword {type : String} {children : List Value}
    (keyword : isKeyword c = true) (seated : ∀ v ∈ children, v.Seated (w.Stray root)) :
    Yields (w.located c type children) (w.Folds root c) := by
  refine (yields_located_node type children c).mono fun n hn => ?_
  obtain ⟨-, inside, located⟩ := hn
  rw [← inside] at seated
  exact ⟨Node.folded_of_seated seated, fun _ => ⟨keyword, located⟩⟩

-- ============================================================================
-- Parts and statements
-- ============================================================================

theorem ordinary_keyword {type : String} (plain : type ∉ ["pair", "kwsplat"]) (c : Cst) :
    Yields (w.keyword type c) (Node.Ordinary stray) :=
  ordinary_locatedLeaves plain (List.forall_mem_nil _)

theorem ordinary_symbolNode {type : String} (plain : type ∉ ["pair", "kwsplat"]) (dropped : Nat)
    (c : Cst) : Yields (w.symbolNode type dropped c) (Node.Ordinary stray) :=
  .after fun _ => ordinary_locatedLeaves plain (List.forall_mem_singleton.mpr rfl)

section

variable (listed : root.KeywordsListed)
  (hw : ∀ d ∈ root.constructs, Yields (w.lower d) (w.Folds root d))
include listed hw

omit listed in
theorem seated_lower {d : Cst} (standing : Standing root d) :
    Yields (w.lower d) fun n => n.toValue.Seated (w.Stray root) := by
  refine (hw d standing.mem).mono fun n folds => ⟨folds.folded, ?_⟩
  intro k same keyword
  obtain rfl : n = k := Option.some.inj (congrArg Value.node? same)
  obtain ⟨isKeyword, located⟩ := folds.keyword keyword
  exact ⟨d, isKeyword, standing.exposed isKeyword, located⟩

omit listed in
/-- A construct that is no keyword becomes a node that is none. -/
theorem ordinary_lower {d : Cst} (mem : d ∈ root.constructs) (plain : isKeyword d = false) :
    Yields (w.lower d) (Node.Ordinary (w.Stray root)) := by
  refine (hw d mem).mono fun n folds => ⟨folds.folded, ?_⟩
  refine Bool.eq_false_iff.mpr fun keyword => ?_
  obtain ⟨isKeyword, -⟩ := folds.keyword keyword
  rw [plain] at isKeyword
  cases isKeyword

omit listed in
theorem seated_lowerRole (loose : Loose root c) (role : String) :
    Yields (w.lowerRole c role) fun n => n.toValue.Seated (w.Stray root) :=
  (yields_requirePart _).bind fun _ part => seated_lower hw (loose.part part)

omit listed in
theorem seated_lowerOptional {part : Option Cst} (standing : ∀ d ∈ part, Standing root d) :
    Yields (w.lowerOptional part) fun n => (Value.ofNode? n).Seated (w.Stray root) := by
  cases part with
  | none => exact .pure Value.seated_nil
  | some d => exact (seated_lower hw (standing d rfl)).bind fun n hn => .pure hn

omit listed in
theorem seated_lowerAll {ds : List Cst} (standing : ∀ d ∈ ds, Standing root d) :
    Yields (w.lowerAll ds) fun ns => ∀ n ∈ ns, n.toValue.Seated (w.Stray root) :=
  yields_lowerAll_of_mem fun d mem => seated_lower hw (standing d mem)

omit listed in
/-- Whether they are keywords or not, constructs become nodes with the keywords below them in
    hashes. -/
theorem folded_lowerAll {ds : List Cst} (mem : ∀ d ∈ ds, d ∈ root.constructs) :
    Yields (w.lowerAll ds) fun ns => ∀ n ∈ ns, n.toValue.Folded (w.Stray root) :=
  yields_lowerAll_of_mem fun d inside => (hw d (mem d inside)).mono fun _ folds => folds.folded

omit listed in
theorem seated_compound {ds : List Cst} (standing : ∀ d ∈ ds, Standing root d) :
    Yields (w.compound ds) fun n => (Value.ofNode? n).Seated (w.Stray root) := by
  refine (seated_lowerAll hw standing).bind fun ns hns => ?_
  split
  next => exact .pure Value.seated_nil
  next n => exact .pure (hns n List.mem_cons_self)
  next =>
    split
    next =>
      refine .after fun l => .pure (Node.Ordinary.seated ⟨?_, rfl⟩)
      exact Node.folded_of_seated (forall_mem_asChildren.mpr hns)
    next => exact .pure Value.seated_nil

theorem seated_clause {part : Option Cst} (standing : ∀ d ∈ part, Standing root d) :
    Yields (w.clause part) fun n => (Value.ofNode? n).Seated (w.Stray root) := by
  cases part with
  | none => exact .pure Value.seated_nil
  | some d =>
    have here := standing d rfl
    unfold clause
    dsimp only
    split
    next container =>
      have unlisted := Kind.listsKeywords_of_isContainer container
      exact seated_compound hw ((Loose.of_kind listed here.mem rfl unlisted).statements listed)
    next => exact (seated_lower hw here).bind fun n hn => .pure hn

theorem seated_clauseOfRole (loose : Loose root c) (role : String) :
    Yields (w.clause (c.part? role)) fun n => (Value.ofNode? n).Seated (w.Stray root) :=
  seated_clause listed hw fun _ => loose.part

theorem seated_bodyOf (loose : Loose root c) (otherRoles : List String) :
    Yields (w.bodyOf c otherRoles) fun n => (Value.ofNode? n).Seated (w.Stray root) := by
  unfold bodyOf
  split
  next d part =>
    refine seated_clause listed hw ?_
    rintro _ ⟨⟩
    exact loose.part part
  next =>
    refine seated_compound hw (standing_of_flatten listed fun d mem => ?_)
    exact loose d (List.mem_of_mem_filter mem)

-- ============================================================================
-- Literals and variables
-- ============================================================================

omit listed in
theorem ordinary_collection {type : String} (plain : type ∉ ["pair", "kwsplat"])
    (loose : Loose root c) :
    Yields (w.collection type c) (Node.Ordinary (w.Stray root)) :=
  (seated_lowerAll hw loose.plain).bind fun _ hns =>
    ordinary_located plain (forall_mem_asChildren.mpr hns)

omit listed in
/-- A hash takes the keywords that are its children, and any others. -/
theorem ordinary_hashLiteral (mem : c ∈ root.constructs) :
    Yields (w.collection "hash" c) (Node.Ordinary (w.Stray root)) := by
  refine (folded_lowerAll hw (Cst.mem_constructs_of_plain mem)).bind fun ns hns => ?_
  refine (yields_located_node "hash" _ c).mono fun n hn => ?_
  obtain ⟨hash, children, -⟩ := hn
  refine ordinary_hash hash ?_
  rw [children]
  exact forall_mem_asChildren.mpr hns

theorem ordinary_statementGroup {type : String} (plain : type ∉ ["pair", "kwsplat"])
    (loose : Loose root c) :
    Yields (w.statementGroup type c) (Node.Ordinary (w.Stray root)) :=
  (seated_lowerAll hw (loose.statements listed)).bind fun _ hns =>
    ordinary_located plain (forall_mem_asChildren.mpr hns)

omit listed hw in
theorem seated_text (s : String) : (Piece.text s).toValue.Seated stray :=
  (Node.ordinary_of_leaves rfl (by simp [Node.bare, Value.isLeaf])).seated

theorem seated_piece {d : Cst} (mem : d ∈ root.constructs) :
    Yields (w.piece d) fun p => p.toValue.Seated (w.Stray root) := by
  unfold piece
  split
  next => exact .after fun s => .pure (seated_text s)
  next => exact .after fun _ => .after fun s => .pure (seated_text s)
  next kind =>
    have loose : Loose root d := .of_kind listed mem kind rfl
    refine (seated_lowerAll hw (loose.statements listed)).bind fun ns hns => ?_
    refine (ordinary_located (by decide) (forall_mem_asChildren.mpr hns)).bind fun n hn => ?_
    exact .pure hn.seated
  next => exact .throw _

theorem seated_stringPieces (mem : c ∈ root.constructs) :
    Yields (w.stringPieces c) fun ps => ∀ v ∈ ps.map Piece.toValue, v.Seated (w.Stray root) := by
  have each : ∀ d ∈ c.plainChildren, Yields (w.piece d) fun p =>
      p.toValue.Seated (w.Stray root) := fun d inside =>
    seated_piece listed hw (Cst.mem_constructs_of_plain mem d inside)
  exact (yields_stringPieces_of_mem seated_text each).mono fun ps hps =>
    List.forall_mem_map.mpr hps

theorem ordinary_stringNode {plain dynamic : String} {wrap : String → Value}
    (hplain : plain ∉ ["pair", "kwsplat"]) (hdynamic : dynamic ∉ ["pair", "kwsplat"])
    (leaf : ∀ s, (wrap s).isLeaf = true) (mem : c ∈ root.constructs) :
    Yields (w.stringNode plain dynamic wrap c) (Node.Ordinary (w.Stray root)) := by
  refine (seated_stringPieces listed hw mem).bind fun ps hps => ?_
  split
  next => exact ordinary_locatedLeaves hplain (List.forall_mem_singleton.mpr (leaf _))
  next => exact ordinary_locatedLeaves hplain (List.forall_mem_singleton.mpr (leaf _))
  next => exact ordinary_located hdynamic hps

theorem ordinary_regex (mem : c ∈ root.constructs) :
    Yields (w.regex c) (Node.Ordinary (w.Stray root)) := by
  refine (seated_stringPieces listed hw mem).bind fun ps hps => .after fun s => ?_
  refine ordinary_located (by decide) (List.forall_mem_append.mpr ⟨hps, ?_⟩)
  rw [List.forall_mem_singleton]
  refine (Node.ordinary_of_leaves rfl ?_).seated
  exact List.forall_mem_map.mpr fun _ _ => rfl

omit listed hw in
theorem seated_shorthandValue (key : Node) :
    Yields (shorthandValue key) fun n => n.toValue.Seated stray := by
  refine .after fun name => .after fun known => ?_
  split
  next => exact .pure (Node.ordinary_of_leaves rfl (by simp [Value.isLeaf])).seated
  next => exact .pure (Node.ordinary_of_leaves rfl (by simp [Value.isLeaf])).seated

/-- Pairs are keywords themselves, and have none for key or value. -/
theorem folds_pair (mem : c ∈ root.constructs) (kind : c.kind = .pair) :
    Yields (w.pair c) (w.Folds root c) := by
  have loose : Loose root c := .of_kind listed mem kind rfl
  have keyword : isKeyword c = true := by rw [isKeyword, kind]; rfl
  unfold pair
  split
  next => exact .throw _
  next key hkey =>
    refine (seated_lower hw (loose.part hkey)).bind fun keyNode seatedKey => ?_
    -- Whatever the key has become, a value follows and both are put together.
    have finish : ∀ {keyNode : Node} {value : Lowering Node},
        keyNode.toValue.Seated (w.Stray root) →
        Yields value (fun n => n.toValue.Seated (w.Stray root)) →
        Yields (value >>= fun valueNode => w.located c "pair" [keyNode, valueNode])
          (w.Folds root c) := by
      intro keyNode value seatedKey hvalue
      exact hvalue.bind fun valueNode seatedValue =>
        folds_locatedKeyword keyword (by simp [seatedKey, seatedValue])
    have symbol : ∀ name, Yields
        (Pure.pure ⟨.plain "sym", [.sym name], keyNode.location⟩ : Lowering Node)
        fun n => n.toValue.Seated (w.Stray root) := fun name =>
      .pure (Node.ordinary_of_leaves rfl (by simp [Value.isLeaf])).seated
    have same : Yields (Pure.pure keyNode : Lowering Node)
        fun n => n.toValue.Seated (w.Stray root) := .pure seatedKey
    cases hvalue : c.part? "value" with
    | none =>
      have short : ∀ key, Yields (shorthandValue key) fun n => n.toValue.Seated (w.Stray root) :=
        seated_shorthandValue
      dsimp only
      split
      next =>
        exact .after fun name => (symbol name).bind fun key seated => finish seated (short key)
      next => exact same.bind fun key seated => finish seated (short key)
    | some value =>
      have lowered := seated_lower hw (loose.part hvalue)
      dsimp only
      split
      next => exact .after fun name => (symbol name).bind fun key seated => finish seated lowered
      next => exact same.bind fun key seated => finish seated lowered

omit listed in
theorem ordinary_blockArgument (loose : Loose root c) :
    Yields (w.blockArgument c) (Node.Ordinary (w.Stray root)) := by
  have first : ∀ d ∈ c.plainChildren.head?, Standing root d := fun d mem =>
    loose.plain d (List.mem_of_mem_head? mem)
  exact (seated_lowerOptional hw first).bind fun value seated =>
    ordinary_located (by decide) (by simp [seated])

omit listed in
theorem ordinary_range (loose : Loose root c) :
    Yields (w.range c) (Node.Ordinary (w.Stray root)) := by
  refine (seated_lowerOptional hw fun _ => loose.part).bind fun first seatedFirst => ?_
  refine (seated_lowerOptional hw fun _ => loose.part).bind fun last seatedLast => ?_
  have type : (if isOpenRange c then "erange" else "irange") ∉ ["pair", "kwsplat"] := by
    split <;> decide
  exact ordinary_located type (by simp [seatedFirst, seatedLast])

omit listed in
theorem seated_pathScope (loose : Loose root c) :
    Yields (w.pathScope (c.part? "scope")) fun n => n.toValue.Seated (w.Stray root) := by
  cases part : c.part? "scope" with
  | none => exact .pure (Node.ordinary_of_leaves rfl (List.forall_mem_nil _)).seated
  | some d => exact seated_lower hw (loose.part part)

omit listed in
theorem ordinary_scopeResolution (loose : Loose root c) :
    Yields (w.scopeResolution c) (Node.Ordinary (w.Stray root)) := by
  unfold scopeResolution
  split
  next => exact .throw _
  next name part =>
    have type : (if name.kind == .constant then "const" else "send") ∉ ["pair", "kwsplat"] := by
      split <;> decide
    exact (seated_pathScope hw loose).bind fun scope seated => .after fun text =>
      ordinary_located type (by simp [seated])

-- ============================================================================
-- Arguments
-- ============================================================================

omit listed in
/-- The keywords among arguments go into a hash. -/
theorem seated_arguments {ds : List Cst} (mem : ∀ d ∈ ds, d ∈ root.constructs) :
    Yields (w.arguments ds) fun ns => ∀ n ∈ ns, n.toValue.Seated (w.Stray root) := by
  refine yields_arguments_of_mem (fun d inside plain => ?_) fun first last _ _ => ?_
  · exact seated_lower hw (.of_plain (mem d inside) plain)
  · have keywords : ∀ d ∈ ds.filter isKeyword, d ∈ root.constructs := fun d inside =>
      mem d (List.mem_of_mem_filter inside)
    exact (folded_lowerAll hw keywords).mono fun ns hns l _ =>
      (ordinary_hash rfl (forall_mem_asChildren.mpr hns)).seated

omit listed in
theorem seated_indexArguments (mem : c ∈ root.constructs) (object : Cst) :
    Yields (w.indexArguments c object) fun ns =>
      ∀ n ∈ ns, n.toValue.Seated (w.Stray root) :=
  seated_arguments hw fun d inside =>
    Cst.mem_constructs_of_plain mem d (List.mem_of_mem_filter inside)

-- ============================================================================
-- Assignments
-- ============================================================================

omit listed hw in
theorem sendType_not_keyword (operator : String) : sendType operator ∉ ["pair", "kwsplat"] := by
  rw [sendType]
  split <;> decide

omit listed hw in
mutual

theorem ordinary_target (listed : root.KeywordsListed)
    (hw : ∀ d ∈ root.constructs, Yields (w.lower d) (w.Folds root d)) (keepsName : Bool)
    (c : Cst) (mem : c ∈ root.constructs) :
    Yields (w.target keepsName c) (Node.Ordinary (w.Stray root)) := by
  obtain ⟨head, children⟩ := c
  have loose {k : Kind} (kind : head.kind = k) (unlisted : k.listsKeywords = false) :
      Loose root (.mk head children) := .of_kind listed mem kind unlisted
  have inside : ∀ d ∈ children, d ∈ root.constructs := fun d child =>
    Cst.mem_constructs_of_child mem child
  have several {type : String} (plain : type ∉ ["pair", "kwsplat"]) :
      Yields (do
        let parts ← w.targets children
        w.located (.mk head children) type (asChildren parts)) (Node.Ordinary (w.Stray root)) :=
    (seated_targets listed hw children inside).bind fun _ hparts =>
      ordinary_located plain (forall_mem_asChildren.mpr hparts)
  unfold target
  dsimp only
  split
  next =>
    exact .after fun name => .after fun _ =>
      ordinary_locatedLeaves (by decide) (List.forall_mem_singleton.mpr rfl)
  next => exact ordinary_symbolNode (by decide) _ _
  next => exact ordinary_symbolNode (by decide) _ _
  next => exact ordinary_symbolNode (by decide) _ _
  next =>
    exact .after fun name => ordinary_located (by decide) (by simp)
  next kind =>
    refine (seated_pathScope hw (loose kind rfl)).bind fun scope seated => ?_
    exact .after fun name => ordinary_located (by decide) (by simp [seated])
  next kind =>
    refine (seated_lowerRole hw (loose kind rfl) _).bind fun receiver seated => ?_
    refine .after fun method => .after fun operator => ?_
    exact ordinary_located (sendType_not_keyword operator) (by simp [seated])
  next kind =>
    refine (yields_requirePart _).bind fun object part => ?_
    refine (seated_indexArguments hw mem object).bind fun arguments hargs => ?_
    have standing : Standing root object :=
      ⟨Cst.mem_constructs_of_part mem part, fun _ => .indexed mem kind part⟩
    refine (seated_lower hw standing).bind fun receiver seated => ?_
    refine ordinary_located (by decide) ?_
    rw [List.forall_mem_cons, List.forall_mem_cons]
    exact ⟨seated, Value.seated_sym _, forall_mem_asChildren.mpr hargs⟩
  next => exact several (by decide)
  next => exact several (by decide)
  next => exact several (by decide)
  next => exact .throw _

theorem seated_targets (listed : root.KeywordsListed)
    (hw : ∀ d ∈ root.constructs, Yields (w.lower d) (w.Folds root d)) (cs : List Cst)
    (mem : ∀ c ∈ cs, c ∈ root.constructs) :
    Yields (w.targets cs) fun ns => ∀ n ∈ ns, n.toValue.Seated (w.Stray root) := by
  cases cs with
  | nil => exact .pure (List.forall_mem_nil _)
  | cons c cs =>
    rw [List.forall_mem_cons] at mem
    have later := seated_targets listed hw cs mem.2
    unfold targets
    split
    next =>
      exact (ordinary_target listed hw false c mem.1).bind fun n hn => later.bind fun ns hns =>
        .pure (List.forall_mem_cons.mpr ⟨hn.seated, hns⟩)
    next => exact later

end

theorem seated_assignedValue (standing : Standing root c) :
    Yields (w.assignedValue c) fun n => n.toValue.Seated (w.Stray root) := by
  unfold assignedValue
  split
  next kind =>
    have loose : Loose root c := .of_kind listed standing.mem kind rfl
    exact (ordinary_collection hw (by decide) loose).mono fun _ hn => hn.seated
  next =>
    refine (seated_lower hw standing).bind fun n seated => ?_
    exact (ordinary_located (by decide) (by simp [seated])).mono fun _ hn => hn.seated
  next => exact seated_lower hw standing

theorem ordinary_assignment (loose : Loose root c) :
    Yields (w.assignment c) (Node.Ordinary (w.Stray root)) := by
  unfold assignment
  split
  next left right hleft hright =>
    have memLeft := (loose.part hleft).mem
    refine (ordinary_target listed hw false left memLeft).bind fun target htarget => ?_
    refine (seated_assignedValue listed hw (loose.part hright)).bind fun value seated => ?_
    split
    next => exact ordinary_located (by decide) (by simp [htarget.seated, seated])
    next =>
      refine ordinary_retyped htarget ?_
      rw [List.forall_mem_append, List.forall_mem_singleton]
      exact ⟨fun v mem => .inl mem, .inr seated⟩
  next => exact .throw _

theorem ordinary_operatorAssignment (loose : Loose root c) :
    Yields (w.operatorAssignment c) (Node.Ordinary (w.Stray root)) := by
  unfold operatorAssignment
  split
  next left right hleft hright =>
    have memLeft := (loose.part hleft).mem
    refine .after fun operator => ?_
    refine (ordinary_target listed hw true left memLeft).bind fun target htarget => ?_
    refine (seated_lower hw (loose.part hright)).bind fun value seated => ?_
    have children : ∀ v ∈ [target.toValue, value.toValue], v.Seated (w.Stray root) := by
      simp [htarget.seated, seated]
    split
    next => exact ordinary_located (by decide) children
    next =>
      split
      next => exact ordinary_located (by decide) children
      next => exact ordinary_located (by decide) (by simp [htarget.seated, seated])
  next => exact .throw _

end

end Context

end Ruby

end RubyPattern
