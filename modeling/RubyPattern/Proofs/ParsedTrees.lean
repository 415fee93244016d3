/-
  RubyPattern.Proofs.ParsedTrees

  Parsed trees. Every node has a plain type and the shape of that type, and its
  children are nodes and plain values, so a parsed tree has a text.
-/
import RubyPattern.Proofs.Lowered
import RubyPattern.Proofs.MadeTrees
import RubyPattern.Tree.Render

namespace RubyPattern

-- ============================================================================
-- Well-shaped nodes
-- ============================================================================

/-- A node of a plain type, with children that are nodes or plain values and have
    the shape of the type. -/
structure Node.WellShaped (n : Node) : Prop where
  type : n.type = .plain n.type.text
  children : ∀ v ∈ n.children, v.isLeaf = true ∨ ∃ m : Node, v = m.toValue
  fits : Fits n.type.text n.children

/-- The types with a shape are those of lowered trees. -/
theorem Fits.isLoweredType {type : String} {children : List Value} (h : Fits type children) :
    isLoweredType type = true := by
  have listed : ∀ entry ∈ Shape.table, ∀ t ∈ entry.1, RubyPattern.isLoweredType t = true := by
    decide
  obtain ⟨shape, found, -⟩ := h
  rw [Shape.ofType?, Option.map_eq_some_iff] at found
  obtain ⟨entry, found, -⟩ := found
  have contained := List.find?_some found
  exact listed entry (List.mem_of_find?_eq_some found) type (List.contains_iff_mem.mp contained)

namespace Ruby.Made

variable {o : Origin} {c : Cst} {v : Value}

/-- What is made of a construct is a plain value or a node. -/
theorem leaf_or_node (h : Made o c v) : v.isLeaf = true ∨ ∃ n : Node, v = n.toValue := by
  induction h with
  | leaf plain => exact .inl plain
  | inside mem made ih => exact ih
  | whole => exact .inr ⟨⟨_, _, _⟩, rfl⟩
  | bare => exact .inr ⟨⟨_, _, _⟩, rfl⟩
  | row => exact .inr ⟨⟨_, _, _⟩, rfl⟩
  | call => exact .inr ⟨⟨_, _, _⟩, rfl⟩
  | renamed => exact .inr ⟨⟨_, _, _⟩, rfl⟩

mutual

/-- Every node in what is made of a construct is made of it. -/
theorem nodes {v : Value} (h : Made o c v) : ∀ n ∈ v.nodes, MadeNode o c n := by
  cases v with
  | node type children location =>
    rw [Value.nodes, List.forall_mem_cons]
    exact ⟨h, nodesOf h.children⟩
  | _ => simp [Value.nodes]

theorem nodesOf {vs : List Value} (h : ∀ v ∈ vs, Made o c v) :
    ∀ n ∈ Value.nodesOf vs, MadeNode o c n := by
  cases vs with
  | nil => simp [Value.nodesOf]
  | cons v vs =>
    rw [List.forall_mem_cons] at h
    rw [Value.nodesOf, List.forall_mem_append]
    exact ⟨nodes h.1, nodesOf h.2⟩

end

mutual

/-- What is made of a construct has the form of lowered trees. -/
theorem lowered {v : Value} (h : Made o c v) : v.Lowered := by
  cases v with
  | node type children location => exact ⟨h.fits.2.isLoweredType, loweredAll h.children⟩
  | nil | str | sym | int | float | nan => trivial
  | _ =>
    rcases h.leaf_or_node with plain | ⟨n, same⟩
    · cases plain
    · cases same

theorem loweredAll {vs : List Value} (h : ∀ v ∈ vs, Made o c v) : Value.LoweredAll vs := by
  cases vs with
  | nil => trivial
  | cons v vs =>
    rw [List.forall_mem_cons] at h
    exact ⟨lowered h.1, loweredAll h.2⟩

end

end Ruby.Made

theorem Ruby.MadeNode.wellShaped {o : Origin} {c : Cst} {n : Node} (h : MadeNode o c n) :
    n.WellShaped where
  type := h.fits.1
  children v hv := (h.children v hv).leaf_or_node
  fits := h.fits.2

-- ============================================================================
-- Texts
-- ============================================================================

namespace Value

mutual

theorem exists_render {v : Value} (h : v.Lowered) : ∃ text, v.render = .ok text := by
  cases v with
  | node type children location =>
    obtain ⟨texts, rendered⟩ := exists_renderAll h.2
    exact ⟨_, by rw [render, rendered]; rfl⟩
  | nil | str | sym | int | float | nan => exact ⟨_, rfl⟩
  | _ => exact h.elim

theorem exists_renderAll {vs : List Value} (h : LoweredAll vs) :
    ∃ texts, renderAll vs = .ok texts := by
  cases vs with
  | nil => exact ⟨[], rfl⟩
  | cons v vs =>
    obtain ⟨text, rendered⟩ := exists_render h.1
    obtain ⟨texts, others⟩ := exists_renderAll h.2
    exact ⟨text :: texts, by rw [renderAll, rendered, others]; rfl⟩

end

mutual

theorem exists_renderPretty (indent : Int) {v : Value} (h : v.Lowered) :
    ∃ text, v.renderPretty indent = .ok text := by
  cases v with
  | node type children location =>
    obtain ⟨body, rendered⟩ := exists_renderChildren (indent + 1) h.2
    exact ⟨_, by rw [renderPretty, rendered]; rfl⟩
  | nil | str | sym | int | float | nan => exact ⟨_, rfl⟩
  | _ => exact h.elim

theorem exists_renderChildren (indent : Int) {vs : List Value} (h : LoweredAll vs) :
    ∃ text, renderChildren indent vs = .ok text := by
  cases vs with
  | nil => exact ⟨"", rfl⟩
  | cons v vs =>
    obtain ⟨texts, others⟩ := exists_renderChildren indent h.2
    cases v with
    | node type children location =>
      obtain ⟨text, rendered⟩ := exists_renderPretty indent h.1
      exact ⟨_, by rw [renderChildren, rendered, others]; rfl⟩
    | nil | str | sym | int | float | nan =>
      obtain ⟨text, rendered⟩ := exists_render h.1
      refine ⟨" " ++ text ++ texts, ?_⟩
      rw [renderChildren, rendered, others]
      · rfl
      · nofun
    | _ => exact h.1.elim

end

end Value

namespace Ruby.Parser

/-- Parsed trees have the form of lowered trees. -/
theorem lowered_of_parse {p : Parser} {source : String} {n : Node}
    (h : p.parse source = .ok n) : n.Lowered := by
  obtain ⟨root, grammar⟩ := exists_grammar_of_parse h
  exact (made_of_parse grammar h).lowered

/-- A parsed tree has a text, on one line and on several, and every node in it is
    well-shaped: it has a plain type, nodes and plain values for children, and
    these in the shape that the table gives for its type. -/
theorem wellShaped_of_parse {p : Parser} {source : String} {tree : Node}
    (parsed : p.parse source = .ok tree) :
    (∃ text, tree.toValue.render = .ok text) ∧
    (∀ indent, ∃ text, tree.toValue.renderPretty indent = .ok text) ∧
    ∀ n ∈ tree.nodes, n.WellShaped := by
  obtain ⟨root, grammar⟩ := exists_grammar_of_parse parsed
  have made : Made (p.origin source) root tree.toValue := made_of_parse grammar parsed
  refine ⟨Value.exists_render made.lowered, fun indent =>
    Value.exists_renderPretty indent made.lowered, fun n hn => ?_⟩
  exact (made.nodes n hn).wellShaped

/-- The source of four lines, `case a`, `when 1`, `  -2` and `end`. -/
def caseDistinction : Cst :=
  .mk ⟨.other "program", 0, 22, none, true, false, false⟩
    [.mk ⟨.caseStatement, 0, 22, none, true, false, false⟩
      [.mk ⟨.other "case", 0, 4, none, false, false, false⟩ [],
       .mk ⟨.identifier, 5, 6, some "value", true, false, false⟩ [],
       .mk ⟨.whenClause, 7, 18, none, true, false, false⟩
        [.mk ⟨.other "when", 7, 11, none, false, false, false⟩ [],
         .mk ⟨.matchPattern, 12, 13, some "pattern", true, false, false⟩
          [.mk ⟨.integer, 12, 13, none, true, false, false⟩ []],
         .mk ⟨.thenClause, 13, 18, some "body", true, false, false⟩
          [.mk ⟨.unary, 16, 18, none, true, false, false⟩
            [.mk ⟨.other "-", 16, 17, some "operator", false, false, false⟩ [],
             .mk ⟨.integer, 17, 18, some "operand", true, false, false⟩ []]]],
       .mk ⟨.other "end", 19, 22, none, false, false, false⟩ []]]

theorem wellShaped_of_parse_caseDistinction :
    ∃ tree, (ofGrammar fun _ => some caseDistinction).parse "case a\nwhen 1\n  -2\nend" =
        .ok tree ∧
      tree.toValue.render.toOption =
        some "(case (send nil :a) (when (int 1) (int -2)) nil)" ∧
      ∀ n ∈ tree.nodes, n.WellShaped := by
  have parsed : ∃ tree, (ofGrammar fun _ => some caseDistinction).parse
      "case a\nwhen 1\n  -2\nend" = .ok tree ∧ tree.toValue.render.toOption =
        some "(case (send nil :a) (when (int 1) (int -2)) nil)" := ⟨_, rfl, by decide +kernel⟩
  obtain ⟨tree, parsed, rendered⟩ := parsed
  obtain ⟨-, -, shaped⟩ := wellShaped_of_parse parsed
  exact ⟨tree, parsed, rendered, shaped⟩

end Ruby.Parser

end RubyPattern
