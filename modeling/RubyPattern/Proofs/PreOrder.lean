/-
  RubyPattern.Proofs.PreOrder

  Searching a tree. The nodes of a tree stand at places, paths of child indices,
  and reading goes through all places in lexicographic order: a node in front of
  what is below it, and what is below a child in front of what is below the next
  one. The walk keeps a stack instead of going down recursively, and visits the
  same nodes in the same order; so a search finds every node that the pattern
  applies to, in that order, with the captures of its own match.
-/
import RubyPattern.Proofs.MatchState

namespace RubyPattern

-- ============================================================================
-- Places
-- ============================================================================

/-- The node at a place of a tree: the tree itself, or the node at a place of
    the child with an index. -/
def Node.at? (n : Node) : List Nat → Option Node
  | [] => some n
  | i :: place => (n.children[i]?.bind Value.node?).bind (·.at? place)

namespace Value

mutual

/-- The places of a value at which nodes stand, in the order of reading. -/
def places : Value → List (List Nat)
  | .node _ children _ => [] :: placesFrom 0 children
  | _ => []

/-- The places among children, the first of which has the given index. -/
def placesFrom (i : Nat) : List Value → List (List Nat)
  | [] => []
  | child :: children => (places child).map (i :: ·) ++ placesFrom (i + 1) children

end

/-- The node at a place, if the value is a node. -/
def at? (v : Value) (place : List Nat) : Option Node :=
  v.node?.bind (·.at? place)

theorem at?_cons (children : List Value) (type : Label) (location : Option Location) (i : Nat)
    (place : List Nat) :
    (node type children location).at? (i :: place) = children[i]?.bind (·.at? place) := by
  show (children[i]?.bind node?).bind (·.at? place) = _
  cases children[i]? <;> rfl

/-- A place among children begins with the index of one of them. -/
theorem le_of_mem_placesFrom {i : Nat} {children : List Value} {place : List Nat}
    (h : place ∈ placesFrom i children) : ∃ j below, i ≤ j ∧ place = j :: below := by
  induction children generalizing i with
  | nil => cases h
  | cons child children ih =>
    rw [placesFrom, List.mem_append, List.mem_map] at h
    rcases h with ⟨below, -, rfl⟩ | h
    · exact ⟨i, below, Nat.le_refl i, rfl⟩
    · obtain ⟨j, below, le, rfl⟩ := ih h
      exact ⟨j, below, Nat.le_of_succ_le le, rfl⟩

mutual

/-- The places of a value are those at which it has a node. -/
theorem mem_places_iff (v : Value) (place : List Nat) :
    place ∈ v.places ↔ ∃ n, v.at? place = some n := by
  cases v with
  | node type children location =>
    rw [places, List.mem_cons]
    cases place with
    | nil => exact ⟨fun _ => ⟨_, rfl⟩, fun _ => .inl rfl⟩
    | cons j below =>
      have inside := mem_placesFrom_iff 0 children j below
      rw [Nat.zero_add] at inside
      rw [at?_cons, inside]
      simp
  | _ => simp [places, at?, node?]

theorem mem_placesFrom_iff (i : Nat) (children : List Value) (j : Nat) (below : List Nat) :
    (i + j) :: below ∈ placesFrom i children ↔ ∃ n, children[j]?.bind (·.at? below) = some n := by
  cases children with
  | nil => simp [placesFrom]
  | cons child children =>
    have first := mem_places_iff child below
    rw [placesFrom, List.mem_append, List.mem_map]
    cases j with
    | zero =>
      have behind : i :: below ∉ placesFrom (i + 1) children := by
        intro mem
        obtain ⟨k, _, le, same⟩ := le_of_mem_placesFrom mem
        injection same with same
        omega
      rw [Nat.add_zero, List.getElem?_cons_zero, Option.bind_some, ← first]
      simp [behind]
    | succ j =>
      have next := mem_placesFrom_iff (i + 1) children j below
      rw [Nat.succ_add_eq_add_succ] at next
      rw [List.getElem?_cons_succ, ← next]
      simp

end

mutual

/-- Places are listed once each, in lexicographic order. -/
theorem places_sorted (v : Value) : v.places.Pairwise (· < ·) := by
  cases v with
  | node type children location =>
    rw [places, List.pairwise_cons]
    refine ⟨fun place mem => ?_, placesFrom_sorted 0 children⟩
    obtain ⟨j, below, -, rfl⟩ := le_of_mem_placesFrom mem
    exact List.nil_lt_cons j below
  | _ => exact List.Pairwise.nil

theorem placesFrom_sorted (i : Nat) (children : List Value) :
    (placesFrom i children).Pairwise (· < ·) := by
  cases children with
  | nil => exact List.Pairwise.nil
  | cons child children =>
    rw [placesFrom, List.pairwise_append, List.pairwise_map]
    refine ⟨?_, placesFrom_sorted (i + 1) children, ?_⟩
    · refine (places_sorted child).imp fun less => ?_
      exact List.cons_lt_cons_iff.mpr (.inr ⟨rfl, less⟩)
    · intro place mem later mem'
      obtain ⟨below, -, rfl⟩ := List.mem_map.mp mem
      obtain ⟨j, below', le, rfl⟩ := le_of_mem_placesFrom mem'
      exact List.cons_lt_cons_iff.mpr (.inl le)

end

mutual

/-- The nodes of a value are those at its places. -/
theorem map_some_nodes (v : Value) : v.nodes.map some = v.places.map v.at? := by
  cases v with
  | node type children location =>
    rw [nodes, places, List.map_cons, List.map_cons]
    have below := map_some_nodesOf children [] type location
    rw [List.nil_append, List.length_nil] at below
    rw [below]
    rfl
  | _ => rfl

theorem map_some_nodesOf (children before : List Value) (type : Label)
    (location : Option Location) : (nodesOf children).map some =
      (placesFrom before.length children).map (node type (before ++ children) location).at? := by
  cases children with
  | nil => rfl
  | cons child children =>
    have first := map_some_nodes child
    have others := map_some_nodesOf children (before ++ [child]) type location
    rw [List.append_assoc, List.singleton_append, List.length_append, List.length_singleton]
      at others
    rw [nodesOf, placesFrom, List.map_append, List.map_append, first, others, List.map_map]
    have here : (node type (before ++ child :: children) location).at? ∘ (before.length :: ·) =
        child.at? := by
      funext place
      rw [Function.comp_apply, at?_cons]
      simp
    rw [here]

end

end Value

/-- The nodes of a tree, in the order of reading, are those at its places in
    lexicographic order. -/
theorem Node.exists_places (tree : Node) : ∃ places : List (List Nat),
    places.Pairwise (· < ·) ∧ (∀ place, place ∈ places ↔ ∃ n, tree.at? place = some n) ∧
      tree.nodes.map some = places.map tree.at? :=
  ⟨tree.toValue.places, tree.toValue.places_sorted, tree.toValue.mem_places_iff,
    tree.toValue.map_some_nodes⟩

-- ============================================================================
-- Searching
-- ============================================================================

namespace Compiled

variable {p : Compiled}

/-- If its functions answer its calls, a compiled pattern answers every value. -/
theorem exists_captures? {pattern : String} {functions : Functions}
    (compiled : compile pattern functions = .ok p) (answered : p.root.Answered functions)
    (v : Value) : ∃ answer, p.captures? v = .ok answer := by
  obtain ⟨table, admissible⟩ := admissible_of_compile compiled
  unfold captures? Element.captures?
  rw [table]
  rcases admissible.disciplined answered v .empty with run | ⟨t, run, -⟩
  · exact ⟨none, by rw [run]⟩
  · exact ⟨some t.captures, by rw [run]⟩

/-- Of some nodes those are selected that have captures, with their captures. -/
theorem select_eq {answer : Node → Option (List Value)}
    (answers : ∀ n, p.captures? n.toValue = .ok (answer n)) (ns : List Node) :
    p.select ns = .ok (ns.filterMap fun n => (answer n).map (Found.mk n)) := by
  induction ns with
  | nil => rfl
  | cons n ns ih =>
    rw [select, answers n, ih, List.filterMap_cons]
    cases answer n <;> rfl

/-- What is written of a search is what the search finds. -/
theorem select_of_selectSummaries {ns : List Node} {written : List (Found × Summary)}
    (run : p.selectSummaries ns = .ok written) : p.select ns = .ok (written.map (·.1)) := by
  induction ns generalizing written with
  | nil =>
    cases run
    rfl
  | cons n ns ih =>
    rw [selectSummaries] at run
    rw [select]
    cases here : p.captures? n.toValue with
    | error fault =>
      simp only [here, bind, Except.bind] at run
      cases run
    | ok captures =>
      cases captures with
      | none =>
        simp only [here, bind, Except.bind] at run
        rw [ih run]
        rfl
      | some captures =>
        simp only [here, bind, Except.bind] at run
        cases text : Found.summary ⟨n, captures⟩ with
        | error fault =>
          simp only [text] at run
          cases run
        | ok summary =>
          cases later : p.selectSummaries ns with
          | error fault =>
            simp only [text, later] at run
            cases run
          | ok others =>
            simp only [text, later] at run
            cases run
            rw [ih later]
            rfl

/-- A search is complete and in order. If its functions answer the calls of the
    pattern, every node is answered; and the walk through a tree finds, of the nodes in the order of
    reading, those that have captures, each with its own. These nodes are the
    ones at the places of the tree, one for each place, in lexicographic order. -/
theorem search_eq_filterMap {pattern : String} {functions : Functions}
    (compiled : compile pattern functions = .ok p) (answered : p.root.Answered functions)
    (tree : Node) :
    ∃ answer : Node → Option (List Value),
      (∀ n, p.captures? n.toValue = .ok (answer n)) ∧
      p.search tree = .ok (tree.nodes.filterMap fun n => (answer n).map (Found.mk n)) ∧
      ∃ places : List (List Nat), places.Pairwise (· < ·) ∧
        (∀ place, place ∈ places ↔ ∃ n, tree.at? place = some n) ∧
        tree.nodes.map some = places.map tree.at? := by
  have answers := fun n : Node => exists_captures? compiled answered n.toValue
  refine ⟨fun n => (answers n).choose, fun n => (answers n).choose_spec, ?_,
    tree.exists_places⟩
  rw [search_eq_select]
  exact select_eq (fun n => (answers n).choose_spec) tree.nodes

/-- A node that occurs twice is found twice, once inside the first child and once
    behind the second one; the symbol between them is passed over. -/
theorem search_eq_filterMap_sharedNode :
    let one := Node.bare "int" [.int 1]
    let two := Node.bare "int" [.int 2]
    let tree := Node.bare "array" [Node.bare "begin" [.sym "a", two], one, two]
    let functions : Functions := [("whole", (Datum.value (.criterion (.class .int))).predicate)]
    ∃ p, compile "(int $#whole)" functions = .ok p ∧ p.root.Answered functions ∧
      p.search tree = .ok [⟨two, [.int 2]⟩, ⟨one, [.int 1]⟩, ⟨two, [.int 2]⟩] := by
  intro one two tree functions
  let root := Element.sequence [.nodeType "int", .capture (.call "whole" [])]
  let p : Compiled := ⟨"(int $#whole)", root, functions⟩
  have answered : p.root.Answered functions :=
    Element.answered_of_made (List.forall_mem_singleton.mpr ⟨_, rfl⟩) (by decide)
      (by simp [p, root, Element.walk, Element.walkAll])
  have lexemes : Lexeme.tokenize "(int $#whole)" = .ok
      [⟨.opening .round, "(", 0⟩, ⟨.nodeType "int", "int", 1⟩, ⟨.capture, "$", 5⟩,
        ⟨.function "whole", "#whole", 6⟩, ⟨.closing .round, ")", 12⟩] := rfl
  have compiled : compile "(int $#whole)" functions = .ok p := by
    rw [compile_eq_ok_iff, Grammar.parse_eq_ok_iff]
    refine ⟨⟨_, lexemes, .sequence rfl ?_ (by simp)⟩, rfl, rfl, by decide⟩
    exact .item (.nodeType rfl)
      (.item (.capture rfl (.call rfl (by simp [Grammar.Detached]))) (.close rfl))
  obtain ⟨answer, answers, searched, -⟩ := search_eq_filterMap compiled answered tree
  have found {n : Node} {captures : Option (List Value)}
      (run : p.captures? n.toValue = .ok captures) : answer n = captures :=
    Except.ok.inj ((answers n).symm.trans run)
  have array : answer tree = none := found rfl
  have begin : answer (Node.bare "begin" [.sym "a", two]) = none := found rfl
  have first : answer one = some [.int 1] := found rfl
  have second : answer two = some [.int 2] := found rfl
  have nodes : tree.nodes = [tree, Node.bare "begin" [.sym "a", two], two, one, two] := rfl
  refine ⟨p, compiled, answered, ?_⟩
  rw [searched, nodes]
  simp only [List.filterMap_cons, List.filterMap_nil, array, begin, first, second, Option.map]

end Compiled

end RubyPattern
