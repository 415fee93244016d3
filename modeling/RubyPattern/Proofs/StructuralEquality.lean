/-
  RubyPattern.Proofs.StructuralEquality

  `literalEquals`, the equality of patterns, against equality by structure. It is an
  equivalence on values free of NaN. At the top of two values it keeps booleans
  apart from numbers, but it compares the children of nodes as plain values are
  compared, where true is one and false is zero. So two nodes are equal if and only
  if they have the same type and their children are equal one by one, or are a
  boolean and the number that it stands for. Symbols and strings differ at every
  depth.
-/
import RubyPattern.Proofs.Equality

namespace RubyPattern.Value

open RubyPattern.Number

-- ============================================================================
-- Booleans and numbers
-- ============================================================================

/-- The number that a boolean stands for. -/
def numberOf (truth : Bool) : Exact :=
  .ofInt (if truth then 1 else 0)

/-- Whether one of two values is a boolean, and the other the number that it stands
    for. -/
def boolMeetsNumber : Value → Value → Bool
  | .bool x, .int n => (numberOf x).eq (.ofInt n)
  | .bool x, .float y => (numberOf x).eq (.ofFloat y)
  | .int n, .bool y => (Exact.ofInt n).eq (numberOf y)
  | .float x, .bool y => (Exact.ofFloat x).eq (numberOf y)
  | _, _ => false

/-- Values are equal if patterns take them for equal, or if they are a boolean and
    the number that it stands for. -/
theorem same_eq_true_iff_literalEquals {a b : Value} :
    same a b = true ↔ literalEquals a b = true ∨ boolMeetsNumber a b = true := by
  have nanLeft : ∀ x : Exact, Exact.notANumber.eq x = false := fun _ => rfl
  have nanRight : ∀ x : Exact, x.eq .notANumber = false := fun x => Exact.eq_comm x _
  rw [literalEquals_eq_true_iff]
  cases a <;> cases b <;>
    simp [patternKind, boolMeetsNumber, same, sameLeaf, symbol?, number?, numberOf, nanLeft,
      nanRight]

theorem boolMeetsNumber_eq_false {a b : Value} (h : a.patternKind = b.patternKind) :
    boolMeetsNumber a b = false := by
  cases a <;> cases b <;> first | rfl | cases h

/-- Parts of values free of NaN are the same part only if they are equal. -/
theorem samePart_eq_same {a b : Value} (h : a.nanFree = true) : samePart a b = same a b := by
  have noNan : sameNan a b = false := by
    cases a with
    | nan tag => cases h
    | _ => rfl
  rw [samePart, noNan, Bool.false_or]

-- ============================================================================
-- Nodes
-- ============================================================================

section Nodes

variable {t u : Label} {cs ds : List Value} {l m : Option Location}

/-- Patterns take two nodes for equal if these have the same type and equal
    children, where a child may be a boolean and the other the number that it stands
    for. -/
theorem literalEquals_node_iff (real : nanFreeAll cs = true) :
    literalEquals (.node t cs l) (.node u ds m) = true ↔
      t = u ∧ List.Forall₂ (fun c d => literalEquals c d = true ∨ boolMeetsNumber c d = true)
        cs ds := by
  have children : sameAll cs ds = true ↔
      List.Forall₂ (fun c d => literalEquals c d = true ∨ boolMeetsNumber c d = true) cs ds := by
    rw [sameAll_eq_true_iff, List.forall₂_iff_zip, List.forall₂_iff_zip]
    refine and_congr_right fun _ => forall₂_congr fun c d => ?_
    refine forall_congr' fun pair => ?_
    have free := nanFreeAll_eq_true_iff.mp real c (List.of_mem_zip pair).1
    rw [samePart_eq_same free, same_eq_true_iff_literalEquals]
  have nodes : literalEquals (.node t cs l) (.node u ds m) = (t == u && sameAll cs ds) := by
    rw [← same]
    rfl
  rw [nodes, Bool.and_eq_true, beq_iff_eq, children]

/-- A node equals nodes only. -/
theorem literalEquals_node_of_node?_eq_none {b : Value} (h : b.node? = none) :
    literalEquals (.node t cs l) b = false := by
  cases b with
  | node => cases h
  | _ => simp [literalEquals, symbol?, same]

end Nodes

-- ============================================================================
-- Equality by structure
-- ============================================================================

mutual

/-- Equality by structure: of nodes by type and by structure of the children, of
    other values as patterns see it. -/
def alike : Value → Value → Bool
  | .node t cs _, b => match b with
    | .node u ds _ => t == u && alikeAll cs ds
    | _ => false
  | a, b => literalEquals a b

/-- Equality by structure of sequences, item by item. -/
def alikeAll : List Value → List Value → Bool
  | [], [] => true
  | a :: as, b :: bs => alike a b && alikeAll as bs
  | _, _ => false

end

/-- Two values stand in the same place of two trees: they are the trees themselves,
    or they stand in the same place of two children with the same index. -/
inductive Facing : Value → Value → Value → Value → Prop
  | top (a b : Value) : Facing a b a b
  | inside {t u : Label} {cs ds : List Value} {l m : Option Location} {c d e f : Value}
      (pair : (c, d) ∈ cs.zip ds) (below : Facing c d e f) :
      Facing (.node t cs l) (.node u ds m) e f

theorem alikeAll_eq_true_iff {as bs : List Value} :
    alikeAll as bs = true ↔ List.Forall₂ (fun a b => alike a b = true) as bs := by
  induction as generalizing bs with
  | nil => cases bs <;> simp [alikeAll]
  | cons a as ih => cases bs <;> simp [alikeAll, ih]

theorem Facing.eq_of_node?_eq_none {a b c d : Value} (h : Facing a b c d)
    (leaf : a.node? = none ∨ b.node? = none) : c = a ∧ d = b := by
  cases h with
  | top => exact ⟨rfl, rfl⟩
  | inside => rcases leaf with h | h <;> cases h

/-- What stands in the same place of equal values is equal, or a boolean and the
    number that it stands for; or it is one and the same NaN. -/
theorem Facing.samePart {a b c d : Value} (h : Facing a b c d) (same : samePart a b = true) :
    c.samePart d = true := by
  induction h with
  | top => exact same
  | @inside t u cs ds l m c d e f pair below ih =>
    refine ih ?_
    rcases samePart_eq_true_iff.mp same with ⟨tag, nan, -⟩ | equal
    · cases nan
    · rw [Value.same, Bool.and_eq_true, sameAll_eq_true_iff, List.forall₂_iff_zip] at equal
      exact equal.2.2 pair

/-- Equality by structure is equality where no boolean stands against a number. -/
theorem alike_eq_true_iff {a b : Value} (real : a.nanFree = true) :
    alike a b = true ↔
      literalEquals a b = true ∧ ∀ c d, Facing a b c d → boolMeetsNumber c d = false := by
  induction a using Value.induction generalizing b with
  | step a ih =>
    -- Values that are no nodes stand against each other and nothing else does.
    have leaf (h : a.node? = none ∨ b.node? = none) (equation : alike a b = literalEquals a b) :
        alike a b = true ↔
          literalEquals a b = true ∧ ∀ c d, Facing a b c d → boolMeetsNumber c d = false := by
      rw [equation]
      refine ⟨fun equal => ⟨equal, fun c d facing => ?_⟩, fun h => h.1⟩
      obtain ⟨rfl, rfl⟩ := facing.eq_of_node?_eq_none h
      exact boolMeetsNumber_eq_false (literalEquals_eq_true_iff.mp equal).1
    cases a with
    | node t cs l =>
      cases b with
      | node u ds m =>
        have free : nanFreeAll cs = true := real
        rw [literalEquals_node_iff free, List.forall₂_iff_zip]
        rw [alike, Bool.and_eq_true, beq_iff_eq, alikeAll_eq_true_iff, List.forall₂_iff_zip]
        have child : ∀ {c d}, (c, d) ∈ cs.zip ds → (alike c d = true ↔
            literalEquals c d = true ∧ ∀ e f, Facing c d e f → boolMeetsNumber e f = false) := by
          intro c d pair
          have mem := (List.of_mem_zip pair).1
          exact ih c mem (nanFreeAll_eq_true_iff.mp free c mem)
        constructor
        · rintro ⟨types, lengths, children⟩
          refine ⟨⟨types, lengths, fun pair => .inl ((child pair).mp (children pair)).1⟩, ?_⟩
          intro e f facing
          cases facing with
          | top => rfl
          | inside pair below => exact ((child pair).mp (children pair)).2 e f below
        · rintro ⟨⟨types, lengths, children⟩, apart⟩
          refine ⟨types, lengths, fun {c d} pair => (child pair).mpr ⟨?_, fun e f below => ?_⟩⟩
          · rcases children pair with equal | meets
            · exact equal
            · have never := apart c d (.inside pair (.top c d))
              rw [never] at meets
              cases meets
          · exact apart e f (.inside pair below)
      | _ =>
        refine leaf (.inr rfl) ?_
        rw [literalEquals_node_of_node?_eq_none rfl]
        rfl
    | _ => exact leaf (.inl rfl) rfl

-- ============================================================================
-- The laws of equality
-- ============================================================================

/-- Equality as patterns see it is an equivalence on values free of NaN. Two nodes are
    equal if and only if they have the same type and as many children, and their
    children are equal one by one or a boolean and the number that it stands for. So
    it is equality by structure exactly where no boolean stands against its number.
    What stands in the same place of equal values is of the same kind, a symbol, a
    string, a boolean or another value, unless it is a boolean and its number. -/
theorem literalEquals_structure {a b : Value} (real : a.nanFree = true) :
    (Equivalence fun v u : {v : Value // v.nanFree = true} => literalEquals v.1 u.1 = true) ∧
    (∀ m n : Node, a = m.toValue → b = n.toValue → (literalEquals a b = true ↔
      m.type = n.type ∧
        List.Forall₂ (fun c d => literalEquals c d = true ∨ boolMeetsNumber c d = true)
          m.children n.children)) ∧
    (alike a b = true ↔
      literalEquals a b = true ∧ ∀ c d, Facing a b c d → boolMeetsNumber c d = false) ∧
    (literalEquals a b = true → ∀ c d, Facing a b c d →
      c.patternKind = d.patternKind ∨ boolMeetsNumber c d = true) := by
  refine ⟨⟨fun v => literalEquals_self v.2, literalEquals_symm, literalEquals_trans⟩,
    ?_, alike_eq_true_iff real, fun equal c d facing => ?_⟩
  · rintro m n rfl rfl
    exact literalEquals_node_iff real
  · have top : samePart a b = true :=
      samePart_eq_true_iff.mpr (.inr (literalEquals_eq_true_iff.mp equal).2)
    rcases samePart_eq_true_iff.mp (facing.samePart top) with ⟨tag, rfl, rfl⟩ | same
    · exact .inl rfl
    · rcases same_eq_true_iff_literalEquals.mp same with equal | meets
      · exact .inl (literalEquals_eq_true_iff.mp equal).1
      · exact .inr meets

/-- The nodes `(int true)` and `(int 1)` are equal, though their children are not and
    the nodes are not equal by structure. -/
theorem literalEquals_structure_trueAgainstOne :
    let x : Node := Node.bare "int" [.bool true]
    let y : Node := Node.bare "int" [.int 1]
    x.toValue.nanFree = true ∧ boolMeetsNumber (.bool true) (.int 1) = true ∧
      literalEquals (.bool true) (.int 1) = false ∧ literalEquals x y = true ∧
      alike x y = false := by
  intro x y
  have real : x.toValue.nanFree = true := by decide
  obtain ⟨-, nodes, structural, -⟩ := literalEquals_structure (b := y.toValue) real
  have meets : boolMeetsNumber (.bool true) (.int 1) = true := by
    rw [boolMeetsNumber, numberOf, Exact.eq_ofInt]
    rfl
  have equal : literalEquals x y = true :=
    (nodes x y rfl rfl).mpr ⟨rfl, .cons (.inr meets) .nil⟩
  have apart : ¬ alike x y = true := by
    intro same
    have facing : Facing x y (.bool true) (.int 1) := .inside List.mem_cons_self (.top _ _)
    have never := (structural.mp same).2 _ _ facing
    rw [never] at meets
    cases meets
  exact ⟨real, meets, rfl, equal, Bool.eq_false_iff.mpr apart⟩

end RubyPattern.Value
