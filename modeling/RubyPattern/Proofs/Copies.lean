/-
  RubyPattern.Proofs.Copies

  The copies of a tree, and the pattern that recognizes just them: the text of
  the tree with each absent child written as a test for absence.
-/
import RubyPattern.Proofs.Equality
import RubyPattern.Proofs.Lowered
import RubyPattern.Proofs.Meaning
import RubyPattern.Proofs.Rendering

namespace RubyPattern

open RubyPattern.Number RubyPattern.Text

namespace Value

-- ============================================================================
-- Trees and their copies
-- ============================================================================

mutual

/-- Whether a value is the same tree: the same node types and numbers of
    children, and equal leaves. -/
def similar : Value → Value → Bool
  | .node type children _, u => match u with
    | .node other others _ => type.text == other.text && similarAll children others
    | _ => false
  | v, u => v.literalEquals u

/-- Whether two lists hold the same trees one by one. -/
def similarAll : List Value → List Value → Bool
  | [], [] => true
  | v :: vs, u :: us => similar v u && similarAll vs us
  | _, _ => false

end

mutual

/-- The tree with a test for the absent child in the place of each one. -/
def markAbsent : Value → Value
  | .nil => .token (.plain "nil?")
  | .node type children location => .node type (markAbsentAll children) location
  | v => v

/-- Each of the trees with its absent children replaced. -/
def markAbsentAll : List Value → List Value
  | [] => []
  | v :: vs => markAbsent v :: markAbsentAll vs

end

/-- A double that patterns can spell: it is finite, and what its text reads as
    equals it. -/
def ReadsBack (x : Float) : Prop :=
  (∃ negative mantissa exponent, Binary.ofFloat x = .finite negative mantissa exponent) ∧
    ∃ y, float? (Layout.literal.text x) = some y ∧ (Value.float y).literalEquals (.float x) = true

mutual

/-- The trees that patterns can spell: no `defined?`, and no other doubles than
    those that read back. -/
def Expressible : Value → Prop
  | .float x => ReadsBack x
  | .nan _ => False
  | .node type children _ => type.text ≠ "defined?" ∧ ExpressibleAll children
  | _ => True

/-- All of the trees can be spelled. -/
def ExpressibleAll : List Value → Prop
  | [] => True
  | v :: vs => Expressible v ∧ ExpressibleAll vs

end

end Value

-- ============================================================================
-- Patterns without captures, names and calls
-- ============================================================================

namespace Element

/-- The patterns that trees compile to. -/
inductive Plain : Element → Prop
  | scalar (value : Scalar) : Plain (.scalar value)
  | nodeType (name : String) : Plain (.nodeType name)
  | predicate (name : String) (known : (Builtin.ofName? name).isSome) : Plain (.predicate name)
  | sequence (es : List Element) (nonempty : es ≠ []) (inner : ∀ e ∈ es, Plain e) :
      Plain (.sequence es)

namespace Plain

variable {e : Element} {functions : Functions}

theorem isRest_eq_false (h : Plain e) : e.isRest = false := by
  cases h <;> rfl

theorem admissible (h : Plain e) : e.Admissible := by
  induction h with
  | scalar value => exact .scalar value
  | nodeType name => exact .nodeType name
  | predicate name known => exact .predicate name known
  | sequence es nonempty _ ih => exact .sequence es nonempty fun e he _ => ih e he

theorem of_mem_walk (h : Plain e) : ∀ d ∈ e.walk, Plain d := by
  induction h with
  | scalar value => simpa [walk] using Plain.scalar value
  | nodeType name => simpa [walk] using Plain.nodeType name
  | predicate name known => simpa [walk] using Plain.predicate name known
  | sequence es nonempty inner ih =>
    intro d hd
    rw [walk, List.mem_cons, mem_walkAll] at hd
    rcases hd with rfl | ⟨e, he, hd⟩
    · exact .sequence es nonempty inner
    · exact ih e he d hd

theorem names_eq_nil (h : Plain e) : e.names = [] := by
  rw [List.eq_nil_iff_forall_not_mem]
  intro name mem
  cases h.of_mem_walk _ (mem_names.mp mem)

theorem calledNames_eq_nil (h : Plain e) : e.calledNames = [] := by
  rw [List.eq_nil_iff_forall_not_mem]
  intro name mem
  obtain ⟨arguments, call⟩ := mem_calledNames.mp mem
  cases h.of_mem_walk _ call

theorem answered (h : Plain e) : e.Answered functions :=
  answered_of_calledNames h.calledNames_eq_nil

theorem captureCountAll_eq_zero {es : List Element} (h : ∀ e ∈ es, e.captureCount = 0) :
    captureCountAll es = 0 := by
  induction es with
  | nil => rfl
  | cons e es ih => rw [captureCountAll, h e (by simp), ih fun d hd => h d (by simp [hd])]

theorem captureCount_eq_zero (h : Plain e) : e.captureCount = 0 := by
  induction h with
  | scalar => rfl
  | nodeType => rfl
  | predicate => rfl
  | sequence es _ _ ih => exact captureCountAll_eq_zero ih

theorem attemptSequence_state {es : List Element} (plain : ∀ e ∈ es, Plain e)
    (hes : ∀ e ∈ es, ∀ v s answer t, attempt functions e v s = .ok (answer, t) → t = s)
    {items : List Value} {s t : MatchState} {answer : Bool}
    (run : attemptSequence functions es items s = .ok (answer, t)) : t = s := by
  induction es generalizing items s t answer with
  | nil =>
    cases run
    rfl
  | cons e es ih =>
    have single := (plain e (by simp)).isRest_eq_false
    cases items with
    | nil =>
      rw [attemptSequence_nil single] at run
      cases run
      rfl
    | cons item items =>
      rw [attemptSequence_cons single] at run
      split at run
      next => cases run
      next =>
        cases run
        rfl
      next u first =>
        obtain rfl := hes e (by simp) _ _ _ _ first
        split at run
        next => cases run
        next others =>
          cases run
          exact ih (fun d hd => plain d (by simp [hd])) (fun d hd => hes d (by simp [hd])) others
        next =>
          cases run
          rfl

/-- Matching them leaves no trace. -/
theorem attempt_state (h : Plain e) {v : Value} {s t : MatchState} {answer : Bool}
    (run : attempt functions e v s = .ok (answer, t)) : t = s := by
  induction h generalizing v s t answer with
  | scalar value =>
    cases run
    rfl
  | nodeType name =>
    cases run
    rfl
  | predicate name known =>
    obtain ⟨test, htest⟩ := Option.isSome_iff_exists.mp known
    simp only [attempt, htest] at run
    cases run
    rfl
  | sequence es _ inner ih =>
    cases v with
    | node type children location =>
      rw [attempt] at run
      exact attemptSequence_state inner (fun e he v s answer t => ih e he) run
    | _ =>
      cases run
      rfl

/-- A match answers true on the meaning of the pattern, and nothing elsewhere. -/
theorem matchValue (h : Plain e) (pattern : String) (v : Value) :
    ∃ answer : Bool, (⟨pattern, e, functions⟩ : Compiled).matchValue v =
      .ok (if answer then .bool true else .nil) ∧ (answer = true ↔ v ∈ e.meaning functions) := by
  obtain ⟨answer, s, run, hiff⟩ := h.admissible.decides h.names_eq_nil h.answered v .empty
  refine ⟨answer, ?_, hiff⟩
  obtain rfl := h.attempt_state run
  unfold Compiled.matchValue Compiled.captures? Element.captures?
  simp only [run]
  cases answer <;> rfl

end Plain

end Element

-- ============================================================================
-- The pattern of a tree with its absent children marked
-- ============================================================================

section Own

variable {functions : Functions}

theorem Element.mem_meaning_sequence {type : String} {es : List Element} {v : Value} :
    v ∈ (Element.sequence (.nodeType type :: es)).meaning functions ↔
      ∃ label children location, v = .node label children location ∧ label.text = type ∧
        Cut functions es children := by
  have cuts : v ∈ (Element.sequence (.nodeType type :: es)).meaning functions ↔
      ∃ label children location, v = .node label children location ∧
        Cut functions (.nodeType type :: es) (.head label.text :: children) := by
    constructor
    · rintro ⟨label, children, location, segments, rfl, flat, fit⟩
      exact ⟨label, children, location, rfl, segments, flat, fit⟩
    · rintro ⟨label, children, location, rfl, segments, flat, fit⟩
      exact ⟨label, children, location, segments, rfl, flat, fit⟩
  rw [cuts]
  constructor
  · rintro ⟨label, children, location, rfl, cut⟩
    obtain ⟨_, _, ⟨⟩, head, rest⟩ := (cut_cons rfl).mp cut
    refine ⟨label, children, location, rfl, ?_, rest⟩
    rcases head with ⟨_, _, ⟨⟩⟩ | same
    cases same
    rfl
  · rintro ⟨label, children, location, rfl, rfl, rest⟩
    exact ⟨label, children, location, rfl, (cut_cons rfl).mpr ⟨_, _, rfl, .inr rfl, rest⟩⟩

namespace Value

open RubyPattern.Element RubyPattern.Lexeme

theorem literalEquals_nil {v : Value} : Value.nil.literalEquals v = true ↔ v = .nil := by
  cases v <;> simp [literalEquals, symbol?, same, sameLeaf, number?]

theorem spells_absent : Spells "nil?".toList [.predicate "nil?"] :=
  spells_of_tokenize rfl (by decide) (.single (.predicate rfl (by decide)))

/-- A bracketed list of single elements. -/
theorem spells_plainSequence {head : List Char} {e : Element} (first : Spells head [e])
    {parts : List (List Char)} {es : List Element}
    (spelled : List.Forall₂ Spells parts (es.map fun e => [e])) :
    Spells ('(' :: (head ++ (parts.flatMap (' ' :: ·) ++ [')']))) [.sequence (e :: es)] := by
  have whole := spells_sequence first spelled
  have flat : (es.map fun e => [e]).flatten = es := by
    rw [← List.flatMap_def, List.flatMap_singleton']
  rwa [flat, List.cons_append, List.cons_append, List.append_assoc] at whole

theorem mem_meaning_absent {v : Value} :
    v ∈ (Element.predicate "nil?").meaning functions ↔ Value.nil.similar v = true := by
  have known : Builtin.ofName? "nil?" = some .absent := rfl
  have leaf : Value.nil.similar v = Value.nil.literalEquals v := rfl
  rw [leaf, literalEquals_nil]
  simp [meaning, known, Builtin.truthSet]

mutual

/-- The text of a tree with its absent children replaced spells one plain
    element, and this element means the copies of the tree. -/
theorem spells_markAbsent {v : Value} (lowered : v.Lowered) (expressible : v.Expressible) :
    ∃ text e, v.markAbsent.render = .ok text ∧ Spells text.toList [e] ∧ e.Plain ∧
      ∀ u, u ∈ e.meaning functions ↔ v.similar u = true := by
  cases v with
  | nil =>
    exact ⟨"nil?", _, rfl, spells_absent, .predicate _ (by decide), fun u => mem_meaning_absent⟩
  | str s =>
    refine ⟨Literal.string s, _, rfl, ?_, .scalar (.string s), fun u => Iff.rfl⟩
    rw [Literal.string, String.toList_ofList]
    exact spells_string s
  | sym name =>
    refine ⟨Literal.symbol name, _, rfl, ?_, .scalar (.symbol name), fun u => Iff.rfl⟩
    rw [Literal.symbol, String.toList_ofList]
    exact spells_symbol name
  | int n => exact ⟨integerText n, _, rfl, spells_integer n, .scalar _, fun u => Iff.rfl⟩
  | float x =>
    obtain ⟨⟨_, _, _, finite⟩, y, read, equal⟩ := expressible
    refine ⟨Layout.literal.text x, _, rfl, spells_real finite read, .scalar _, fun u => ?_⟩
    exact ⟨literalEquals_trans (literalEquals_symm equal), literalEquals_trans equal⟩
  | nan tag => exact expressible.elim
  | node type children location =>
    have word : isTypeName type.text.toList = true := by
      have htype := lowered.1
      rw [isLoweredType, Bool.or_eq_true, beq_iff_eq] at htype
      exact htype.resolve_right expressible.1
    obtain ⟨texts, es, rendered, spelled, plain, cuts⟩ :=
      spells_markAbsentAll lowered.2 expressible.2
    obtain ⟨text, whole, parts⟩ := exists_render_node type location rendered
    refine ⟨text, .sequence (.nodeType type.text :: es), whole, ?_, .sequence _ (by simp) ?_,
      fun u => ?_⟩
    · rw [parts]
      exact spells_plainSequence (spells_type word) spelled
    · exact List.forall_mem_cons.mpr ⟨.nodeType _, plain⟩
    · rw [mem_meaning_sequence]
      cases u with
      | node other others place =>
        rw [similar, Bool.and_eq_true, beq_iff_eq, ← cuts]
        constructor
        · rintro ⟨_, _, _, ⟨⟩, same, cut⟩
          exact ⟨same.symm, cut⟩
        · rintro ⟨same, cut⟩
          exact ⟨other, others, place, rfl, same.symm, cut⟩
      | _ => simp [similar]
  | _ => exact lowered.elim

theorem spells_markAbsentAll {vs : List Value} (lowered : LoweredAll vs)
    (expressible : ExpressibleAll vs) : ∃ texts es, renderAll (markAbsentAll vs) = .ok texts ∧
      List.Forall₂ Spells (texts.map String.toList) (es.map fun e => [e]) ∧
        (∀ e ∈ es, e.Plain) ∧ ∀ us, Cut functions es us ↔ similarAll vs us = true := by
  cases vs with
  | nil =>
    refine ⟨[], [], rfl, .nil, by simp, fun us => ?_⟩
    rw [cut_nil]
    cases us <;> simp [similarAll]
  | cons v vs =>
    obtain ⟨text, e, rendered, spelled, plain, means⟩ :=
      spells_markAbsent lowered.1 expressible.1
    obtain ⟨texts, es, others, spelledAll, plainAll, cuts⟩ :=
      spells_markAbsentAll lowered.2 expressible.2
    refine ⟨text :: texts, e :: es, ?_, .cons spelled spelledAll,
      List.forall_mem_cons.mpr ⟨plain, plainAll⟩, fun us => ?_⟩
    · rw [markAbsentAll, renderAll, rendered, others]
      rfl
    rw [cut_cons plain.isRest_eq_false]
    cases us with
    | nil => simp [similarAll]
    | cons u us =>
      rw [similarAll, Bool.and_eq_true, ← means, ← cuts]
      constructor
      · rintro ⟨_, _, ⟨⟩, here, rest⟩
        exact ⟨here, rest⟩
      · rintro ⟨here, rest⟩
        exact ⟨u, us, rfl, here, rest⟩

end

mutual

/-- A tree that can be spelled is a copy of itself. -/
theorem similar_self {v : Value} (lowered : v.Lowered) (expressible : v.Expressible) :
    v.similar v = true := by
  cases v with
  | nil => exact literalEquals_self (v := .nil) rfl
  | str s => exact literalEquals_self (v := .str s) rfl
  | sym name => exact literalEquals_self (v := .sym name) rfl
  | int n => exact literalEquals_self (v := .int n) rfl
  | float x =>
    obtain ⟨⟨_, _, _, finite⟩, -⟩ := expressible
    exact literalEquals_self (v := .float x) (by simp [nanFree, finite])
  | nan tag => exact expressible.elim
  | node type children location =>
    simp [similar, similarAll_self lowered.2 expressible.2]
  | _ => exact lowered.elim

theorem similarAll_self {vs : List Value} (lowered : LoweredAll vs)
    (expressible : ExpressibleAll vs) : similarAll vs vs = true := by
  cases vs with
  | nil => rfl
  | cons v vs =>
    rw [similarAll, similar_self lowered.1 expressible.1,
      similarAll_self lowered.2 expressible.2]
    rfl

end

end Value

end Own

end RubyPattern
