/-
  RubyPattern.Proofs.Rendering

  A rendered tree parses to the pattern that can be read off the tree: a
  sequence for each node, the value itself for each leaf, the type `nil` for an
  absent child, and the elements of its text for a token. This holds for every
  string and every symbol name, and for all tokens that stand on their own.
-/
import RubyPattern.Proofs.Numerals
import RubyPattern.Tree.Render

namespace RubyPattern

open RubyPattern.Number RubyPattern.Lexeme

-- ============================================================================
-- The pattern of a tree
-- ============================================================================

/-- The elements that the text of a token reads as, on its own. -/
def Label.elements? (t : Label) : Option (List Element) :=
  match tokenize t.text with
  | .error _ => none
  | .ok ls => (Grammar.elements t.text.length ls).toOption

theorem Label.elements?_eq_some {t : Label} {es : List Element} :
    t.elements? = some es ↔ ∃ ls, tokenize t.text = .ok ls ∧ Grammar.ReadsItems ls es := by
  unfold elements?
  cases tokenize t.text with
  | error fault => simp
  | ok ls =>
    cases items : Grammar.elements t.text.length ls <;>
      simp [← Grammar.elements_eq_ok_iff t.text.length, items, Except.toOption]

namespace Value

mutual

/-- The elements that stand in a pattern for a value of a tree. -/
def elements : Value → List Element
  | .nil => [.nodeType "nil"]
  | .str s => [.scalar (.string s)]
  | .sym name => [.scalar (.symbol name)]
  | .int n => [.scalar (.integer n)]
  | .float x => [.scalar (.real x)]
  | .token t => t.elements?.getD []
  | .node type children _ => [.sequence (.nodeType type.text :: elementsOf children)]
  | _ => []

/-- The elements of each child in turn. -/
def elementsOf : List Value → List Element
  | [] => []
  | v :: vs => elements v ++ elementsOf vs

end

mutual

/-- The trees whose text reads back: node types are plain words, floats are
    finite and read back themselves, and tokens are whole elements without a
    comment. -/
def Writable : Value → Prop
  | .nil => True
  | .str _ => True
  | .sym _ => True
  | .int _ => True
  | .float x => (∃ negative mantissa exponent,
      Binary.ofFloat x = .finite negative mantissa exponent) ∧
        float? (Layout.literal.text x) = some x
  | .token t => t.elements?.isSome ∧ commentFree 0 t.text.toList = true
  | .node type children _ => isTypeName type.text.toList = true ∧ WritableAll children
  | _ => False

/-- All of the values are such trees. -/
def WritableAll : List Value → Prop
  | [] => True
  | v :: vs => Writable v ∧ WritableAll vs

end

-- ============================================================================
-- Rendered texts
-- ============================================================================

theorem spells_token {t : Token} (read : t.elements?.isSome)
    (free : commentFree 0 t.text.toList = true) :
    Spells t.text.toList (t.elements?.getD []) := by
  obtain ⟨es, found⟩ := Option.isSome_iff_exists.mp read
  obtain ⟨ls, tokens, items⟩ := Label.elements?_eq_some.mp found
  rw [found, Option.getD_some]
  exact spells_of_tokenize tokens free items

theorem toList_intercalate_space (first : String) (others : List String) :
    (" ".intercalate (first :: others)).toList =
      first.toList ++ (others.map String.toList).flatMap (' ' :: ·) := by
  induction others generalizing first with
  | nil => simp
  | cons second others ih =>
    rw [String.intercalate_cons_cons, String.toList_append, String.toList_append, ih]
    simp

/-- The text of a node, part by part. -/
theorem render_node_eq_ok_iff {type : Label} {children : List Value}
    {location : Option Location} {text : String} :
    (Value.node type children location).render = .ok text ↔ ∃ texts,
      renderAll children = .ok texts ∧ text.toList = '(' ::
        (type.text.toList ++ ((texts.map String.toList).flatMap (' ' :: ·) ++ [')'])) := by
  have parts : ∀ texts : List String,
      ("(" ++ " ".intercalate (type.text :: texts) ++ ")").toList = '(' ::
        (type.text.toList ++ ((texts.map String.toList).flatMap (' ' :: ·) ++ [')'])) := by
    intro texts
    rw [String.toList_append, String.toList_append, toList_intercalate_space]
    simp
  rw [render]
  cases renderAll children with
  | error fault => simp [bind, Except.bind]
  | ok texts =>
    simp only [bind, Except.bind, pure, Except.pure, Except.ok.injEq, exists_eq_left']
    rw [← parts texts, String.toList_inj, eq_comm]

theorem exists_render_node (type : Label) {children : List Value} (location : Option Location)
    {texts : List String} (rendered : renderAll children = .ok texts) :
    ∃ text, (Value.node type children location).render = .ok text ∧ text.toList = '(' ::
      (type.text.toList ++ ((texts.map String.toList).flatMap (' ' :: ·) ++ [')'])) :=
  ⟨String.ofList _, render_node_eq_ok_iff.mpr ⟨texts, rendered, String.toList_ofList⟩,
    String.toList_ofList⟩

mutual

/-- The text of a tree spells the elements of the tree. -/
theorem spells_render {v : Value} (h : v.Writable) :
    ∃ text, v.render = .ok text ∧ Spells text.toList v.elements := by
  cases v with
  | nil => exact ⟨"nil", rfl, spells_type (by decide)⟩
  | str s =>
    refine ⟨Literal.string s, rfl, ?_⟩
    rw [Literal.string, String.toList_ofList]
    exact spells_string s
  | sym name =>
    refine ⟨Literal.symbol name, rfl, ?_⟩
    rw [Literal.symbol, String.toList_ofList]
    exact spells_symbol name
  | int n => exact ⟨integerText n, rfl, spells_integer n⟩
  | float x =>
    obtain ⟨⟨_, _, _, finite⟩, read⟩ := h
    exact ⟨Layout.literal.text x, rfl, spells_real finite read⟩
  | token t => exact ⟨t.text, rfl, spells_token h.1 h.2⟩
  | node type children location =>
    obtain ⟨texts, ess, rendered, spelled, flat⟩ := spells_renderAll h.2
    obtain ⟨text, rendered', parts⟩ := exists_render_node type location rendered
    refine ⟨text, rendered', ?_⟩
    rw [parts, elements, ← flat]
    simpa using spells_sequence (spells_type h.1) spelled
  | _ => exact h.elim

theorem spells_renderAll {vs : List Value} (h : WritableAll vs) :
    ∃ texts ess, renderAll vs = .ok texts ∧
      List.Forall₂ Spells (texts.map String.toList) ess ∧ ess.flatten = elementsOf vs := by
  cases vs with
  | nil => exact ⟨[], [], rfl, .nil, rfl⟩
  | cons v vs =>
    obtain ⟨text, rendered, spelled⟩ := spells_render h.1
    obtain ⟨texts, ess, others, spelledAll, flat⟩ := spells_renderAll h.2
    refine ⟨text :: texts, v.elements :: ess, ?_, .cons spelled spelledAll, ?_⟩
    · simp [renderAll, rendered, others, bind, Except.bind, pure, Except.pure]
    · rw [List.flatten_cons, flat, elementsOf]

end

/-- The text of a node parses to the sequence of its type and the elements of
    its children. -/
theorem parse_render {type : Label} {children : List Value} {location : Option Location}
    (h : (Value.node type children location).Writable) :
    ∃ text, (Value.node type children location).render = .ok text ∧
      Grammar.parse text = .ok (.sequence (.nodeType type.text :: elementsOf children)) := by
  obtain ⟨text, rendered, spelled⟩ := spells_render h
  exact ⟨text, rendered, parse_of_spells spelled rfl⟩

/-- A call with an absent receiver, a symbol that needs quotes, a string with a
    quote in it, a number and a token of two lexemes. -/
def callWithToken : List Value :=
  [.nil, .sym "a b", .node (.plain "str") [.str "say \"#\""] none, .int (-3),
    .token (.plain "$...")]

theorem parse_render_callWithToken :
    (Value.node (.plain "send") callWithToken none).Writable ∧
    ∃ text, (Value.node (.plain "send") callWithToken none).render = .ok text ∧
      Grammar.parse text = .ok (.sequence (.nodeType "send" :: elementsOf callWithToken)) := by
  have rest : (Label.plain "$...").elements? = some [.rest true] :=
    Label.elements?_eq_some.mpr ⟨_, rfl, .single (.capturedRest rfl rfl)⟩
  have writable : (Value.node (.plain "send") callWithToken none).Writable := by
    refine ⟨by decide, trivial, trivial, ⟨by decide, trivial, trivial⟩, trivial, ⟨?_, ?_⟩, trivial⟩
    · rw [rest]
      rfl
    · decide
  exact ⟨writable, parse_render writable⟩

end Value

end RubyPattern
