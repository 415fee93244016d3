/-
  RubyPattern.Proofs.NamedNodes

  Patterns for nodes that bear a name. The tree has a symbol among its children,
  behind an absent child or not, and a token that leaves open what stands behind
  the symbol. Whatever text the name is, the tree compiles, and the pattern
  applies just to the nodes of that type and name and captures what the token
  leaves open.
-/
import RubyPattern.Proofs.CanonicalCaptures
import RubyPattern.Proofs.DynamicPredicates

namespace RubyPattern

open RubyPattern.AbsentChild RubyPattern.Lexeme RubyPattern.Text

-- ============================================================================
-- Flat trees
-- ============================================================================

namespace Value

/-- A child spells an element: the scan for absent children makes its text one
    that does. The leaves are those that the scan looks for quotes in. -/
def SpellsChild (ls : List Value) (v : Value) (e : Element) : Prop :=
  ∃ text text' : String, v.render = .ok text ∧ MarksLeaves ls text.toList text'.toList ∧
    Spells text'.toList [e]

/-- Children spell an element each. -/
inductive SpellsChildren : List Value → List Value → List Element → Prop
  | nil : SpellsChildren [] [] []
  | cons {ls ls' vs : List Value} {v : Value} {e : Element} {es : List Element}
      (first : SpellsChild ls v e) (others : SpellsChildren ls' vs es) :
      SpellsChildren (ls ++ ls') (v :: vs) (e :: es)

theorem spellsChild_absent : SpellsChild [.nil] .nil (.predicate "nil?") := by
  obtain ⟨text', marked, marks⟩ := marksLeaves_literal (v := .nil) rfl
  cases marked
  exact ⟨"nil", "nil?", rfl, marks, spells_absent⟩

/-- A symbol of any name spells the test for it. -/
theorem spellsChild_symbol (name : String) :
    SpellsChild [.sym name] (.sym name) (.scalar (.symbol name)) := by
  obtain ⟨text', marked, marks⟩ := marksLeaves_literal (v := .sym name) rfl
  cases marked
  refine ⟨Literal.symbol name, Literal.symbol name, rfl, marks, ?_⟩
  rw [Literal.symbol, String.toList_ofList]
  exact spells_symbol name

theorem spellsChild_token {t : Token} {e : Element} (harmless : Harmless t.text.toList)
    (spelled : Spells t.text.toList [e]) : SpellsChild [] (.token t) e := by
  refine ⟨t.text, t.text, rfl, ⟨fun mem => absurd mem harmless.quote, ?_⟩, spelled⟩
  exact fun after delimited _ _ => harmless.marksTo.before delimited

theorem SpellsChildren.written {ls vs : List Value} {es : List Element}
    (h : SpellsChildren ls vs es) : ∃ texts texts' : List String, renderAll vs = .ok texts ∧
      MarksChildren ls ((texts.map String.toList).flatMap (' ' :: ·))
        ((texts'.map String.toList).flatMap (' ' :: ·)) ∧
      List.Forall₂ Spells (texts'.map String.toList) (es.map fun e => [e]) := by
  induction h with
  | nil => exact ⟨[], [], rfl, marksChildren_nil, .nil⟩
  | cons first _ ih =>
    obtain ⟨text, text', rendered, marks, spelled⟩ := first
    obtain ⟨texts, texts', others, marksAll, spelledAll⟩ := ih
    refine ⟨text :: texts, text' :: texts', ?_, .cons marks marksAll, .cons spelled spelledAll⟩
    rw [renderAll, rendered, others]
    rfl

/-- A flat tree compiles to the sequence of what its children spell, if no
    symbol named `$"` has a quote behind it. -/
theorem ofTree_of_spellsChildren {type : Label} {ls vs : List Value} {es : List Element}
    (word : isTypeName type.text.toList = true) (h : SpellsChildren ls vs es)
    (last : QuotesGlobalLast ls) (location : Option Location) {functions : Functions}
    (bound : ∀ name ∈ (Element.sequence (.nodeType type.text :: es)).calledNames,
      (functions.lookup name).isSome) :
    ∃ text, Compiled.ofTree (.node type vs location) functions =
      .ok ⟨text, .sequence (.nodeType type.text :: es), functions⟩ := by
  obtain ⟨texts, texts', rendered, marks, spelled⟩ := h.written
  obtain ⟨text, whole, parts⟩ := exists_render_node type location rendered
  have lowered : isLoweredType type.text = true := by
    rw [isLoweredType, word, Bool.true_or]
  have marked : (AbsentChild.mark text).toList = '(' :: (type.text.toList ++
      ((texts'.map String.toList).flatMap (' ' :: ·) ++ [')'])) := by
    have scanned := (marks.node lowered).marks [] delimited_nil last (by simp) none rfl
    rw [List.append_nil, markFrom, List.append_nil, ← parts] at scanned
    rw [AbsentChild.mark, String.toList_ofList, scanned]
  refine ⟨AbsentChild.mark text, ofTree_eq_ok_iff.mpr ⟨text, whole, ?_⟩⟩
  rw [Compiled.compile_eq_ok_iff]
  refine ⟨parse_of_spells ?_ rfl, rfl, rfl, bound⟩
  rw [marked]
  exact spells_plainSequence (spells_type word) spelled

end Value

-- ============================================================================
-- Tests in front of a last element
-- ============================================================================

namespace Element

variable {functions : Functions} {e : Element} {front es : List Element} {v : Value}

theorem Admissible.captures?_eq_some (he : e.Admissible) (nameFree : e.names = [])
    (answered : e.Answered functions) {captures : List Value}
    (derived : Canonical functions e v captures) :
    e.captures? functions v = .ok (some captures) := by
  unfold Element.captures?
  rw [he.reports nameFree answered v captures derived .empty]
  rfl

theorem Admissible.captures?_eq_none (he : e.Admissible) (nameFree : e.names = [])
    (answered : e.Answered functions) (refused : v ∉ e.meaning functions) :
    e.captures? functions v = .ok none := by
  obtain ⟨s, run⟩ := (he.decides nameFree answered v .empty).exists_false refused
  unfold Element.captures?
  rw [run]

/-- Values that pass tests one by one. -/
def Passed (functions : Functions) : List Element → List Value → Prop :=
  List.Forall₂ fun e v => v ∈ e.meaning functions

theorem exists_passed_of_cut (tests : ∀ e ∈ front, e.isTest = true) {items : List Value}
    (h : Cut functions (front ++ es) items) :
    ∃ vs others, items = vs ++ others ∧ Passed functions front vs ∧ Cut functions es others := by
  induction front generalizing items with
  | nil => exact ⟨[], items, rfl, .nil, h⟩
  | cons e front ih =>
    obtain ⟨test, tests⟩ := List.forall_mem_cons.mp tests
    obtain ⟨v, behind, rfl, here, cut⟩ := (cut_cons (isRest_eq_false_of_isTest test)).mp h
    obtain ⟨vs, others, rfl, passed, cut⟩ := ih tests cut
    exact ⟨v :: vs, others, rfl, .cons here passed, cut⟩

/-- Tests in front of a sequence take one item each and capture nothing. -/
theorem canonicalSegments_of_passed (tests : ∀ e ∈ front, e.isTest = true) {vs : List Value}
    (passed : Passed functions front vs) {segments : List (List Value)} {captures : List Value}
    (least : LeastCut functions es segments)
    (inner : CanonicalSegments functions es segments captures) :
    ∃ segments', segments'.flatten = vs ++ segments.flatten ∧
      LeastCut functions (front ++ es) segments' ∧
      CanonicalSegments functions (front ++ es) segments' captures := by
  induction passed with
  | nil => exact ⟨segments, rfl, least, inner⟩
  | @cons e v front vs here _ ih =>
    obtain ⟨test, tests⟩ := List.forall_mem_cons.mp tests
    obtain ⟨segments', flat, least, inner⟩ := ih tests
    refine ⟨[v] :: segments', ?_, ?_, .item (.test test here) inner⟩
    · rw [List.flatten_cons, flat]
      rfl
    · exact (leastCut_cons (isRest_eq_false_of_isTest test)).mpr ⟨v, segments', rfl, here, least⟩

/-- An element at the end of a sequence takes just the items of a family, and
    captures one value for each member. It has no names and calls nothing. -/
structure TakesLast (functions : Functions) (e : Element) {α : Type} (items : α → List Value)
    (captured : α → Value) : Prop where
  admissible : e.isRest = false → e.Admissible
  names : e.names = []
  called : e.calledNames = []
  count : e.captureCount = 1
  cut : ∀ others, Cut functions [e] others → ∃ a, others = items a
  derives : ∀ a, ∃ segments, segments.flatten = items a ∧ LeastCut functions [e] segments ∧
    CanonicalSegments functions [e] segments [captured a]

theorem takesLast_capture : TakesLast functions (.capture .wildcard) (fun x => [x]) id where
  admissible := fun _ => .capture _ .wildcard
  names := rfl
  called := rfl
  count := rfl
  cut := by
    intro others cut
    obtain ⟨x, behind, rfl, -, cut⟩ := (cut_cons rfl).mp cut
    exact ⟨x, by rw [cut_nil.mp cut]⟩
  derives := by
    intro x
    refine ⟨[[x]], rfl, (leastCut_cons rfl).mpr ⟨x, [], rfl, trivial, leastCut_nil.mpr rfl⟩, ?_⟩
    have first : Canonical functions (.capture .wildcard) x [x] := .capture (.test rfl trivial)
    exact .item first .nil

theorem takesLast_rest : TakesLast functions (.rest true) id .tuple where
  admissible := nofun
  names := rfl
  called := rfl
  count := rfl
  cut := fun others _ => ⟨others, rfl⟩
  derives := by
    intro items
    refine ⟨[items], by simp, ?_, .rest .nil⟩
    refine leastCut_rest.mpr ⟨leastCut_nil.mpr rfl, fun n short cut => ?_⟩
    have none := cut_nil.mp cut
    rw [List.flatten_nil, List.append_nil, List.drop_eq_nil_iff] at none
    omega

end Element

-- ============================================================================
-- Nodes with a name
-- ============================================================================

/-- The absent child, if there is one. -/
def Value.absentIf (scope : Bool) : List Value :=
  if scope then [.nil] else []

/-- A node of a type that bears a name: its first child is a symbol of the name,
    or else the absent child in front of one, and others stand behind it. -/
def Value.Bears (type : String) (scope : Bool) (name : String) (others : List Value)
    (u : Value) : Prop :=
  ∃ label symbol location, label.text = type ∧ symbol.symbol? = some name ∧
    u = .node label (absentIf scope ++ symbol :: others) location

/-- A pattern applies just to the values of some shape, and captures one part of
    each. -/
def Compiled.CapturesJust (p : Compiled) {α : Type} (shape : α → Value → Prop)
    (captured : α → Value) : Prop :=
  ∀ u, (∀ a, shape a u → p.captures? u = .ok (some [captured a])) ∧
    ((∀ a, ¬ shape a u) → p.captures? u = .ok none)

namespace Element

variable {functions : Functions}

/-- The tests for the children through the name. -/
def nameTests (scope : Bool) (name : String) : List Element :=
  (if scope then [.predicate "nil?"] else []) ++ [.scalar (.symbol name)]

/-- The pattern for nodes of a type that bear a name, with an element for what
    stands behind it. -/
def named (type : String) (scope : Bool) (name : String) (last : Element) : Element :=
  .sequence (.nodeType type :: (nameTests scope name ++ [last]))

theorem isTest_of_mem_nameTests {scope : Bool} {name : String} :
    ∀ e ∈ nameTests scope name, e.isTest = true := by
  cases scope <;> simp [nameTests, isTest]

theorem mem_meaning_symbol {name : String} {v : Value} :
    v ∈ (Element.scalar (.symbol name)).meaning functions ↔ v.symbol? = some name := by
  have itself : (Value.sym name).symbol? = some name := rfl
  show (Value.sym name).literalEquals v = true ↔ _
  unfold Value.literalEquals
  rw [itself]
  cases v.symbol? with
  | none => simp
  | some other => simpa using eq_comm

theorem passed_nameTests_iff {scope : Bool} {name : String} {vs : List Value} :
    Passed functions (nameTests scope name) vs ↔
      ∃ symbol, symbol.symbol? = some name ∧
        vs = Value.absentIf scope ++ [symbol] := by
  have absent : ∀ v, v ∈ (Element.predicate "nil?").meaning functions ↔ v = .nil := fun _ =>
    Value.mem_meaning_absent.trans Value.literalEquals_nil
  cases scope <;>
    simp [Passed, nameTests, Value.absentIf, List.forall₂_cons_left_iff, mem_meaning_symbol,
      absent]

section Named

variable {type : String} {scope : Bool} {name : String} {last : Element}

theorem names_named : (named type scope name last).names = last.names := by
  cases scope <;> simp [named, nameTests, names, walk, walkAll]

theorem calledNames_named : (named type scope name last).calledNames = last.calledNames := by
  cases scope <;> simp [named, nameTests, calledNames, walk, walkAll]

theorem captureCount_named : (named type scope name last).captureCount = last.captureCount := by
  cases scope <;> simp [named, nameTests, captureCount, captureCountAll]

theorem admissible_named (h : last.isRest = false → last.Admissible) :
    (named type scope name last).Admissible := by
  refine .sequence _ (by simp) (List.forall_mem_cons.mpr ⟨fun _ => .nodeType type, ?_⟩)
  rw [nameTests, List.append_assoc, List.forall_mem_append]
  refine ⟨?_, List.forall_mem_cons.mpr ⟨fun _ => .scalar _, by simpa using h⟩⟩
  cases scope with
  | false => simp
  | true => simpa using fun _ => .predicate "nil?" (by decide)

/-- A node that bears the name has a derivation that captures what the last
    element does. -/
theorem TakesLast.canonical_named {α : Type} {items : α → List Value} {captured : α → Value}
    (takes : TakesLast functions last items captured) {a : α} {u : Value}
    (bears : u.Bears type scope name (items a)) :
    Canonical functions (named type scope name last) u [captured a] := by
  obtain ⟨label, symbol, location, rfl, hsymbol, rfl⟩ := bears
  obtain ⟨segments, flat, least, inner⟩ := takes.derives a
  have passed : Passed functions (nameTests scope name) (Value.absentIf scope ++ [symbol]) :=
    passed_nameTests_iff.mpr ⟨symbol, hsymbol, rfl⟩
  obtain ⟨segments', flat', least, inner⟩ :=
    canonicalSegments_of_passed isTest_of_mem_nameTests passed least inner
  have head : Value.head label.text ∈ (Element.nodeType label.text).meaning functions := .inr rfl
  have whole : ([.head label.text] :: segments').flatten =
      .head label.text :: (Value.absentIf scope ++ symbol :: items a) := by
    rw [List.flatten_cons, flat', flat, List.append_assoc]
    rfl
  exact .sequence whole ((leastCut_cons rfl).mpr ⟨_, _, rfl, head, least⟩)
    (.item (.test rfl head) inner)

/-- The pattern accepts no others. -/
theorem TakesLast.exists_bears {α : Type} {items : α → List Value} {captured : α → Value}
    (takes : TakesLast functions last items captured) {u : Value}
    (accepted : u ∈ (named type scope name last).meaning functions) :
    ∃ a, u.Bears type scope name (items a) := by
  obtain ⟨label, children, location, rfl, same, cut⟩ := mem_meaning_sequence.mp accepted
  obtain ⟨vs, others, rfl, passed, behind⟩ := exists_passed_of_cut isTest_of_mem_nameTests cut
  obtain ⟨symbol, hsymbol, rfl⟩ := passed_nameTests_iff.mp passed
  obtain ⟨a, rfl⟩ := takes.cut others behind
  exact ⟨a, label, symbol, location, same, hsymbol, by rw [List.append_assoc]; rfl⟩

theorem TakesLast.capturesJust {α : Type} {items : α → List Value} {captured : α → Value}
    (takes : TakesLast functions last items captured) (pattern : String) :
    (⟨pattern, named type scope name last, functions⟩ : Compiled).CapturesJust
      (fun a => Value.Bears type scope name (items a)) captured := by
  have admissible : (named type scope name last).Admissible := admissible_named takes.admissible
  have nameFree : (named type scope name last).names = [] := names_named.trans takes.names
  have answered : (named type scope name last).Answered functions :=
    answered_of_calledNames (calledNames_named.trans takes.called)
  intro u
  constructor
  · intro a bears
    exact admissible.captures?_eq_some nameFree answered (takes.canonical_named bears)
  · intro other
    refine admissible.captures?_eq_none nameFree answered fun accepted => ?_
    obtain ⟨a, bears⟩ := takes.exists_bears accepted
    exact other a bears

end Named

end Element

-- ============================================================================
-- Trees for them
-- ============================================================================

namespace Builder

open RubyPattern.Element RubyPattern.Value

/-- The tree for nodes of a type that bear a name, with a token for what stands
    behind it. -/
def named (type : String) (scope : Bool) (name : String) (t : Token) : Node :=
  .bare type (absentIf scope ++ [.sym name, .token t])

/-- Whatever the name is, the tree compiles to a pattern with one capture for
    the nodes that bear the name. -/
theorem exists_ofTree_named {type : String} (word : isTypeName type.toList = true) (scope : Bool)
    (name : String) (t : Token) {last : Element} (harmless : Harmless t.text.toList)
    (spelled : Spells t.text.toList [last]) {functions : Functions} {α : Type}
    {items : α → List Value} {captured : α → Value}
    (takes : TakesLast functions last items captured) :
    ∃ p, Compiled.ofTree (named type scope name t).toValue functions = .ok p ∧
      p.captureCount = 1 ∧
      p.CapturesJust (fun a => Value.Bears type scope name (items a)) captured := by
  have behind : SpellsChildren ([.sym name] ++ ([] ++ [])) [.sym name, .token t]
      [.scalar (.symbol name), last] :=
    .cons (spellsChild_symbol name) (.cons (spellsChild_token harmless spelled) .nil)
  have children : SpellsChildren (absentIf scope ++ [.sym name])
      (absentIf scope ++ [.sym name, .token t]) (nameTests scope name ++ [last]) := by
    cases scope with
    | false => exact behind
    | true => exact .cons spellsChild_absent behind
  -- Only the name can have a quote in it, and no leaf stands behind the name.
  have quotes : QuotesGlobalLast (absentIf scope ++ [.sym name]) := by
    cases scope <;> simp [absentIf, QuotesGlobalLast, IsQuoteGlobal, symbol?]
  have bound : ∀ called ∈ (Element.named type scope name last).calledNames,
      (functions.lookup called).isSome := by
    simp [calledNames_named, takes.called]
  have plain : isTypeName (Label.plain type).text.toList = true := word
  obtain ⟨text, compiled⟩ := ofTree_of_spellsChildren plain children quotes none bound
  exact ⟨_, compiled, captureCount_named.trans takes.count, takes.capturesJust text⟩

theorem harmless_dots : Harmless "$...".toList :=
  ⟨by decide, by decide, by decide⟩

theorem spells_dots : Spells "$...".toList [.rest true] :=
  spells_of_tokenize rfl (by decide) (.single (.capturedRest rfl rfl))

/-- The pattern for calls without a receiver of a method of any name applies just
    to them, and captures the arguments. -/
theorem capturesJust_topLevelCall (name : String) (functions : Functions) :
    ∃ p, Compiled.ofTree (topLevelCall (.str name) [.token (.plain "$...")]).toValue functions =
        .ok p ∧ p.captureCount = 1 ∧
      p.CapturesJust (fun arguments => Value.Bears "send" true name arguments) .tuple := by
  have tree : topLevelCall (.str name) [.token (.plain "$...")] =
      named "send" true name (.plain "$...") := rfl
  rw [tree]
  exact exists_ofTree_named (by decide) true name (.plain "$...") harmless_dots spells_dots
    takesLast_rest

/-- So it does for the name that the scan for absent children could stumble at. -/
theorem capturesJust_topLevelCall_quoteGlobal :
    ∃ p, Compiled.ofTree (topLevelCall (.str "$\"") [.token (.plain "$...")]).toValue [] = .ok p ∧
      p.captures? (.node (.plain "send") [.nil, .sym "$\"", .int 1, .int 2] none) =
        .ok (some [.tuple [.int 1, .int 2]]) ∧
      p.captures? (.node (.plain "send") [.int 0, .sym "$\""] none) = .ok none := by
  obtain ⟨p, compiled, -, captures⟩ := capturesJust_topLevelCall "$\"" []
  refine ⟨p, compiled, ?_, ?_⟩
  · exact (captures _).1 [.int 1, .int 2] ⟨.plain "send", .sym "$\"", none, rfl, rfl, rfl⟩
  · refine (captures _).2 fun arguments => ?_
    rintro ⟨label, symbol, location, -, -, same⟩
    cases same

end Builder

end RubyPattern
