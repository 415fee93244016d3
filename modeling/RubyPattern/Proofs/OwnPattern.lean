/-
  RubyPattern.Proofs.OwnPattern

  The pattern that a parsed tree compiles to. It recognizes the copies of the
  tree and no other values, unless the tree holds something that patterns cannot
  spell: a `defined?`, a double that is not finite, or texts in which the scan
  for absent children loses its place.
-/
import RubyPattern.Proofs.AbsentMarks
import RubyPattern.Proofs.ParsedTrees

namespace RubyPattern

open RubyPattern.Number RubyPattern.Text

namespace Value

open RubyPattern.AbsentChild RubyPattern.Lexeme

-- ============================================================================
-- Trees in which the scan keeps its place
-- ============================================================================

/-- The scan for absent children finds those of this tree and nothing else. -/
def MarksAbsent (v : Value) : Prop :=
  ∃ text, v.render = .ok text ∧ v.markAbsent.render = .ok (AbsentChild.mark text)

mutual

/-- No symbol in the tree is the name of the global `$"`. -/
def NoQuoteGlobal : Value → Prop
  | .sym name => name ≠ "$\""
  | .node _ children _ => NoQuoteGlobalAll children
  | _ => True

/-- None is in any of the trees. -/
def NoQuoteGlobalAll : List Value → Prop
  | [] => True
  | v :: vs => NoQuoteGlobal v ∧ NoQuoteGlobalAll vs

end

mutual

/-- Parsed trees have no tokens. -/
theorem Lowered.tokenless {v : Value} (h : v.Lowered) : v.Tokenless := by
  cases v with
  | node type children location => exact ⟨h.1, h.2.tokenlessAll⟩
  | bool | head | token | tuple | list | set | criterion => exact h.elim
  | _ => rfl

theorem LoweredAll.tokenlessAll {vs : List Value} (h : LoweredAll vs) : TokenlessAll vs := by
  cases vs with
  | nil => trivial
  | cons v vs => exact ⟨h.1.tokenless, h.2.tokenlessAll⟩

end

mutual

theorem Lowered.not_isQuoteGlobal {v : Value} (h : v.Lowered) (free : v.NoQuoteGlobal) :
    ∀ l ∈ v.leaves, ¬ l.IsQuoteGlobal := by
  cases v with
  | node type children location => exact h.2.not_isQuoteGlobal free
  | sym name =>
    simp only [leaves, List.mem_singleton, forall_eq]
    exact fun same => free (Option.some.inj same)
  | bool | head | token | tuple | list | set | criterion => exact h.elim
  | _ => simp [leaves, IsQuoteGlobal, symbol?]

theorem LoweredAll.not_isQuoteGlobal {vs : List Value} (h : LoweredAll vs)
    (free : NoQuoteGlobalAll vs) : ∀ l ∈ leavesOf vs, ¬ l.IsQuoteGlobal := by
  cases vs with
  | nil => simp [leavesOf]
  | cons v vs =>
    rw [leavesOf, List.forall_mem_append]
    exact ⟨h.1.not_isQuoteGlobal free.1, h.2.not_isQuoteGlobal free.2⟩

end

/-- Without a symbol named `$"` the scan finds the absent children. -/
theorem marksAbsent_of_noQuoteGlobal {v : Value} (lowered : v.Lowered)
    (free : v.NoQuoteGlobal) : v.MarksAbsent := by
  refine render_markAbsent lowered.tokenless ?_
  refine List.pairwise_of_forall_mem_list fun l hl _ _ global => ?_
  exact absurd global (lowered.not_isQuoteGlobal free l hl)

-- ============================================================================
-- The own pattern of a tree
-- ============================================================================

/-- A tree compiles to a pattern without captures. Matching answers true for
    the copies of the tree, itself among them, and nothing for other values. -/
def RecognizesItself (v : Value) (functions : Functions) : Prop :=
  ∃ p, Compiled.ofTree v functions = .ok p ∧ p.captureCount = 0 ∧
    (∀ u, p.matchValue u = .ok (if v.similar u then .bool true else .nil)) ∧
    p.matchValue v = .ok (.bool true)

variable {functions : Functions}

theorem ofTree_eq_ok_iff {v : Value} {p : Compiled} :
    Compiled.ofTree v functions = .ok p ↔ ∃ text, v.render = .ok text ∧
      Compiled.compile (AbsentChild.mark text) functions = .ok p := by
  unfold Compiled.ofTree
  cases v.render <;> simp [bind, Except.bind]

theorem recognizesItself_of_marksAbsent {v : Value} (lowered : v.Lowered)
    (expressible : v.Expressible) (marks : v.MarksAbsent) : RecognizesItself v functions := by
  obtain ⟨text, rendered, marked⟩ := marks
  obtain ⟨text', e, rendered', spelled, plain, means⟩ := spells_markAbsent lowered expressible
  rw [marked] at rendered'
  cases rendered'
  have parsed := parse_of_spells spelled plain.isRest_eq_false
  have bound : ∀ name ∈ e.calledNames, (functions.lookup name).isSome := by
    simp [plain.calledNames_eq_nil]
  have answers : ∀ u, (⟨AbsentChild.mark text, e, functions⟩ : Compiled).matchValue u =
      .ok (if v.similar u then .bool true else .nil) := by
    intro u
    obtain ⟨answer, run, hiff⟩ := plain.matchValue (AbsentChild.mark text) u
    rw [means] at hiff
    rw [run, Bool.eq_iff_iff.mpr hiff]
  refine ⟨⟨AbsentChild.mark text, e, functions⟩, ?_, plain.captureCount_eq_zero, answers, ?_⟩
  · rw [ofTree_eq_ok_iff]
    exact ⟨text, rendered, Compiled.compile_eq_ok_iff.mpr ⟨parsed, rfl, rfl, bound⟩⟩
  · rw [answers, similar_self lowered expressible]
    rfl

theorem marksAbsent_of_recognizesItself {v : Value} (lowered : v.Lowered)
    (recognizes : RecognizesItself v functions) :
    v.Expressible ∧ v.MarksAbsent := by
  obtain ⟨p, compiled, -, -, itself⟩ := recognizes
  obtain ⟨text, rendered, compiled⟩ := ofTree_eq_ok_iff.mp compiled
  obtain ⟨parsed, hpattern, table, -⟩ := Compiled.compile_eq_ok_iff.mp compiled
  have marked : AbsentChild.Marked none text.toList (AbsentChild.mark text).toList := by
    rw [AbsentChild.mark, String.toList_ofList]
    exact marked_markFrom 0 none text.toList
  rcases outcome_of_marked lowered rendered marked with refused | ⟨e, spelled, plain, accepts⟩
  · have whole := refused [] delimited_nil
    rw [List.append_nil] at whole
    exact absurd parsed (whole.parse_ne_ok _)
  · have same := parse_of_spells spelled plain.isRest_eq_false
    rw [parsed] at same
    cases same
    obtain ⟨answer, run, hiff⟩ := plain.matchValue p.pattern v
    rw [itself] at run
    have accepted : answer = true := by
      cases answer with
      | true => rfl
      | false => cases run
    obtain ⟨expressible, marks⟩ := accepts p.functions (hiff.mp accepted)
    rw [String.ofList_toList] at marks
    exact ⟨expressible, text, rendered, marks⟩

end Value

/-- A parsed tree compiles to a pattern that recognizes just the copies of the
    tree if and only if it holds no `defined?` and no double that does not read
    back, and the scan for absent children finds those of the tree; and the
    scan does find them unless a symbol of the tree is named `$"`. -/
theorem Ruby.Parser.recognizesItself_iff {p : Ruby.Parser} {source : String} {tree : Node}
    (parsed : p.parse source = .ok tree) (functions : Functions) :
    (tree.toValue.RecognizesItself functions ↔
      tree.toValue.Expressible ∧ tree.toValue.MarksAbsent) ∧
    (tree.toValue.NoQuoteGlobal → tree.toValue.MarksAbsent) := by
  have lowered : tree.toValue.Lowered := lowered_of_parse parsed
  refine ⟨⟨Value.marksAbsent_of_recognizesItself lowered, ?_⟩,
    Value.marksAbsent_of_noQuoteGlobal lowered⟩
  rintro ⟨expressible, marks⟩
  exact Value.recognizesItself_of_marksAbsent lowered expressible marks

/-- The source `a`, a call without a receiver. -/
def bareCall : Ruby.Cst :=
  .mk ⟨.other "program", 0, 1, none, true, false, false⟩
    [.mk ⟨.identifier, 0, 1, none, true, false, false⟩ []]

theorem recognizesItself_bareCall :
    ∃ tree, (Ruby.Parser.ofGrammar fun _ => some bareCall).parse "a" = .ok tree ∧
      ∀ functions, tree.toValue.RecognizesItself functions := by
  have parsed : (Ruby.Parser.ofGrammar fun _ => some bareCall).parse "a" =
      .ok ⟨.plain "send", [.nil, .sym "a"], some ⟨0, 1, 1, 0, 1, 1, "a"⟩⟩ := rfl
  refine ⟨_, parsed, fun functions => ?_⟩
  obtain ⟨recognizes, scans⟩ := Ruby.Parser.recognizesItself_iff parsed functions
  have other : "a" ≠ "$\"" := by decide
  exact recognizes.mpr ⟨⟨by decide, trivial, trivial, trivial⟩, scans ⟨trivial, other, trivial⟩⟩

/-- The source `defined? a`. -/
def definedTest : Ruby.Cst :=
  .mk ⟨.other "program", 0, 10, none, true, false, false⟩
    [.mk ⟨.unary, 0, 10, none, true, false, false⟩
      [.mk ⟨.other "defined?", 0, 8, some "operator", false, false, false⟩ [],
       .mk ⟨.identifier, 9, 10, some "operand", true, false, false⟩ []]]

theorem not_recognizesItself_definedTest :
    ∃ tree, (Ruby.Parser.ofGrammar fun _ => some definedTest).parse "defined? a" = .ok tree ∧
      ∀ functions, ¬ tree.toValue.RecognizesItself functions := by
  have parsed : ∃ tree, (Ruby.Parser.ofGrammar fun _ => some definedTest).parse
      "defined? a" = .ok tree ∧ tree.type.text = "defined?" := ⟨_, rfl, rfl⟩
  obtain ⟨tree, parsed, type⟩ := parsed
  refine ⟨tree, parsed, fun functions recognizes => ?_⟩
  obtain ⟨expressible, -⟩ :=
    Value.marksAbsent_of_recognizesItself (Ruby.Parser.lowered_of_parse parsed) recognizes
  exact expressible.1 type

/-- The source `[$", a, $"]`. The scan takes what stands between the two names
    for a string, with the absent receiver of `a` in it. -/
def quoteGlobals : Ruby.Cst :=
  .mk ⟨.other "program", 0, 11, none, true, false, false⟩
    [.mk ⟨.array, 0, 11, none, true, false, false⟩
      [.mk ⟨.globalVariable, 1, 3, none, true, false, false⟩ [],
       .mk ⟨.identifier, 5, 6, none, true, false, false⟩ [],
       .mk ⟨.globalVariable, 8, 10, none, true, false, false⟩ []]]

theorem not_recognizesItself_quoteGlobals :
    ∃ tree, (Ruby.Parser.ofGrammar fun _ => some quoteGlobals).parse "[$\", a, $\"]" = .ok tree ∧
      ∀ functions, ¬ tree.toValue.RecognizesItself functions := by
  have parsed : ∃ tree, (Ruby.Parser.ofGrammar fun _ => some quoteGlobals).parse
      "[$\", a, $\"]" = .ok tree ∧
        (tree.toValue.markAbsent.render.toOption ==
          tree.toValue.render.toOption.map AbsentChild.mark) = false :=
    ⟨_, rfl, by decide +kernel⟩
  obtain ⟨tree, parsed, differ⟩ := parsed
  refine ⟨tree, parsed, fun functions recognizes => ?_⟩
  obtain ⟨-, text, rendered, marked⟩ :=
    Value.marksAbsent_of_recognizesItself (Ruby.Parser.lowered_of_parse parsed) recognizes
  rw [rendered, marked] at differ
  simp [Except.toOption] at differ

end RubyPattern
