/-
  RubyPattern.Proofs.AbsentMarks

  The scan for absent children finds them. It runs over the flat text of a tree
  and yields the text of the same tree with `nil?` in the place of each absent
  child, everything else unchanged; node types, strings and symbols that contain
  `nil` are passed over. The exception is the symbol `:$"`: its quote is taken
  for the beginning of a quoted text if another quote stands behind it.
-/
import RubyPattern.Proofs.Outcomes

namespace RubyPattern

open RubyPattern.Text RubyPattern.Lexeme RubyPattern.AbsentChild

namespace AbsentChild

/-- Without a quote behind it, no quoted text is closed. -/
theorem closingReach_eq_zero {cs : List Char} (quote : '"' ∉ cs) : closingReach cs = 0 := by
  fun_induction closingReach cs <;> simp_all

/-- The quote in the name of `$"` begins nothing if it is the last one. -/
theorem marksBefore_quoteGlobal {after : List Char} (delimited : Delimited after)
    (quote : '"' ∉ after) : MarksBefore after [':', '$', '"'] [':', '$', '"'] := by
  intro previous _
  have colon : shieldedReach (':' :: ['$', '"'] ++ after) = 0 :=
    shieldedReach_colon (by simp) delimited
  have opened : shieldedReach ('"' :: after) = 0 := by
    simp [shieldedReach, quotedReach, closingReach_eq_zero quote]
  have text : [':', '$', '"'] ++ after = ':' :: ['$', '"'] ++ after := rfl
  rw [text, List.cons_append, markFrom_shielded (by decide), ← List.cons_append, colon]
  show ':' :: markFrom 0 (some ':') ('$' :: '"' :: after) = _
  rw [markFrom_cons (.inr (by simp)) (by decide) (by decide), markFrom_shielded (by decide),
    opened, markFrom_delimited delimited]
  rfl

end AbsentChild

namespace Value

-- ============================================================================
-- Trees without tokens
-- ============================================================================

mutual

/-- Trees of nodes and plain values: node types are words, or `defined?`, and
    every leaf has a literal. -/
def Tokenless : Value → Prop
  | .node type children _ => isLoweredType type.text = true ∧ TokenlessAll children
  | v => v.literal?.isSome = true

/-- All of the trees are of this kind. -/
def TokenlessAll : List Value → Prop
  | [] => True
  | v :: vs => Tokenless v ∧ TokenlessAll vs

end

mutual

/-- The leaves of a tree in the order of its text. -/
def leaves : Value → List Value
  | .node _ children _ => leavesOf children
  | v => [v]

/-- The leaves of each tree in turn. -/
def leavesOf : List Value → List Value
  | [] => []
  | v :: vs => leaves v ++ leavesOf vs

end

/-- Whether a leaf is a symbol named `$"`. -/
def IsQuoteGlobal (v : Value) : Prop :=
  v.symbol? = some "$\""

/-- Whether the literal of a leaf has a double quote in it. -/
def Quoted (v : Value) : Prop :=
  ∃ text, v.literal? = some text ∧ '"' ∈ text.toList

/-- Behind a symbol named `$"` no leaf has a double quote in its literal. -/
def QuotesGlobalLast (vs : List Value) : Prop :=
  vs.Pairwise fun v u => v.IsQuoteGlobal → ¬ u.Quoted

-- ============================================================================
-- The scan over their texts
-- ============================================================================

theorem copied_type {type : String} (h : isLoweredType type = true) {after : List Char}
    (delimited : Delimited after) : markFrom 0 (some '(') (type.toList ++ after) =
      type.toList ++ markFrom 0 none after := by
  rw [isLoweredType, Bool.or_eq_true, beq_iff_eq] at h
  rcases h with word | rfl
  · exact markFrom_word (isWord_of_isTypeName word) rfl delimited
  · have harmless : Harmless "defined?".toList := ⟨by decide, by decide, by decide⟩
    exact harmless.copied delimited (Nat.zero_le _) _

theorem quote_not_mem_type {type : String} (h : isLoweredType type = true) :
    '"' ∉ type.toList := by
  rw [isLoweredType, Bool.or_eq_true, beq_iff_eq] at h
  rcases h with word | rfl
  · intro mem
    exact absurd (isWord_of_isTypeName word _ mem) (by decide)
  · decide

theorem render_of_literal? {v : Value} {text : String} (h : v.literal? = some text) :
    v.render = .ok text := by
  cases v with
  | node => cases h
  | token => cases h
  | _ => simp [render, inspectLiteral, h]

theorem marksTo_name {name : String} (other : name ≠ "$\"") :
    MarksTo (Literal.symbol name).toList (Literal.symbol name).toList := by
  rw [Literal.symbol, String.toList_ofList]
  refine marksTo_symbol fun same => other ?_
  rw [← String.ofList_toList (s := name), same]

/-- A leaf is copied, unless it is absent and then marked. -/
theorem marksTo_literal {v : Value} {text : String} (h : v.literal? = some text)
    (other : ¬ v.IsQuoteGlobal) :
    ∃ text', v.markAbsent.render = .ok text' ∧ MarksTo text.toList text'.toList := by
  cases v with
  | nil =>
    cases h
    exact ⟨"nil?", rfl, marksTo_absent⟩
  | bool b =>
    cases h
    have harmless : Harmless (if b then "true" else "false").toList := by
      cases b <;> exact ⟨by decide, by decide, by decide⟩
    exact ⟨_, rfl, harmless.marksTo⟩
  | str s =>
    cases h
    refine ⟨_, rfl, ?_⟩
    rw [Literal.string, String.toList_ofList]
    exact marksTo_string s.toList
  | sym name =>
    cases h
    exact ⟨_, rfl, marksTo_name fun same => other (by rw [same]; rfl)⟩
  | head type =>
    cases h
    exact ⟨_, rfl, marksTo_name fun same => other (by rw [same]; rfl)⟩
  | int n =>
    cases h
    exact ⟨_, rfl, (harmless_int n).marksTo⟩
  | float x =>
    cases h
    exact ⟨_, rfl, (harmless_float x).marksTo⟩
  | nan tag =>
    cases h
    have harmless : Harmless "NaN".toList := ⟨by decide, by decide, by decide⟩
    exact ⟨"NaN", rfl, harmless.marksTo⟩
  | _ => cases h

/-- What the scan makes of a text that stands for some leaves: it becomes the
    second text, if no symbol named `$"` has a quote behind it, be it in the
    leaves or in what follows them. -/
structure MarksLeaves (ls : List Value) (cs ds : List Char) : Prop where
  quoted : '"' ∈ cs → ∃ l ∈ ls, l.Quoted
  marks : ∀ after, Delimited after → QuotesGlobalLast ls →
    (∀ l ∈ ls, l.IsQuoteGlobal → '"' ∉ after) → MarksBefore after cs ds

/-- The same for the children of a node, each behind a space. -/
structure MarksChildren (ls : List Value) (cs ds : List Char) : Prop where
  delimited : ∀ after, Delimited (cs ++ ')' :: after)
  quoted : '"' ∈ cs → ∃ l ∈ ls, l.Quoted
  marks : ∀ after, Delimited after → QuotesGlobalLast ls →
    (∀ l ∈ ls, l.IsQuoteGlobal → '"' ∉ after) →
      markFrom 0 none (cs ++ ')' :: after) = ds ++ ')' :: markFrom 0 none after

theorem marksLeaves_literal {v : Value} {text : String} (h : v.literal? = some text) :
    ∃ text', v.markAbsent.render = .ok text' ∧ MarksLeaves [v] text.toList text'.toList := by
  have quoted : '"' ∈ text.toList → ∃ l ∈ [v], l.Quoted := fun mem => ⟨v, by simp, text, h, mem⟩
  by_cases global : v.IsQuoteGlobal
  · have copied : text = ":$\"" ∧ v.markAbsent.render = .ok ":$\"" := by
      cases v with
      | sym name =>
        cases global
        cases h
        exact ⟨by decide, by rfl⟩
      | head type =>
        cases global
        cases h
        exact ⟨by decide, by rfl⟩
      | _ => cases global
    obtain ⟨rfl, rendered⟩ := copied
    exact ⟨_, rendered, quoted, fun after delimited _ clear =>
      marksBefore_quoteGlobal delimited (clear v (by simp) global)⟩
  · obtain ⟨text', rendered, marks⟩ := marksTo_literal h global
    exact ⟨text', rendered, quoted, fun after delimited _ _ => marks.before delimited⟩

theorem marksChildren_nil : MarksChildren [] [] [] where
  delimited := fun after => delimited_closing after
  quoted := nofun
  marks := fun _ delimited _ _ => markFrom_closing delimited

theorem MarksChildren.cons {ls ls' : List Value} {cs ds cs' ds' : List Char}
    (first : MarksLeaves ls cs ds) (others : MarksChildren ls' cs' ds') :
    MarksChildren (ls ++ ls') (' ' :: cs ++ cs') (' ' :: ds ++ ds') where
  delimited := fun after => delimited_space _
  quoted := by
    intro mem
    have inside : '"' ∈ cs ∨ '"' ∈ cs' := by simpa using mem
    rcases inside with mem | mem
    · obtain ⟨l, hl, quoted⟩ := first.quoted mem
      exact ⟨l, by simp [hl], quoted⟩
    · obtain ⟨l, hl, quoted⟩ := others.quoted mem
      exact ⟨l, by simp [hl], quoted⟩
  marks := by
    intro after delimited last clear
    obtain ⟨last, last', apart⟩ := List.pairwise_append.mp last
    have behind := others.marks after delimited last' fun l hl => clear l (by simp [hl])
    rw [List.append_assoc]
    refine markFrom_part (first.marks _ (others.delimited after) last fun l hl global mem => ?_)
      behind
    have inside : '"' ∈ cs' ∨ '"' ∈ after := by simpa using mem
    rcases inside with mem | mem
    · obtain ⟨m, hm, quoted⟩ := others.quoted mem
      exact apart l hl m hm global quoted
    · exact clear l (by simp [hl]) global mem

theorem MarksChildren.node {type : String} (htype : isLoweredType type = true)
    {ls : List Value} {cs ds : List Char} (h : MarksChildren ls cs ds) :
    MarksLeaves ls ('(' :: (type.toList ++ (cs ++ [')'])))
      ('(' :: (type.toList ++ (ds ++ [')']))) where
  quoted := by
    intro mem
    have plain := quote_not_mem_type htype
    refine h.quoted ?_
    simpa [plain] using mem
  marks := fun after delimited last clear =>
    marksBefore_node (copied_type htype (h.delimited after)) (h.marks after delimited last clear)

mutual

theorem marksLeaves_render {v : Value} (h : v.Tokenless) :
    ∃ text text', v.render = .ok text ∧ v.markAbsent.render = .ok text' ∧
      MarksLeaves v.leaves text.toList text'.toList := by
  cases v with
  | node type children location =>
    obtain ⟨texts, texts', rendered, rendered', marks⟩ := marksChildren_renderAll h.2
    obtain ⟨text, whole, parts⟩ := exists_render_node type location rendered
    obtain ⟨text', whole', parts'⟩ := exists_render_node type location rendered'
    refine ⟨text, text', whole, whole', ?_⟩
    rw [parts, parts']
    exact marks.node h.1
  | _ =>
    obtain ⟨text, literal⟩ := Option.isSome_iff_exists.mp h
    obtain ⟨text', rendered', marks⟩ := marksLeaves_literal literal
    exact ⟨text, text', render_of_literal? literal, rendered', marks⟩

theorem marksChildren_renderAll {vs : List Value} (h : TokenlessAll vs) :
    ∃ texts texts', renderAll vs = .ok texts ∧ renderAll (markAbsentAll vs) = .ok texts' ∧
      MarksChildren (leavesOf vs) ((texts.map String.toList).flatMap (' ' :: ·))
        ((texts'.map String.toList).flatMap (' ' :: ·)) := by
  cases vs with
  | nil => exact ⟨[], [], rfl, rfl, marksChildren_nil⟩
  | cons v vs =>
    obtain ⟨text, text', rendered, rendered', marks⟩ := marksLeaves_render h.1
    obtain ⟨texts, texts', others, others', marksAll⟩ := marksChildren_renderAll h.2
    refine ⟨text :: texts, text' :: texts', ?_, ?_, .cons marks marksAll⟩
    · rw [renderAll, rendered, others]
      rfl
    · rw [markAbsentAll, renderAll, rendered', others']
      rfl

end

/-- The scan rewrites exactly the absent children. For every tree of nodes and
    plain values, it turns the text of the tree into the text of the tree with
    `nil?` in the place of each absent child, if no literal behind a symbol named
    `$"` has a double quote in it. -/
theorem render_markAbsent {v : Value} (tokenless : v.Tokenless)
    (last : QuotesGlobalLast v.leaves) :
    ∃ text, v.render = .ok text ∧ v.markAbsent.render = .ok (AbsentChild.mark text) := by
  obtain ⟨text, text', rendered, rendered', marked⟩ := marksLeaves_render tokenless
  have whole := marked.marks [] delimited_nil last (by simp) none rfl
  rw [List.append_nil, markFrom, List.append_nil] at whole
  refine ⟨text, rendered, ?_⟩
  rw [rendered', AbsentChild.mark, whole, String.ofList_toList]

/-- Of what looks like an absent child in this tree, only the first one is. -/
theorem render_markAbsent_array :
    let tree := Value.node (.plain "array") [.nil, .str "nil", .sym "nil",
      .node (.plain "nil") [] none, .node (.plain "gvar") [.sym "$\""] none] none
    tree.Tokenless ∧ QuotesGlobalLast tree.leaves ∧
      tree.render = .ok "(array nil \"nil\" :nil (nil) (gvar :$\"))" ∧
      tree.markAbsent.render = .ok "(array nil? \"nil\" :nil (nil) (gvar :$\"))" := by
  intro tree
  have tokenless : tree.Tokenless :=
    ⟨by decide, rfl, rfl, rfl, ⟨by decide, trivial⟩, ⟨by decide, rfl, trivial⟩, trivial⟩
  have last : QuotesGlobalLast tree.leaves := by
    simp [QuotesGlobalLast, tree, leaves, leavesOf, IsQuoteGlobal, symbol?]
  have rendered : tree.render = .ok "(array nil \"nil\" :nil (nil) (gvar :$\"))" := by rfl
  have marked : AbsentChild.mark "(array nil \"nil\" :nil (nil) (gvar :$\"))" =
      "(array nil? \"nil\" :nil (nil) (gvar :$\"))" := by rfl
  obtain ⟨text, found, replaced⟩ := render_markAbsent tokenless last
  rw [rendered] at found
  cases found
  exact ⟨tokenless, last, rendered, marked ▸ replaced⟩

/-- A quote behind the symbol puts the scan out of step: it takes the absent
    child for a part of a string. -/
theorem mark_between_quoteGlobals :
    let tree := Value.node (.plain "array") [.sym "$\"", .nil, .sym "$\""] none
    tree.Tokenless ∧ tree.render = .ok "(array :$\" nil :$\")" ∧
      tree.markAbsent.render = .ok "(array :$\" nil? :$\")" ∧
      AbsentChild.mark "(array :$\" nil :$\")" = "(array :$\" nil :$\")" :=
  ⟨⟨by decide, rfl, rfl, rfl, trivial⟩, rfl, rfl, rfl⟩

end Value

end RubyPattern
