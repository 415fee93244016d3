/-
  RubyPattern.Proofs.Outcomes

  What can become of the text of a parsed tree when it is scanned for absent
  children. Wherever the scan loses its place, the text is refused, or it spells
  a pattern that does not accept the tree.
-/
import RubyPattern.Proofs.Copies
import RubyPattern.Proofs.Refusal
import RubyPattern.Proofs.Shielding

namespace RubyPattern

open RubyPattern.Number RubyPattern.Text

-- ============================================================================
-- What marking can make of a tree
-- ============================================================================

namespace Value

open RubyPattern.AbsentChild RubyPattern.Lexeme

/-- What can become of the text of a tree when it is marked. It is refused, or
    else spells one plain element, and this element accepts the tree only if
    the text is the one of the tree with its absent children replaced. -/
def Outcome (v : Value) (ms : List Char) : Prop :=
  RefusedPart ms ∨ ∃ e, Spells ms [e] ∧ e.Plain ∧ ∀ functions : Functions,
    v ∈ e.meaning functions →
      v.Expressible ∧ v.markAbsent.render = .ok (String.ofList ms)

theorem outcome_nil {previous : Option Char} {ms : List Char}
    (marked : Marked previous ['n', 'i', 'l'] ms) : Outcome .nil ms := by
  rcases marked.eq_or_of_word (isWord_of_isTypeName rfl) with rfl | ⟨-, rfl⟩
  · have spelled : Spells ['n', 'i', 'l'] [.nodeType "nil"] :=
      @spells_type "nil" rfl
    refine .inr ⟨_, spelled, .nodeType _, fun functions accepted => ?_⟩
    rcases accepted with ⟨_, _, ⟨⟩⟩ | ⟨⟨⟩⟩
  · exact .inr ⟨_, spells_absent, .predicate _ (by decide), fun functions _ => ⟨trivial, rfl⟩⟩

theorem outcome_str {s : String} {previous : Option Char} {ms : List Char}
    (marked : Marked previous (Literal.stringChars s.toList) ms) : Outcome (.str s) ms := by
  obtain ⟨ds, rfl⟩ := marked.stringChars
  have spelled := spells_string (String.ofList ds)
  rw [String.toList_ofList] at spelled
  refine .inr ⟨_, spelled, .scalar _, fun functions accepted => ⟨trivial, ?_⟩⟩
  have same : String.ofList ds = s := by
    simpa [Element.meaning, Scalar.toValue, literalEquals, symbol?] using accepted
  have text : (Value.str s).markAbsent.render =
      .ok (String.ofList (Literal.stringChars s.toList)) := rfl
  rw [text, ← same, String.toList_ofList]

theorem outcome_misread {name ms : List Char} (misread : Misread name ms) :
    Outcome (.sym (String.ofList name)) (':' :: ms) := by
  cases misread with
  | word =>
    have spelled : Spells (':' :: "nil?".toList) [.scalar (.symbol "nil?")] :=
      spells_bareSymbol (by decide)
    refine .inr ⟨_, spelled, .scalar _, fun functions accepted => ?_⟩
    exact absurd accepted (by simp [Element.meaning, Scalar.toValue, literalEquals, symbol?])
  | global =>
    have spelled : Spells (':' :: "$nil?".toList) [.scalar (.symbol "$nil?")] :=
      spells_of_symbolNameReach (by decide) (by decide)
    refine .inr ⟨_, spelled, .scalar _, fun functions accepted => ?_⟩
    exact absurd accepted (by simp [Element.meaning, Scalar.toValue, literalEquals, symbol?])
  | setter =>
    -- The mark ends the name, and no lexeme begins with what is left of it.
    refine .inl fun after _ p pos ls ok => ?_
    have found : classify ([':', 'n', 'i', 'l', '?', '='] ++ after) = some (.symbol, 5) := rfl
    have behind : classify ('=' :: after) = none := rfl
    rw [scan_cons found (q := "") rfl] at ok
    exact absurd ok (by simp [scan, behind, Except.map])

theorem outcome_sym {name : String} {previous : Option Char} {ms : List Char}
    (marked : Marked previous (Literal.symbolChars name.toList) ms) :
    Outcome (.sym name) ms := by
  have text : (Value.sym name).markAbsent.render =
      .ok (String.ofList (Literal.symbolChars name.toList)) := rfl
  unfold Literal.symbolChars at marked
  split at marked
  next bare =>
    obtain ⟨ds, rfl, more⟩ := marked.cons_inv (by decide)
    rcases more.bareSymbol bare with rfl | misread
    · refine .inr ⟨_, spells_bareSymbol bare, .scalar _, fun functions _ => ⟨trivial, ?_⟩⟩
      rw [text, Literal.symbolChars, if_pos bare]
    · have outcome := outcome_misread misread
      rwa [String.ofList_toList] at outcome
  next quoted =>
    obtain ⟨_, rfl, more⟩ := marked.cons_inv (by decide)
    obtain ⟨ds, rfl⟩ := more.stringChars
    have spelled := spells_quotedSymbol (String.ofList ds)
    rw [String.toList_ofList] at spelled
    refine .inr ⟨_, spelled, .scalar _, fun functions accepted => ⟨trivial, ?_⟩⟩
    have same : String.ofList ds = name := by
      simpa [Element.meaning, Scalar.toValue, literalEquals, symbol?] using accepted
    rw [text, Literal.symbolChars, if_neg quoted, ← same, String.toList_ofList]

theorem harmless_int (n : Int) : Harmless (integerText n).toList := by
  have none : ∀ c : Char, c.isDigit = false → c ≠ '-' → c ∉ (integerText n).toList := by
    intro c noDigit noMinus
    have digits : c ∉ natDigits n.natAbs := by
      intro mem
      rw [isDigit_of_mem_natDigits mem] at noDigit
      cases noDigit
    rw [integerText, String.toList_ofList]
    split <;> simp [digits, noMinus]
  exact ⟨none _ (by decide) (by decide), none _ (by decide) (by decide),
    .inl (none _ (by decide) (by decide))⟩

theorem not_mem_of_isReal {c : Char} (noDigit : c.isDigit = false)
    (noMark : c ∉ ['.', 'e', '-', '+']) {cs : List Char} (h : IsReal cs) : c ∉ cs := by
  have digits : ∀ {ds}, Digits ds → c ∉ ds := by
    intro ds hds mem
    rw [hds.isDigit c mem] at noDigit
    cases noDigit
  simp only [List.mem_cons, List.not_mem_nil, or_false, not_or] at noMark
  obtain ⟨ds, fraction, exponent, hds, hf, he, -, rfl⟩ := h
  have point : c ∉ fraction := by
    cases hf with
    | none => simp
    | digits hds => simpa [noMark] using digits hds
  have power : c ∉ exponent := by
    cases he with
    | none => simp
    | digits hmark hds => rcases hmark with rfl | rfl <;> simpa [noMark] using digits hds
  simp [digits hds, point, power]

theorem text_notANumber {x : Float} (binary : Binary.ofFloat x = .notANumber) :
    Layout.literal.text x = "NaN" := by
  simp [Layout.text, binary, Layout.literal]

theorem text_infinite {x : Float} {negative : Bool}
    (binary : Binary.ofFloat x = .infinite negative) :
    Layout.literal.text x = if negative then "-Infinity" else "Infinity" := by
  cases negative <;> simp [Layout.text, binary, Layout.literal]

/-- The text of a double holds nothing that the scan could stop at. -/
theorem harmless_float (x : Float) : Harmless (Layout.literal.text x).toList := by
  cases binary : Binary.ofFloat x with
  | notANumber =>
    rw [text_notANumber binary]
    exact ⟨by decide, by decide, by decide⟩
  | infinite negative =>
    rw [text_infinite binary]
    cases negative with
    | false => exact ⟨by decide, by decide, by decide⟩
    | true => exact ⟨by decide, by decide, by decide⟩
  | finite negative mantissa exponent =>
    obtain ⟨sign, cs, hsign, hcs, text⟩ := exists_isReal_text binary
    have none : ∀ c : Char, c.isDigit = false → c ∉ ['.', 'e', '-', '+'] → c ∉ sign ++ cs := by
      intro c noDigit noMark
      have absent := not_mem_of_isReal noDigit noMark hcs
      simp only [List.mem_cons, List.not_mem_nil, or_false, not_or] at noMark
      rcases hsign with rfl | rfl <;> simp [absent, noMark]
    rw [text, String.toList_ofList]
    exact ⟨none _ (by decide) (by decide), none _ (by decide) (by decide),
      .inr (none _ (by decide) (by decide))⟩

theorem outcome_int {n : Int} {previous : Option Char} {ms : List Char}
    (marked : Marked previous (integerText n).toList ms) : Outcome (.int n) ms := by
  obtain rfl := marked.eq_of_letters (harmless_int n).letters
  refine .inr ⟨_, spells_integer n, .scalar _, fun functions _ => ⟨trivial, ?_⟩⟩
  rw [String.ofList_toList]
  rfl

theorem outcome_float {x : Float} {previous : Option Char} {ms : List Char}
    (marked : Marked previous (Layout.literal.text x).toList ms) : Outcome (.float x) ms := by
  obtain rfl := marked.eq_of_letters (harmless_float x).letters
  cases binary : Binary.ofFloat x with
  | notANumber =>
    rw [text_notANumber binary]
    exact .inl fun after _ => refused_of_classify rfl
  | infinite negative =>
    rw [text_infinite binary]
    cases negative with
    | false => exact .inl fun after _ => refused_of_classify rfl
    | true => exact .inl fun after _ => refused_of_classify rfl
  | finite negative mantissa exponent =>
    cases read : float? (Layout.literal.text x) with
    | none =>
      refine .inl (refusedPart_of_kind (fun after => classify_real binary) fun p pos => ?_)
      rw [kind?, String.ofList_toList, read]
      exact ⟨_, rfl⟩
    | some y =>
      refine .inr ⟨_, spells_real binary read, .scalar _, fun functions equal => ?_⟩
      refine ⟨⟨⟨negative, mantissa, exponent, binary⟩, y, read, equal⟩, ?_⟩
      rw [String.ofList_toList]
      rfl

theorem refusedPart_defined : RefusedPart "defined?".toList := by
  intro after delimited
  have unknown : ¬ Grammar.Known [⟨.predicate "defined?", "defined?", 0⟩] := by
    intro known
    have found := known ⟨.predicate "defined?", "defined?", 0⟩ (by simp) "defined?" rfl
    exact absurd found (by decide)
  exact refused_of_tokenize rfl (by decide) unknown delimited

/-- The parts of a node are refused together, or spell plain elements which
    accept the children only if each part is the right one. -/
theorem outcome_parts {vs : List Value} {mss : List (List Char)}
    (outcomes : List.Forall₂ Outcome vs mss) :
    (∀ after, Refused (mss.flatMap (' ' :: ·) ++ ')' :: after)) ∨
      ∃ es : List Element, List.Forall₂ Spells mss (es.map fun e => [e]) ∧
        (∀ e ∈ es, e.Plain) ∧ ∀ functions, Element.Cut functions es vs →
          ExpressibleAll vs ∧ renderAll (markAbsentAll vs) = .ok (mss.map String.ofList) := by
  induction outcomes with
  | nil => exact .inr ⟨[], .nil, by simp, fun _ _ => ⟨trivial, rfl⟩⟩
  | @cons v ms vs mss first _ ih =>
    have text : ∀ after, (ms :: mss).flatMap (' ' :: ·) ++ ')' :: after =
        ' ' :: (ms ++ (mss.flatMap (' ' :: ·) ++ ')' :: after)) := by simp
    rcases first with refused | ⟨e, spelled, plain, accepts⟩
    · refine .inl fun after => ?_
      rw [text]
      exact (refused _ (delimited_parts mss after)).blank
    · rcases ih with refused | ⟨es, others, plains, cuts⟩
      · refine .inl fun after => ?_
        rw [text]
        exact (spelled.refused (delimited_parts mss after) (refused after)).blank
      · refine .inr ⟨e :: es, .cons spelled others, by simpa using ⟨plain, plains⟩, ?_⟩
        intro functions cut
        obtain ⟨_, _, ⟨⟩, here, behind⟩ := (Element.cut_cons plain.isRest_eq_false).mp cut
        obtain ⟨expressible, rendered⟩ := accepts functions here
        obtain ⟨expressibleAll, renderedAll⟩ := cuts functions behind
        refine ⟨⟨expressible, expressibleAll⟩, ?_⟩
        rw [markAbsentAll, renderAll, rendered, renderedAll]
        rfl

theorem outcome_node {type : Label} {children : List Value} {location : Option Location}
    (htype : isLoweredType type.text = true) {previous : Option Char}
    {parts : List (List Char)} {ms : List Char}
    (marked : Marked previous
      ('(' :: (type.text.toList ++ (parts.flatMap (' ' :: ·) ++ [')']))) ms)
    (outcomes : ∀ mss, List.Forall₂ (Marked (some ' ')) parts mss →
      List.Forall₂ Outcome children mss) : Outcome (.node type children location) ms := by
  obtain ⟨_, rfl, inner⟩ := marked.cons_inv (by decide)
  obtain ⟨head, mss, rfl, front, back⟩ := inner.split_parts
  rw [isLoweredType, Bool.or_eq_true, beq_iff_eq] at htype
  rcases htype with word | defined
  · obtain rfl := front.eq_of_word (isWord_of_isTypeName word) rfl
    rcases outcome_parts (outcomes mss back) with refused | ⟨es, spelled, plain, cuts⟩
    · refine .inl fun after delimited => ?_
      have text : '(' :: (type.text.toList ++ (mss.flatMap (' ' :: ·) ++ [')'])) ++ after =
          '(' :: (type.text.toList ++ (mss.flatMap (' ' :: ·) ++ ')' :: after)) := by simp
      rw [text]
      exact ((spells_type word).refused (delimited_parts mss after) (refused after)).opening
    · refine .inr ⟨_, spells_plainSequence (spells_type word) spelled, .sequence _ (by simp) ?_,
        fun functions accepted => ?_⟩
      · intro e he
        rcases List.mem_cons.mp he with rfl | he
        · exact .nodeType _
        · exact plain e he
      · obtain ⟨_, _, _, ⟨⟩, -, cut⟩ := Element.mem_meaning_sequence.mp accepted
        obtain ⟨expressible, rendered⟩ := cuts functions cut
        have proper : type.text ≠ "defined?" := by
          intro same
          rw [same] at word
          exact absurd word (by decide)
        refine ⟨⟨proper, expressible⟩, ?_⟩
        rw [markAbsent, render_node_eq_ok_iff]
        refine ⟨_, rendered, ?_⟩
        have texts : (mss.map String.ofList).map String.toList = mss := by simp
        rw [texts, String.toList_ofList]
  · rw [defined] at front
    obtain rfl := front.eq_of_letters (by decide)
    refine .inl fun after delimited => ?_
    have text : '(' :: ("defined?".toList ++ (mss.flatMap (' ' :: ·) ++ [')'])) ++ after =
        '(' :: ("defined?".toList ++ (mss.flatMap (' ' :: ·) ++ ')' :: after)) := by simp
    rw [text]
    exact (refusedPart_defined _ (delimited_parts mss after)).opening

mutual

/-- Marking the text of a tree, whatever stands in front of it, has one of
    these outcomes. -/
theorem outcome_of_marked {v : Value} (lowered : v.Lowered)
    {text : String} (rendered : v.render = .ok text) {previous : Option Char} {ms : List Char}
    (marked : Marked previous text.toList ms) : Outcome v ms := by
  cases v with
  | nil =>
    cases rendered
    exact outcome_nil marked
  | str s =>
    cases rendered
    rw [Literal.string, String.toList_ofList] at marked
    exact outcome_str marked
  | sym name =>
    cases rendered
    rw [Literal.symbol, String.toList_ofList] at marked
    exact outcome_sym marked
  | int n =>
    cases rendered
    exact outcome_int marked
  | float x =>
    cases rendered
    exact outcome_float marked
  | nan tag =>
    cases rendered
    obtain rfl := marked.eq_of_letters (by decide)
    exact .inl fun after _ => refused_of_classify rfl
  | node type children location =>
    obtain ⟨texts, renderedAll, parts⟩ := render_node_eq_ok_iff.mp rendered
    rw [parts] at marked
    exact outcome_node lowered.1 marked fun mss markedAll =>
      outcomes_of_marked lowered.2 renderedAll markedAll
  | _ => exact lowered.elim

theorem outcomes_of_marked {vs : List Value} (lowered : LoweredAll vs)
    {texts : List String} (rendered : renderAll vs = .ok texts)
    {mss : List (List Char)}
    (marked : List.Forall₂ (Marked (some ' ')) (texts.map String.toList) mss) :
    List.Forall₂ Outcome vs mss := by
  cases vs with
  | nil =>
    cases rendered
    cases marked
    exact .nil
  | cons v vs =>
    rw [renderAll] at rendered
    cases first : v.render with
    | error fault => simp [first, bind, Except.bind] at rendered
    | ok text =>
      cases others : renderAll vs with
      | error fault => simp [first, others, bind, Except.bind] at rendered
      | ok rest =>
        simp only [first, others, bind, Except.bind, pure, Except.pure, Except.ok.injEq]
          at rendered
        subst rendered
        cases marked with
        | cons here behind =>
          exact .cons (outcome_of_marked lowered.1 first here)
            (outcomes_of_marked lowered.2 others behind)

end

end Value

end RubyPattern
