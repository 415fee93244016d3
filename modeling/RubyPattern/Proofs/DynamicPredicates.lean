/-
  RubyPattern.Proofs.DynamicPredicates

  Patterns made of registered predicates alone: trees of nodes with tokens of
  registrations as leaves. Such a tree compiles on the bench that registered
  them, and each leaf tests its part of a candidate with the predicate that was
  registered for it, whichever letters the names happen to be.
-/
import RubyPattern.Proofs.BuilderRuns
import RubyPattern.Proofs.OwnPattern

namespace RubyPattern.Builder

open RubyPattern.AbsentChild RubyPattern.Lexeme RubyPattern.Text RubyPattern.Name

-- ============================================================================
-- Trees over registrations
-- ============================================================================

/-- A tree whose leaves are registrations. -/
inductive Sketch where
  | leaf (r : Registration)
  | node (type : Label) (children : List Sketch) (location : Option Location)

namespace Sketch

mutual

/-- The tree as a builder has it: each leaf is the token of its registration. -/
def toValue : Sketch → Value
  | .leaf r => .token r.token
  | .node type children location => .node type (toValues children) location

/-- The trees one by one. -/
def toValues : List Sketch → List Value
  | [] => []
  | s :: ss => toValue s :: toValues ss

end

mutual

/-- The node types are plain words, and all leaves are as asked for. -/
def Leaves (P : Registration → Prop) : Sketch → Prop
  | .leaf r => P r
  | .node type children _ => isTypeName type.text.toList = true ∧ LeavesAll P children

/-- So it is for all of the trees. -/
def LeavesAll (P : Registration → Prop) : List Sketch → Prop
  | [] => True
  | s :: ss => Leaves P s ∧ LeavesAll P ss

end

mutual

/-- A candidate fits: it has the node types and numbers of children of the tree,
    and each leaf's own predicate holds of the value in its place. -/
def Fits : Sketch → Value → Prop
  | .leaf r, x => r.datum.predicate x [] = .ok true
  | .node type children _, u => match u with
    | .node other others _ => type.text = other.text ∧ FitsAll children others
    | _ => False

/-- The candidates fit one by one. -/
def FitsAll : List Sketch → List Value → Prop
  | [], us => us = []
  | s :: ss, us => match us with
    | u :: us => Fits s u ∧ FitsAll ss us
    | [] => False

end

mutual

/-- The parts of a candidate in the places of capturing leaves, left before
    right. -/
def captured : Sketch → Value → List Value
  | .leaf r, x => if r.capturing then [x] else []
  | .node _ children _, u => match u with
    | .node _ others _ => capturedAll children others
    | _ => []

/-- Those of each candidate in turn. -/
def capturedAll : List Sketch → List Value → List Value
  | s :: ss, u :: us => captured s u ++ capturedAll ss us
  | _, _ => []

end

mutual

/-- The pattern that the tree spells. -/
def pattern : Sketch → Element
  | .leaf r => if r.capturing then .capture (.call r.name []) else .call r.name []
  | .node type children _ => .sequence (.nodeType type.text :: patterns children)

/-- The patterns of the trees. -/
def patterns : List Sketch → List Element
  | [] => []
  | s :: ss => pattern s :: patterns ss

end

theorem isRest_pattern (s : Sketch) : s.pattern.isRest = false := by
  cases s with
  | leaf r =>
    rw [pattern]
    split <;> rfl
  | node => rfl

mutual

theorem Leaves.mono {P Q : Registration → Prop} (imp : ∀ r, P r → Q r) :
    ∀ {s : Sketch}, s.Leaves P → s.Leaves Q
  | .leaf r, h => imp r h
  | .node _ _ _, h => ⟨h.1, LeavesAll.mono imp h.2⟩

theorem LeavesAll.mono {P Q : Registration → Prop} (imp : ∀ r, P r → Q r) :
    ∀ {ss : List Sketch}, LeavesAll P ss → LeavesAll Q ss
  | [], _ => trivial
  | _ :: _, h => ⟨h.1.mono imp, LeavesAll.mono imp h.2⟩

end

end Sketch

-- ============================================================================
-- The texts of tokens
-- ============================================================================

/-- Letters, at least one. -/
def Lettered (cs : List Char) : Prop :=
  cs ≠ [] ∧ ∀ c ∈ cs, c ∈ Predicate.letters

theorem Lettered.isWord {cs : List Char} (h : Lettered cs) : ∀ c ∈ cs, isWord c = true := by
  have all : Predicate.letters.all Text.isWord = true := by decide
  exact fun c mem => List.all_eq_true.mp all c (h.2 c mem)

theorem Lettered.identifierLength_eq {cs : List Char} (h : Lettered cs) :
    identifierLength cs = cs.length := by
  have words := h.isWord
  have starts : Predicate.letters.all isNameStart = true := by decide
  cases cs with
  | nil => exact absurd rfl h.1
  | cons c cs =>
    have whole : cs.takeWhile Text.isWord = cs := by
      rw [← List.append_nil cs, List.takeWhile_append_of_pos fun d hd => words d (by simp [hd])]
      simp
    have start := List.all_eq_true.mp starts c (h.2 c List.mem_cons_self)
    rw [identifierLength, if_pos start, whole, List.length_cons, Nat.add_comm]

/-- No lexeme of an earlier class than functions begins with a number sign and a
    letter. -/
theorem zero_of_hash {c : Char} (letter : c ∈ Predicate.letters) (cs : List Char) :
    ∀ entry ∈ classes.take 16, entry.2 ('#' :: c :: cs) = 0 := by
  have noBlank : Predicate.letters.any isBlank = false := by decide
  have visible := List.any_eq_false.mp noBlank c letter
  have fixed : ∀ d rest, d ≠ '#' →
      fixedReach (String.ofList (d :: rest)) ('#' :: c :: cs) = 0 := by
    intro d rest hd
    simp [fixedReach, hd]
  have noInteger : integerReach ('#' :: c :: cs) = 0 := by
    have digit : isDecimal '#' = false := by decide
    simp [integerReach, oneReach, digitsReach, digit, extend]
  simp only [classes, List.take, List.forall_mem_cons]
  exact ⟨rfl, by simp [commentReach, visible], fixed '.' _ (by decide),
    fixed '(' _ (by decide), fixed ')' _ (by decide), fixed '\x7b' _ (by decide),
    fixed '\x7d' _ (by decide), fixed '[' _ (by decide), fixed ']' _ (by decide),
    fixed '$' _ (by decide), fixed '!' _ (by decide), rfl, rfl, rfl,
    by simp [realReach, noInteger], noInteger, by simp⟩

/-- A number sign and letters are one lexeme. -/
theorem classify_call {cs : List Char} (h : Lettered cs) {after : List Char}
    (delimited : Delimited after) :
    classify ('#' :: cs ++ after) = some (.function, ('#' :: cs).length) := by
  refine classify_of_reach 16 rfl (by simp) ?_ ?_
  · rw [local_functionReach.append _ delimited, functionReach, h.identifierLength_eq]
    have some := List.length_pos_iff.mpr h.1
    rw [if_neg (by omega), List.drop_length, List.length_cons]
    simp only [oneReach]
    omega
  · intro other mem
    obtain ⟨c, rest, text⟩ := List.exists_cons_of_ne_nil h.1
    have letter : c ∈ Predicate.letters := h.2 c (by simp [text])
    rw [text, List.cons_append, List.cons_append]
    exact zero_of_hash letter _ other mem

theorem kind?_call {name : String} (h : Lettered name.toList) :
    kind? "" 0 ('#' :: name.toList) .function = .ok (some (.function name)) := by
  have noDigit : Predicate.letters.any isDigitLike = false := by decide
  have none : ('#' :: name.toList).any isDigitLike = false := by
    rw [List.any_eq_false]
    intro d mem
    rcases List.mem_cons.mp mem with rfl | mem
    · decide
    · exact List.any_eq_false.mp noDigit d (h.2 d mem)
  rw [kind?, none]
  simp

/-- A number sign and letters spell the call of that name. -/
theorem spells_call {name : String} (h : Lettered name.toList) :
    Spells ('#' :: name.toList) [.call name []] :=
  spells_of_classify (fun _ => classify_call h) (kind?_call h)
    fun _ kind => .call kind (by simp [Grammar.Detached])

/-- A dollar sign captures what stands behind it. -/
theorem spells_capture {cs : List Char} {e : Element} (h : Spells cs [e])
    (single : e.isRest = false) : Spells ('$' :: cs) [.capture e] := by
  intro pos
  obtain ⟨ls, read, -, scans⟩ := h (pos + 1)
  refine ⟨⟨.capture, "$", pos⟩ :: ls, Spells.of_scan ?_ ?_⟩
  · cases read with
    | item first others =>
      cases others
      exact .single (.capture rfl (first.outside single))
  · intro p after delimited
    have found : classify ('$' :: (cs ++ after)) = some (.fixed .capture, 1) := rfl
    have place : pos + 1 + cs.length = pos + ('$' :: cs).length := by
      rw [List.length_cons]
      omega
    rw [List.cons_append, scan_cons found (q := "") rfl, List.drop_succ_cons, List.drop_zero,
      scans p after delimited, place]
    cases scan p 0 (pos + ('$' :: cs).length) after <;> rfl

/-- Behind a number sign no letters are taken for an absent child. -/
theorem marksTo_call {cs : List Char} (h : Lettered cs) : MarksTo ('#' :: cs) ('#' :: cs) := by
  intro previous _ after delimited
  rw [List.cons_append, markFrom_cons (.inr (by simp)) (by decide) (by decide),
    markFrom_word h.isWord rfl delimited, List.cons_append]

theorem marksTo_capture {cs : List Char} (h : MarksTo cs cs) : MarksTo ('$' :: cs) ('$' :: cs) := by
  intro previous _ after delimited
  rw [List.cons_append, markFrom_cons (.inr (by simp)) (by decide) (by decide),
    h (some '$') rfl after delimited, List.cons_append]

-- ============================================================================
-- The text of a tree
-- ============================================================================

/-- The token of a registration is its mark and letters. -/
def Registration.Legible (r : Registration) : Prop :=
  r.Spelled ∧ Lettered r.name.toList

namespace Sketch

theorem written_leaf {r : Registration} (h : r.Legible) :
    Spells r.token.text.toList [(leaf r).pattern] ∧
      MarksTo r.token.text.toList r.token.text.toList := by
  obtain ⟨spelled, letters⟩ := h
  have call : Spells ('#' :: r.name.toList) [.call r.name []] := spells_call letters
  have text : r.token.text.toList = r.mark.toList ++ r.name.toList := by
    rw [spelled, String.toList_append]
  rw [text, pattern, Registration.mark]
  cases r.capturing with
  | false => exact ⟨call, marksTo_call letters⟩
  | true => exact ⟨spells_capture call rfl, marksTo_capture (marksTo_call letters)⟩

mutual

/-- The text of the tree spells its pattern, and no absent child is found in it. -/
theorem written {s : Sketch} (h : s.Leaves Registration.Legible) :
    ∃ text, s.toValue.render = .ok text ∧ Spells text.toList [s.pattern] ∧
      MarksTo text.toList text.toList := by
  cases s with
  | leaf r => exact ⟨r.token.text, rfl, written_leaf h⟩
  | node type children location =>
    obtain ⟨texts, rendered, spelled, marks⟩ := writtenAll h.2
    obtain ⟨text, whole, parts⟩ := Value.exists_render_node type location rendered
    refine ⟨text, whole, ?_⟩
    rw [parts]
    exact ⟨Value.spells_plainSequence (spells_type h.1) spelled,
      marksTo_node (fun _ => markFrom_word (isWord_of_isTypeName h.1) rfl) marks⟩

theorem writtenAll {ss : List Sketch} (h : LeavesAll Registration.Legible ss) :
    ∃ texts, Value.renderAll (toValues ss) = .ok texts ∧
      List.Forall₂ Spells (texts.map String.toList) ((patterns ss).map fun e => [e]) ∧
        List.Forall₂ MarksTo (texts.map String.toList) (texts.map String.toList) := by
  cases ss with
  | nil => exact ⟨[], rfl, .nil, .nil⟩
  | cons s ss =>
    obtain ⟨text, rendered, spelled, marks⟩ := written h.1
    obtain ⟨texts, others, spelledAll, marksAll⟩ := writtenAll h.2
    refine ⟨text :: texts, ?_, .cons spelled spelledAll, .cons marks marksAll⟩
    rw [toValues, Value.renderAll, rendered, others]
    rfl

end

/-- Compiling the tree gives its pattern, if the table binds what it calls. -/
theorem ofTree_eq_ok {s : Sketch} (h : s.Leaves Registration.Legible) {functions : Functions}
    (bound : ∀ name ∈ s.pattern.calledNames, (functions.lookup name).isSome) :
    ∃ text, Compiled.ofTree s.toValue functions = .ok ⟨text, s.pattern, functions⟩ := by
  obtain ⟨text, rendered, spelled, marks⟩ := s.written h
  have unmarked : AbsentChild.mark text = text := by
    have whole := marks none rfl [] delimited_nil
    rw [List.append_nil, markFrom, List.append_nil] at whole
    rw [AbsentChild.mark, whole, String.ofList_toList]
  refine ⟨text, Value.ofTree_eq_ok_iff.mpr ⟨text, rendered, ?_⟩⟩
  rw [unmarked, Compiled.compile_eq_ok_iff]
  exact ⟨parse_of_spells spelled s.isRest_pattern, rfl, rfl, bound⟩

-- ============================================================================
-- Matching
-- ============================================================================

/-- The table binds the name of a registration to its predicate, which answers
    whatever it is asked. -/
def Served (functions : Functions) (r : Registration) : Prop :=
  functions.lookup r.name = some r.datum.predicate ∧
    ∀ x, ∃ answer, r.datum.predicate x [] = .ok answer

/-- An attempt succeeds exactly if something fits, and then adds captures; a
    failed one leaves the state as it was. -/
def Tells (result : Attempt) (s : MatchState) (fits : Prop) (captures : List Value) : Prop :=
  (fits ∧ result = .ok (true, ⟨s.captures ++ captures, s.bindings⟩)) ∨
    (¬fits ∧ result = .ok (false, s))

variable {functions : Functions}

theorem tells_call {r : Registration} (h : Served functions r) (x : Value) (s : MatchState) :
    Tells (Element.attempt functions (.call r.name []) x s) s
      (r.datum.predicate x [] = .ok true) [] := by
  obtain ⟨answer, answered⟩ := h.2 x
  have run : Element.attempt functions (.call r.name []) x s = .ok (answer, s) := by
    rw [Element.attempt, h.1]
    simp only [List.map_nil, answered]
  rw [run, answered]
  cases answer with
  | true => exact .inl ⟨rfl, by rw [List.append_nil]⟩
  | false => exact .inr ⟨by simp, rfl⟩

theorem tells_leaf {r : Registration} (h : Served functions r) (x : Value) (s : MatchState) :
    Tells (Element.attempt functions (leaf r).pattern x s) s ((leaf r).Fits x)
      ((leaf r).captured x) := by
  rw [pattern, Fits, captured]
  cases r.capturing with
  | false => exact tells_call h x s
  | true =>
    simp only [if_true]
    rcases tells_call h x (s.push .nil) with ⟨fits, run⟩ | ⟨fails, run⟩
    · refine .inl ⟨fits, ?_⟩
      rw [Element.attempt, run]
      simp [MatchState.push, MatchState.fill]
    · refine .inr ⟨fails, ?_⟩
      rw [Element.attempt, run]

mutual

theorem tells_attempt {sk : Sketch} (h : sk.Leaves (Served functions)) (u : Value)
    (s : MatchState) :
    Tells (Element.attempt functions sk.pattern u s) s (sk.Fits u) (sk.captured u) := by
  cases sk with
  | leaf r => exact tells_leaf h u s
  | node type children location =>
    rw [pattern]
    cases u with
    | node other others place =>
      have head : Element.attempt functions (.nodeType type.text) (.head other.text) s =
          .ok (other.text == type.text, s) := rfl
      rw [Element.attempt, Element.attemptSequence_cons rfl, head]
      by_cases same : other.text = type.text
      · rw [beq_iff_eq.mpr same]
        rcases tells_attemptSequence h.2 others s with ⟨fits, run⟩ | ⟨fails, run⟩
        · exact .inl ⟨⟨same.symm, fits⟩, by simp only [run]; rfl⟩
        · exact .inr ⟨fun fits => fails fits.2, by simp only [run]⟩
      · rw [beq_eq_false_iff_ne.mpr same]
        exact .inr ⟨fun fits => same fits.1.symm, rfl⟩
    | _ => exact .inr ⟨nofun, rfl⟩

theorem tells_attemptSequence {ss : List Sketch} (h : LeavesAll (Served functions) ss)
    (us : List Value) (s : MatchState) :
    Tells (Element.attemptSequence functions (patterns ss) us s) s (FitsAll ss us)
      (capturedAll ss us) := by
  cases ss with
  | nil =>
    cases us with
    | nil => exact .inl ⟨rfl, by simp [patterns, Element.attemptSequence, capturedAll]⟩
    | cons u us => exact .inr ⟨nofun, rfl⟩
  | cons sk ss =>
    rw [patterns]
    cases us with
    | nil =>
      rw [Element.attemptSequence_nil sk.isRest_pattern]
      exact .inr ⟨nofun, rfl⟩
    | cons u us =>
      rw [Element.attemptSequence_cons sk.isRest_pattern]
      rcases tells_attempt h.1 u s with ⟨fits, run⟩ | ⟨fails, run⟩
      · rw [run]
        dsimp only
        rcases tells_attemptSequence h.2 us ⟨s.captures ++ sk.captured u, s.bindings⟩ with
          ⟨others, run⟩ | ⟨fails, run⟩
        · refine .inl ⟨⟨fits, others⟩, ?_⟩
          rw [run, capturedAll, List.append_assoc]
        · exact .inr ⟨fun both => fails both.2, by rw [run]⟩
      · rw [run]
        exact .inr ⟨fun both => fails both.1, rfl⟩

end

-- ============================================================================
-- Names
-- ============================================================================

mutual

/-- Only the names of leaves are called. -/
theorem leaf_of_call {P : Registration → Prop} {name : String} {arguments : List Scalar} :
    ∀ {sk : Sketch}, sk.Leaves P → .call name arguments ∈ sk.pattern.walk →
      ∃ r, P r ∧ r.name = name
  | .leaf r, h, call => by
    refine ⟨r, h, ?_⟩
    rw [pattern] at call
    split at call <;> simp [Element.walk] at call <;> exact call.1.symm
  | .node _ _ _, h, call => by
    simp only [pattern, Element.walk, Element.walkAll, List.singleton_append, List.mem_cons,
      reduceCtorEq, false_or] at call
    exact leaf_of_callAll h.2 call

theorem leaf_of_callAll {P : Registration → Prop} {name : String} {arguments : List Scalar} :
    ∀ {ss : List Sketch}, LeavesAll P ss → .call name arguments ∈ Element.walkAll (patterns ss) →
      ∃ r, P r ∧ r.name = name
  | [], _, call => nomatch call
  | _ :: _, h, call => by
    rw [patterns, Element.walkAll, List.mem_append] at call
    rcases call with call | call
    · exact leaf_of_call h.1 call
    · exact leaf_of_callAll h.2 call

end

end Sketch

/-- After any run of a builder that registers at most 702 predicates, all of
    them total, each registration has its token; and any tree of nodes over
    these tokens compiles with the predicates of the builder. The pattern
    matches just the candidates of the tree's shape whose parts pass the leaves'
    own predicates, and captures the parts at capturing leaves from left to
    right. -/
theorem tokens_bind_own_predicates (parser : Ruby.Parser) (steps : List Step)
    (few : (asked steps).length ≤ 702)
    (total : ∀ registered ∈ asked steps, ∀ x, ∃ answer, registered.2.predicate x [] = .ok answer) :
    let registrations := (run parser .empty steps).1
    let bench := (run parser .empty steps).2
    registrations.map (fun r => (r.capturing, r.datum)) = asked steps ∧
    ∀ s : Sketch, s.Leaves (· ∈ registrations) →
      ∃ p, ((compile s.toValue).perform bench).1 = .ok p ∧
        ∀ u, ∃ captures, p.captures? u = .ok captures ∧
          (captures.isSome ↔ s.Fits u) ∧ ∀ values, captures = some values → values = s.captured u := by
  intro registrations bench
  have room : ([] : List Registration).length + (asked steps).length ≤ 702 := by simpa using few
  obtain ⟨recorded, all⟩ := recorded_empty.run parser room
  rw [List.nil_append] at recorded
  refine ⟨all, fun s leaves => ?_⟩
  have served : ∀ r ∈ registrations, Sketch.Served bench.registry.entries r := by
    intro r mem
    refine ⟨recorded.lookup_eq mem, total (r.capturing, r.datum) ?_⟩
    rw [← all]
    exact List.mem_map_of_mem mem
  have bound : ∀ name ∈ s.pattern.calledNames, (bench.registry.entries.lookup name).isSome := by
    intro name called
    obtain ⟨arguments, call⟩ := Element.mem_calledNames.mp called
    obtain ⟨r, mem, rfl⟩ := Sketch.leaf_of_call leaves call
    rw [recorded.lookup_eq mem]
    rfl
  obtain ⟨text, compiled⟩ := Sketch.ofTree_eq_ok
    (leaves.mono fun r mem => ⟨recorded.spelled r mem, recorded.letters mem⟩) bound
  refine ⟨⟨text, s.pattern, bench.registry.entries⟩, ?_, fun u => ?_⟩
  · unfold compile
    have table : predicates.perform bench = (.ok bench.registry.entries, bench) := rfl
    rw [Building.perform_bind, table]
    simp only [compiled, settled, pure_bind]
    rfl
  · unfold Compiled.captures? Element.captures?
    rcases Sketch.tells_attempt (leaves.mono served) u .empty with ⟨fits, run⟩ | ⟨fails, run⟩
    · exact ⟨some (s.captured u), by rw [run]; rfl, by simp [fits], by simp⟩
    · exact ⟨none, by rw [run], by simp [fails], by simp⟩

/-- Two predicates, the first used twice, with source read in between. -/
theorem tokens_bind_own_predicates_pair :
    let steps : List Step := [.register false (.value (.sym "k")), .parse "a",
      .register true (.value (.criterion (.class .str)))]
    let tree := Value.node (.plain "pair") [.token (.plain "#a"),
      .node (.plain "str") [.token (.plain "$#b")] none, .token (.plain "#a")] none
    ∃ p, ((compile tree).perform (run (.ofGrammar fun _ => none) .empty steps).2).1 = .ok p ∧
      p.captures? (.node (.plain "pair") [.sym "k", .node (.plain "str") [.str "x"] none, .sym "k"]
        none) = .ok (some [.str "x"]) := by
  intro steps tree
  let first : Registration := ⟨false, .value (.sym "k"), .plain "#a"⟩
  let second : Registration := ⟨true, .value (.criterion (.class .str)), .plain "$#b"⟩
  have few : (asked steps).length ≤ 702 := by decide
  have total : ∀ registered ∈ asked steps, ∀ x,
      ∃ answer, registered.2.predicate x [] = .ok answer := by
    simp only [steps, asked, List.filterMap_cons, List.filterMap_nil, List.forall_mem_cons]
    exact ⟨fun x => ⟨_, rfl⟩, fun x => ⟨_, rfl⟩, by simp⟩
  have ran : (run (.ofGrammar fun _ => none) .empty steps).1 = [first, second] := rfl
  obtain ⟨-, binds⟩ := tokens_bind_own_predicates (.ofGrammar fun _ => none) steps few total
  rw [ran] at binds
  obtain ⟨p, compiled, matched⟩ := binds
    (.node (.plain "pair") [.leaf first, .node (.plain "str") [.leaf second] none, .leaf first] none)
    ⟨by decide, by simp [Sketch.Leaves], ⟨by decide, by simp [Sketch.Leaves], trivial⟩,
      by simp [Sketch.Leaves], trivial⟩
  refine ⟨p, compiled, ?_⟩
  obtain ⟨captures, run, fits, values⟩ := matched (.node (.plain "pair")
    [.sym "k", .node (.plain "str") [.str "x"] none, .sym "k"] none)
  have itself : (Value.sym "k").admits (.sym "k") = true := by
    simp [Value.admits, Value.same, Value.sameLeaf, Value.symbol?]
  have equal : (Datum.value (.sym "k")).predicate (.sym "k") [] = .ok true :=
    congrArg Except.ok itself
  obtain ⟨found, rfl⟩ := Option.isSome_iff_exists.mp
    (fits.mpr ⟨rfl, equal, ⟨rfl, rfl, rfl⟩, equal, rfl⟩)
  rw [run, values found rfl]
  rfl

end RubyPattern.Builder
