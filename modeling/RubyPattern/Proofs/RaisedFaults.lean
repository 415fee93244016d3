/-
  RubyPattern.Proofs.RaisedFaults

  Where a failure of matching comes from. A compiled pattern never fails by
  itself: rests stand directly in sequences, unions have branches, predicates
  resolve and called names are bound. So each fault of a match is one that a
  bound function raised, on a value that the match met and with the arguments
  that the pattern gives.
-/
import RubyPattern.Proofs.MatchState

namespace RubyPattern

/-- What a match of a value can look at: the value itself and, below a node, its
    head and what can be met in its children. -/
inductive Value.Meets : Value → Value → Prop
  | self (v : Value) : Meets v v
  | head (type : Label) (children : List Value) (location : Option Location) :
      Meets (.node type children location) (.head type.text)
  | child {type : Label} {children : List Value} {location : Option Location} {v u : Value}
      (mem : v ∈ children) (below : Meets v u) : Meets (.node type children location) u

namespace Element

/-- A function that the pattern calls, and the table binds, raises the fault on
    a value met in the candidate. -/
def Raises (functions : Functions) (e : Element) (v : Value) (fault : Fault) : Prop :=
  ∃ name arguments function u, .call name arguments ∈ e.walk ∧
    functions.lookup name = some function ∧ v.Meets u ∧
      function u (arguments.map Scalar.toValue) = .error fault

/-- Matching can do something with this element: it resolves, has branches or is
    bound, and holds rests only if it is a sequence. -/
structure Ready (functions : Functions) (e : Element) : Prop where
  resolved : ∀ name, e = .predicate name → (Builtin.ofName? name).isSome
  branches : ∀ es, e = .union es → es ≠ []
  bound : ∀ name arguments, e = .call name arguments → (functions.lookup name).isSome
  rests : ∀ d ∈ e.parts, d.isRest = true → ∃ es, e = .sequence es

variable {functions : Functions} {fault : Fault}

/-- What a part raises, the whole raises. -/
theorem Raises.of_mem_parts {d e : Element} {v : Value} (h : d.Raises functions v fault)
    (part : d ∈ e.parts) : e.Raises functions v fault := by
  obtain ⟨name, arguments, function, u, called, bound, met, raised⟩ := h
  exact ⟨name, arguments, function, u, walk_subset_of_mem_parts part called, bound, met, raised⟩

/-- What is raised in an item of a node is raised in the node. -/
theorem Raises.of_item {e : Element} {item : Value} {type : Label} {children : List Value}
    {location : Option Location} (h : e.Raises functions item fault)
    (mem : item ∈ Value.head type.text :: children) :
    e.Raises functions (.node type children location) fault := by
  obtain ⟨name, arguments, function, u, called, bound, met, raised⟩ := h
  refine ⟨name, arguments, function, u, called, bound, ?_, raised⟩
  rcases List.mem_cons.mp mem with rfl | mem
  · cases met
    exact .head type children location
  · exact .child mem met

-- ============================================================================
-- The loops of the search
-- ============================================================================

theorem exists_next_of_tryLengths_error {next : List Value → MatchState → Attempt}
    {captured : Bool} {s : MatchState} {extra : Nat} {skipped items : List Value}
    (run : tryLengths next captured s extra skipped items = .error fault) :
    ∃ later t, later <:+ items ∧ next later t = .error fault := by
  induction extra generalizing skipped items with
  | zero =>
    unfold tryLengths at run
    split at run
    next inner =>
      cases run
      exact ⟨items, _, List.suffix_refl items, inner⟩
    next => cases run
    next => cases run
  | succ extra ih =>
    unfold tryLengths at run
    split at run
    next inner =>
      cases run
      exact ⟨items, _, List.suffix_refl items, inner⟩
    next => cases run
    next =>
      cases items with
      | nil => cases run
      | cons item items =>
        obtain ⟨later, t, suffix, inner⟩ := ih run
        exact ⟨later, t, suffix.trans (List.suffix_cons item items), inner⟩

theorem exists_mem_of_attemptAny_error {es : List Element} {v : Value} {s : MatchState}
    (run : attemptAny functions es v s = .error fault) :
    ∃ e ∈ es, attempt functions e v s = .error fault := by
  induction es with
  | nil => cases run
  | cons e es ih =>
    rw [attemptAny] at run
    split at run
    next inner =>
      cases run
      exact ⟨e, List.mem_cons_self, inner⟩
    next => cases run
    next =>
      obtain ⟨d, hd, inner⟩ := ih run
      exact ⟨d, List.mem_cons_of_mem e hd, inner⟩

theorem exists_mem_of_attemptAll_error {es : List Element} {v : Value} {s : MatchState}
    (run : attemptAll functions es v s = .error fault) :
    ∃ e ∈ es, ∃ t, attempt functions e v t = .error fault := by
  induction es generalizing s with
  | nil => cases run
  | cons e es ih =>
    rw [attemptAll] at run
    split at run
    next inner =>
      cases run
      exact ⟨e, List.mem_cons_self, s, inner⟩
    next =>
      obtain ⟨d, hd, t, inner⟩ := ih run
      exact ⟨d, List.mem_cons_of_mem e hd, t, inner⟩
    next => cases run

/-- A rest is never attempted by itself, so the fault comes from one of the
    other elements. -/
theorem exists_mem_of_attemptSequence_error {es : List Element} {items : List Value}
    {s : MatchState} (run : attemptSequence functions es items s = .error fault) :
    ∃ e ∈ es, e.isRest = false ∧ ∃ item ∈ items, ∃ t,
      attempt functions e item t = .error fault := by
  induction es generalizing items s with
  | nil => cases run
  | cons e es ih =>
    have later {rest : List Value} {t : MatchState} (subset : rest ⊆ items)
        (run : attemptSequence functions es rest t = .error fault) :
        ∃ d ∈ e :: es, d.isRest = false ∧ ∃ item ∈ items, ∃ t,
          attempt functions d item t = .error fault := by
      obtain ⟨d, hd, plain, item, mem, inner⟩ := ih run
      exact ⟨d, List.mem_cons_of_mem e hd, plain, item, subset mem, inner⟩
    cases he : e.isRest with
    | true =>
      obtain ⟨captured, rfl⟩ := isRest_eq_true_iff.mp he
      rw [attemptSequence] at run
      split at run
      next =>
        obtain ⟨rest, t, suffix, inner⟩ := exists_next_of_tryLengths_error run
        exact later suffix.subset inner
      next => cases run
    | false =>
      cases items with
      | nil =>
        rw [attemptSequence_nil he] at run
        cases run
      | cons item items =>
        rw [attemptSequence_cons he] at run
        split at run
        next inner =>
          cases run
          exact ⟨e, List.mem_cons_self, he, item, List.mem_cons_self, s, inner⟩
        next => cases run
        next t _ =>
          split at run
          next inner =>
            cases run
            exact later (List.subset_cons_self item items) inner
          next => cases run
          next => cases run

-- ============================================================================
-- Patterns
-- ============================================================================

/-- An admissible pattern fails only where a function does that it calls, if
    all of these are bound. -/
theorem Admissible.raises {e : Element} (he : e.Admissible)
    (bound : ∀ name ∈ e.calledNames, (functions.lookup name).isSome) {v : Value} {s : MatchState}
    (run : attempt functions e v s = .error fault) : e.Raises functions v fault := by
  have inner {d e : Element} (part : d ∈ e.parts)
      (bound : ∀ name ∈ e.calledNames, (functions.lookup name).isSome) :
      ∀ name ∈ d.calledNames, (functions.lookup name).isSome :=
    fun name called => bound name (calledNames_subset_of_mem_parts part called)
  induction he generalizing v s with
  | wildcard => cases run
  | unify name =>
    rw [attempt] at run
    split at run <;> cases run
  | scalar l => cases run
  | nodeType type => cases run
  | predicate name known =>
    rw [attempt] at run
    split at run <;> cases run
  | call name arguments =>
    have called : .call name arguments ∈ walk (.call name arguments) := mem_walk_self _
    obtain ⟨function, found⟩ :=
      Option.isSome_iff_exists.mp (bound name (mem_calledNames.mpr ⟨arguments, called⟩))
    rw [attempt] at run
    simp only [found] at run
    split at run
    next raised =>
      cases run
      exact ⟨name, arguments, function, v, called, found, .self v, raised⟩
    next => cases run
  | capture e _ ih =>
    have part : e ∈ parts (.capture e) := List.mem_singleton_self e
    rw [attempt] at run
    split at run
    next failed =>
      cases run
      exact (ih (inner part bound) failed).of_mem_parts part
    next => cases run
    next => cases run
  | negation e _ _ ih =>
    have part : e ∈ parts (.negation e) := List.mem_singleton_self e
    rw [attempt] at run
    split at run
    next failed =>
      cases run
      exact (ih (inner part bound) failed).of_mem_parts part
    next => cases run
  | union es _ _ _ ih =>
    rw [attempt] at run
    obtain ⟨e, he, failed⟩ := exists_mem_of_attemptAny_error run
    have part : e ∈ parts (.union es) := he
    exact (ih e he (inner part bound) failed).of_mem_parts part
  | intersection es _ _ ih =>
    rw [attempt] at run
    split at run
    next all =>
      cases run
      obtain ⟨e, he, t, failed⟩ := exists_mem_of_attemptAll_error all
      have part : e ∈ parts (.intersection es) := he
      exact (ih e he (inner part bound) failed).of_mem_parts part
    next => cases run
    next => cases run
  | sequence es _ _ ih =>
    cases v with
    | node type children location =>
      rw [attempt] at run
      obtain ⟨e, he, plain, item, mem, t, failed⟩ := exists_mem_of_attemptSequence_error run
      have part : e ∈ parts (.sequence es) := he
      exact ((ih e he plain (inner part bound) failed).of_mem_parts part).of_item mem
    | _ => cases run

/-- Rests stand in sequences only, so no other part of an admissible pattern is
    one. -/
theorem Admissible.ready {e : Element} (he : e.Admissible)
    (bound : ∀ name ∈ e.calledNames, (functions.lookup name).isSome) : e.Ready functions where
  resolved := by
    rintro name rfl
    cases he
    assumption
  branches := by
    rintro es rfl
    cases he
    assumption
  bound := by
    rintro name arguments rfl
    exact bound name (mem_calledNames.mpr ⟨arguments, mem_walk_self _⟩)
  rests := by
    intro d part rest
    have absurdity (hd : d.Admissible) : ∃ es, e = .sequence es := by
      rw [hd.isRest_eq_false] at rest
      cases rest
    cases he with
    | capture c inner => exact absurdity (List.mem_singleton.mp part ▸ inner)
    | negation c inner => exact absurdity (List.mem_singleton.mp part ▸ inner)
    | union es _ _ inner => exact absurdity (inner d part)
    | intersection es _ inner => exact absurdity (inner d part)
    | sequence es => exact ⟨es, rfl⟩
    | _ => cases part

/-- Every element of an admissible pattern is ready, rests too. -/
theorem Admissible.ready_of_mem_walk {d e : Element} (he : e.Admissible)
    (bound : ∀ name ∈ e.calledNames, (functions.lookup name).isSome) (inside : d ∈ e.walk) :
    d.Ready functions := by
  cases hd : d.isRest with
  | true =>
    obtain ⟨captured, rfl⟩ := isRest_eq_true_iff.mp hd
    exact ⟨nofun, nofun, nofun, nofun⟩
  | false =>
    refine (he.of_mem_walk inside hd).ready fun name called => ?_
    obtain ⟨arguments, call⟩ := mem_calledNames.mp called
    exact bound name (mem_calledNames.mpr ⟨arguments, walk_subset_of_mem_walk inside call⟩)

end Element

-- ============================================================================
-- Compiled patterns
-- ============================================================================

namespace Compiled

/-- A fault that the pattern's functions raise on a value. -/
def Raises (p : Compiled) (v : Value) (fault : Fault) : Prop :=
  p.root.Raises p.functions v fault

variable {p : Compiled} {fault : Fault}

theorem captures?_of_matchValue_error {v : Value} (run : p.matchValue v = .error fault) :
    p.captures? v = .error fault := by
  unfold matchValue at run
  cases found : p.captures? v with
  | error other =>
    simp only [found, bind, Except.bind] at run
    cases run
    rfl
  | ok captures =>
    simp only [found, bind, Except.bind] at run
    cases captures <;> cases run

/-- A search fails at one of the nodes. -/
theorem exists_mem_of_select_error {nodes : List Node} (run : p.select nodes = .error fault) :
    ∃ n ∈ nodes, p.captures? n.toValue = .error fault := by
  induction nodes with
  | nil => cases run
  | cons n nodes ih =>
    rw [select] at run
    cases here : p.captures? n.toValue with
    | error other =>
      simp only [here, bind, Except.bind] at run
      cases run
      exact ⟨n, List.mem_cons_self, here⟩
    | ok captures =>
      cases later : p.select nodes with
      | error other =>
        simp only [here, later, bind, Except.bind] at run
        cases run
        obtain ⟨m, hm, failed⟩ := ih later
        exact ⟨m, List.mem_cons_of_mem n hm, failed⟩
      | ok found =>
        simp only [here, later, bind, Except.bind] at run
        cases run

/-- A compiled pattern never fails by itself. A fault of its captures, of its
    match or of a search is one that a bound function raised; and every element
    is ready: no rest stands outside of a sequence, no union is empty, every
    predicate resolves and every called name is bound. -/
theorem raises_of_error {pattern : String} {functions : Functions}
    (compiled : compile pattern functions = .ok p) :
    (∀ v fault, p.captures? v = .error fault → p.Raises v fault) ∧
    (∀ v fault, p.matchValue v = .error fault → p.Raises v fault) ∧
    (∀ tree fault, p.search tree = .error fault →
      ∃ n ∈ tree.nodes, p.Raises n.toValue fault) ∧
    p.root.isRest = false ∧ ∀ e ∈ p.root.walk, e.Ready p.functions := by
  obtain ⟨parsed, -, rfl, bound⟩ := compile_eq_ok_iff.mp compiled
  have admissible := Grammar.admissible_of_parse parsed
  have captured : ∀ v fault, p.captures? v = .error fault → p.Raises v fault := by
    intro v fault run
    unfold captures? Element.captures? at run
    split at run
    next failed =>
      cases run
      exact admissible.raises bound failed
    next => cases run
    next => cases run
  refine ⟨captured, ?_, ?_, admissible.isRest_eq_false, ?_⟩
  · intro v fault run
    exact captured v fault (captures?_of_matchValue_error run)
  · intro tree fault run
    rw [search_eq_select] at run
    obtain ⟨n, mem, failed⟩ := exists_mem_of_select_error run
    exact ⟨n, mem, captured n.toValue fault failed⟩
  · intro e inside
    exact admissible.ready_of_mem_walk bound inside

/-- The function passes over the first symbol and fails on the second one, which
    it meets once the rest has skipped the first. -/
theorem raises_of_error_behindRest :
    let checked : Function := fun v _ =>
      match v with
      | .sym "b" => .error (.predicateFailed "b")
      | _ => .ok false
    let tree := Node.bare "array" [.sym "a", .sym "b"]
    ∃ p, compile "(array ... #checked(1))" [("checked", checked)] = .ok p ∧
      p.search tree = .error (.predicateFailed "b") ∧
      ∃ n ∈ tree.nodes, p.Raises n.toValue (.predicateFailed "b") := by
  intro checked tree
  let root := Element.sequence [.nodeType "array", .rest false, .call "checked" [.integer 1]]
  have lexemes : Lexeme.tokenize "(array ... #checked(1))" = .ok
      [⟨.opening .round, "(", 0⟩, ⟨.nodeType "array", "array", 1⟩, ⟨.rest, "...", 7⟩,
        ⟨.function "checked", "#checked", 11⟩, ⟨.opening .round, "(", 19⟩,
        ⟨.scalar (.integer 1), "1", 20⟩, ⟨.closing .round, ")", 21⟩,
        ⟨.closing .round, ")", 22⟩] := rfl
  have parsed : Grammar.parse "(array ... #checked(1))" = .ok root := by
    rw [Grammar.parse_eq_ok_iff]
    refine ⟨_, lexemes, .sequence rfl ?_ (by simp)⟩
    exact .item (.nodeType rfl) (.item (.rest rfl)
      (.item (.callWith rfl rfl rfl (.literal rfl (.close rfl))) (.close rfl)))
  have compiled : compile "(array ... #checked(1))" [("checked", checked)] = .ok
      ⟨"(array ... #checked(1))", root, [("checked", checked)]⟩ := by
    rw [compile_eq_ok_iff]
    refine ⟨parsed, rfl, rfl, ?_⟩
    simp [root, Element.calledNames, Element.walk, Element.walkAll]
  obtain ⟨-, -, searched, -⟩ := raises_of_error compiled
  have failed : (⟨"(array ... #checked(1))", root, [("checked", checked)]⟩ : Compiled).search tree =
      .error (.predicateFailed "b") := by
    rw [search_eq_select]
    rfl
  exact ⟨_, compiled, failed, searched tree (.predicateFailed "b") failed⟩

end Compiled

end RubyPattern
