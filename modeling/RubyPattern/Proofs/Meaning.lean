/-
  RubyPattern.Proofs.Meaning

  What patterns without names mean, as sets of values, and that matching
  decides it. The meaning knows no order, no state and no search: a negation
  is a complement, a union a union, and a sequence is cut into segments at
  will. The backtracking search of `attempt` finds a cut exactly if there is
  one, in whatever state it starts.
-/
import Mathlib.Data.Set.Insert
import RubyPattern.Proofs.Admissible

namespace RubyPattern

/-- The values that pass a builtin test. -/
def Builtin.truthSet : Builtin → Set Value
  | .absent => {.nil}
  | .typed type => {v | ∃ children location, v = .node (.plain type) children location}

theorem Builtin.holds_iff_mem_truthSet (test : Builtin) (v : Value) :
    test.holds v = true ↔ v ∈ test.truthSet := by
  cases test with
  | absent => cases v <;> simp [Builtin.holds, Builtin.truthSet]
  | typed type => cases v <;> simp [Builtin.holds, Builtin.truthSet]

/-- The nodes of a type, and that type at the head of a sequence. -/
theorem Value.hasType_iff {type : String} {v : Value} :
    v.hasType type = true ↔
      (∃ children location, v = .node (.plain type) children location) ∨ v = .head type := by
  cases v <;> simp [Value.hasType]

namespace Element

mutual

/-- The values that a pattern accepts. A name by itself accepts every value;
    a rest accepts no single value. -/
def meaning (functions : Functions) : Element → Set Value
  | .wildcard => Set.univ
  | .unify _ => Set.univ
  | .scalar l => {v | l.toValue.literalEquals v = true}
  | .nodeType type =>
    {v | (∃ children location, v = .node (.plain type) children location) ∨ v = .head type}
  | .predicate name => {v | ∃ test, Builtin.ofName? name = some test ∧ v ∈ test.truthSet}
  | .call name arguments =>
    {v | ∃ function, functions.lookup name = some function ∧
      function v (arguments.map Scalar.toValue) = .ok true}
  | .capture e => meaning functions e
  | .negation e => (meaning functions e)ᶜ
  | .union es => unionMeaning functions es
  | .intersection es => intersectionMeaning functions es
  | .rest _ => ∅
  | .sequence es =>
    {v | ∃ type children location segments, v = .node type children location ∧
      List.flatten segments = .head type.text :: children ∧ fits functions es segments}

/-- What one of the patterns accepts. -/
def unionMeaning (functions : Functions) : List Element → Set Value
  | [] => ∅
  | e :: es => meaning functions e ∪ unionMeaning functions es

/-- What all of the patterns accept. -/
def intersectionMeaning (functions : Functions) : List Element → Set Value
  | [] => Set.univ
  | e :: es => meaning functions e ∩ intersectionMeaning functions es

/-- One segment for each element in order: any for a rest, and a single
    accepted value for every other element. -/
def fits (functions : Functions) : List Element → List (List Value) → Prop
  | [], [] => True
  | .rest _ :: es, _ :: segments => fits functions es segments
  | e :: es, segment :: segments =>
    (∃ v, segment = [v] ∧ v ∈ meaning functions e) ∧ fits functions es segments
  | _, _ => False

end

/-- Some cut of the items into segments fits the elements. -/
def Cut (functions : Functions) (es : List Element) (items : List Value) : Prop :=
  ∃ segments, List.flatten segments = items ∧ fits functions es segments

-- ============================================================================
-- Cuts, from the first element on
-- ============================================================================

section Cuts

variable {functions : Functions} {e : Element} {es : List Element} {items : List Value}

theorem fits_cons_of_isRest (he : e.isRest = false) {segments : List (List Value)} :
    fits functions (e :: es) segments ↔ ∃ v others, segments = [v] :: others ∧
      v ∈ e.meaning functions ∧ fits functions es others := by
  cases segments with
  | nil => cases e <;> simp [fits]
  | cons segment others =>
    cases e <;> simp [isRest] at he <;> simp only [fits, List.cons.injEq] <;> grind

@[simp] theorem cut_nil : Cut functions [] items ↔ items = [] := by
  constructor
  · rintro ⟨segments, rfl, h⟩
    cases segments with
    | nil => rfl
    | cons => simp [fits] at h
  · rintro rfl
    exact ⟨[], rfl, by simp [fits]⟩

/-- A rest may skip any number of items. -/
theorem cut_rest {captured : Bool} :
    Cut functions (.rest captured :: es) items ↔ ∃ n, Cut functions es (items.drop n) := by
  constructor
  · rintro ⟨segments, rfl, h⟩
    cases segments with
    | nil => simp [fits] at h
    | cons segment others => exact ⟨segment.length, others, by simp, by simpa [fits] using h⟩
  · rintro ⟨n, segments, hflat, h⟩
    exact ⟨items.take n :: segments, by simp [hflat], by simpa [fits] using h⟩

/-- Every other element takes one item, which it accepts. -/
theorem cut_cons (he : e.isRest = false) :
    Cut functions (e :: es) items ↔ ∃ v others, items = v :: others ∧
      v ∈ e.meaning functions ∧ Cut functions es others := by
  constructor
  · rintro ⟨segments, rfl, h⟩
    obtain ⟨v, others, rfl, hv, h⟩ := (fits_cons_of_isRest he).mp h
    exact ⟨v, others.flatten, by simp, hv, others, rfl, h⟩
  · rintro ⟨v, _, rfl, hv, segments, rfl, h⟩
    exact ⟨[v] :: segments, by simp, (fits_cons_of_isRest he).mpr ⟨v, segments, rfl, hv, h⟩⟩

end Cuts

/-- A cut has an item for every element that is no rest, so no rest needs to
    reach past the items that the elements behind it require. -/
theorem Cut.required_le {functions : Functions} {es : List Element} {items : List Value}
    (h : Cut functions es items) : required es ≤ items.length := by
  induction es generalizing items with
  | nil => simp [required]
  | cons e es ih =>
    cases he : e.isRest with
    | true =>
      obtain ⟨captured, rfl⟩ := isRest_eq_true_iff.mp he
      obtain ⟨n, h⟩ := cut_rest.mp h
      have hrest := ih h
      rw [List.length_drop] at hrest
      simp only [required, List.filter_cons, he] at hrest ⊢
      simp only [Bool.not_true, Bool.false_eq_true, if_false]
      omega
    | false =>
      obtain ⟨v, others, rfl, -, h⟩ := (cut_cons he).mp h
      have hothers := ih h
      simp only [required, List.filter_cons, he] at hothers ⊢
      simpa using hothers

-- ============================================================================
-- The search decides the meaning
-- ============================================================================

/-- An attempt that answers, and with success exactly if a statement holds. -/
def Decides (run : Attempt) (statement : Prop) : Prop :=
  ∃ answer state, run = .ok (answer, state) ∧ (answer = true ↔ statement)

theorem Decides.ok {answer : Bool} {state : MatchState} {statement : Prop}
    (h : answer = true ↔ statement) : Decides (.ok (answer, state)) statement :=
  ⟨answer, state, rfl, h⟩

/-- The lengths of a rest are tried until what is behind it applies, up to the
    bound. -/
theorem tryLengths_decides {next : List Value → MatchState → Attempt}
    {behind : List Value → Prop} (hnext : ∀ items s, Decides (next items s) (behind items))
    (captured : Bool) (s : MatchState) (extra : Nat) (skipped items : List Value) :
    Decides (tryLengths next captured s extra skipped items)
      (∃ n, n ≤ extra ∧ behind (items.drop n)) := by
  induction extra generalizing skipped items with
  | zero =>
    obtain ⟨answer, t, run, hiff⟩ := hnext items (if captured then s.push (.tuple skipped) else s)
    have here : (∃ n, n ≤ 0 ∧ behind (items.drop n)) ↔ behind items := by
      simp
    rw [here]
    unfold tryLengths
    cases answer with
    | true => exact ⟨true, t, by simp only [run], hiff⟩
    | false => exact ⟨false, s, by simp only [run], hiff⟩
  | succ extra ih =>
    obtain ⟨answer, t, run, hiff⟩ := hnext items (if captured then s.push (.tuple skipped) else s)
    cases answer with
    | true =>
      refine ⟨true, t, by unfold tryLengths; simp only [run], ?_⟩
      simp only [true_iff]
      exact ⟨0, Nat.zero_le _, hiff.mp rfl⟩
    | false =>
      have fails : ¬ behind items := fun h => by simpa using hiff.mpr h
      cases items with
      | nil =>
        refine ⟨false, s, by simp [tryLengths, run], ?_⟩
        simpa using fun _ _ => fails
      | cons item items =>
        obtain ⟨answer, u, later, hlater⟩ := ih (skipped ++ [item]) items
        refine ⟨answer, u, by simp [tryLengths, run, later], hlater.trans ?_⟩
        constructor
        · rintro ⟨n, hn, h⟩
          exact ⟨n + 1, by omega, h⟩
        · rintro ⟨n, hn, h⟩
          -- The run of length zero was the one that just failed.
          cases n with
          | zero => exact absurd h fails
          | succ n => exact ⟨n, by omega, h⟩

section Search

variable {functions : Functions}

theorem attemptAny_decides {es : List Element}
    (hes : ∀ e ∈ es, ∀ v s, Decides (attempt functions e v s) (v ∈ e.meaning functions))
    (v : Value) (s : MatchState) :
    Decides (attemptAny functions es v s) (v ∈ unionMeaning functions es) := by
  induction es generalizing s with
  | nil => exact .ok (by simp [unionMeaning])
  | cons e es ih =>
    obtain ⟨answer, t, run, hiff⟩ := hes e (by simp) v s
    cases answer with
    | true => exact ⟨true, t, by simp [attemptAny, run], by simp [unionMeaning, hiff.mp rfl]⟩
    | false =>
      obtain ⟨answer, u, later, hlater⟩ := ih (fun d hd => hes d (by simp [hd])) s
      refine ⟨answer, u, by simp [attemptAny, run, later], hlater.trans ?_⟩
      have fails : v ∉ e.meaning functions := fun h => by simpa using hiff.mpr h
      simp [unionMeaning, fails]

theorem attemptAll_decides {es : List Element}
    (hes : ∀ e ∈ es, ∀ v s, Decides (attempt functions e v s) (v ∈ e.meaning functions))
    (v : Value) (s : MatchState) :
    Decides (attemptAll functions es v s) (v ∈ intersectionMeaning functions es) := by
  induction es generalizing s with
  | nil => exact .ok (by simp [intersectionMeaning])
  | cons e es ih =>
    obtain ⟨answer, t, run, hiff⟩ := hes e (by simp) v s
    cases answer with
    | true =>
      obtain ⟨answer, u, later, hlater⟩ := ih (fun d hd => hes d (by simp [hd])) t
      refine ⟨answer, u, by simp [attemptAll, run, later], hlater.trans ?_⟩
      simp [intersectionMeaning, hiff.mp rfl]
    | false =>
      refine ⟨false, t, by simp [attemptAll, run], ?_⟩
      have fails : v ∉ e.meaning functions := fun h => by simpa using hiff.mpr h
      simp [intersectionMeaning, fails]

theorem attemptSequence_nil {e : Element} (he : e.isRest = false) (es : List Element)
    (s : MatchState) : attemptSequence functions (e :: es) [] s = .ok (false, s) := by
  rw [attemptSequence]
  rintro captured rfl
  simp [isRest] at he

/-- An element that is no rest is tried on the first item, the others on the
    items behind it. -/
theorem attemptSequence_cons {e : Element} (he : e.isRest = false) (es : List Element)
    (item : Value) (items : List Value) (s : MatchState) :
    attemptSequence functions (e :: es) (item :: items) s =
      match attempt functions e item s with
      | .error fault => .error fault
      | .ok (false, _) => .ok (false, s)
      | .ok (true, t) =>
        match attemptSequence functions es items t with
        | .error fault => .error fault
        | .ok (true, u) => .ok (true, u)
        | .ok (false, _) => .ok (false, s) := by
  rewrite [attemptSequence]
  · rfl
  · rintro captured rfl
    simp [isRest] at he

theorem attemptSequence_decides {es : List Element}
    (hes : ∀ e ∈ es, e.isRest = false →
      ∀ v s, Decides (attempt functions e v s) (v ∈ e.meaning functions))
    (items : List Value) (s : MatchState) :
    Decides (attemptSequence functions es items s) (Cut functions es items) := by
  induction es generalizing items s with
  | nil =>
    simp only [attemptSequence, cut_nil]
    exact .ok List.isEmpty_iff
  | cons e es ih =>
    replace ih := ih fun d hd => hes d (by simp [hd])
    cases he : e.isRest with
    | true =>
      obtain ⟨captured, rfl⟩ := isRest_eq_true_iff.mp he
      rw [attemptSequence, cut_rest]
      split
      next room =>
        obtain ⟨answer, t, run, hiff⟩ :=
          tryLengths_decides ih captured s (items.length - required es) [] items
        refine ⟨answer, t, run, hiff.trans ?_⟩
        constructor
        · rintro ⟨n, -, h⟩
          exact ⟨n, h⟩
        · rintro ⟨n, h⟩
          have hlength := h.required_le
          rw [List.length_drop] at hlength
          by_cases hn : n ≤ items.length - required es
          · exact ⟨n, hn, h⟩
          · -- Only a run past the end is longer than the bound: then nothing is required.
            refine ⟨items.length, by omega, ?_⟩
            rw [List.drop_eq_nil_of_le (by omega)] at h
            rwa [List.drop_length]
      next tight =>
        refine .ok ?_
        simp only [Bool.false_eq_true, false_iff]
        rintro ⟨n, h⟩
        have hlength := h.required_le
        rw [List.length_drop] at hlength
        omega
    | false =>
      rw [cut_cons he]
      cases items with
      | nil =>
        rw [attemptSequence_nil he]
        exact .ok (by simp)
      | cons item items =>
        obtain ⟨answer, t, run, hiff⟩ := hes e (by simp) he item s
        rw [attemptSequence_cons he]
        simp only [run]
        cases answer with
        | false =>
          have fails : item ∉ e.meaning functions := fun h => by simpa using hiff.mpr h
          exact .ok (by simp [fails])
        | true =>
          obtain ⟨answer, u, later, hlater⟩ := ih items t
          simp only [later]
          have here : item ∈ e.meaning functions := hiff.mp rfl
          cases answer with
          | true => exact .ok (by simpa [here] using hlater.mp rfl)
          | false =>
            have fails : ¬ Cut functions es items := fun h => by simpa using hlater.mpr h
            exact .ok (by simp [fails])

/-- Matching an element answers for every value in every state, and succeeds
    exactly on the values of the element's meaning. -/
theorem Admissible.decides {e : Element} (he : e.Admissible) (nameFree : e.names = [])
    (answered : e.Answered functions) (v : Value) (s : MatchState) :
    Decides (attempt functions e v s) (v ∈ e.meaning functions) := by
  induction he generalizing v s with
  | wildcard => exact .ok (by simp [meaning])
  | unify name => simp [names, walk] at nameFree
  | scalar l => exact .ok Iff.rfl
  | nodeType type => exact .ok Value.hasType_iff
  | predicate name known =>
    obtain ⟨test, htest⟩ := Option.isSome_iff_exists.mp known
    refine ⟨test.holds v, s, by simp [attempt, htest], ?_⟩
    simp [meaning, htest, Builtin.holds_iff_mem_truthSet]
  | call name arguments =>
    obtain ⟨function, bound, hfunction⟩ := answered name arguments (mem_walk_self _)
    obtain ⟨answer, hanswer⟩ := hfunction v
    refine ⟨answer, s, by simp [attempt, bound, hanswer], ?_⟩
    simp [meaning, bound, hanswer]
  | capture e _ ih =>
    have part : e ∈ parts (.capture e) := by simp [parts]
    obtain ⟨answer, t, run, hiff⟩ := ih (names_eq_nil_of_mem_parts part nameFree)
      (answered.of_mem_parts part) v (s.push .nil)
    rw [attempt]
    simp only [run]
    cases answer with
    | true => exact .ok hiff
    | false => exact .ok hiff
  | negation e _ _ ih =>
    have part : e ∈ parts (.negation e) := by simp [parts]
    obtain ⟨answer, t, run, hiff⟩ := ih (names_eq_nil_of_mem_parts part nameFree)
      (answered.of_mem_parts part) v s
    rw [attempt]
    simp only [run]
    refine .ok ?_
    rw [meaning, Set.mem_compl_iff, ← hiff]
    simp
  | union es _ _ _ ih =>
    refine attemptAny_decides (fun e he v s => ?_) v s
    have part : e ∈ parts (.union es) := he
    exact ih e he (names_eq_nil_of_mem_parts part nameFree) (answered.of_mem_parts part) v s
  | intersection es _ _ ih =>
    have all : Decides (attemptAll functions es v s) (v ∈ intersectionMeaning functions es) := by
      refine attemptAll_decides (fun e he v s => ?_) v s
      have part : e ∈ parts (.intersection es) := he
      exact ih e he (names_eq_nil_of_mem_parts part nameFree) (answered.of_mem_parts part) v s
    obtain ⟨answer, t, run, hiff⟩ := all
    rw [attempt]
    simp only [run]
    cases answer with
    | true => exact .ok hiff
    | false => exact .ok hiff
  | sequence es _ _ ih =>
    cases v with
    | node type children location =>
      have cuts : Decides (attemptSequence functions es (.head type.text :: children) s)
          (Cut functions es (.head type.text :: children)) := by
        refine attemptSequence_decides (fun e he hrest v s => ?_) _ s
        have part : e ∈ parts (.sequence es) := he
        exact ih e he hrest (names_eq_nil_of_mem_parts part nameFree)
          (answered.of_mem_parts part) v s
      obtain ⟨answer, t, run, hiff⟩ := cuts
      refine ⟨answer, t, by simp [attempt, run], hiff.trans ?_⟩
      constructor
      · rintro ⟨segments, hflat, h⟩
        exact ⟨type, children, location, segments, rfl, hflat, h⟩
      · rintro ⟨_, _, _, segments, ⟨⟩, hflat, h⟩
        exact ⟨segments, hflat, h⟩
    | _ => exact .ok (by simp [meaning])

end Search

/-- The captures of a match are those of a successful attempt from the empty
    state. -/
theorem Decides.captures? {e : Element} {functions : Functions} {v : Value} {statement : Prop}
    (h : Decides (attempt functions e v .empty) statement) :
    ∃ answer, e.captures? functions v = .ok answer ∧ (answer.isSome ↔ statement) := by
  obtain ⟨answer, s, run, hiff⟩ := h
  unfold Element.captures?
  rw [run]
  cases answer with
  | true => exact ⟨some s.captures, rfl, by simpa using hiff⟩
  | false => exact ⟨none, rfl, by simpa using hiff⟩

end Element

-- ============================================================================
-- Compiled patterns
-- ============================================================================

/-- A compiled pattern without names answers every value if its functions answer
    its calls, and applies exactly to the values of its meaning. -/
theorem Compiled.isSome_captures_iff_mem_meaning {pattern : String} {functions : Functions}
    {p : Compiled} (compiled : Compiled.compile pattern functions = .ok p)
    (answered : p.root.Answered functions) (nameFree : p.root.names = []) (v : Value) :
    ∃ answer, p.captures? v = .ok answer ∧
      (answer.isSome ↔ v ∈ p.root.meaning functions) := by
  obtain ⟨table, admissible⟩ := Compiled.admissible_of_compile compiled
  unfold Compiled.captures?
  rw [table]
  exact (admissible.decides nameFree answered v .empty).captures?

/-- A call whose last argument is present is in the meaning of the pattern for
    such calls, since matching finds it. A predicate made from a class would
    refuse arguments, and is handed none. -/
theorem send_mem_meaning_of_last_present :
    let functions : Functions := [("absent", (Datum.value (.criterion (.class .nil))).predicate)]
    let root := Element.sequence [.nodeType "send", .rest false, .negation (.call "absent" [])]
    let call := Value.node (.plain "send") [.nil, .sym "puts", .int 1] none
    Compiled.compile "(send ... !#absent)" functions =
        .ok ⟨"(send ... !#absent)", root, functions⟩ ∧
      root.Answered functions ∧ root.names = [] ∧ call ∈ root.meaning functions := by
  intro functions root call
  have answered : root.Answered functions :=
    Element.answered_of_made (List.forall_mem_singleton.mpr ⟨_, rfl⟩) (by decide)
      (by simp [root, Element.walk, Element.walkAll])
  have lexemes : Lexeme.tokenize "(send ... !#absent)" = .ok
      [⟨.opening .round, "(", 0⟩, ⟨.nodeType "send", "send", 1⟩, ⟨.rest, "...", 6⟩,
        ⟨.negation, "!", 10⟩, ⟨.function "absent", "#absent", 11⟩,
        ⟨.closing .round, ")", 18⟩] := rfl
  have compiled : Compiled.compile "(send ... !#absent)" functions =
      .ok ⟨"(send ... !#absent)", root, functions⟩ := by
    rw [Compiled.compile_eq_ok_iff, Grammar.parse_eq_ok_iff]
    refine ⟨⟨_, lexemes, .sequence rfl ?_ (by simp)⟩, rfl, rfl, by decide⟩
    exact .item (.nodeType rfl) (.item (.rest rfl)
      (.item (.negation rfl (.call rfl (by simp [Grammar.Detached])) rfl) (.close rfl)))
  obtain ⟨answer, run, hiff⟩ :=
    Compiled.isSome_captures_iff_mem_meaning compiled answered rfl call
  have found : (⟨"(send ... !#absent)", root, functions⟩ : Compiled).captures? call =
      .ok (some []) := rfl
  rw [run] at found
  cases found
  exact ⟨compiled, answered, rfl, hiff.mp rfl⟩

end RubyPattern
