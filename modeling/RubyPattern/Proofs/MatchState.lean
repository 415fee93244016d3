/-
  RubyPattern.Proofs.MatchState

  What matching does to the captures and bindings. An attempt that fails leaves
  both as they were. One that succeeds adds as many captures as the pattern
  counts, behind those that were there, and keeps every binding. So cutting the
  captures back to their former number, and taking the former bindings, always
  restores the state before the attempt.
-/
import RubyPattern.Proofs.Unification

namespace RubyPattern

-- ============================================================================
-- States that grow
-- ============================================================================

namespace MatchState

/-- The second state is the first one with a number of captures more, and
    nothing bound is lost or changed. -/
structure Extends (s t : MatchState) (count : Nat) : Prop where
  captured : ∃ added, t.captures = s.captures ++ added ∧ added.length = count
  kept : ∀ name v, s.bindings.lookup name = some v → t.bindings.lookup name = some v

/-- A state taken back to an earlier one: the captures are cut to their number
    then, and the bindings are those of then. -/
def cutBack (t s : MatchState) : MatchState :=
  ⟨t.captures.take s.captures.length, s.bindings⟩

@[simp] theorem cutBack_self (s : MatchState) : s.cutBack s = s := by
  simp [cutBack]

/-- Cutting a grown state back gives the state that it grew from. -/
theorem Extends.cutBack {s t : MatchState} {count : Nat} (h : s.Extends t count) :
    t.cutBack s = s := by
  obtain ⟨added, hadded, -⟩ := h.captured
  simp [MatchState.cutBack, hadded]

theorem Extends.refl (s : MatchState) : s.Extends s 0 where
  captured := ⟨[], by simp⟩
  kept := fun _ _ h => h

theorem Extends.trans {s t u : MatchState} {count count' : Nat} (h : s.Extends t count)
    (h' : t.Extends u count') : s.Extends u (count + count') where
  captured := by
    obtain ⟨added, hadded, rfl⟩ := h.captured
    obtain ⟨added', hadded', rfl⟩ := h'.captured
    exact ⟨added ++ added', by rw [hadded', hadded, List.append_assoc], List.length_append⟩
  kept := fun name v hv => h'.kept name v (h.kept name v hv)

/-- A name is bound only where it was free. -/
theorem Extends.bind {s : MatchState} {name : String} (free : s.bindings.lookup name = none)
    (v : Value) : s.Extends (s.bind name v) 0 where
  captured := ⟨[], by simp [MatchState.bind]⟩
  kept := by
    intro other w hw
    rw [lookup_bind]
    split
    next same =>
      subst same
      rw [free] at hw
      cases hw
    next => exact hw

theorem Extends.push (s : MatchState) (v : Value) : s.Extends (s.push v) 1 where
  captured := ⟨[v], rfl, rfl⟩
  kept := fun _ _ h => h

/-- The slot of a capture is reserved in front of the captures inside it, and
    filling it changes none of those. -/
theorem Extends.fill {s t : MatchState} {count : Nat} (h : (s.push .nil).Extends t count)
    (v : Value) : s.Extends (t.fill s.captures.length v) (1 + count) where
  captured := by
    obtain ⟨added, hadded, rfl⟩ := h.captured
    refine ⟨v :: added, ?_, by rw [List.length_cons, Nat.add_comm]⟩
    simp [MatchState.fill, hadded, MatchState.push]
  kept := h.kept

end MatchState

-- ============================================================================
-- Disciplined attempts
-- ============================================================================

/-- An attempt that answers: it fails and leaves the state as it was, or it
    succeeds and has made a number of captures. -/
def Disciplined (s : MatchState) (count : Nat) (run : Attempt) : Prop :=
  run = .ok (false, s) ∨ ∃ t, run = .ok (true, t) ∧ s.Extends t count

/-- A test answers without touching the state. -/
theorem Disciplined.test (s : MatchState) (answer : Bool) :
    Disciplined s 0 (.ok (answer, s)) := by
  cases answer with
  | false => exact .inl rfl
  | true => exact .inr ⟨s, rfl, .refl s⟩

/-- Each run pushed for a captured rest is taken back before the next one. -/
theorem disciplined_tryLengths {next : List Value → MatchState → Attempt} {count : Nat}
    (hnext : ∀ items s, Disciplined s count (next items s)) (captured : Bool) (s : MatchState)
    (extra : Nat) (skipped items : List Value) :
    Disciplined s ((if captured then 1 else 0) + count)
      (tryLengths next captured s extra skipped items) := by
  have grows : ∀ {skipped t}, (if captured then s.push (.tuple skipped) else s).Extends t count →
      s.Extends t ((if captured then 1 else 0) + count) := by
    intro skipped t h
    cases captured with
    | true => exact (MatchState.Extends.push s _).trans h
    | false => exact (MatchState.Extends.refl s).trans h
  induction extra generalizing skipped items with
  | zero =>
    unfold tryLengths
    rcases hnext items (if captured then s.push (.tuple skipped) else s) with
      run | ⟨t, run, extended⟩
    · exact .inl (by simp only [run])
    · exact .inr ⟨t, by simp only [run], grows extended⟩
  | succ extra ih =>
    unfold tryLengths
    rcases hnext items (if captured then s.push (.tuple skipped) else s) with
      run | ⟨t, run, extended⟩
    · cases items with
      | nil => exact .inl (by simp only [run])
      | cons item items =>
        simp only [run]
        exact ih (skipped ++ [item]) items
    · exact .inr ⟨t, by simp only [run], grows extended⟩

namespace Element

variable {functions : Functions}

theorem disciplined_attemptAny {es : List Element} {v : Value} {count : Nat}
    (hes : ∀ e ∈ es, ∀ s, Disciplined s count (attempt functions e v s)) (s : MatchState) :
    Disciplined s count (attemptAny functions es v s) := by
  induction es with
  | nil => exact .inl rfl
  | cons e es ih =>
    rw [attemptAny]
    rcases hes e (by simp) s with run | ⟨t, run, extended⟩
    · simp only [run]
      exact ih fun d hd => hes d (by simp [hd])
    · exact .inr ⟨t, by simp only [run], extended⟩

/-- The elements that held before one that fails have left something behind,
    which is given up with the whole. -/
theorem disciplined_attemptAll {es : List Element} {v : Value}
    (hes : ∀ e ∈ es, ∀ s, Disciplined s e.captureCount (attempt functions e v s))
    (s : MatchState) :
    (∃ t, attemptAll functions es v s = .ok (false, t)) ∨
      ∃ t, attemptAll functions es v s = .ok (true, t) ∧
        s.Extends t (captureCountAll es) := by
  induction es generalizing s with
  | nil => exact .inr ⟨s, rfl, .refl s⟩
  | cons e es ih =>
    rw [attemptAll, captureCountAll]
    rcases hes e (by simp) s with run | ⟨t, run, extended⟩
    · exact .inl ⟨s, by simp only [run]⟩
    · simp only [run]
      rcases ih (fun d hd => hes d (by simp [hd])) t with ⟨u, later⟩ | ⟨u, later, others⟩
      · exact .inl ⟨u, later⟩
      · exact .inr ⟨u, later, extended.trans others⟩

theorem disciplined_attemptSequence {es : List Element}
    (hes : ∀ e ∈ es, e.isRest = false →
      ∀ v s, Disciplined s e.captureCount (attempt functions e v s))
    (items : List Value) (s : MatchState) :
    Disciplined s (captureCountAll es) (attemptSequence functions es items s) := by
  induction es generalizing items s with
  | nil => exact .test s items.isEmpty
  | cons e es ih =>
    replace ih := ih fun d hd => hes d (by simp [hd])
    rw [captureCountAll]
    cases he : e.isRest with
    | true =>
      obtain ⟨captured, rfl⟩ := isRest_eq_true_iff.mp he
      rw [attemptSequence, captureCount]
      by_cases room : required es ≤ items.length
      · rw [if_pos room]
        exact disciplined_tryLengths ih captured s _ [] items
      · exact .inl (if_neg room)
    | false =>
      cases items with
      | nil =>
        rw [attemptSequence_nil he]
        exact .inl rfl
      | cons item items =>
        rw [attemptSequence_cons he]
        rcases hes e (by simp) he item s with run | ⟨t, run, extended⟩
        · exact .inl (by simp only [run])
        · simp only [run]
          rcases ih items t with later | ⟨u, later, others⟩
          · exact .inl (by simp only [later])
          · exact .inr ⟨u, by simp only [later], extended.trans others⟩

/-- All branches of an admissible union capture as much as its first one. -/
theorem captureCount_eq_first {e : Element} {es : List Element}
    (even : Grammar.evenlyCapturing es = true) (he : e ∈ es) :
    e.captureCount = captureCountFirst es := by
  cases es with
  | nil => cases he
  | cons d es =>
    rw [captureCountFirst]
    rcases List.mem_cons.mp he with rfl | he
    · rfl
    · simp only [Grammar.evenlyCapturing, List.all_eq_true, beq_iff_eq] at even
      exact even e he

/-- Every pattern that is no rest is disciplined on every value, from every
    state. -/
theorem Admissible.disciplined {e : Element} (he : e.Admissible)
    (answered : e.Answered functions) (v : Value) (s : MatchState) :
    Disciplined s e.captureCount (attempt functions e v s) := by
  induction he generalizing v s with
  | wildcard => exact .test s true
  | unify name =>
    rw [attempt]
    split
    next bound _ => exact .test s _
    next free => exact .inr ⟨_, rfl, .bind free v⟩
  | scalar l => exact .test s _
  | nodeType type => exact .test s _
  | predicate name known =>
    rw [attempt]
    split
    next => exact .test s _
    next => exact .test s false
  | call name arguments =>
    obtain ⟨function, bound, hfunction⟩ := answered name arguments (mem_walk_self _)
    obtain ⟨answer, hanswer⟩ := hfunction v
    rw [attempt]
    simp only [bound, hanswer]
    exact .test s answer
  | capture e _ ih =>
    have part : e ∈ parts (.capture e) := by simp [parts]
    rw [attempt, captureCount]
    rcases ih (answered.of_mem_parts part) v (s.push .nil) with run | ⟨t, run, extended⟩
    · exact .inl (by simp only [run])
    · exact .inr ⟨_, by simp only [run], extended.fill v⟩
  | negation e _ _ ih =>
    have part : e ∈ parts (.negation e) := by simp [parts]
    rw [attempt]
    rcases ih (answered.of_mem_parts part) v s with run | ⟨t, run, -⟩
    · simp only [run]
      exact .test s true
    · simp only [run]
      exact .test s false
  | union es _ even _ ih =>
    rw [attempt, captureCount]
    refine disciplined_attemptAny (fun e he s => ?_) s
    have part : e ∈ parts (.union es) := he
    rw [← captureCount_eq_first even he]
    exact ih e he (answered.of_mem_parts part) v s
  | intersection es _ _ ih =>
    have each : ∀ e ∈ es, ∀ s, Disciplined s e.captureCount (attempt functions e v s) := by
      intro e he s
      have part : e ∈ parts (.intersection es) := he
      exact ih e he (answered.of_mem_parts part) v s
    rw [attempt, captureCount]
    rcases disciplined_attemptAll each s with ⟨t, run⟩ | ⟨t, run, extended⟩
    · exact .inl (by simp only [run])
    · exact .inr ⟨t, by simp only [run], extended⟩
  | sequence es _ _ ih =>
    cases v with
    | node type children location =>
      rw [attempt, captureCount]
      refine disciplined_attemptSequence (fun e he hrest v s => ?_) _ s
      have part : e ∈ parts (.sequence es) := he
      exact ih e he hrest (answered.of_mem_parts part) v s
    | _ => exact .inl rfl

-- ============================================================================
-- Patterns inside a pattern
-- ============================================================================

/-- Whatever stands in an admissible pattern and is no rest is admissible. -/
theorem Admissible.of_mem_walk {d e : Element} (he : e.Admissible) (inside : d ∈ e.walk)
    (plain : d.isRest = false) : d.Admissible := by
  have ofParts : ∀ {e : Element} (es : List Element), e.Admissible → e.walk = e :: walkAll es →
      (∀ c ∈ es, d ∈ c.walk → d.Admissible) → d ∈ e.walk → d.Admissible := by
    intro e es he hwalk hes hd
    rw [hwalk, List.mem_cons, mem_walkAll] at hd
    rcases hd with rfl | ⟨c, hc, hd⟩
    · exact he
    · exact hes c hc hd
  induction he with
  | capture e inner ih =>
    exact ofParts [e] (.capture e inner) (by simp [walk, walkAll])
      (by simpa using ih) inside
  | negation e inner nothing ih =>
    exact ofParts [e] (.negation e inner nothing) (by simp [walk, walkAll])
      (by simpa using ih) inside
  | union es nonempty even inner ih =>
    exact ofParts es (.union es nonempty even inner) rfl ih inside
  | intersection es nonempty inner ih =>
    exact ofParts es (.intersection es nonempty inner) rfl ih inside
  | sequence es nonempty inner ih =>
    refine ofParts es (.sequence es nonempty inner) rfl (fun c hc hd => ?_) inside
    cases hrest : c.isRest with
    | true =>
      obtain ⟨captured, rfl⟩ := isRest_eq_true_iff.mp hrest
      simp only [walk, List.mem_singleton] at hd
      subst hd
      cases plain
    | false => exact ih c hc hrest hd
  | _ =>
    simp only [walk, List.mem_singleton] at inside
    subst inside
    constructor <;> assumption

end Element

-- ============================================================================
-- Elements of parsed patterns
-- ============================================================================

/-- Matching any element of a parsed pattern that is no rest answers if the
    functions do. If it fails, captures and bindings are those at the start; if
    it succeeds, it has made as many captures as the element counts, behind
    those at the start, and kept every binding; either way, cutting back
    restores the start. So a match of the whole pattern has as many captures as
    the pattern counts, whichever branches it took. -/
theorem Grammar.attempt_extends_or_restores {pattern : String} {root e : Element}
    {functions : Functions} (parsed : Grammar.parse pattern = .ok root) (inside : e ∈ root.walk)
    (plain : e.isRest = false) (answered : root.Answered functions) (v : Value)
    (s : MatchState) :
    (∃ answer t, e.attempt functions v s = .ok (answer, t) ∧
      (answer = false → t = s) ∧
      (answer = true →
        (∃ added, t.captures = s.captures ++ added ∧ added.length = e.captureCount) ∧
        ∀ name w, s.bindings.lookup name = some w → t.bindings.lookup name = some w) ∧
      t.cutBack s = s) ∧
    ∀ captures, root.captures? functions v = .ok (some captures) →
      captures.length = root.captureCount := by
  have admissible := Grammar.admissible_of_parse parsed
  constructor
  · have disciplined := (admissible.of_mem_walk inside plain).disciplined
      (answered.of_mem_walk inside) v s
    rcases disciplined with run | ⟨t, run, extended⟩
    · exact ⟨false, s, run, fun _ => rfl, nofun, s.cutBack_self⟩
    · exact ⟨true, t, run, nofun, fun _ => ⟨extended.captured, extended.kept⟩,
        extended.cutBack⟩
  · intro captures found
    unfold Element.captures? at found
    rcases admissible.disciplined answered v .empty with run | ⟨t, run, extended⟩
    · simp only [run] at found
      cases found
    · simp only [run] at found
      cases found
      obtain ⟨added, hadded, length⟩ := extended.captured
      rw [hadded, ← length]
      rfl

/-- The first branch reserves a slot and gives it up; the second one captures
    behind what was there, as a predicate made from a class allows. -/
theorem union_extends_by_second_branch :
    let functions : Functions := [("absent", (Datum.value (.criterion (.class .nil))).predicate)]
    let branches := Element.union
      [.sequence [.nodeType "send", .capture .wildcard, .rest false],
        .capture (.call "absent" [])]
    let start : MatchState := ⟨[.int 1], [("x", .sym "a")]⟩
    Grammar.parse "\x7b(send $_ ...) $#absent\x7d" = .ok branches ∧ branches ∈ branches.walk ∧
      branches.isRest = false ∧ branches.Answered functions ∧
      ∃ t, branches.attempt functions .nil start = .ok (true, t) ∧
        (∃ added, t.captures = [.int 1] ++ added ∧ added.length = 1) ∧
        t.bindings.lookup "x" = some (.sym "a") := by
  intro functions branches start
  have lexemes : Lexeme.tokenize "\x7b(send $_ ...) $#absent\x7d" = .ok
      [⟨.opening .curly, "\x7b", 0⟩, ⟨.opening .round, "(", 1⟩, ⟨.nodeType "send", "send", 2⟩,
        ⟨.capture, "$", 7⟩, ⟨.wildcard, "_", 8⟩, ⟨.rest, "...", 10⟩,
        ⟨.closing .round, ")", 13⟩, ⟨.capture, "$", 15⟩,
        ⟨.function "absent", "#absent", 16⟩, ⟨.closing .curly, "\x7d", 23⟩] := rfl
  have parsed : Grammar.parse "\x7b(send $_ ...) $#absent\x7d" = .ok branches := by
    rw [Grammar.parse_eq_ok_iff]
    refine ⟨_, lexemes, .union rfl ?_ (by simp) rfl⟩
    exact .item
      (.sequence rfl (.item (.nodeType rfl) (.item (.capture rfl (.wildcard rfl))
        (.item (.rest rfl) (.close rfl)))) (by simp))
      (.item (.capture rfl (.call rfl (by simp [Grammar.Detached]))) (.close rfl))
  have answered : branches.Answered functions :=
    Element.answered_of_made (List.forall_mem_singleton.mpr ⟨_, rfl⟩) (by decide)
      (by simp [branches, Element.walk, Element.walkAll])
  obtain ⟨⟨answer, t, run, -, extended, -⟩, -⟩ := Grammar.attempt_extends_or_restores parsed
    (Element.mem_walk_self branches) rfl answered .nil start
  have succeeds : branches.attempt functions .nil start =
      .ok (true, ⟨[.int 1, .nil], [("x", .sym "a")]⟩) := rfl
  rw [run] at succeeds
  cases succeeds
  obtain ⟨added, kept⟩ := extended rfl
  exact ⟨parsed, Element.mem_walk_self branches, rfl, answered, _, run, added, kept "x" _ rfl⟩

end RubyPattern
