/-
  RubyPattern.Proofs.SettledChoices

  How far the search is complete. A sequence reopens the lengths of its own
  rests when something behind them fails, but an element that is done keeps its
  first choice: a name further on cannot reopen a union or a sequence inside it.
  So there are values that satisfy a pattern and are not matched. They are
  matched if the choices inside each element are settled, which is to say that
  all of them put the names used behind the element at the same values.
-/
import RubyPattern.Proofs.MatchState

namespace RubyPattern

namespace Element

-- ============================================================================
-- Settled choices
-- ============================================================================

/-- A name stands at the same values in two lists. -/
def Agree (name : String) (standing standing' : List (String × Value)) : Prop :=
  (∀ v, (name, v) ∈ standing →
    ∃ w, (name, w) ∈ standing' ∧ (v = w ∨ v.literalEquals w = true)) ∧
  (∀ w, (name, w) ∈ standing' →
    ∃ v, (name, v) ∈ standing ∧ (v = w ∨ v.literalEquals w = true))

/-- Every choice under which a value satisfies an element, coherent with the
    names in front of it, agrees with a given one on the names that are used
    later and do not stand in front already. -/
def Pinned (functions : Functions) (e : Element) (v : Value)
    (before standing : List (String × Value)) (later : List String) : Prop :=
  ∀ standing' captures, Satisfies functions e v standing' captures →
    Coherent (before ++ standing') →
    ∀ name ∈ later, (∀ w, (name, w) ∉ before) → Agree name standing standing'

mutual

/-- A value satisfies a pattern under a settled choice: behind the names in
    front of it, with its own names at the values where they stand under the
    choice. Of the elements in a sequence or an intersection, each one is pinned
    on the names of those behind it. -/
inductive Settled (functions : Functions) :
    Element → Value → List (String × Value) → List (String × Value) → Prop
  | test {e : Element} {v : Value} {before : List (String × Value)} (test : e.isTest = true)
      (hv : v ∈ e.meaning functions) : Settled functions e v before []
  | unify (name : String) (v : Value) {before : List (String × Value)} :
      Settled functions (.unify name) v before [(name, v)]
  | capture {e : Element} {v : Value} {before standing : List (String × Value)}
      (inner : Settled functions e v before standing) :
      Settled functions (.capture e) v before standing
  | union {es : List Element} {e : Element} {v : Value}
      {before standing : List (String × Value)} (chosen : e ∈ es)
      (inner : Settled functions e v before standing) :
      Settled functions (.union es) v before standing
  | intersection {es : List Element} {v : Value} {before standing : List (String × Value)}
      (inner : SettledAll functions es v before standing) :
      Settled functions (.intersection es) v before standing
  | sequence {es : List Element} {type : Label} {children : List Value}
      {location : Option Location} {segments : List (List Value)}
      {before standing : List (String × Value)}
      (cut : segments.flatten = .head type.text :: children)
      (inner : SettledSegments functions es segments before standing) :
      Settled functions (.sequence es) (.node type children location) before standing

/-- A value satisfies several patterns under a settled choice. -/
inductive SettledAll (functions : Functions) :
    List Element → Value → List (String × Value) → List (String × Value) → Prop
  | nil (v : Value) {before : List (String × Value)} : SettledAll functions [] v before []
  | cons {e : Element} {es : List Element} {v : Value}
      {before standing standing' : List (String × Value)}
      (first : Settled functions e v before standing)
      (pinned : Pinned functions e v before standing (es.flatMap names))
      (others : SettledAll functions es v (before ++ standing) standing') :
      SettledAll functions (e :: es) v before (standing ++ standing')

/-- Segments satisfy the elements of a sequence under a settled choice. -/
inductive SettledSegments (functions : Functions) :
    List Element → List (List Value) → List (String × Value) → List (String × Value) → Prop
  | nil {before : List (String × Value)} : SettledSegments functions [] [] before []
  | rest {captured : Bool} {es : List Element} {segment : List Value}
      {segments : List (List Value)} {before standing : List (String × Value)}
      (others : SettledSegments functions es segments before standing) :
      SettledSegments functions (.rest captured :: es) (segment :: segments) before standing
  | item {e : Element} {es : List Element} {v : Value} {segments : List (List Value)}
      {before standing standing' : List (String × Value)}
      (first : Settled functions e v before standing)
      (pinned : Pinned functions e v before standing (es.flatMap names))
      (others : SettledSegments functions es segments (before ++ standing) standing') :
      SettledSegments functions (e :: es) ([v] :: segments) before (standing ++ standing')

end

section

variable {functions : Functions}

mutual

/-- A settled choice is a choice. -/
theorem Settled.satisfies {e : Element} {v : Value} {before standing : List (String × Value)}
    (h : Settled functions e v before standing) :
    ∃ captures, Satisfies functions e v standing captures := by
  cases h with
  | test test hv => exact ⟨_, .test test hv⟩
  | unify => exact ⟨_, .unify _ _⟩
  | capture inner =>
    obtain ⟨captures, inner⟩ := inner.satisfies
    exact ⟨_, .capture inner⟩
  | union chosen inner =>
    obtain ⟨captures, inner⟩ := inner.satisfies
    exact ⟨_, .union chosen inner⟩
  | intersection inner =>
    obtain ⟨captures, inner⟩ := inner.satisfies
    exact ⟨_, .intersection inner⟩
  | sequence cut inner =>
    obtain ⟨captures, inner⟩ := inner.satisfies
    exact ⟨_, .sequence cut inner⟩

theorem SettledAll.satisfies {es : List Element} {v : Value}
    {before standing : List (String × Value)} (h : SettledAll functions es v before standing) :
    ∃ captures, SatisfiesAll functions es v standing captures := by
  cases h with
  | nil => exact ⟨_, .nil _⟩
  | cons first _ others =>
    obtain ⟨captures, first⟩ := first.satisfies
    obtain ⟨captures', others⟩ := others.satisfies
    exact ⟨_, .cons first others⟩

theorem SettledSegments.satisfies {es : List Element} {segments : List (List Value)}
    {before standing : List (String × Value)}
    (h : SettledSegments functions es segments before standing) :
    ∃ captures, SatisfiesSegments functions es segments standing captures := by
  cases h with
  | nil => exact ⟨_, .nil⟩
  | rest others =>
    obtain ⟨captures, others⟩ := others.satisfies
    exact ⟨_, .rest others⟩
  | item first _ others =>
    obtain ⟨captures, first⟩ := first.satisfies
    obtain ⟨captures', others⟩ := others.satisfies
    exact ⟨_, .item first others⟩

end

/-- A settled choice leaves room for all elements that need an item. -/
theorem SettledSegments.required_le {es : List Element} {segments : List (List Value)}
    {before standing : List (String × Value)}
    (h : SettledSegments functions es segments before standing) :
    required es ≤ segments.flatten.length := by
  obtain ⟨captures, satisfied⟩ := h.satisfies
  exact Cut.required_le ⟨segments, rfl, satisfied.fits⟩

theorem Settled.isRest_eq_false {e : Element} {v : Value}
    {before standing : List (String × Value)} (h : Settled functions e v before standing) :
    e.isRest = false := by
  obtain ⟨captures, satisfied⟩ := h.satisfies
  have accepted := satisfied.mem_meaning
  cases e <;> first | rfl | cases accepted

-- ============================================================================
-- The names of a choice
-- ============================================================================

theorem names_subset_of_mem_parts {d e : Element} (part : d ∈ e.parts) : d.names ⊆ e.names :=
  fun _ hname => mem_names.mpr (walk_subset_of_mem_parts part (mem_names.mp hname))

theorem flatMap_names_subset {es : List Element} {e : Element} (parts : ∀ d ∈ es, d ∈ e.parts) :
    es.flatMap names ⊆ e.names := by
  intro name hname
  obtain ⟨d, hd, hname⟩ := List.mem_flatMap.mp hname
  exact names_subset_of_mem_parts (parts d hd) hname

mutual

/-- Only names of the pattern stand anywhere. -/
theorem Satisfies.mem_names {e : Element} {v : Value} {standing : List (String × Value)}
    {captures : List Value} (h : Satisfies functions e v standing captures) :
    ∀ name w, (name, w) ∈ standing → name ∈ e.names := by
  cases h with
  | test => simp
  | unify =>
    intro name w hw
    simp only [List.mem_singleton, Prod.mk.injEq] at hw
    simp [names, walk, hw.1]
  | @capture e _ _ _ inner =>
    have within := inner.mem_names
    have part : e ∈ parts (.capture e) := by simp [parts]
    exact fun name w hw => names_subset_of_mem_parts part (within name w hw)
  | @union es e _ _ _ chosen inner =>
    have within := inner.mem_names
    have part : e ∈ parts (.union es) := chosen
    exact fun name w hw => names_subset_of_mem_parts part (within name w hw)
  | @intersection es _ _ _ inner =>
    have within := inner.mem_names
    have all : ∀ d ∈ es, d ∈ parts (.intersection es) := fun d hd => hd
    exact fun name w hw => flatMap_names_subset all (within name w hw)
  | @sequence es _ _ _ _ _ _ _ inner =>
    have within := inner.mem_names
    have all : ∀ d ∈ es, d ∈ parts (.sequence es) := fun d hd => hd
    exact fun name w hw => flatMap_names_subset all (within name w hw)

theorem SatisfiesAll.mem_names {es : List Element} {v : Value}
    {standing : List (String × Value)} {captures : List Value}
    (h : SatisfiesAll functions es v standing captures) :
    ∀ name w, (name, w) ∈ standing → name ∈ es.flatMap names := by
  cases h with
  | nil => simp
  | cons first others =>
    have front := first.mem_names
    have behind := others.mem_names
    intro name w hw
    rw [List.flatMap_cons, List.mem_append]
    exact (List.mem_append.mp hw).imp (front name w) (behind name w)

theorem SatisfiesSegments.mem_names {es : List Element} {segments : List (List Value)}
    {standing : List (String × Value)} {captures : List Value}
    (h : SatisfiesSegments functions es segments standing captures) :
    ∀ name w, (name, w) ∈ standing → name ∈ es.flatMap names := by
  cases h with
  | nil => simp
  | rest others =>
    have behind := others.mem_names
    intro name w hw
    rw [List.flatMap_cons, List.mem_append]
    exact .inr (behind name w hw)
  | item first others =>
    have front := first.mem_names
    have behind := others.mem_names
    intro name w hw
    rw [List.flatMap_cons, List.mem_append]
    exact (List.mem_append.mp hw).imp (front name w) (behind name w)

end

/-- An element is pinned if none of its names is used later, but for those that
    stand in front of it. -/
theorem pinned_of_names {e : Element} {v : Value} {before standing : List (String × Value)}
    {later : List String} (satisfied : ∃ captures, Satisfies functions e v standing captures)
    (h : ∀ name ∈ later, name ∈ e.names → ∃ w, (name, w) ∈ before) :
    Pinned functions e v before standing later := by
  intro standing' captures' satisfied' _ name used free
  obtain ⟨captures, satisfied⟩ := satisfied
  have unused : name ∉ e.names := by
    intro mem
    obtain ⟨w, hw⟩ := h name used mem
    exact free w hw
  exact ⟨fun v hv => absurd (satisfied.mem_names name v hv) unused,
    fun w hw => absurd (satisfied'.mem_names name w hw) unused⟩

/-- A name by itself leaves no choice. -/
theorem pinned_unify {name : String} {v : Value} {before : List (String × Value)}
    {later : List String} : Pinned functions (.unify name) v before [(name, v)] later := by
  intro standing' captures' satisfied' _ other _ _
  cases satisfied' with
  | test test => cases test
  | unify => exact ⟨fun w hw => ⟨w, hw, .inl rfl⟩, fun w hw => ⟨w, hw, .inl rfl⟩⟩

-- ============================================================================
-- States that fit an assignment
-- ============================================================================

/-- Of some names, a state binds just those that stand in front, and to values
    equal to the assigned ones. -/
structure Fits (s : MatchState) (assignment : String → Value)
    (before : List (String × Value)) (used : List String) : Prop where
  stands : ∀ name ∈ used, ∀ b, s.bindings.lookup name = some b → ∃ w, (name, w) ∈ before
  bound : ∀ name ∈ used, ∀ w, (name, w) ∈ before → ∃ b, s.bindings.lookup name = some b
  assigned : ∀ name ∈ used, ∀ b, s.bindings.lookup name = some b →
    (assignment name).literalEquals b = true

variable {s t : MatchState} {assignment : String → Value}
  {before standing : List (String × Value)} {used later : List String}

theorem Fits.mono (h : Fits s assignment before used) (sub : later ⊆ used) :
    Fits s assignment before later where
  stands := fun name hname => h.stands name (sub hname)
  bound := fun name hname => h.bound name (sub hname)
  assigned := fun name hname => h.assigned name (sub hname)

/-- A match of a pinned element may follow another choice than the given one,
    and still binds the names used later as the assignment says. -/
theorem Fits.next {e : Element} {v : Value} {standing' : List (String × Value)}
    {captures : List Value} (fits : Fits s assignment before (e.names ++ later))
    (assigned : ∀ name w, (name, w) ∈ before ++ standing →
      (assignment name).literalEquals w = true)
    (pinned : Pinned functions e v before standing later)
    (satisfied : Satisfies functions e v standing' captures)
    (notes : s.Notes t standing' captures) : Fits t assignment (before ++ standing) later := by
  have inFront : ∀ {name w}, (name, w) ∈ before → (assignment name).literalEquals w = true :=
    fun hw => assigned _ _ (List.mem_append_left _ hw)
  have coherent : Coherent (before ++ standing') := by
    refine List.pairwise_append.mpr ⟨?_, notes.coherent, ?_⟩
    · refine List.pairwise_of_forall_mem_list ?_
      rintro ⟨name, u⟩ hu ⟨_, w⟩ hw rfl
      exact Value.literalEquals_trans (Value.literalEquals_symm (inFront hu)) (inFront hw)
    · rintro ⟨name, u⟩ hu ⟨_, w⟩ hw rfl
      have mem : name ∈ e.names ++ later :=
        List.mem_append_left _ (satisfied.mem_names name w hw)
      obtain ⟨b, hb⟩ := fits.bound name mem u hu
      have toBound : u.literalEquals b = true := Value.literalEquals_trans
        (Value.literalEquals_symm (inFront hu)) (fits.assigned name mem b hb)
      exact Value.literalEquals_trans toBound (notes.compared name w b hw hb)
  have agree : ∀ name ∈ later, (∀ w, (name, w) ∉ before) → Agree name standing standing' :=
    pinned standing' captures satisfied coherent
  -- A name used later stands in front, and then its binding is kept, or the choices agree on it.
  constructor
  · intro name hname b hb
    by_cases front : ∃ w, (name, w) ∈ before
    · obtain ⟨w, hw⟩ := front
      exact ⟨w, List.mem_append_left _ hw⟩
    · rcases notes.only name b hb with hb | hb
      · exact absurd (fits.stands name (List.mem_append_right _ hname) b hb) front
      · obtain ⟨v, hv, -⟩ := (agree name hname (not_exists.mp front)).2 b hb
        exact ⟨v, List.mem_append_right _ hv⟩
  · intro name hname w hw
    by_cases front : ∃ u, (name, u) ∈ before
    · obtain ⟨u, hu⟩ := front
      obtain ⟨b, hb⟩ := fits.bound name (List.mem_append_right _ hname) u hu
      exact ⟨b, notes.kept name b hb⟩
    · have own : (name, w) ∈ standing :=
        (List.mem_append.mp hw).resolve_left (not_exists.mp front w)
      obtain ⟨u, hu, -⟩ := (agree name hname (not_exists.mp front)).1 w own
      obtain ⟨b, hb, -⟩ := notes.bound name u hu
      exact ⟨b, hb⟩
  · intro name hname b hb
    by_cases front : ∃ u, (name, u) ∈ before
    · obtain ⟨u, hu⟩ := front
      obtain ⟨c, hc⟩ := fits.bound name (List.mem_append_right _ hname) u hu
      rw [notes.kept name c hc] at hb
      cases hb
      exact fits.assigned name (List.mem_append_right _ hname) b hc
    · rcases notes.only name b hb with hb | hb
      · exact fits.assigned name (List.mem_append_right _ hname) b hb
      · obtain ⟨v, hv, same⟩ := (agree name hname (not_exists.mp front)).2 b hb
        have hassigned := assigned name v (List.mem_append_right _ hv)
        rcases same with rfl | same
        · exact hassigned
        · exact Value.literalEquals_trans hassigned same

-- ============================================================================
-- Settled choices are found
-- ============================================================================

/-- An element matches a value, from every state that fits, if the value
    satisfies it under a settled choice. -/
def CompleteAt (functions : Functions) (e : Element) (v : Value) : Prop :=
  ∀ s assignment before standing, Settled functions e v before standing →
    (∀ name w, (name, w) ∈ before ++ standing → (assignment name).literalEquals w = true) →
    Fits s assignment before e.names → ∃ t, attempt functions e v s = .ok (true, t)

theorem completeAt_of_decides {e : Element} {v : Value}
    (decides : ∀ s, Decides (attempt functions e v s) (v ∈ e.meaning functions)) :
    CompleteAt functions e v := by
  intro s assignment before standing settled _ _
  obtain ⟨captures, satisfied⟩ := settled.satisfies
  obtain ⟨answer, t, run, hiff⟩ := decides s
  cases hiff.mpr satisfied.mem_meaning
  exact ⟨t, run⟩

/-- The runs are tried until one fits, and a fitting one is in reach. -/
theorem tryLengths_succeeds {next : List Value → MatchState → Attempt} {count n : Nat}
    (answers : ∀ items s, Disciplined s count (next items s)) {captured : Bool} {extra : Nat}
    {skipped items : List Value} (reach : n ≤ extra) (room : n ≤ items.length)
    (fits : ∀ run, ∃ t, next (items.drop n) (if captured then s.push run else s) = .ok (true, t)) :
    ∃ t, tryLengths next captured s extra skipped items = .ok (true, t) := by
  induction extra generalizing n skipped items with
  | zero =>
    obtain rfl : n = 0 := by omega
    obtain ⟨t, run⟩ := fits (.tuple skipped)
    rw [List.drop_zero] at run
    exact ⟨t, by unfold tryLengths; simp only [run]⟩
  | succ extra ih =>
    unfold tryLengths
    rcases answers items (if captured then s.push (.tuple skipped) else s) with
      run | ⟨t, run, -⟩
    · simp only [run]
      cases n with
      | zero =>
        obtain ⟨t, success⟩ := fits (.tuple skipped)
        rw [List.drop_zero, run] at success
        cases success
      | succ n =>
        cases items with
        | nil => simp at room
        | cons item items =>
          exact ih (by omega) (by simpa using room) fits
    · exact ⟨t, by simp only [run]⟩

theorem attemptAny_succeeds {e : Element} {es : List Element} {v : Value} {count : Nat}
    (answers : ∀ d ∈ es, Disciplined s count (attempt functions d v s)) (chosen : e ∈ es)
    (success : ∃ t, attempt functions e v s = .ok (true, t)) :
    ∃ t, attemptAny functions es v s = .ok (true, t) := by
  induction es with
  | nil => cases chosen
  | cons d es ih =>
    rw [attemptAny]
    rcases answers d (by simp) with run | ⟨t, run, -⟩
    · simp only [run]
      rcases List.mem_cons.mp chosen with rfl | chosen
      · obtain ⟨t, success⟩ := success
        rw [run] at success
        cases success
      · exact ih (fun c hc => answers c (by simp [hc])) chosen
    · exact ⟨t, by simp only [run]⟩

theorem attemptAll_succeeds {es : List Element} {v : Value}
    (complete : ∀ e ∈ es, CompleteAt functions e v) (sound : ∀ e ∈ es, SoundAt functions e v)
    (settled : SettledAll functions es v before standing)
    (assigned : ∀ name w, (name, w) ∈ before ++ standing →
      (assignment name).literalEquals w = true)
    (fits : Fits s assignment before (es.flatMap names)) :
    ∃ t, attemptAll functions es v s = .ok (true, t) := by
  induction es generalizing before standing s with
  | nil => exact ⟨s, rfl⟩
  | cons e es ih =>
    cases settled with
    | @cons _ _ _ _ standing standing' first pinned others =>
      rw [List.flatMap_cons] at fits
      rw [← List.append_assoc] at assigned
      have here : ∀ name w, (name, w) ∈ before ++ standing →
          (assignment name).literalEquals w = true :=
        fun name w hw => assigned name w (List.mem_append_left _ hw)
      obtain ⟨t, run⟩ := complete e (by simp) s assignment before standing first here
        (fits.mono (List.subset_append_left _ _))
      obtain ⟨_, _, satisfied, notes⟩ := sound e (by simp) s t run
      rw [attemptAll]
      simp only [run]
      exact ih (fun d hd => complete d (by simp [hd])) (fun d hd => sound d (by simp [hd]))
        others assigned (fits.next here pinned satisfied notes)

theorem attemptSequence_succeeds {es : List Element} {segments : List (List Value)}
    (complete : ∀ e ∈ es, e.isRest = false → ∀ v, CompleteAt functions e v)
    (sound : ∀ e ∈ es, e.isRest = false → ∀ v, SoundAt functions e v)
    (answers : ∀ e ∈ es, e.isRest = false →
      ∀ v s, Disciplined s e.captureCount (attempt functions e v s))
    (settled : SettledSegments functions es segments before standing)
    (assigned : ∀ name w, (name, w) ∈ before ++ standing →
      (assignment name).literalEquals w = true)
    (fits : Fits s assignment before (es.flatMap names)) :
    ∃ t, attemptSequence functions es segments.flatten s = .ok (true, t) := by
  induction es generalizing segments before standing s with
  | nil =>
    cases settled
    exact ⟨s, rfl⟩
  | cons e es ih =>
    have later : ∀ {s before standing segments},
        SettledSegments functions es segments before standing →
        (∀ name w, (name, w) ∈ before ++ standing → (assignment name).literalEquals w = true) →
        Fits s assignment before (es.flatMap names) →
        ∃ t, attemptSequence functions es segments.flatten s = .ok (true, t) :=
      ih (fun d hd => complete d (by simp [hd])) (fun d hd => sound d (by simp [hd]))
        (fun d hd => answers d (by simp [hd]))
    rw [List.flatMap_cons] at fits
    cases settled with
    | @rest captured _ segment segments _ _ others =>
      have room := others.required_le
      have behind : ∀ run, ∃ t, attemptSequence functions es segments.flatten
          (if captured then s.push run else s) = .ok (true, t) := by
        intro run
        refine later others assigned ?_
        have same := fits.mono (List.subset_append_right _ _)
        cases captured with
        | true => exact ⟨same.stands, same.bound, same.assigned⟩
        | false => exact same
      rw [attemptSequence, List.flatten_cons, List.length_append, if_pos (by omega)]
      refine tryLengths_succeeds (n := segment.length)
        (disciplined_attemptSequence fun d hd => answers d (by simp [hd])) (by omega) (by simp) ?_
      simpa using behind
    | @item _ _ v segments _ standing standing' first pinned others =>
      have he := first.isRest_eq_false
      rw [← List.append_assoc] at assigned
      have here : ∀ name w, (name, w) ∈ before ++ standing →
          (assignment name).literalEquals w = true :=
        fun name w hw => assigned name w (List.mem_append_left _ hw)
      obtain ⟨t, run⟩ := complete e (by simp) he v s assignment before standing first here
        (fits.mono (List.subset_append_left _ _))
      obtain ⟨_, _, satisfied, notes⟩ := sound e (by simp) he v s t run
      obtain ⟨u, done⟩ := later others assigned (fits.next here pinned satisfied notes)
      rw [List.flatten_cons, List.singleton_append, attemptSequence_cons he]
      exact ⟨u, by simp only [run, done]⟩

/-- Matching finds a success wherever there is a settled choice. -/
theorem Admissible.completeAt {e : Element} (he : e.Admissible) (negations : e.NegationsNameFree)
    (answered : e.Answered functions) (v : Value) : CompleteAt functions e v := by
  induction he generalizing v with
  | wildcard => exact completeAt_of_decides (Admissible.wildcard.decides rfl answered v)
  | unify name =>
    intro s assignment before standing settled assigned fits
    cases settled with
    | test test => cases test
    | unify =>
      rw [attempt]
      split
      next b hb =>
        have mem : name ∈ names (.unify name) := by simp [names, walk]
        have equal : b.literalEquals v = true := Value.literalEquals_trans
          (Value.literalEquals_symm (fits.assigned name mem b hb)) (assigned name v (by simp))
        exact ⟨s, by rw [equal]⟩
      next => exact ⟨_, rfl⟩
  | scalar l => exact completeAt_of_decides ((Admissible.scalar l).decides rfl answered v)
  | nodeType name =>
    exact completeAt_of_decides ((Admissible.nodeType name).decides rfl answered v)
  | predicate name known =>
    exact completeAt_of_decides ((Admissible.predicate name known).decides rfl answered v)
  | call name arguments =>
    exact completeAt_of_decides ((Admissible.call name arguments).decides rfl answered v)
  | capture e _ ih =>
    have part : e ∈ parts (.capture e) := by simp [parts]
    intro s assignment before standing settled assigned fits
    cases settled with
    | test test => cases test
    | capture inner =>
      have same := fits.mono (names_subset_of_mem_parts part)
      obtain ⟨t, run⟩ := ih (negations.of_mem_parts part) (answered.of_mem_parts part) v
        (s.push .nil) assignment before standing inner assigned
        ⟨same.stands, same.bound, same.assigned⟩
      exact ⟨t.fill s.captures.length v, by rw [attempt]; simp only [run]⟩
  | negation e inner plain =>
    have nameFree : (Element.negation e).names = [] := by
      have inside : e.names = [] := negations e (mem_walk_self _)
      simpa [names, walk] using inside
    exact completeAt_of_decides
      ((Admissible.negation e inner plain).decides nameFree answered v)
  | union es _ even inner ih =>
    intro s assignment before standing settled assigned fits
    cases settled with
    | test test => cases test
    | @union _ e _ _ _ chosen settled =>
      have part : e ∈ parts (.union es) := chosen
      have answers : ∀ d ∈ es, Disciplined s (captureCountFirst es) (attempt functions d v s) := by
        intro d hd
        have part : d ∈ parts (.union es) := hd
        rw [← captureCount_eq_first even hd]
        exact (inner d hd).disciplined (answered.of_mem_parts part) v s
      rw [attempt]
      exact attemptAny_succeeds answers chosen
        (ih e chosen (negations.of_mem_parts part) (answered.of_mem_parts part) v s assignment
          before standing settled assigned (fits.mono (names_subset_of_mem_parts part)))
  | intersection es _ inner ih =>
    intro s assignment before standing settled assigned fits
    cases settled with
    | test test => cases test
    | intersection settled =>
      have all : ∀ d ∈ es, d ∈ parts (.intersection es) := fun d hd => hd
      obtain ⟨t, run⟩ := attemptAll_succeeds
        (fun d hd => ih d hd (negations.of_mem_parts (all d hd))
          (answered.of_mem_parts (all d hd)) v)
        (fun d hd => (inner d hd).sound (negations.of_mem_parts (all d hd))
          (answered.of_mem_parts (all d hd)) v)
        settled assigned (fits.mono (flatMap_names_subset all))
      exact ⟨t, by rw [attempt]; simp only [run]⟩
  | sequence es _ inner ih =>
    intro s assignment before standing settled assigned fits
    cases settled with
    | test test => cases test
    | sequence cut settled =>
      have all : ∀ d ∈ es, d ∈ parts (.sequence es) := fun d hd => hd
      rw [attempt, ← cut]
      exact attemptSequence_succeeds
        (fun d hd hrest v => ih d hd hrest (negations.of_mem_parts (all d hd))
          (answered.of_mem_parts (all d hd)) v)
        (fun d hd hrest v => (inner d hd hrest).sound (negations.of_mem_parts (all d hd))
          (answered.of_mem_parts (all d hd)) v)
        (fun d hd hrest v s => (inner d hd hrest).disciplined
          (answered.of_mem_parts (all d hd)) v s)
        settled assigned (fits.mono (flatMap_names_subset all))

end

end Element

-- ============================================================================
-- Compiled patterns
-- ============================================================================

/-- Matching is complete for settled choices. If a value satisfies the pattern
    under a choice of branches and lengths with one value for every name, and if
    of the elements of each sequence and intersection under that choice every
    one leaves the names behind it at the same values whichever way it is
    satisfied, then there is a match. -/
theorem Compiled.captures_of_settled {pattern : String} {functions : Functions} {p : Compiled}
    (compiled : Compiled.compile pattern functions = .ok p)
    (answered : p.root.Answered functions)
    (negations : p.root.NegationsNameFree) {v : Value} {assignment : String → Value}
    {standing : List (String × Value)} (settled : p.root.Settled functions v [] standing)
    (assigned : ∀ name w, (name, w) ∈ standing → (assignment name).literalEquals w = true) :
    ∃ captures, p.captures? v = .ok (some captures) := by
  obtain ⟨table, admissible⟩ := Compiled.admissible_of_compile compiled
  have fits : Element.Fits .empty assignment [] p.root.names := by
    constructor <;> simp [MatchState.empty]
  obtain ⟨t, run⟩ := admissible.completeAt negations answered v .empty assignment [] standing
    settled assigned fits
  exact ⟨t.captures, by
    unfold Compiled.captures? Element.captures?
    rw [table, run]⟩

/-- The name stands in front of the sequence that has a choice of lengths, and
    the shortest one that agrees with it is found. -/
theorem captures_of_name_in_front :
    let inner := Element.sequence [.nodeType "array", .rest false, .unify "x", .rest false]
    let root := Element.sequence [.nodeType "and", .unify "x", inner]
    let array := Value.node (.plain "array") [.sym "a", .sym "b"] none
    let v := Value.node (.plain "and") [.sym "b", array] none
    Compiled.compile "(and _x (array ... _x ...))" [] =
        .ok ⟨"(and _x (array ... _x ...))", root, []⟩ ∧
      root.Answered [] ∧ root.NegationsNameFree ∧
      root.Settled [] v [] [("x", .sym "b"), ("x", .sym "b")] ∧
      ∃ captures, (⟨"(and _x (array ... _x ...))", root, []⟩ : Compiled).captures? v =
        .ok (some captures) := by
  intro inner root array v
  have lexemes : Lexeme.tokenize "(and _x (array ... _x ...))" = .ok
      [⟨.opening .round, "(", 0⟩, ⟨.nodeType "and", "and", 1⟩, ⟨.unify "x", "_x", 5⟩,
        ⟨.opening .round, "(", 8⟩, ⟨.nodeType "array", "array", 9⟩, ⟨.rest, "...", 15⟩,
        ⟨.unify "x", "_x", 19⟩, ⟨.rest, "...", 22⟩, ⟨.closing .round, ")", 25⟩,
        ⟨.closing .round, ")", 26⟩] := rfl
  have compiled : Compiled.compile "(and _x (array ... _x ...))" [] =
      .ok ⟨"(and _x (array ... _x ...))", root, []⟩ := by
    rw [Compiled.compile_eq_ok_iff, Grammar.parse_eq_ok_iff]
    refine ⟨⟨_, lexemes, .sequence rfl (.item (.nodeType rfl) (.item (.unify rfl)
      (.item (.sequence rfl (.item (.nodeType rfl) (.item (.rest rfl) (.item (.unify rfl)
        (.item (.rest rfl) (.close rfl))))) (by simp)) (.close rfl)))) (by simp)⟩,
      rfl, rfl, by decide⟩
  have answered : root.Answered [] := Element.answered_of_calledNames rfl
  have negations : root.NegationsNameFree := by
    intro d hd
    simp [root, inner, Element.walk, Element.walkAll] at hd
  have ofType {name : String} : Value.head name ∈ (Element.nodeType name).meaning [] := by
    simp [Element.meaning]
  have elements : inner.Settled [] array [("x", .sym "b")] [("x", .sym "b")] := by
    have cut : [[.head "array"], [.sym "a"], [.sym "b"], []].flatten =
        [Value.head "array", .sym "a", .sym "b"] := rfl
    refine .sequence cut ?_
    refine .item (.test rfl ofType) (Element.pinned_of_names ⟨_, .test rfl ofType⟩ ?_)
      (.rest (.item (.unify _ _) Element.pinned_unify (.rest .nil)))
    simp [Element.names, Element.walk]
  have settled : root.Settled [] v [] [("x", .sym "b"), ("x", .sym "b")] := by
    have cut : [[.head "and"], [.sym "b"], [array]].flatten =
        [Value.head "and", .sym "b", array] := rfl
    refine .sequence cut ?_
    refine .item (.test rfl ofType) (Element.pinned_of_names ⟨_, .test rfl ofType⟩ ?_)
      (.item (.unify _ _) Element.pinned_unify
        (.item elements (Element.pinned_of_names elements.satisfies (by simp)) .nil))
    simp [Element.names, Element.walk]
  let assignment : String → Value := fun _ => .sym "b"
  have assigned : ∀ name w, (name, w) ∈ [("x", Value.sym "b"), ("x", .sym "b")] →
      (assignment name).literalEquals w = true := by
    simp [assignment]
    rfl
  exact ⟨compiled, answered, negations, settled,
    Compiled.captures_of_settled compiled answered negations settled assigned⟩

/-- Not every choice is found: the sequence in front takes the first item for
    the name, and the name behind it does not reopen that. -/
theorem not_captures_of_satisfies :
    ¬ ∀ (pattern : String) (functions : Functions) (p : Compiled),
      Compiled.compile pattern functions = .ok p → p.root.Answered functions →
      p.root.NegationsNameFree → ∀ (v : Value) (assignment : String → Value)
      (standing : List (String × Value)) (captures : List Value),
      p.root.Satisfies functions v standing captures →
      (∀ name w, (name, w) ∈ standing → (assignment name).literalEquals w = true) →
      ∃ found, p.captures? v = .ok (some found) := by
  intro complete
  let inner := Element.sequence [.nodeType "array", .rest false, .unify "x", .rest false]
  let root := Element.sequence [.nodeType "and", inner, .unify "x"]
  let array := Value.node (.plain "array") [.sym "a", .sym "b"] none
  let v := Value.node (.plain "and") [array, .sym "b"] none
  have lexemes : Lexeme.tokenize "(and (array ... _x ...) _x)" = .ok
      [⟨.opening .round, "(", 0⟩, ⟨.nodeType "and", "and", 1⟩, ⟨.opening .round, "(", 5⟩,
        ⟨.nodeType "array", "array", 6⟩, ⟨.rest, "...", 12⟩, ⟨.unify "x", "_x", 16⟩,
        ⟨.rest, "...", 19⟩, ⟨.closing .round, ")", 22⟩, ⟨.unify "x", "_x", 24⟩,
        ⟨.closing .round, ")", 26⟩] := rfl
  have compiled : Compiled.compile "(and (array ... _x ...) _x)" [] =
      .ok ⟨"(and (array ... _x ...) _x)", root, []⟩ := by
    rw [Compiled.compile_eq_ok_iff, Grammar.parse_eq_ok_iff]
    refine ⟨⟨_, lexemes, .sequence rfl (.item (.nodeType rfl)
      (.item (.sequence rfl (.item (.nodeType rfl) (.item (.rest rfl) (.item (.unify rfl)
        (.item (.rest rfl) (.close rfl))))) (by simp)) (.item (.unify rfl) (.close rfl))))
      (by simp)⟩, rfl, rfl, by decide⟩
  have negations : root.NegationsNameFree := by
    intro d hd
    simp [root, inner, Element.walk, Element.walkAll] at hd
  have elements : inner.Satisfies [] array [("x", .sym "b")] [] := by
    have cut : [[.head "array"], [.sym "a"], [.sym "b"], []].flatten =
        [Value.head "array", .sym "a", .sym "b"] := rfl
    exact .sequence cut
      (.item (.test rfl (by simp [Element.meaning])) (.rest (.item (.unify _ _) (.rest .nil))))
  have satisfied : root.Satisfies [] v [("x", .sym "b"), ("x", .sym "b")] [] := by
    have cut : [[.head "and"], [array], [.sym "b"]].flatten =
        [Value.head "and", array, .sym "b"] := rfl
    exact .sequence cut
      (.item (.test rfl (by simp [Element.meaning])) (.item elements (.item (.unify _ _) .nil)))
  have answered : root.Answered [] := Element.answered_of_calledNames rfl
  obtain ⟨found, hfound⟩ := complete _ _ _ compiled answered negations v
    (fun _ => .sym "b") _ _ satisfied (by simp; rfl)
  have missed : (⟨"(and (array ... _x ...) _x)", root, []⟩ : Compiled).captures? v = .ok none := rfl
  rw [missed] at hfound
  cases hfound

end RubyPattern
