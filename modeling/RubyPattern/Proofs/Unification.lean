/-
  RubyPattern.Proofs.Unification

  Unification is sound. A derivation of `Satisfies` chooses an alternative of
  each union and a length of each rest, and lists the values at which names
  stand under that choice. Every successful match has such a derivation, in
  which the occurrences of one name stand at equal values; what is tried and
  given up on the way leaves no trace in the state.
-/
import RubyPattern.Proofs.Equality
import RubyPattern.Proofs.Meaning

namespace RubyPattern

namespace Element

-- ============================================================================
-- Satisfaction under a choice
-- ============================================================================

/-- Elements that decide by the value alone, without names, captures or a
    choice. -/
def isTest : Element → Bool
  | .wildcard => true
  | .scalar _ => true
  | .nodeType _ => true
  | .predicate _ => true
  | .call .. => true
  | .negation _ => true
  | _ => false

theorem isRest_eq_false_of_isTest {e : Element} (test : e.isTest = true) : e.isRest = false := by
  cases e <;> first | rfl | cases test

mutual

/-- A value satisfies a pattern under a choice of alternatives and lengths,
    with the names at the values where they stand under it, in the order of the
    pattern text, and with the captures. -/
inductive Satisfies (functions : Functions) :
    Element → Value → List (String × Value) → List Value → Prop
  | test {e : Element} {v : Value} (test : e.isTest = true) (hv : v ∈ e.meaning functions) :
      Satisfies functions e v [] []
  | unify (name : String) (v : Value) : Satisfies functions (.unify name) v [(name, v)] []
  | capture {e : Element} {v : Value} {standing : List (String × Value)} {captures : List Value}
      (inner : Satisfies functions e v standing captures) :
      Satisfies functions (.capture e) v standing (v :: captures)
  | union {es : List Element} {e : Element} {v : Value} {standing : List (String × Value)}
      {captures : List Value} (chosen : e ∈ es)
      (inner : Satisfies functions e v standing captures) :
      Satisfies functions (.union es) v standing captures
  | intersection {es : List Element} {v : Value} {standing : List (String × Value)}
      {captures : List Value} (inner : SatisfiesAll functions es v standing captures) :
      Satisfies functions (.intersection es) v standing captures
  | sequence {es : List Element} {type : Label} {children : List Value}
      {location : Option Location} {segments : List (List Value)}
      {standing : List (String × Value)} {captures : List Value}
      (cut : segments.flatten = .head type.text :: children)
      (inner : SatisfiesSegments functions es segments standing captures) :
      Satisfies functions (.sequence es) (.node type children location) standing captures

/-- A value satisfies several patterns. -/
inductive SatisfiesAll (functions : Functions) :
    List Element → Value → List (String × Value) → List Value → Prop
  | nil (v : Value) : SatisfiesAll functions [] v [] []
  | cons {e : Element} {es : List Element} {v : Value}
      {standing standing' : List (String × Value)} {captures captures' : List Value}
      (first : Satisfies functions e v standing captures)
      (others : SatisfiesAll functions es v standing' captures') :
      SatisfiesAll functions (e :: es) v (standing ++ standing') (captures ++ captures')

/-- Segments satisfy the elements of a sequence one by one. -/
inductive SatisfiesSegments (functions : Functions) :
    List Element → List (List Value) → List (String × Value) → List Value → Prop
  | nil : SatisfiesSegments functions [] [] [] []
  | rest {captured : Bool} {es : List Element} {segment : List Value}
      {segments : List (List Value)} {standing : List (String × Value)} {captures : List Value}
      (others : SatisfiesSegments functions es segments standing captures) :
      SatisfiesSegments functions (.rest captured :: es) (segment :: segments) standing
        ((if captured then [.tuple segment] else []) ++ captures)
  | item {e : Element} {es : List Element} {v : Value} {segments : List (List Value)}
      {standing standing' : List (String × Value)} {captures captures' : List Value}
      (first : Satisfies functions e v standing captures)
      (others : SatisfiesSegments functions es segments standing' captures') :
      SatisfiesSegments functions (e :: es) ([v] :: segments) (standing ++ standing')
        (captures ++ captures')

end

section Meaning

variable {functions : Functions}

theorem mem_unionMeaning {e : Element} {es : List Element} {v : Value} (he : e ∈ es)
    (hv : v ∈ e.meaning functions) : v ∈ unionMeaning functions es := by
  induction es with
  | nil => cases he
  | cons d es ih =>
    rcases List.mem_cons.mp he with rfl | he
    · exact .inl hv
    · exact .inr (ih he)

mutual

/-- What satisfies a pattern under some choice is in the pattern's meaning,
    where names stand for any value. -/
theorem Satisfies.mem_meaning {e : Element} {v : Value} {standing : List (String × Value)}
    {captures : List Value} (h : Satisfies functions e v standing captures) :
    v ∈ e.meaning functions := by
  cases h with
  | test _ hv => exact hv
  | unify => exact Set.mem_univ v
  | capture inner => exact inner.mem_meaning
  | union chosen inner => exact mem_unionMeaning chosen inner.mem_meaning
  | intersection inner => exact inner.mem_meaning
  | sequence cut inner => exact ⟨_, _, _, _, rfl, cut, inner.fits⟩

theorem SatisfiesAll.mem_meaning {es : List Element} {v : Value}
    {standing : List (String × Value)} {captures : List Value}
    (h : SatisfiesAll functions es v standing captures) :
    v ∈ intersectionMeaning functions es := by
  cases h with
  | nil => exact Set.mem_univ v
  | cons first others => exact ⟨first.mem_meaning, others.mem_meaning⟩

theorem SatisfiesSegments.fits {es : List Element} {segments : List (List Value)}
    {standing : List (String × Value)} {captures : List Value}
    (h : SatisfiesSegments functions es segments standing captures) :
    Element.fits functions es segments := by
  cases h with
  | nil => simp [Element.fits]
  | rest others => simpa [Element.fits] using others.fits
  | @item e es v segments _ _ _ _ first others =>
    have accepted := first.mem_meaning
    have plain : e.isRest = false := by
      cases e <;> first | rfl | cases accepted
    exact (fits_cons_of_isRest plain).mpr ⟨v, segments, rfl, accepted, others.fits⟩

end

end Meaning

mutual

/-- Names stand at parts of the value. -/
theorem Satisfies.nanFree_standing {functions : Functions} {e : Element} {v : Value}
    {standing : List (String × Value)} {captures : List Value}
    (h : Satisfies functions e v standing captures) (nanFree : v.nanFree = true) :
    ∀ name w, (name, w) ∈ standing → w.nanFree = true := by
  cases h with
  | test => simp
  | unify => simpa using nanFree
  | capture inner => exact inner.nanFree_standing nanFree
  | union _ inner => exact inner.nanFree_standing nanFree
  | intersection inner => exact inner.nanFree_standing nanFree
  | @sequence _ type children _ _ _ _ cut inner =>
    refine inner.nanFree_standing fun w hw => ?_
    rw [cut, List.mem_cons] at hw
    rcases hw with rfl | hw
    · rfl
    · exact Value.nanFree_of_mem_members nanFree hw

theorem SatisfiesAll.nanFree_standing {functions : Functions} {es : List Element} {v : Value}
    {standing : List (String × Value)} {captures : List Value}
    (h : SatisfiesAll functions es v standing captures) (nanFree : v.nanFree = true) :
    ∀ name w, (name, w) ∈ standing → w.nanFree = true := by
  cases h with
  | nil => simp
  | cons first others =>
    intro name w hw
    rcases List.mem_append.mp hw with hw | hw
    · exact first.nanFree_standing nanFree name w hw
    · exact others.nanFree_standing nanFree name w hw

theorem SatisfiesSegments.nanFree_standing {functions : Functions} {es : List Element}
    {segments : List (List Value)} {standing : List (String × Value)} {captures : List Value}
    (h : SatisfiesSegments functions es segments standing captures)
    (nanFree : ∀ w ∈ segments.flatten, w.nanFree = true) :
    ∀ name w, (name, w) ∈ standing → w.nanFree = true := by
  cases h with
  | nil => simp
  | rest others =>
    exact others.nanFree_standing fun w hw => nanFree w (by simp [hw])
  | item first others =>
    intro name w hw
    rcases List.mem_append.mp hw with hw | hw
    · exact first.nanFree_standing (nanFree _ (by simp)) name w hw
    · exact others.nanFree_standing (fun u hu => nanFree u (by simp [hu])) name w hw

end

end Element

-- ============================================================================
-- What a successful attempt records
-- ============================================================================

/-- Every two places of one name have equal values. -/
def Coherent (standing : List (String × Value)) : Prop :=
  standing.Pairwise fun a b => a.1 = b.1 → a.2.literalEquals b.2 = true

namespace MatchState

/-- The second state is the first one with some captures and names noted:
    nothing bound is lost or changed, nothing else is bound, and a name is bound
    to the value at its first place and compared at all others. -/
structure Notes (s t : MatchState) (standing : List (String × Value))
    (captures : List Value) : Prop where
  captured : t.captures = s.captures ++ captures
  kept : ∀ name v, s.bindings.lookup name = some v → t.bindings.lookup name = some v
  only : ∀ name v, t.bindings.lookup name = some v →
    s.bindings.lookup name = some v ∨ (name, v) ∈ standing
  bound : ∀ name v, (name, v) ∈ standing →
    ∃ b, t.bindings.lookup name = some b ∧ (b = v ∨ b.literalEquals v = true)
  compared : ∀ name v b, (name, v) ∈ standing → s.bindings.lookup name = some b →
    b.literalEquals v = true
  coherent : Coherent standing

theorem Notes.refl (s : MatchState) : Notes s s [] [] where
  captured := by simp
  kept := fun _ _ h => h
  only := fun _ _ h => .inl h
  bound := by simp
  compared := by simp
  coherent := .nil

theorem Notes.trans {s t u : MatchState} {standing standing' : List (String × Value)}
    {captures captures' : List Value} (h : Notes s t standing captures)
    (h' : Notes t u standing' captures') :
    Notes s u (standing ++ standing') (captures ++ captures') where
  captured := by rw [h'.captured, h.captured, List.append_assoc]
  kept := fun name v hv => h'.kept name v (h.kept name v hv)
  only := by
    intro name v hv
    rcases h'.only name v hv with hv | hv
    · rcases h.only name v hv with hv | hv
      · exact .inl hv
      · exact .inr (List.mem_append_left _ hv)
    · exact .inr (List.mem_append_right _ hv)
  bound := by
    intro name v hv
    rcases List.mem_append.mp hv with hv | hv
    · obtain ⟨b, hb, heq⟩ := h.bound name v hv
      exact ⟨b, h'.kept name b hb, heq⟩
    · exact h'.bound name v hv
  compared := by
    intro name v b hv hb
    rcases List.mem_append.mp hv with hv | hv
    · exact h.compared name v b hv hb
    · exact h'.compared name v b hv (h.kept name b hb)
  coherent := by
    refine List.pairwise_append.mpr ⟨h.coherent, h'.coherent, ?_⟩
    rintro ⟨name, v⟩ hv ⟨_, w⟩ hw rfl
    obtain ⟨b, hb, heq⟩ := h.bound name v hv
    have later : b.literalEquals w = true := h'.compared name w b hw hb
    rcases heq with rfl | heq
    · exact later
    · exact Value.literalEquals_trans (Value.literalEquals_symm heq) later

/-- A name that is bound already stands at a value equal to it. -/
theorem Notes.again {s : MatchState} {name : String} {bound v : Value}
    (hbound : s.bindings.lookup name = some bound) (heq : bound.literalEquals v = true) :
    Notes s s [(name, v)] [] where
  captured := by simp
  kept := fun _ _ h => h
  only := fun _ _ h => .inl h
  bound := by
    intro other w hw
    simp only [List.mem_singleton, Prod.mk.injEq] at hw
    obtain ⟨rfl, rfl⟩ := hw
    exact ⟨bound, hbound, .inr heq⟩
  compared := by
    intro other w b hw hb
    simp only [List.mem_singleton, Prod.mk.injEq] at hw
    obtain ⟨rfl, rfl⟩ := hw
    rw [hbound] at hb
    cases hb
    exact heq
  coherent := List.pairwise_singleton _ _

theorem lookup_bind (s : MatchState) (name other : String) (v : Value) :
    (s.bind name v).bindings.lookup other =
      if other = name then some v else s.bindings.lookup other := by
  by_cases same : other = name
  · subst same
    simp [MatchState.bind]
  · have different : (other == name) = false := beq_false_of_ne same
    simp only [MatchState.bind, List.lookup_cons, different, if_neg same]

/-- The first place of a name binds it. -/
theorem Notes.bind {s : MatchState} {name : String} {v : Value}
    (free : s.bindings.lookup name = none) : Notes s (s.bind name v) [(name, v)] [] where
  captured := by simp [MatchState.bind]
  kept := by
    intro other w hw
    rw [lookup_bind]
    split
    next same =>
      subst same
      rw [free] at hw
      cases hw
    next => exact hw
  only := by
    intro other w hw
    rw [lookup_bind] at hw
    split at hw
    next same =>
      cases hw
      exact .inr (by simp [same])
    next => exact .inl hw
  bound := by
    intro other w hw
    simp only [List.mem_singleton, Prod.mk.injEq] at hw
    obtain ⟨rfl, rfl⟩ := hw
    exact ⟨w, by rw [lookup_bind, if_pos rfl], .inl rfl⟩
  compared := by
    intro other w b hw hb
    simp only [List.mem_singleton, Prod.mk.injEq] at hw
    obtain ⟨rfl, rfl⟩ := hw
    rw [free] at hb
    cases hb
  coherent := List.pairwise_singleton _ _

/-- A capture is pushed before its inner captures and filled after them. -/
theorem Notes.fill {s t : MatchState} {standing : List (String × Value)}
    {captures : List Value} (h : Notes (s.push .nil) t standing captures) (v : Value) :
    Notes s (t.fill s.captures.length v) standing (v :: captures) where
  captured := by
    simp [MatchState.fill, h.captured, MatchState.push]
  kept := h.kept
  only := h.only
  bound := h.bound
  compared := h.compared
  coherent := h.coherent

/-- What is noted after a captured run is noted with the run before it. -/
theorem Notes.ofPush {s t : MatchState} {v : Value} {standing : List (String × Value)}
    {captures : List Value} (h : Notes (s.push v) t standing captures) :
    Notes s t standing (v :: captures) where
  captured := by simp [h.captured, MatchState.push]
  kept := h.kept
  only := h.only
  bound := h.bound
  compared := h.compared
  coherent := h.coherent

/-- The second state is the first one with some captures and names recorded:
    nothing bound is lost or changed, nothing else is bound, and each name
    stands at values equal to the one that it is bound to. -/
structure Records (s t : MatchState) (standing : List (String × Value))
    (captures : List Value) : Prop where
  captured : t.captures = s.captures ++ captures
  kept : ∀ name v, s.bindings.lookup name = some v → t.bindings.lookup name = some v
  only : ∀ name v, t.bindings.lookup name = some v →
    s.bindings.lookup name = some v ∨ (name, v) ∈ standing
  equal : ∀ name v, (name, v) ∈ standing →
    ∃ bound, t.bindings.lookup name = some bound ∧ bound.literalEquals v = true

/-- Without NaN the value at the first place of a name equals itself. -/
theorem Notes.records {s t : MatchState} {standing : List (String × Value)}
    {captures : List Value} (h : Notes s t standing captures)
    (nanFree : ∀ name v, (name, v) ∈ standing → v.nanFree = true) :
    Records s t standing captures where
  captured := h.captured
  kept := h.kept
  only := h.only
  equal := by
    intro name v hv
    obtain ⟨b, hb, rfl | heq⟩ := h.bound name v hv
    · exact ⟨b, hb, Value.literalEquals_self (nanFree name b hv)⟩
    · exact ⟨b, hb, heq⟩

end MatchState

-- ============================================================================
-- Failed attempts leave no trace
-- ============================================================================

theorem state_of_ok_eq_ok {answer : Bool} {s t : MatchState}
    (h : (Except.ok (answer, s) : Attempt) = .ok (false, t)) : t = s := by
  simp only [Except.ok.injEq, Prod.mk.injEq] at h
  exact h.2.symm

theorem state_of_tryLengths_false {next : List Value → MatchState → Attempt} {captured : Bool}
    {s t : MatchState} {extra : Nat} {skipped items : List Value}
    (h : tryLengths next captured s extra skipped items = .ok (false, t)) : t = s := by
  induction extra generalizing skipped items with
  | zero =>
    unfold tryLengths at h
    split at h
    next => cases h
    next => cases h
    next => cases h; rfl
  | succ extra ih =>
    unfold tryLengths at h
    split at h
    next => cases h
    next => cases h
    next =>
      cases items with
      | nil => cases h; rfl
      | cons item items => exact ih h

namespace Element

section Failure

variable {functions : Functions} {s t : MatchState}

theorem state_of_attemptAny_false {es : List Element} {v : Value}
    (h : attemptAny functions es v s = .ok (false, t)) : t = s := by
  induction es with
  | nil => cases h; rfl
  | cons e es ih =>
    rw [attemptAny] at h
    split at h
    next => cases h
    next => cases h
    next => exact ih h

/-- A split that is given up leaves the state as it was. -/
theorem state_of_attemptSequence_false {es : List Element} {items : List Value}
    (h : attemptSequence functions es items s = .ok (false, t)) : t = s := by
  cases es with
  | nil => exact state_of_ok_eq_ok (by rwa [attemptSequence] at h)
  | cons e es =>
    cases he : e.isRest with
    | true =>
      obtain ⟨captured, rfl⟩ := isRest_eq_true_iff.mp he
      rw [attemptSequence] at h
      split at h
      next => exact state_of_tryLengths_false h
      next => cases h; rfl
    | false =>
      cases items with
      | nil =>
        rw [attemptSequence_nil he] at h
        cases h
        rfl
      | cons item items =>
        rw [attemptSequence_cons he] at h
        split at h
        next => cases h
        next => cases h; rfl
        next =>
          split at h
          next => cases h
          next => cases h
          next => cases h; rfl

/-- A branch that is given up leaves the state as it was. -/
theorem state_of_attempt_false {e : Element} {v : Value}
    (h : attempt functions e v s = .ok (false, t)) : t = s := by
  cases e with
  | wildcard => rw [attempt] at h; cases h
  | unify name =>
    rw [attempt] at h
    split at h
    next => exact state_of_ok_eq_ok h
    next => cases h
  | scalar => exact state_of_ok_eq_ok (by rwa [attempt] at h)
  | nodeType => exact state_of_ok_eq_ok (by rwa [attempt] at h)
  | predicate name =>
    rw [attempt] at h
    split at h
    next => exact state_of_ok_eq_ok h
    next => exact state_of_ok_eq_ok h
  | call name arguments =>
    rw [attempt] at h
    split at h
    next => cases h
    next =>
      split at h
      next => cases h
      next => exact state_of_ok_eq_ok h
  | capture e =>
    rw [attempt] at h
    split at h
    next => cases h
    next => cases h
    next => exact state_of_ok_eq_ok h
  | negation e =>
    rw [attempt] at h
    split at h
    next => cases h
    next => exact state_of_ok_eq_ok h
  | union es =>
    rw [attempt] at h
    exact state_of_attemptAny_false h
  | intersection es =>
    rw [attempt] at h
    split at h
    next => cases h
    next => cases h
    next => exact state_of_ok_eq_ok h
  | rest => rw [attempt] at h; cases h
  | sequence es =>
    unfold attempt at h
    split at h
    next => exact state_of_attemptSequence_false h
    next => exact state_of_ok_eq_ok h

end Failure

-- ============================================================================
-- Successful attempts follow a choice
-- ============================================================================

/-- What success of an element on a value means, from any state: the value
    satisfies the element under a choice, and the state notes that choice. -/
def SoundAt (functions : Functions) (e : Element) (v : Value) : Prop :=
  ∀ s t, attempt functions e v s = .ok (true, t) → ∃ standing captures,
    Satisfies functions e v standing captures ∧ s.Notes t standing captures

section Success

variable {functions : Functions} {s t : MatchState}

theorem exists_next_of_tryLengths {next : List Value → MatchState → Attempt} {captured : Bool}
    {extra : Nat} {skipped items : List Value}
    (h : tryLengths next captured s extra skipped items = .ok (true, t)) :
    ∃ n, next (items.drop n)
      (if captured then s.push (.tuple (skipped ++ items.take n)) else s) = .ok (true, t) := by
  induction extra generalizing skipped items with
  | zero =>
    unfold tryLengths at h
    split at h
    next => cases h
    next run =>
      cases h
      exact ⟨0, by simpa using run⟩
    next => cases h
  | succ extra ih =>
    unfold tryLengths at h
    split at h
    next => cases h
    next run =>
      cases h
      exact ⟨0, by simpa using run⟩
    next =>
      cases items with
      | nil => cases h
      | cons item items =>
        obtain ⟨n, run⟩ := ih h
        exact ⟨n + 1, by simpa using run⟩

theorem exists_satisfies_of_attemptAny {es : List Element} {v : Value}
    (hes : ∀ e ∈ es, SoundAt functions e v)
    (h : attemptAny functions es v s = .ok (true, t)) : ∃ e ∈ es, ∃ standing captures,
      Satisfies functions e v standing captures ∧ s.Notes t standing captures := by
  induction es with
  | nil => simp [attemptAny] at h
  | cons e es ih =>
    rw [attemptAny] at h
    split at h
    next => cases h
    next run =>
      cases h
      exact ⟨e, by simp, hes e (by simp) _ _ run⟩
    next =>
      obtain ⟨d, hd, hsat⟩ := ih (fun d hd => hes d (by simp [hd])) h
      exact ⟨d, by simp [hd], hsat⟩

theorem satisfiesAll_of_attemptAll {es : List Element} {v : Value}
    (hes : ∀ e ∈ es, SoundAt functions e v)
    (h : attemptAll functions es v s = .ok (true, t)) : ∃ standing captures,
      SatisfiesAll functions es v standing captures ∧ s.Notes t standing captures := by
  induction es generalizing s with
  | nil =>
    rw [attemptAll] at h
    cases h
    exact ⟨[], [], .nil v, .refl _⟩
  | cons e es ih =>
    rw [attemptAll] at h
    split at h
    next => cases h
    next u run =>
      obtain ⟨standing, captures, first, notes⟩ := hes e (by simp) s u run
      obtain ⟨standing', captures', others, notes'⟩ := ih (fun d hd => hes d (by simp [hd])) h
      exact ⟨_, _, .cons first others, notes.trans notes'⟩
    next => cases h

theorem satisfiesSegments_of_attemptSequence {es : List Element} {items : List Value}
    (hes : ∀ e ∈ es, e.isRest = false → ∀ v, SoundAt functions e v)
    (h : attemptSequence functions es items s = .ok (true, t)) : ∃ segments standing captures,
      segments.flatten = items ∧ SatisfiesSegments functions es segments standing captures ∧
        s.Notes t standing captures := by
  induction es generalizing items s with
  | nil =>
    simp only [attemptSequence, Except.ok.injEq, Prod.mk.injEq, List.isEmpty_iff] at h
    obtain ⟨rfl, rfl⟩ := h
    exact ⟨[], [], [], rfl, .nil, .refl s⟩
  | cons e es ih =>
    cases he : e.isRest with
    | true =>
      obtain ⟨captured, rfl⟩ := isRest_eq_true_iff.mp he
      rw [attemptSequence] at h
      split at h
      next =>
        obtain ⟨n, run⟩ := exists_next_of_tryLengths h
        obtain ⟨segments, standing, captures, cut, others, notes⟩ :=
          ih (fun d hd => hes d (by simp [hd])) run
        refine ⟨items.take n :: segments, standing, _, by simp [cut], .rest others, ?_⟩
        cases captured with
        | true => exact notes.ofPush
        | false => exact notes
      next => cases h
    | false =>
      cases items with
      | nil =>
        rw [attemptSequence_nil he] at h
        cases h
      | cons item items =>
        rw [attemptSequence_cons he] at h
        split at h
        next => cases h
        next => cases h
        next u run =>
          obtain ⟨standing, captures, first, notes⟩ := hes e (by simp) he item s u run
          split at h
          next => cases h
          next later =>
            cases h
            obtain ⟨segments, standing', captures', cut, others, notes'⟩ :=
              ih (fun d hd => hes d (by simp [hd])) later
            exact ⟨[item] :: segments, _, _, by simp [cut], .item first others,
              notes.trans notes'⟩
          next => cases h

/-- Tests leave the state as it is. -/
theorem state_of_attempt_isTest {e : Element} {v : Value} {answer : Bool}
    (test : e.isTest = true) (h : attempt functions e v s = .ok (answer, t)) : t = s := by
  cases e with
  | wildcard => rw [attempt] at h; cases h; rfl
  | scalar => rw [attempt] at h; cases h; rfl
  | nodeType => rw [attempt] at h; cases h; rfl
  | predicate name =>
    rw [attempt] at h
    split at h
    next => cases h; rfl
    next => cases h; rfl
  | call name arguments =>
    rw [attempt] at h
    split at h
    next => cases h
    next =>
      split at h
      next => cases h
      next => cases h; rfl
  | negation e =>
    rw [attempt] at h
    split at h
    next => cases h
    next => cases h; rfl
  | _ => cases test

theorem soundAt_of_isTest {e : Element} {v : Value} (test : e.isTest = true)
    (decides : ∀ s, Decides (attempt functions e v s) (v ∈ e.meaning functions)) :
    SoundAt functions e v := by
  intro s t h
  obtain ⟨answer, u, run, hiff⟩ := decides s
  have same := state_of_attempt_isTest test h
  rw [h] at run
  cases run
  subst same
  exact ⟨[], [], .test test (hiff.mp rfl), .refl _⟩

/-- Names are bound at their first occurrence and compared at the others. -/
theorem soundAt_unify (name : String) (v : Value) : SoundAt functions (.unify name) v := by
  intro s t h
  rw [attempt] at h
  split at h
  next bound hbound =>
    simp only [Except.ok.injEq, Prod.mk.injEq] at h
    obtain ⟨heq, rfl⟩ := h
    exact ⟨_, _, .unify name v, .again hbound heq⟩
  next free =>
    cases h
    exact ⟨_, _, .unify name v, .bind free⟩

/-- A pattern without names under negations is sound. -/
theorem Admissible.sound {e : Element} (he : e.Admissible) (negations : e.NegationsNameFree)
    (answered : e.Answered functions) (v : Value) : SoundAt functions e v := by
  induction he generalizing v with
  | wildcard => exact soundAt_of_isTest rfl (Admissible.wildcard.decides rfl answered v)
  | unify name => exact soundAt_unify name v
  | scalar l => exact soundAt_of_isTest rfl ((Admissible.scalar l).decides rfl answered v)
  | nodeType name =>
    exact soundAt_of_isTest rfl ((Admissible.nodeType name).decides rfl answered v)
  | predicate name known =>
    exact soundAt_of_isTest rfl ((Admissible.predicate name known).decides rfl answered v)
  | call name arguments =>
    exact soundAt_of_isTest rfl ((Admissible.call name arguments).decides rfl answered v)
  | capture e _ ih =>
    have part : e ∈ parts (.capture e) := by simp [parts]
    intro s t h
    rw [attempt] at h
    split at h
    next => cases h
    next u run =>
      cases h
      obtain ⟨standing, captures, inner, notes⟩ :=
        ih (negations.of_mem_parts part) (answered.of_mem_parts part) v _ u run
      exact ⟨standing, v :: captures, .capture inner, notes.fill v⟩
    next => cases h
  | negation e inner plain =>
    have nameFree : (Element.negation e).names = [] := by
      have inside : e.names = [] := negations e (mem_walk_self _)
      simpa [names, walk] using inside
    exact soundAt_of_isTest rfl ((Admissible.negation e inner plain).decides nameFree answered v)
  | union es _ _ _ ih =>
    intro s t h
    rw [attempt] at h
    obtain ⟨e, he, standing, captures, inner, notes⟩ := exists_satisfies_of_attemptAny
      (fun e he => by
        have part : e ∈ parts (.union es) := he
        exact ih e he (negations.of_mem_parts part) (answered.of_mem_parts part) v) h
    exact ⟨standing, captures, .union he inner, notes⟩
  | intersection es _ _ ih =>
    intro s t h
    rw [attempt] at h
    split at h
    next => cases h
    next u run =>
      cases h
      obtain ⟨standing, captures, inner, notes⟩ := satisfiesAll_of_attemptAll
        (fun e he => by
          have part : e ∈ parts (.intersection es) := he
          exact ih e he (negations.of_mem_parts part) (answered.of_mem_parts part) v) run
      exact ⟨standing, captures, .intersection inner, notes⟩
    next => cases h
  | sequence es _ _ ih =>
    intro s t h
    unfold attempt at h
    split at h
    next type children location =>
      obtain ⟨segments, standing, captures, cut, inner, notes⟩ :=
        satisfiesSegments_of_attemptSequence
          (fun e he hrest w => by
            have part : e ∈ parts (.sequence es) := he
            exact ih e he hrest (negations.of_mem_parts part) (answered.of_mem_parts part) w) h
      exact ⟨standing, captures, .sequence cut inner, notes⟩
    next => cases h

/-- On values free of NaN each name is recorded with a value equal to all that
    it stands at. -/
theorem Admissible.soundAt {e : Element} (he : e.Admissible) (negations : e.NegationsNameFree)
    (answered : e.Answered functions) {v : Value} (nanFree : v.nanFree = true)
    (s t : MatchState) (h : attempt functions e v s = .ok (true, t)) :
    ∃ standing captures,
      Satisfies functions e v standing captures ∧ s.Records t standing captures := by
  obtain ⟨standing, captures, satisfied, notes⟩ := he.sound negations answered v s t h
  exact ⟨standing, captures, satisfied, notes.records (satisfied.nanFree_standing nanFree)⟩

end Success

end Element

-- ============================================================================
-- Compiled patterns
-- ============================================================================

/-- Unification is sound. A match that succeeds follows one choice, which the
    value satisfies, with one assignment of values to names. Every name stands
    at values equal to the assigned one, hence equal to each other; the final
    state binds the names that stand somewhere under the choice, to what they
    are assigned, and no others; and what was tried and given up before left
    the state as it was. -/
theorem Compiled.satisfies_of_captures {pattern : String} {functions : Functions}
    {p : Compiled} (compiled : Compiled.compile pattern functions = .ok p)
    (answered : p.root.Answered functions) (negations : p.root.NegationsNameFree) {v : Value}
    (nanFree : v.nanFree = true) {captures : List Value}
    (found : p.captures? v = .ok (some captures)) :
    (∃ (assignment : String → Value) (standing : List (String × Value)) (t : MatchState),
      p.root.Satisfies functions v standing captures ∧
      (∀ name w, (name, w) ∈ standing → (assignment name).literalEquals w = true) ∧
      (∀ name w w', (name, w) ∈ standing → (name, w') ∈ standing → w.literalEquals w' = true) ∧
      p.root.attempt functions v .empty = .ok (true, t) ∧ t.captures = captures ∧
      (∀ name w, t.bindings.lookup name = some w →
        (name, w) ∈ standing ∧ w = assignment name)) ∧
    (∀ e w s t, Element.attempt functions e w s = .ok (false, t) → t = s) ∧
    (∀ es items s t, Element.attemptSequence functions es items s = .ok (false, t) → t = s) := by
  obtain ⟨table, admissible⟩ := Compiled.admissible_of_compile compiled
  refine ⟨?_, fun _ _ _ _ => Element.state_of_attempt_false,
    fun _ _ _ _ => Element.state_of_attemptSequence_false⟩
  unfold Compiled.captures? Element.captures? at found
  rw [table] at found
  split at found
  next => cases found
  next t run =>
    cases found
    obtain ⟨standing, captures, satisfied, records⟩ :=
      admissible.soundAt negations answered nanFree _ t run
    have captured : t.captures = captures := records.captured
    rw [captured]
    have assigned : ∀ name w, (name, w) ∈ standing →
        (((t.bindings.lookup name).getD .nil).literalEquals w) = true := by
      intro name w hw
      obtain ⟨bound, hbound, heq⟩ := records.equal name w hw
      rw [hbound]
      exact heq
    refine ⟨fun name => (t.bindings.lookup name).getD .nil, standing, t, satisfied, assigned,
      ?_, run, captured, ?_⟩
    · intro name w w' hw hw'
      exact Value.literalEquals_trans (Value.literalEquals_symm (assigned name w hw))
        (assigned name w' hw')
    · intro name w hw
      simp only [hw, Option.getD_some, and_true]
      rcases records.only name w hw with hempty | hstanding
      · cases hempty
      · exact hstanding
  next => cases found

/-- The first and the last operand are one symbol: the name stands at both,
    behind the shorter rest that was given up, since what follows it is no
    integer. -/
theorem and_satisfies_of_equal_ends :
    let functions : Functions := [("whole", (Datum.value (.criterion (.class .int))).predicate)]
    let root := Element.sequence
      [.nodeType "and", .unify "x", .rest false, .call "whole" [], .unify "x"]
    let operands := Value.node (.plain "and") [.sym "a", .sym "b", .int 1, .sym "a"] none
    Compiled.compile "(and _x ... #whole _x)" functions =
        .ok ⟨"(and _x ... #whole _x)", root, functions⟩ ∧
      root.Answered functions ∧ root.NegationsNameFree ∧ operands.nanFree = true ∧
      (⟨"(and _x ... #whole _x)", root, functions⟩ : Compiled).captures? operands =
        .ok (some []) ∧
      ∃ standing, root.Satisfies functions operands standing [] := by
  intro functions root operands
  have lexemes : Lexeme.tokenize "(and _x ... #whole _x)" = .ok
      [⟨.opening .round, "(", 0⟩, ⟨.nodeType "and", "and", 1⟩, ⟨.unify "x", "_x", 5⟩,
        ⟨.rest, "...", 8⟩, ⟨.function "whole", "#whole", 12⟩, ⟨.unify "x", "_x", 19⟩,
        ⟨.closing .round, ")", 21⟩] := rfl
  have compiled : Compiled.compile "(and _x ... #whole _x)" functions =
      .ok ⟨"(and _x ... #whole _x)", root, functions⟩ := by
    rw [Compiled.compile_eq_ok_iff, Grammar.parse_eq_ok_iff]
    refine ⟨⟨_, lexemes, .sequence rfl ?_ (by simp)⟩, rfl, rfl, by decide⟩
    exact .item (.nodeType rfl) (.item (.unify rfl) (.item (.rest rfl)
      (.item (.call rfl (by simp [Grammar.Detached])) (.item (.unify rfl) (.close rfl)))))
  have answered : root.Answered functions :=
    Element.answered_of_made (List.forall_mem_singleton.mpr ⟨_, rfl⟩) (by decide)
      (by simp [root, Element.walk, Element.walkAll])
  have negations : root.NegationsNameFree := by
    intro d hd
    simp [root, Element.walk, Element.walkAll] at hd
  have found : (⟨"(and _x ... #whole _x)", root, functions⟩ : Compiled).captures? operands =
      .ok (some []) := rfl
  obtain ⟨⟨_, standing, _, satisfied, _⟩, _⟩ :=
    Compiled.satisfies_of_captures compiled answered negations
      (show operands.nanFree = true from rfl) found
  exact ⟨compiled, answered, negations, rfl, found, standing, satisfied⟩

end RubyPattern
