/-
  RubyPattern.Proofs.CanonicalCaptures

  Which captures a match reports. Many cuts of the items and several
  alternatives may fit; one derivation is canonical: each union takes its first
  alternative that accepts the value, and each sequence takes the fitting cut
  whose rests are shortest, the leftmost counting first. Matching reports the
  captures of that derivation, and the bound on the length of a rest plays no
  part in it: the search that tries every length gives the same result.
-/
import Mathlib.Data.Nat.Find
import RubyPattern.Proofs.MatchState

namespace RubyPattern

namespace MatchState

/-- A state with captures added behind those that it has. -/
def add (s : MatchState) (captures : List Value) : MatchState :=
  { s with captures := s.captures ++ captures }

@[simp] theorem add_nil (s : MatchState) : s.add [] = s := by
  simp [add]

@[simp] theorem add_add (s : MatchState) (captures captures' : List Value) :
    (s.add captures).add captures' = s.add (captures ++ captures') := by
  simp [add]

theorem push_eq_add (s : MatchState) (v : Value) : s.push v = s.add [v] := rfl

/-- The slot of a capture comes before the captures inside it. -/
theorem fill_push_add (s : MatchState) (v : Value) (captures : List Value) :
    ((s.push .nil).add captures).fill s.captures.length v = s.add (v :: captures) := by
  simp [add, push, fill]

end MatchState

namespace Element

-- ============================================================================
-- The least cut
-- ============================================================================

/-- The lengths of the segments that the rests take, from left to right. -/
def restLengths : List Element → List (List Value) → List Nat
  | .rest _ :: es, segment :: segments => segment.length :: restLengths es segments
  | _ :: es, _ :: segments => restLengths es segments
  | _, _ => []

/-- The lexicographic order of lengths: the leftmost difference decides. -/
def LexLE (lengths lengths' : List Nat) : Prop :=
  lengths = lengths' ∨ List.Lex (· < ·) lengths lengths'

theorem lexLE_cons {n n' : Nat} {lengths lengths' : List Nat} :
    LexLE (n :: lengths) (n' :: lengths') ↔ n < n' ∨ n = n' ∧ LexLE lengths lengths' := by
  simp only [LexLE, List.cons.injEq, List.cons_lex_cons_iff]
  grind

/-- A cut that fits, with the lexicographically least lengths of rests among
    the cuts of the same items that fit. -/
structure LeastCut (functions : Functions) (es : List Element) (segments : List (List Value)) :
    Prop where
  fits : fits functions es segments
  least : ∀ others, others.flatten = segments.flatten → Element.fits functions es others →
    LexLE (restLengths es segments) (restLengths es others)

section LeastCut

variable {functions : Functions} {e : Element} {es : List Element} {segment : List Value}
  {segments : List (List Value)} {items : List Value}

theorem restLengths_cons_of_isRest (he : e.isRest = false) :
    restLengths (e :: es) (segment :: segments) = restLengths es segments := by
  rw [restLengths]
  rintro captured rfl
  simp [isRest] at he

@[simp] theorem leastCut_nil : LeastCut functions [] segments ↔ segments = [] := by
  constructor
  · intro h
    cases segments with
    | nil => rfl
    | cons => simpa [Element.fits] using h.fits
  · rintro rfl
    refine ⟨by simp [Element.fits], fun others _ hothers => .inl ?_⟩
    cases others with
    | nil => rfl
    | cons => simp [Element.fits] at hothers

/-- An element that is no rest leaves no choice. -/
theorem leastCut_cons (he : e.isRest = false) :
    LeastCut functions (e :: es) segments ↔ ∃ v others, segments = [v] :: others ∧
      v ∈ e.meaning functions ∧ LeastCut functions es others := by
  constructor
  · intro h
    obtain ⟨v, others, rfl, hv, hothers⟩ := (fits_cons_of_isRest he).mp h.fits
    refine ⟨v, others, rfl, hv, hothers, fun cut hflat hcut => ?_⟩
    have least := h.least ([v] :: cut) (by simp [hflat])
      ((fits_cons_of_isRest he).mpr ⟨v, cut, rfl, hv, hcut⟩)
    rwa [restLengths_cons_of_isRest he, restLengths_cons_of_isRest he] at least
  · rintro ⟨v, others, rfl, hv, least⟩
    refine ⟨(fits_cons_of_isRest he).mpr ⟨v, others, rfl, hv, least.fits⟩, fun cut hflat hcut => ?_⟩
    obtain ⟨w, cut, rfl, -, hcut⟩ := (fits_cons_of_isRest he).mp hcut
    rw [restLengths_cons_of_isRest he, restLengths_cons_of_isRest he]
    simp only [List.flatten_cons, List.cons_append, List.nil_append, List.cons.injEq] at hflat
    exact least.least cut hflat.2 hcut

/-- The first rest is as short as what is behind it allows; only then do the
    others count. -/
theorem leastCut_rest {captured : Bool} :
    LeastCut functions (.rest captured :: es) (segment :: segments) ↔
      LeastCut functions es segments ∧ ∀ n < segment.length,
        ¬ Cut functions es ((segment ++ segments.flatten).drop n) := by
  constructor
  · intro h
    have hfits : Element.fits functions es segments := by
      simpa [Element.fits] using h.fits
    refine ⟨⟨hfits, fun others hflat hothers => ?_⟩, ?_⟩
    · have least := h.least (segment :: others) (by simp [hflat])
        (by simpa [Element.fits] using hothers)
      simpa [restLengths, lexLE_cons] using least
    · rintro n hn ⟨others, hflat, hothers⟩
      have same : (segment.take n :: others).flatten = (segment :: segments).flatten := by
        have front : segment.take n = (segment ++ segments.flatten).take n :=
          (List.take_append_of_le_length hn.le).symm
        rw [List.flatten_cons, hflat, front, List.take_append_drop, List.flatten_cons]
      have least := h.least (segment.take n :: others) same (by simpa [Element.fits] using hothers)
      simp only [restLengths, lexLE_cons, List.length_take] at least
      omega
  · rintro ⟨least, shortest⟩
    refine ⟨by simpa [Element.fits] using least.fits, fun others hflat hothers => ?_⟩
    cases others with
    | nil => simp [Element.fits] at hothers
    | cons first others =>
      replace hothers : Element.fits functions es others := by
        simpa [Element.fits] using hothers
      rw [List.flatten_cons, List.flatten_cons] at hflat
      have long : segment.length ≤ first.length := by
        by_contra short
        refine shortest first.length (by omega) ⟨others, ?_, hothers⟩
        rw [← hflat, List.drop_left]
      simp only [restLengths, lexLE_cons]
      rcases long.lt_or_eq with longer | same
      · exact .inl longer
      · obtain ⟨-, hrest⟩ := List.append_inj hflat same.symm
        exact .inr ⟨same, least.least others hrest hothers⟩

/-- Where some cut fits, one of them is least. -/
theorem exists_leastCut (h : Cut functions es items) :
    ∃ segments, segments.flatten = items ∧ LeastCut functions es segments := by
  induction es generalizing items with
  | nil => exact ⟨[], (cut_nil.mp h).symm, leastCut_nil.mpr rfl⟩
  | cons e es ih =>
    cases he : e.isRest with
    | true =>
      obtain ⟨captured, rfl⟩ := isRest_eq_true_iff.mp he
      have reached := cut_rest.mp h
      classical
      -- The shortest run of the rest; a run past the end is as good as one to the end.
      let n := Nat.find reached
      have short : n ≤ items.length := by
        have ⟨m, hm⟩ := reached
        by_cases past : m ≤ items.length
        · exact (Nat.find_min' reached hm).trans past
        · refine Nat.find_min' reached ?_
          rw [List.drop_eq_nil_of_le (by omega)] at hm
          rwa [List.drop_length]
      obtain ⟨segments, hflat, least⟩ := ih (Nat.find_spec reached)
      have whole : items.take n ++ segments.flatten = items := by
        rw [hflat, List.take_append_drop]
      refine ⟨items.take n :: segments, whole, leastCut_rest.mpr ⟨least, fun m hm => ?_⟩⟩
      rw [whole]
      rw [List.length_take, Nat.min_eq_left short] at hm
      exact Nat.find_min reached hm
    | false =>
      obtain ⟨v, others, rfl, hv, hothers⟩ := (cut_cons he).mp h
      obtain ⟨segments, rfl, least⟩ := ih hothers
      exact ⟨[v] :: segments, by simp, (leastCut_cons he).mpr ⟨v, segments, rfl, hv, least⟩⟩

end LeastCut

-- ============================================================================
-- The canonical derivation
-- ============================================================================

mutual

/-- The canonical derivation of a value from a pattern, with its captures in
    the order of their marks in the chosen pattern text. -/
inductive Canonical (functions : Functions) : Element → Value → List Value → Prop
  | test {e : Element} {v : Value} (test : e.isTest = true) (hv : v ∈ e.meaning functions) :
      Canonical functions e v []
  | capture {e : Element} {v : Value} {captures : List Value}
      (inner : Canonical functions e v captures) :
      Canonical functions (.capture e) v (v :: captures)
  | union {before after : List Element} {e : Element} {v : Value} {captures : List Value}
      (refused : ∀ d ∈ before, v ∉ d.meaning functions)
      (inner : Canonical functions e v captures) :
      Canonical functions (.union (before ++ e :: after)) v captures
  | intersection {es : List Element} {v : Value} {captures : List Value}
      (inner : CanonicalAll functions es v captures) :
      Canonical functions (.intersection es) v captures
  | sequence {es : List Element} {type : Label} {children : List Value}
      {location : Option Location} {segments : List (List Value)} {captures : List Value}
      (cut : segments.flatten = .head type.text :: children)
      (least : LeastCut functions es segments)
      (inner : CanonicalSegments functions es segments captures) :
      Canonical functions (.sequence es) (.node type children location) captures

/-- The canonical derivations of a value from several patterns. -/
inductive CanonicalAll (functions : Functions) : List Element → Value → List Value → Prop
  | nil (v : Value) : CanonicalAll functions [] v []
  | cons {e : Element} {es : List Element} {v : Value} {captures captures' : List Value}
      (first : Canonical functions e v captures)
      (others : CanonicalAll functions es v captures') :
      CanonicalAll functions (e :: es) v (captures ++ captures')

/-- The canonical derivations of the segments of a sequence, one by one. A
    captured rest captures what it skips, be it the head of the node as well. -/
inductive CanonicalSegments (functions : Functions) :
    List Element → List (List Value) → List Value → Prop
  | nil : CanonicalSegments functions [] [] []
  | rest {captured : Bool} {es : List Element} {segment : List Value}
      {segments : List (List Value)} {captures : List Value}
      (others : CanonicalSegments functions es segments captures) :
      CanonicalSegments functions (.rest captured :: es) (segment :: segments)
        ((if captured then [.tuple segment] else []) ++ captures)
  | item {e : Element} {es : List Element} {v : Value} {segments : List (List Value)}
      {captures captures' : List Value} (first : Canonical functions e v captures)
      (others : CanonicalSegments functions es segments captures') :
      CanonicalSegments functions (e :: es) ([v] :: segments) (captures ++ captures')

end

section Existence

variable {functions : Functions}

/-- What a union accepts is accepted by a first of its alternatives. -/
theorem exists_first_of_mem_unionMeaning {es : List Element} {v : Value}
    (hv : v ∈ unionMeaning functions es) : ∃ before e after, es = before ++ e :: after ∧
      (∀ d ∈ before, v ∉ d.meaning functions) ∧ v ∈ e.meaning functions := by
  induction es with
  | nil => cases hv
  | cons e es ih =>
    by_cases here : v ∈ e.meaning functions
    · exact ⟨[], e, es, rfl, by simp, here⟩
    · obtain ⟨before, d, after, rfl, refused, accepted⟩ := ih (hv.resolve_left here)
      exact ⟨e :: before, d, after, rfl, by simpa using ⟨here, refused⟩, accepted⟩

theorem exists_canonicalAll {es : List Element} {v : Value}
    (hes : ∀ e ∈ es, v ∈ e.meaning functions → ∃ captures, Canonical functions e v captures)
    (hv : v ∈ intersectionMeaning functions es) :
    ∃ captures, CanonicalAll functions es v captures := by
  induction es with
  | nil => exact ⟨[], .nil v⟩
  | cons e es ih =>
    obtain ⟨captures, first⟩ := hes e (by simp) hv.1
    obtain ⟨captures', others⟩ := ih (fun d hd => hes d (by simp [hd])) hv.2
    exact ⟨captures ++ captures', .cons first others⟩

theorem exists_canonicalSegments {es : List Element} {segments : List (List Value)}
    (hes : ∀ e ∈ es, e.isRest = false →
      ∀ v ∈ e.meaning functions, ∃ captures, Canonical functions e v captures)
    (h : fits functions es segments) :
    ∃ captures, CanonicalSegments functions es segments captures := by
  induction es generalizing segments with
  | nil =>
    cases segments with
    | nil => exact ⟨[], .nil⟩
    | cons => simp [fits] at h
  | cons e es ih =>
    replace ih : ∀ others, fits functions es others →
        ∃ captures, CanonicalSegments functions es others captures :=
      fun _ => ih fun d hd => hes d (by simp [hd])
    cases he : e.isRest with
    | true =>
      obtain ⟨captured, rfl⟩ := isRest_eq_true_iff.mp he
      cases segments with
      | nil => simp [fits] at h
      | cons segment segments =>
        obtain ⟨captures, others⟩ := ih segments (by simpa [fits] using h)
        exact ⟨_, .rest others⟩
    | false =>
      obtain ⟨v, segments, rfl, hv, hothers⟩ := (fits_cons_of_isRest he).mp h
      obtain ⟨captures, first⟩ := hes e (by simp) he v hv
      obtain ⟨captures', others⟩ := ih segments hothers
      exact ⟨_, .item first others⟩

/-- Every value that a pattern without names accepts has a canonical
    derivation. -/
theorem Admissible.exists_canonical {e : Element} (he : e.Admissible) (nameFree : e.names = [])
    {v : Value} (hv : v ∈ e.meaning functions) :
    ∃ captures, Canonical functions e v captures := by
  induction he generalizing v with
  | unify name => simp [names, walk] at nameFree
  | capture e _ ih =>
    have part : e ∈ parts (.capture e) := by simp [parts]
    obtain ⟨captures, inner⟩ := ih (names_eq_nil_of_mem_parts part nameFree) hv
    exact ⟨v :: captures, .capture inner⟩
  | union es _ _ _ ih =>
    obtain ⟨before, e, after, rfl, refused, accepted⟩ := exists_first_of_mem_unionMeaning hv
    have chosen : e ∈ before ++ e :: after := by simp
    have part : e ∈ parts (.union (before ++ e :: after)) := chosen
    obtain ⟨captures, inner⟩ := ih e chosen (names_eq_nil_of_mem_parts part nameFree) accepted
    exact ⟨captures, .union refused inner⟩
  | intersection es _ _ ih =>
    obtain ⟨captures, inner⟩ := exists_canonicalAll (fun e he => by
      have part : e ∈ parts (.intersection es) := he
      exact ih e he (names_eq_nil_of_mem_parts part nameFree)) hv
    exact ⟨captures, .intersection inner⟩
  | sequence es _ _ ih =>
    obtain ⟨type, children, location, cut, rfl, hflat, hcut⟩ := hv
    obtain ⟨segments, hsegments, least⟩ := exists_leastCut ⟨cut, hflat, hcut⟩
    obtain ⟨captures, inner⟩ := exists_canonicalSegments (fun e he hrest w => by
      have part : e ∈ parts (.sequence es) := he
      exact ih e he hrest (names_eq_nil_of_mem_parts part nameFree)) least.fits
    exact ⟨captures, .sequence hsegments least inner⟩
  | _ => exact ⟨[], .test rfl hv⟩

end Existence

-- ============================================================================
-- The search finds the canonical derivation
-- ============================================================================

/-- What an element reports on the values that it derives canonically: success,
    with the captures of the derivation behind those that were there. -/
def Reports (functions : Functions) (e : Element) : Prop :=
  ∀ v captures, Canonical functions e v captures →
    ∀ s, attempt functions e v s = .ok (true, s.add captures)

section Search

variable {functions : Functions}

theorem Decides.exists_false {run : Attempt} {statement : Prop} (h : Decides run statement)
    (fails : ¬ statement) : ∃ t, run = .ok (false, t) := by
  obtain ⟨answer, t, run, hiff⟩ := h
  cases answer with
  | true => exact absurd (hiff.mp rfl) fails
  | false => exact ⟨t, run⟩

/-- The lengths below the least one fail and leave nothing behind. -/
theorem tryLengths_eq_of_least {next : List Value → MatchState → Attempt} {captured : Bool}
    {s t : MatchState} {n extra : Nat} {skipped items : List Value} (within : n ≤ extra)
    (room : n ≤ items.length)
    (fails : ∀ m < n, ∀ u, ∃ w, next (items.drop m) u = .ok (false, w))
    (found : next (items.drop n)
      (if captured then s.push (.tuple (skipped ++ items.take n)) else s) = .ok (true, t)) :
    tryLengths next captured s extra skipped items = .ok (true, t) := by
  induction n generalizing extra skipped items with
  | zero =>
    simp only [List.drop_zero, List.take_zero, List.append_nil] at found
    unfold tryLengths
    simp only [found]
  | succ n ih =>
    obtain ⟨w, here⟩ := fails 0 (Nat.succ_pos n) (if captured then s.push (.tuple skipped) else s)
    rw [List.drop_zero] at here
    cases extra with
    | zero => omega
    | succ extra =>
      cases items with
      | nil => simp at room
      | cons item items =>
        unfold tryLengths
        simp only [here]
        refine ih (by omega) (by simpa using room) (fun m hm u => ?_) (by simpa using found)
        simpa using fails (m + 1) (by omega) u

theorem attemptAny_of_first {before after : List Element} {e : Element} {v : Value}
    {s t : MatchState} (refused : ∀ d ∈ before, ∀ u, ∃ w, attempt functions d v u = .ok (false, w))
    (found : attempt functions e v s = .ok (true, t)) :
    attemptAny functions (before ++ e :: after) v s = .ok (true, t) := by
  induction before with
  | nil => simp only [List.nil_append, attemptAny, found]
  | cons d before ih =>
    obtain ⟨w, run⟩ := refused d (by simp) s
    simp only [List.cons_append, attemptAny, run]
    exact ih fun c hc => refused c (by simp [hc])

theorem attemptAll_of_canonicalAll {es : List Element} {v : Value} {captures : List Value}
    (hes : ∀ e ∈ es, Reports functions e) (h : CanonicalAll functions es v captures)
    (s : MatchState) : attemptAll functions es v s = .ok (true, s.add captures) := by
  induction es generalizing captures s with
  | nil =>
    cases h
    rw [attemptAll, MatchState.add_nil]
  | cons e es ih =>
    cases h with
    | cons first others =>
      rw [attemptAll, hes e (by simp) v _ first s]
      simp only [ih (fun d hd => hes d (by simp [hd])) others, MatchState.add_add]

theorem attemptSequence_of_canonicalSegments {es : List Element} {segments : List (List Value)}
    {captures : List Value}
    (decides : ∀ e ∈ es, e.isRest = false →
      ∀ v s, Decides (attempt functions e v s) (v ∈ e.meaning functions))
    (hes : ∀ e ∈ es, e.isRest = false → Reports functions e)
    (least : LeastCut functions es segments) (h : CanonicalSegments functions es segments captures)
    (s : MatchState) :
    attemptSequence functions es segments.flatten s = .ok (true, s.add captures) := by
  induction es generalizing segments captures s with
  | nil =>
    cases h
    simp [attemptSequence]
  | cons e es ih =>
    replace decides : ∀ d ∈ es, d.isRest = false →
        ∀ v s, Decides (attempt functions d v s) (v ∈ d.meaning functions) :=
      fun d hd => decides d (by simp [hd])
    cases he : e.isRest with
    | true =>
      obtain ⟨captured, rfl⟩ := isRest_eq_true_iff.mp he
      cases h with
      | @rest _ _ segment segments captures others =>
        obtain ⟨least, shortest⟩ := leastCut_rest.mp least
        have room : required es ≤ segments.flatten.length :=
          Cut.required_le ⟨segments, rfl, least.fits⟩
        have within : segment.length ≤
            segment.length + segments.flatten.length - required es := by omega
        rw [attemptSequence, List.flatten_cons, List.length_append, if_pos (by omega)]
        refine tryLengths_eq_of_least within (by simp) (fun m hm u => ?_) ?_
        · exact (attemptSequence_decides decides _ u).exists_false (shortest m hm)
        · rw [List.drop_left, List.nil_append, List.take_left,
            ih decides (fun d hd => hes d (by simp [hd])) least others]
          cases captured with
          | true => simp [MatchState.push_eq_add]
          | false => simp
      | item first => cases first with
        | test test => cases test
    | false =>
      obtain ⟨v, others, rfl, hv, least⟩ := (leastCut_cons he).mp least
      cases h with
      | rest => cases he
      | item first others =>
        rw [List.flatten_cons, List.singleton_append, attemptSequence_cons he,
          hes e (by simp) he v _ first s]
        simp only [ih decides (fun d hd => hes d (by simp [hd])) least others, MatchState.add_add]

theorem reports_of_isTest {e : Element} (test : e.isTest = true)
    (decides : ∀ v s, Decides (attempt functions e v s) (v ∈ e.meaning functions)) :
    Reports functions e := by
  intro v captures h s
  cases h with
  | test _ hv =>
    obtain ⟨answer, t, run, hiff⟩ := decides v s
    have same := state_of_attempt_isTest test run
    rw [run, hiff.mpr hv, same, MatchState.add_nil]
  | _ => cases test

/-- A pattern without names reports the captures of the canonical derivation,
    from every state. -/
theorem Admissible.reports {e : Element} (he : e.Admissible) (nameFree : e.names = [])
    (answered : e.Answered functions) : Reports functions e := by
  induction he with
  | wildcard => exact reports_of_isTest rfl (Admissible.wildcard.decides rfl answered)
  | unify name => simp [names, walk] at nameFree
  | scalar l => exact reports_of_isTest rfl ((Admissible.scalar l).decides rfl answered)
  | nodeType name => exact reports_of_isTest rfl ((Admissible.nodeType name).decides rfl answered)
  | predicate name known =>
    exact reports_of_isTest rfl ((Admissible.predicate name known).decides rfl answered)
  | call name arguments =>
    exact reports_of_isTest rfl ((Admissible.call name arguments).decides rfl answered)
  | negation e inner plain =>
    exact reports_of_isTest rfl ((Admissible.negation e inner plain).decides nameFree answered)
  | capture e _ ih =>
    have part : e ∈ parts (.capture e) := by simp [parts]
    intro v captures h s
    cases h with
    | test test => cases test
    | capture derived =>
      rw [attempt, ih (names_eq_nil_of_mem_parts part nameFree) (answered.of_mem_parts part) v _
        derived]
      simp only [MatchState.fill_push_add]
  | union es _ _ inner ih =>
    intro v captures h s
    cases h with
    | test test => cases test
    | @union before after e _ _ refused derived =>
      have part : ∀ d ∈ before ++ e :: after, d ∈ parts (.union (before ++ e :: after)) :=
        fun _ hd => hd
      have chosen : e ∈ before ++ e :: after := by simp
      rw [attempt]
      refine attemptAny_of_first (fun d hd u => ?_) ?_
      · have member : d ∈ before ++ e :: after := by simp [hd]
        have decides := (inner d member).decides
          (names_eq_nil_of_mem_parts (part d member) nameFree)
          (answered.of_mem_parts (part d member)) v u
        exact decides.exists_false (refused d hd)
      · exact ih e chosen (names_eq_nil_of_mem_parts (part e chosen) nameFree)
          (answered.of_mem_parts (part e chosen)) v _ derived s
  | intersection es _ _ ih =>
    intro v captures h s
    cases h with
    | test test => cases test
    | intersection derived =>
      rw [attempt, attemptAll_of_canonicalAll (fun e he => ?_) derived]
      have part : e ∈ parts (.intersection es) := he
      exact ih e he (names_eq_nil_of_mem_parts part nameFree) (answered.of_mem_parts part)
  | sequence es _ inner ih =>
    intro v captures h s
    cases h with
    | test test => cases test
    | sequence cut least derived =>
      simp only [attempt]
      rw [← cut]
      refine attemptSequence_of_canonicalSegments (fun e he hrest => ?_) (fun e he hrest => ?_)
        least derived s
      · have part : e ∈ parts (.sequence es) := he
        exact (inner e he hrest).decides (names_eq_nil_of_mem_parts part nameFree)
          (answered.of_mem_parts part)
      · have part : e ∈ parts (.sequence es) := he
        exact ih e he hrest (names_eq_nil_of_mem_parts part nameFree) (answered.of_mem_parts part)

end Search

-- ============================================================================
-- The search without a bound
-- ============================================================================

mutual

/-- Matching where a rest tries every length up to the end of the items. -/
def search (functions : Functions) : Element → Value → MatchState → Attempt
  | .capture element, v, s =>
    match search functions element v (s.push .nil) with
    | .error fault => .error fault
    | .ok (true, t) => .ok (true, t.fill s.captures.length v)
    | .ok (false, _) => .ok (false, s)
  | .negation element, v, s =>
    match search functions element v s with
    | .error fault => .error fault
    | .ok (matched, _) => .ok (!matched, s)
  | .union alternatives, v, s => searchAny functions alternatives v s
  | .intersection elements, v, s =>
    match searchAll functions elements v s with
    | .error fault => .error fault
    | .ok (true, t) => .ok (true, t)
    | .ok (false, _) => .ok (false, s)
  | .sequence elements, v, s =>
    match v with
    | .node type children _ =>
      searchSequence functions elements (.head type.text :: children) s
    | _ => .ok (false, s)
  | e, v, s => attempt functions e v s

/-- The first of the alternatives that applies. -/
def searchAny (functions : Functions) : List Element → Value → MatchState → Attempt
  | [], _, s => .ok (false, s)
  | e :: es, v, s =>
    match search functions e v s with
    | .error fault => .error fault
    | .ok (true, t) => .ok (true, t)
    | .ok (false, _) => searchAny functions es v s

/-- All elements against the same value. -/
def searchAll (functions : Functions) : List Element → Value → MatchState → Attempt
  | [], _, s => .ok (true, s)
  | e :: es, v, s =>
    match search functions e v s with
    | .error fault => .error fault
    | .ok (true, t) => searchAll functions es v t
    | .ok (false, t) => .ok (false, t)

/-- Elements against the items of a sequence; the bound of a rest is the number
    of items that are left. -/
def searchSequence (functions : Functions) : List Element → List Value → MatchState → Attempt
  | [], items, s => .ok (items.isEmpty, s)
  | .rest captured :: es, items, s =>
    tryLengths (searchSequence functions es) captured s items.length [] items
  | _ :: _, [], s => .ok (false, s)
  | e :: es, item :: items, s =>
    match search functions e item s with
    | .error fault => .error fault
    | .ok (false, _) => .ok (false, s)
    | .ok (true, t) =>
      match searchSequence functions es items t with
      | .error fault => .error fault
      | .ok (true, u) => .ok (true, u)
      | .ok (false, _) => .ok (false, s)

end

section Unbounded

variable {functions : Functions}

theorem tryLengths_eq_false {next : List Value → MatchState → Attempt} {captured : Bool}
    {s : MatchState} {extra : Nat} {skipped items : List Value}
    (fails : ∀ n ≤ items.length, ∀ u, ∃ w, next (items.drop n) u = .ok (false, w)) :
    tryLengths next captured s extra skipped items = .ok (false, s) := by
  induction extra generalizing skipped items with
  | zero =>
    obtain ⟨w, here⟩ := fails 0 (Nat.zero_le _)
      (if captured then s.push (.tuple skipped) else s)
    rw [List.drop_zero] at here
    unfold tryLengths
    simp only [here]
  | succ extra ih =>
    obtain ⟨w, here⟩ := fails 0 (Nat.zero_le _)
      (if captured then s.push (.tuple skipped) else s)
    rw [List.drop_zero] at here
    unfold tryLengths
    simp only [here]
    cases items with
    | nil => rfl
    | cons item items => exact ih fun n hn => fails (n + 1) (Nat.succ_le_succ hn)

/-- Lengths that fail may as well not be tried. -/
theorem tryLengths_eq_of_fails_beyond {next : List Value → MatchState → Attempt}
    {captured : Bool} {s : MatchState} {bound extra : Nat} {skipped items : List Value}
    (within : bound ≤ extra)
    (fails : ∀ n ≤ items.length, bound < n →
      ∀ u, ∃ w, next (items.drop n) u = .ok (false, w)) :
    tryLengths next captured s extra skipped items =
      tryLengths next captured s bound skipped items := by
  induction bound generalizing extra skipped items with
  | zero =>
    cases extra with
    | zero => rfl
    | succ extra =>
      unfold tryLengths
      split
      next => rfl
      next => rfl
      next =>
        cases items with
        | nil => rfl
        | cons item items =>
          exact tryLengths_eq_false fun n hn =>
            fails (n + 1) (Nat.succ_le_succ hn) (Nat.succ_pos n)
  | succ bound ih =>
    obtain ⟨extra, rfl⟩ : ∃ more, extra = more + 1 := ⟨extra - 1, by omega⟩
    unfold tryLengths
    split
    next => rfl
    next => rfl
    next =>
      cases items with
      | nil => rfl
      | cons item items =>
        exact ih (Nat.le_of_succ_le_succ within) fun n hn beyond =>
          fails (n + 1) (Nat.succ_le_succ hn) (Nat.succ_lt_succ beyond)

/-- No sequence of elements gets by with fewer items than it requires. -/
theorem required_le_of_attemptSequence {es : List Element} {items : List Value}
    {s t : MatchState} (h : attemptSequence functions es items s = .ok (true, t)) :
    required es ≤ items.length := by
  induction es generalizing items s with
  | nil => exact Nat.zero_le _
  | cons e es ih =>
    cases he : e.isRest with
    | true =>
      obtain ⟨captured, rfl⟩ := isRest_eq_true_iff.mp he
      rw [attemptSequence] at h
      split at h
      next room => simpa [required, isRest] using room
      next => cases h
    | false =>
      cases items with
      | nil =>
        rw [attemptSequence_nil he] at h
        cases h
      | cons item items =>
        rw [attemptSequence_cons he] at h
        split at h
        next => cases h
        next => cases h
        next =>
          split at h
          next => cases h
          next run =>
            cases h
            simpa [required, List.filter_cons, he] using ih run
          next => cases h

theorem searchAny_eq {es : List Element} {v : Value}
    (hes : ∀ e ∈ es, ∀ s, search functions e v s = attempt functions e v s) (s : MatchState) :
    searchAny functions es v s = attemptAny functions es v s := by
  induction es with
  | nil => rfl
  | cons e es ih =>
    rewrite [searchAny, attemptAny, hes e (by simp), ih fun d hd => hes d (by simp [hd])]
    rfl

theorem searchAll_eq {es : List Element} {v : Value}
    (hes : ∀ e ∈ es, ∀ s, search functions e v s = attempt functions e v s) (s : MatchState) :
    searchAll functions es v s = attemptAll functions es v s := by
  induction es generalizing s with
  | nil => rfl
  | cons e es ih =>
    have behind : searchAll functions es v = attemptAll functions es v :=
      funext (ih fun d hd => hes d (by simp [hd]))
    rewrite [searchAll, attemptAll, hes e (by simp), behind]
    rfl

theorem searchSequence_eq {es : List Element}
    (disciplined : ∀ e ∈ es, e.isRest = false →
      ∀ v s, Disciplined s e.captureCount (attempt functions e v s))
    (hes : ∀ e ∈ es, e.isRest = false → ∀ v s, search functions e v s = attempt functions e v s) :
    searchSequence functions es = attemptSequence functions es := by
  induction es with
  | nil => rfl
  | cons e es ih =>
    replace disciplined : ∀ d ∈ es, d.isRest = false →
        ∀ v s, Disciplined s d.captureCount (attempt functions d v s) :=
      fun d hd => disciplined d (by simp [hd])
    have behind := ih disciplined fun d hd => hes d (by simp [hd])
    funext items s
    cases he : e.isRest with
    | true =>
      obtain ⟨captured, rfl⟩ := isRest_eq_true_iff.mp he
      -- What is behind the rest fails on fewer items than it requires, without an error.
      have fails : ∀ items : List Value, items.length < required es →
          ∀ u, ∃ w, attemptSequence functions es items u = .ok (false, w) := by
        intro items short u
        rcases disciplined_attemptSequence disciplined items u with run | ⟨t, run, -⟩
        · exact ⟨u, run⟩
        · have := required_le_of_attemptSequence run
          omega
      rw [searchSequence, attemptSequence, behind]
      split
      next room =>
        refine tryLengths_eq_of_fails_beyond (by omega) fun n hn beyond => fails _ ?_
        rw [List.length_drop]
        omega
      next tight =>
        refine tryLengths_eq_false fun n _ => fails _ ?_
        rw [List.length_drop]
        omega
    | false =>
      cases items with
      | nil =>
        rw [attemptSequence_nil he]
        cases e <;> first | rfl | cases he
      | cons item items =>
        rw [attemptSequence_cons he, ← hes e (by simp) he, ← behind]
        cases e <;> first | rfl | cases he

/-- The bound on the lengths of rests changes nothing, whatever the value and
    the state. -/
theorem Admissible.search_eq {e : Element} (he : e.Admissible) (answered : e.Answered functions)
    (v : Value) (s : MatchState) : search functions e v s = attempt functions e v s := by
  induction he generalizing v s with
  | capture e _ ih =>
    have part : e ∈ parts (.capture e) := by simp [parts]
    rewrite [search, attempt, ih (answered.of_mem_parts part)]
    rfl
  | negation e _ _ ih =>
    have part : e ∈ parts (.negation e) := by simp [parts]
    rewrite [search, attempt, ih (answered.of_mem_parts part)]
    rfl
  | union es _ _ _ ih =>
    rw [search, attempt]
    refine searchAny_eq (fun e he => ?_) s
    have part : e ∈ parts (.union es) := he
    exact ih e he (answered.of_mem_parts part) v
  | intersection es _ _ ih =>
    have all : ∀ e ∈ es, ∀ s, search functions e v s = attempt functions e v s := by
      intro e he
      have part : e ∈ parts (.intersection es) := he
      exact ih e he (answered.of_mem_parts part) v
    rewrite [search, attempt, searchAll_eq all]
    rfl
  | sequence es _ inner ih =>
    have behind : searchSequence functions es = attemptSequence functions es := by
      refine searchSequence_eq (fun e he hrest => ?_) fun e he hrest => ?_
      · have part : e ∈ parts (.sequence es) := he
        exact (inner e he hrest).disciplined (answered.of_mem_parts part)
      · have part : e ∈ parts (.sequence es) := he
        exact ih e he hrest (answered.of_mem_parts part)
    cases v with
    | node type children location => simp only [search, attempt, behind]
    | _ => rfl
  | _ => rw [search] <;> simp

end Unbounded

end Element

-- ============================================================================
-- Compiled patterns
-- ============================================================================

/-- Captures are canonical. A compiled pattern without names answers every
    value, and the captures that it reports are those of the canonical
    derivation, which exists exactly for the values of the pattern's meaning. A
    search that tries every length of a rest up to the end gives the same result
    as matching, from every state. -/
theorem Compiled.captures_eq_some_iff_canonical {pattern : String} {functions : Functions}
    {p : Compiled} (compiled : Compiled.compile pattern functions = .ok p)
    (answered : p.root.Answered functions) (nameFree : p.root.names = []) (v : Value) :
    (∃ answer, p.captures? v = .ok answer ∧
      ∀ captures, answer = some captures ↔ p.root.Canonical functions v captures) ∧
    (v ∈ p.root.meaning functions ↔ ∃ captures, p.root.Canonical functions v captures) ∧
    ∀ s, p.root.search functions v s = p.root.attempt functions v s := by
  obtain ⟨table, admissible⟩ := Compiled.admissible_of_compile compiled
  have reports := admissible.reports nameFree answered
  obtain ⟨answer, t, run, hiff⟩ := admissible.decides nameFree answered v .empty
  have derived : v ∈ p.root.meaning functions ↔
      ∃ captures, p.root.Canonical functions v captures := by
    constructor
    · exact admissible.exists_canonical nameFree
    · rintro ⟨captures, h⟩
      refine hiff.mp ?_
      have found := reports v captures h .empty
      rw [run] at found
      cases found
      rfl
  refine ⟨?_, derived, admissible.search_eq answered v⟩
  unfold Compiled.captures? Element.captures?
  rw [table, run]
  cases answer with
  | false =>
    refine ⟨none, rfl, fun captures => ⟨nofun, fun h => ?_⟩⟩
    have accepted := hiff.mpr (derived.mpr ⟨captures, h⟩)
    cases accepted
  | true =>
    have reported : ∀ captures, p.root.Canonical functions v captures → t.captures = captures := by
      intro captures h
      have found := reports v captures h .empty
      rw [run] at found
      cases found
      rfl
    refine ⟨some t.captures, rfl, fun captures => ⟨fun h => ?_, fun h => ?_⟩⟩
    · cases h
      obtain ⟨captures, h⟩ := derived.mp (hiff.mp rfl)
      rwa [reported captures h]
    · rw [reported captures h]

/-- The rest skips the symbol, which no alternative accepts, and is captured in
    front of the absent child, which the second alternative captures. -/
theorem array_canonical_at_second_item :
    let functions : Functions := [("absent", (Datum.value (.criterion (.class .nil))).predicate)]
    let root := Element.sequence [.nodeType "array", .rest true,
      .union [.capture (.nodeType "str"), .capture (.call "absent" [])], .rest false]
    let items := Value.node (.plain "array") [.sym "a", .nil, .nil] none
    Compiled.compile "(array $... \x7b$str $#absent\x7d ...)" functions =
        .ok ⟨"(array $... \x7b$str $#absent\x7d ...)", root, functions⟩ ∧
      root.Answered functions ∧ root.names = [] ∧
      root.Canonical functions items [.tuple [.sym "a"], .nil] := by
  intro functions root items
  have lexemes : Lexeme.tokenize "(array $... \x7b$str $#absent\x7d ...)" = .ok
      [⟨.opening .round, "(", 0⟩, ⟨.nodeType "array", "array", 1⟩, ⟨.capture, "$", 7⟩,
        ⟨.rest, "...", 8⟩, ⟨.opening .curly, "\x7b", 12⟩, ⟨.capture, "$", 13⟩,
        ⟨.nodeType "str", "str", 14⟩, ⟨.capture, "$", 18⟩,
        ⟨.function "absent", "#absent", 19⟩, ⟨.closing .curly, "\x7d", 26⟩, ⟨.rest, "...", 28⟩,
        ⟨.closing .round, ")", 31⟩] := rfl
  have compiled : Compiled.compile "(array $... \x7b$str $#absent\x7d ...)" functions =
      .ok ⟨"(array $... \x7b$str $#absent\x7d ...)", root, functions⟩ := by
    rw [Compiled.compile_eq_ok_iff, Grammar.parse_eq_ok_iff]
    refine ⟨⟨_, lexemes, .sequence rfl ?_ (by simp)⟩, rfl, rfl, by decide⟩
    exact .item (.nodeType rfl) (.item (.capturedRest rfl rfl)
      (.item (.union rfl (.item (.capture rfl (.nodeType rfl))
          (.item (.capture rfl (.call rfl (by simp [Grammar.Detached]))) (.close rfl)))
          (by simp) rfl)
        (.item (.rest rfl) (.close rfl))))
  have answered : root.Answered functions :=
    Element.answered_of_made (List.forall_mem_singleton.mpr ⟨_, rfl⟩) (by decide)
      (by simp [root, Element.walk, Element.walkAll])
  obtain ⟨⟨answer, run, reported⟩, -⟩ :=
    Compiled.captures_eq_some_iff_canonical compiled answered rfl items
  have found : (⟨"(array $... \x7b$str $#absent\x7d ...)", root, functions⟩ : Compiled).captures? items =
      .ok (some [.tuple [.sym "a"], .nil]) := rfl
  rw [run] at found
  cases found
  exact ⟨compiled, answered, rfl, (reported _).mp rfl⟩

end RubyPattern
