/-
  RubyPattern.Proofs.Registrations

  A registry over a whole session. Whatever is asked of it and in whichever
  order, the registrations that it grants take its names from the front, each
  name keeps its first predicate, and a snapshot stays the table that it was.
  A session grants a list of registrations; the table is that list, and the
  list only grows at its end.
-/
import Mathlib.Data.List.Nodup
import RubyPattern.Predicate.Session
import RubyPattern.Proofs.Admissible
import RubyPattern.Proofs.Meaning

namespace RubyPattern

-- ============================================================================
-- Tables that agree on what a pattern calls
-- ============================================================================

namespace Element

variable {f g : Functions}

theorem attemptAny_congr {es : List Element} (each : ∀ e ∈ es, attempt f e = attempt g e) :
    attemptAny f es = attemptAny g es := by
  induction es with
  | nil => rfl
  | cons e es ih =>
    funext v s
    rw [attemptAny, attemptAny, each e List.mem_cons_self,
      ih fun d hd => each d (List.mem_cons_of_mem e hd)]

theorem attemptAll_congr {es : List Element} (each : ∀ e ∈ es, attempt f e = attempt g e) :
    attemptAll f es = attemptAll g es := by
  induction es with
  | nil => rfl
  | cons e es ih =>
    funext v s
    rw [attemptAll, attemptAll, each e List.mem_cons_self,
      ih fun d hd => each d (List.mem_cons_of_mem e hd)]

theorem attemptSequence_congr {es : List Element}
    (each : ∀ e ∈ es, e.isRest = false → attempt f e = attempt g e) :
    attemptSequence f es = attemptSequence g es := by
  induction es with
  | nil => rfl
  | cons e es ih =>
    replace ih := ih fun d hd => each d (List.mem_cons_of_mem e hd)
    funext items s
    cases he : e.isRest with
    | true =>
      obtain ⟨captured, rfl⟩ := isRest_eq_true_iff.mp he
      rw [attemptSequence, attemptSequence, ih]
    | false =>
      cases items with
      | nil => rw [attemptSequence_nil he, attemptSequence_nil he]
      | cons item items =>
        rw [attemptSequence_cons he, attemptSequence_cons he, each e List.mem_cons_self he, ih]

/-- An attempt looks at the table for the names that the pattern calls, and for
    no others. -/
theorem Admissible.attempt_congr {e : Element} (he : e.Admissible)
    (agree : ∀ name ∈ e.calledNames, f.lookup name = g.lookup name) :
    attempt f e = attempt g e := by
  have inner {d e : Element} (part : d ∈ e.parts)
      (agree : ∀ name ∈ e.calledNames, f.lookup name = g.lookup name) :
      ∀ name ∈ d.calledNames, f.lookup name = g.lookup name :=
    fun name called => agree name (calledNames_subset_of_mem_parts part called)
  induction he with
  | wildcard | unify | scalar | nodeType | predicate => rfl
  | call name arguments =>
    have called : name ∈ calledNames (.call name arguments) :=
      mem_calledNames.mpr ⟨arguments, mem_walk_self _⟩
    funext v s
    rw [attempt, attempt, agree name called]
  | capture e _ ih =>
    have part : e ∈ parts (.capture e) := List.mem_singleton_self e
    funext v s
    rw [attempt, attempt, ih (inner part agree)]
  | negation e _ _ ih =>
    have part : e ∈ parts (.negation e) := List.mem_singleton_self e
    funext v s
    rw [attempt, attempt, ih (inner part agree)]
  | union es _ _ _ ih =>
    funext v s
    rw [attempt, attempt,
      attemptAny_congr fun e he => ih e he (inner (e := .union es) he agree)]
  | intersection es _ _ ih =>
    funext v s
    rw [attempt, attempt,
      attemptAll_congr fun e he => ih e he (inner (e := .intersection es) he agree)]
  | sequence es _ _ ih =>
    funext v s
    cases v with
    | node type children location =>
      rw [attempt, attempt, attemptSequence_congr fun e he plain =>
        ih e he plain (inner (e := .sequence es) he agree)]
    | _ => rfl

end Element

/-- What compiles with a table compiles with every longer one, and then answers
    the same. -/
theorem Compiled.captures?_of_prefix {pattern : String} {table longer : Functions} {p : Compiled}
    (grows : table <+: longer) (compiled : compile pattern table = .ok p) :
    ∃ q, compile pattern longer = .ok q ∧ ∀ v, q.captures? v = p.captures? v := by
  obtain ⟨parsed, -, rfl, bound⟩ := compile_eq_ok_iff.mp compiled
  obtain ⟨more, rfl⟩ := grows
  have kept : ∀ name ∈ p.root.calledNames,
      (p.functions ++ more).lookup name = p.functions.lookup name := by
    intro name called
    obtain ⟨function, found⟩ := Option.isSome_iff_exists.mp (bound name called)
    rw [List.lookup_append, found, Option.some_or]
  refine ⟨⟨pattern, p.root, p.functions ++ more⟩, ?_, fun v => ?_⟩
  · rw [compile_eq_ok_iff]
    refine ⟨parsed, rfl, rfl, fun name called => ?_⟩
    rw [kept name called]
    exact bound name called
  · have same := (Grammar.admissible_of_parse parsed).attempt_congr kept
    unfold Compiled.captures? Element.captures?
    rw [same]

namespace Registry

-- ============================================================================
-- A registry and what it granted
-- ============================================================================

theorem put_of_not_mem {name : String} {f : Function} {entries : Functions}
    (fresh : name ∉ entries.map (·.1)) : put name f entries = entries ++ [(name, f)] := by
  induction entries with
  | nil => rfl
  | cons entry entries ih =>
    obtain ⟨other, g⟩ := entry
    simp only [List.map_cons, List.mem_cons, not_or] at fresh
    rw [put, if_neg (by simpa using Ne.symm fresh.1), ih fresh.2, List.cons_append]

/-- The table that some granted registrations make. -/
def tableOf (granted : List (String × Datum)) : Functions :=
  granted.map fun g => (g.1, g.2.predicate)

@[simp] theorem length_tableOf (granted : List (String × Datum)) :
    (tableOf granted).length = granted.length :=
  List.length_map _

@[simp] theorem keys_tableOf (granted : List (String × Datum)) :
    (tableOf granted).map (·.1) = granted.map (·.1) := by
  simp [tableOf]

theorem tableOf_append (granted more : List (String × Datum)) :
    tableOf (granted ++ more) = tableOf granted ++ tableOf more :=
  List.map_append

/-- A registry of some names has granted just these registrations: they took the
    names from the front, and the table binds each name to its predicate. -/
structure Records (names : List String) (granted : List (String × Datum)) (r : Registry) :
    Prop where
  names_eq : r.names = names
  front : granted.map (·.1) = names.take granted.length
  table : r.entries = tableOf granted

theorem records_ofNames (names : List String) : Records names [] (ofNames names) :=
  ⟨rfl, rfl, rfl⟩

namespace Records

variable {names : List String} {granted : List (String × Datum)} {r : Registry}
  (h : Records names granted r)
include h

theorem length_le : granted.length ≤ names.length := by
  have lengths := congrArg List.length h.front
  rw [List.length_map, List.length_take] at lengths
  omega

theorem size_eq : r.size = granted.length := by
  rw [size, h.table, length_tableOf]

theorem keys_eq : r.keys = names.take granted.length := by
  rw [keys, h.table, keys_tableOf, h.front]

/-- While a name is free, a registration is given the next one, which is bound
    behind all others. -/
theorem register_eq_ok (distinct : names.Nodup) (room : granted.length < names.length)
    (datum : Datum) :
    r.register datum = .ok (names[granted.length],
      ⟨names, tableOf (granted ++ [(names[granted.length], datum)])⟩) := by
  have next : r.names[r.size]? = some names[granted.length] := by
    rw [h.names_eq, h.size_eq, List.getElem?_eq_getElem room]
  have fresh : names[granted.length] ∉ (tableOf granted).map (·.1) := by
    rw [keys_tableOf, h.front]
    intro taken
    obtain ⟨i, hi, same⟩ := List.mem_take_iff_getElem.mp taken
    have := distinct.getElem_inj_iff.mp same
    omega
  rw [register, next]
  simp only [h.table, put_of_not_mem fresh, h.names_eq, tableOf_append]
  rfl

theorem snoc (room : granted.length < names.length) (datum : Datum) :
    Records names (granted ++ [(names[granted.length], datum)])
      ⟨names, tableOf (granted ++ [(names[granted.length], datum)])⟩ where
  names_eq := rfl
  front := by simp [h.front]
  table := rfl

/-- When no name is free, a registration is refused. -/
theorem register_eq_error (full : granted.length = names.length) (datum : Datum) :
    r.register datum = .error (.predicateLimit names.length) := by
  have none : r.names[r.size]? = none := by
    rw [h.names_eq, h.size_eq, full, List.getElem?_eq_none (le_refl _)]
  rw [register, none, h.names_eq]

/-- A granted name is bound to the predicate of its own datum. -/
theorem get?_of_mem (distinct : names.Nodup) {name : String} {datum : Datum}
    (mem : (name, datum) ∈ granted) : r.get? name = some datum.predicate := by
  obtain ⟨before, behind, rfl⟩ := List.append_of_mem mem
  have once : (before ++ (name, datum) :: behind).map (·.1) |>.Nodup := by
    rw [h.front]
    exact distinct.sublist (List.take_sublist _ _)
  have earlier : name ∉ before.map (·.1) := by
    rw [List.map_append, List.map_cons, List.nodup_append] at once
    intro mem
    exact once.2.2 name mem name List.mem_cons_self rfl
  rw [get?, h.table, tableOf, List.lookup_eq_some_iff]
  refine ⟨tableOf before, tableOf behind, by simp [tableOf], ?_⟩
  rintro ⟨other, f⟩ mem
  have : other ∈ before.map (·.1) := by
    rw [← keys_tableOf]
    exact List.mem_map_of_mem mem
  rw [bne_iff_ne]
  rintro rfl
  exact earlier this

end Records

-- ============================================================================
-- Sessions
-- ============================================================================

namespace Session

/-- The registration that an answer grants. -/
def granted? : Request → Answer → Option (String × Datum)
  | .register datum, .name name => some (name, datum)
  | _, _ => none

/-- The registrations that succeed among some requests, in order, each with the
    name that it was answered. -/
def granted (s : Session) : List Request → List (String × Datum)
  | [] => []
  | request :: requests =>
    (granted? request (s.perform request).1).toList ++ (s.perform request).2.granted requests

variable {names : List String} {earlier : List (String × Datum)} {s : Session}

theorem records_perform (distinct : names.Nodup) (h : Records names earlier s.registry)
    (request : Request) :
    Records names (earlier ++ (granted? request (s.perform request).1).toList)
      (s.perform request).2.registry := by
  cases request with
  | register datum =>
    rcases h.length_le.lt_or_eq with room | full
    · simp only [perform, h.register_eq_ok distinct room datum]
      exact h.snoc room datum
    · simp only [perform, h.register_eq_error full datum, granted?, Option.toList_none,
        List.append_nil]
      exact h
  | _ => simpa [perform, granted?] using h

theorem records_after (distinct : names.Nodup) (h : Records names earlier s.registry)
    (requests : List Request) :
    Records names (earlier ++ s.granted requests) (s.after requests).registry := by
  induction requests generalizing s earlier with
  | nil => simpa [granted, after] using h
  | cons request requests ih =>
    rw [granted, after, ← List.append_assoc]
    exact ih (records_perform distinct h request)

/-- No request takes a snapshot back or changes one. -/
theorem snapshots_prefix_perform (s : Session) (request : Request) :
    s.snapshots <+: (s.perform request).2.snapshots := by
  cases request with
  | register datum =>
    rw [perform]
    split <;> exact List.prefix_refl _
  | snapshot => exact List.prefix_append _ _
  | _ => exact List.prefix_refl _

theorem snapshots_prefix_after (s : Session) (requests : List Request) :
    s.snapshots <+: (s.after requests).snapshots := by
  induction requests generalizing s with
  | nil => exact List.prefix_refl _
  | cons request requests ih => exact (snapshots_prefix_perform s request).trans (ih _)

/-- A snapshot is recalled later as it was taken. -/
theorem recall_after_snapshot (s : Session) (later : List Request) :
    (((s.perform .snapshot).2.after later).perform (.recall s.snapshots.length)).1 =
      .table (some s.registry.entries) := by
  obtain ⟨more, kept⟩ := snapshots_prefix_after (s.perform .snapshot).2 later
  have recalled (t : Session) (number : Nat) :
      (t.perform (.recall number)).1 = .table t.snapshots[number]? := rfl
  rw [recalled, ← kept]
  simp [perform]

/-- After any requests to a registry of distinct names: the registrations that
    succeeded were given the names from the front; each of their names is bound
    to its own predicate, now and after any later requests; the names are listed
    and counted as they were given out; a registration is refused exactly when
    no name is left, and changes nothing then; and a snapshot is the table as it
    is, stays so later on, and a pattern compiled with it answers the same as
    when compiled with any later table. -/
theorem keeps_registrations (names : List String) (distinct : names.Nodup)
    (requests later : List Request) :
    let s := (ofNames names).after requests
    let given := (ofNames names).granted requests
    given.map (·.1) = names.take given.length ∧
    (∀ name datum, (name, datum) ∈ given →
      (s.perform (.lookup name)).1 = .predicate (some datum.predicate) ∧
      ((s.after later).perform (.lookup name)).1 = .predicate (some datum.predicate)) ∧
    (s.perform .names).1 = .names (names.take given.length) ∧
    (s.perform .size).1 = .size given.length ∧
    (∀ datum, (∃ fault, (s.perform (.register datum)).1 = .refused fault) ↔
      given.length = names.length) ∧
    (given.length = names.length → ∀ datum,
      s.perform (.register datum) = (.refused (.predicateLimit names.length), s)) ∧
    ∃ table t, s.perform .snapshot = (.table (some table), t) ∧
      table = given.map (fun g => (g.1, g.2.predicate)) ∧
      ((t.after later).perform (.recall s.snapshots.length)).1 = .table (some table) ∧
      ∀ pattern p, Compiled.compile pattern table = .ok p →
        ∃ q, Compiled.compile pattern (t.after later).registry.entries = .ok q ∧
          ∀ v, q.captures? v = p.captures? v := by
  intro s given
  have now : Records names given s.registry := by
    simpa using records_after (s := ofNames names) distinct (records_ofNames names) requests
  have afterwards : Records names (given ++ s.granted later) (s.after later).registry :=
    records_after distinct now later
  refine ⟨now.front, ?_, ?_, ?_, ?_, ?_, s.registry.entries, (s.perform .snapshot).2, rfl,
    now.table, recall_after_snapshot s later, ?_⟩
  · intro name datum mem
    rw [perform, perform, now.get?_of_mem distinct mem,
      afterwards.get?_of_mem distinct (List.mem_append_left _ mem)]
    exact ⟨rfl, rfl⟩
  · rw [perform, now.keys_eq]
  · rw [perform, now.size_eq]
  · intro datum
    rcases now.length_le.lt_or_eq with room | full
    · simp [perform, now.register_eq_ok distinct room datum, room.ne]
    · simp [perform, now.register_eq_error full datum, full]
  · intro full datum
    simp only [perform, now.register_eq_error full datum]
  · intro pattern p compiled
    have behind := records_after (s := (s.perform .snapshot).2) distinct now later
    refine Compiled.captures?_of_prefix ?_ compiled
    rw [behind.table, now.table, tableOf_append]
    exact List.prefix_append _ _

/-- Of three registrations the third finds no name; the snapshot between the
    first two still shows one name at the end. -/
theorem keeps_registrations_pastLimit :
    let s := (ofNames ["a", "b"]).after
      [.register (.value (.int 1)), .snapshot, .register (.value (.str "x")),
        .register (.value .nil)]
    ["a", "b"].Nodup ∧ (s.perform .names).1 = .names ["a", "b"] ∧
      s.perform (.register (.value .nil)) = (.refused (.predicateLimit 2), s) ∧
      (s.perform (.lookup "a")).1 = .predicate (some (Datum.value (.int 1)).predicate) := by
  intro s
  have distinct : ["a", "b"].Nodup := by decide
  obtain ⟨-, bound, listed, -, -, full, -⟩ := keeps_registrations ["a", "b"] distinct
    [.register (.value (.int 1)), .snapshot, .register (.value (.str "x")),
      .register (.value .nil)] []
  exact ⟨distinct, listed, full rfl _, (bound "a" (.value (.int 1)) List.mem_cons_self).1⟩

end Session

end Registry

end RubyPattern
