/-
  RubyPattern.Proofs.BuilderRuns

  What a builder's predicates are after anything that was asked of it. Only
  registrations touch the table; reading source, compiling, matching and
  searching leave it alone, whether they succeed or fail. So as long as names
  last, each registration succeeds, and its token calls the name that the table
  binds to its own predicate.
-/
import RubyPattern.Builder.Building
import RubyPattern.Proofs.LetterNames
import RubyPattern.Proofs.Registrations

namespace RubyPattern

/-- The result of a step of building, and the bench that it leaves. -/
def Building.perform {α : Type} (x : Building α) (bench : Bench) : Except Fault α × Bench :=
  (ExceptT.run x).run bench

namespace Building

variable {α β : Type}

@[simp] theorem perform_pure (a : α) (bench : Bench) :
    perform (pure a) bench = (.ok a, bench) := rfl

@[simp] theorem perform_throw (fault : Fault) (bench : Bench) :
    perform (throw fault : Building α) bench = (.error fault, bench) := rfl

theorem perform_bind (x : Building α) (f : α → Building β) (bench : Bench) :
    perform (x >>= f) bench = match perform x bench with
      | (.ok a, next) => perform (f a) next
      | (.error fault, next) => (.error fault, next) := by
  have step : perform (x >>= f) bench =
      match perform x bench with
      | (result, next) => (ExceptT.bindCont f result).run next := rfl
  rw [step]
  rcases perform x bench with ⟨_ | _, _⟩ <;> rfl

/-- A step that leaves the table of predicates alone, however it ends. -/
def Keeps (x : Building α) : Prop :=
  ∀ bench, (x.perform bench).2.registry = bench.registry

theorem keeps_pure (a : α) : Keeps (pure a) :=
  fun _ => rfl

theorem keeps_throw (fault : Fault) : Keeps (throw fault : Building α) :=
  fun _ => rfl

/-- Nothing is done behind a step that throws. -/
theorem keeps_throw_bind (fault : Fault) (f : α → Building β) : Keeps (throw fault >>= f) :=
  fun _ => rfl

theorem Keeps.bind {x : Building α} {f : α → Building β} (first : Keeps x)
    (others : ∀ a, Keeps (f a)) : Keeps (x >>= f) := by
  intro bench
  have start := first bench
  rw [perform_bind]
  rcases hx : perform x bench with ⟨result, next⟩
  rw [hx] at start
  cases result with
  | error fault => exact start
  | ok a => exact (others a next).trans start

end Building

namespace Builder

open Building

-- ============================================================================
-- Steps that leave the predicates alone
-- ============================================================================

theorem keeps_settled {α : Type} (result : Except Fault α) : Keeps (settled result) := by
  cases result with
  | error fault => exact keeps_throw fault
  | ok a => exact keeps_pure a

theorem keeps_report (entry : Log.Entry) : Keeps (report entry) :=
  fun _ => rfl

theorem keeps_predicates : Keeps predicates :=
  fun _ => rfl

theorem keeps_parse (parser : Ruby.Parser) (source : String) : Keeps (parse parser source) :=
  (keeps_settled _).bind fun _ => (keeps_report _).bind fun _ => keeps_pure _

theorem keeps_parseTexts (parser : Ruby.Parser) (items : List Value) :
    Keeps (parseTexts parser items) := by
  induction items with
  | nil => exact keeps_pure _
  | cons item items ih =>
    have others : ∀ first : Value, Keeps (do
        let items ← parseTexts parser items
        return first :: items) := fun _ => ih.bind fun _ => keeps_pure _
    rw [parseTexts]
    split
    next source _ =>
      exact (keeps_parse parser source).bind fun _ => (keeps_pure _).bind others
    next => exact (keeps_pure _).bind others

theorem keeps_expand (parser : Ruby.Parser) (items : List Value) :
    Keeps (expand parser items) := by
  unfold expand
  split
  next => exact keeps_throw_bind _ _
  next =>
    refine (keeps_parseTexts parser items).bind fun parsed => ?_
    split
    next => exact keeps_throw _
    next base rest =>
      split
      next => exact keeps_pure _
      next => exact keeps_throw _

theorem keeps_compile (tree : Value) : Keeps (compile tree) :=
  keeps_predicates.bind fun _ => (keeps_settled _).bind fun _ =>
    (keeps_report _).bind fun _ => keeps_pure _

theorem keeps_candidateNode (parser : Ruby.Parser) (candidate : Datum) :
    Keeps (candidate.candidateNode (parse parser)) := by
  unfold Datum.candidateNode
  split
  next => exact keeps_pure _
  next =>
    split
    next source _ => exact keeps_parse parser source
    next => exact keeps_throw _
  next => exact keeps_throw _

theorem keeps_matchCandidate (parser : Ruby.Parser) (tree : Value) (candidate : Datum) :
    Keeps (matchCandidate parser tree candidate) :=
  (keeps_compile tree).bind fun _ => (keeps_candidateNode parser candidate).bind fun _ =>
    keeps_settled _

theorem keeps_search (tree candidate : Value) : Keeps (search tree candidate) :=
  (keeps_compile tree).bind fun _ => (keeps_settled _).bind fun _ => keeps_settled _

-- ============================================================================
-- Runs
-- ============================================================================

/-- What can be asked of a builder that its bench has a part in. -/
inductive Step where
  | register (capturing : Bool) (datum : Datum)
  | parse (source : String)
  | expand (items : List Value)
  | compile (tree : Value)
  | matchCandidate (tree : Value) (candidate : Datum)
  | search (tree candidate : Value)

/-- Does what is asked; only registrations answer with a token. -/
def Step.perform (parser : Ruby.Parser) : Step → Building (Option Token)
  | .register false datum => do return some (← matching datum)
  | .register true datum => do return some (← captureMatching datum)
  | .parse source => do
    let _ ← Builder.parse parser source
    return none
  | .expand items => do
    let _ ← Builder.expand parser items
    return none
  | .compile tree => do
    let _ ← Builder.compile tree
    return none
  | .matchCandidate tree candidate => do
    let _ ← Builder.matchCandidate parser tree candidate
    return none
  | .search tree candidate => do
    let _ ← Builder.search tree candidate
    return none

/-- A registration as its caller knows it: what was registered, whether for
    capturing, and the token that came back. -/
structure Registration where
  capturing : Bool
  datum : Datum
  token : Token

/-- The registration that a step was, if it succeeded. -/
def registration? : Step → Except Fault (Option Token) → Option Registration
  | .register capturing datum, .ok (some token) => some ⟨capturing, datum, token⟩
  | _, _ => none

/-- A run, step by step: its registrations and the bench at the end. A step that
    fails does not end the run. -/
def run (parser : Ruby.Parser) (bench : Bench) : List Step → List Registration × Bench
  | [] => ([], bench)
  | step :: steps =>
    let (result, next) := (step.perform parser).perform bench
    let (registrations, last) := run parser next steps
    ((registration? step result).toList ++ registrations, last)

/-- The registrations that a run asks for, in order. -/
def asked (steps : List Step) : List (Bool × Datum) :=
  steps.filterMap fun step => match step with
    | .register capturing datum => some (capturing, datum)
    | _ => none

namespace Registration

/-- What stands before the name in the token of a registration. -/
def mark (r : Registration) : String :=
  if r.capturing then "$#" else "#"

/-- The name that the token of a registration calls. -/
def name (r : Registration) : String :=
  String.ofList (r.token.text.toList.drop r.mark.length)

/-- The registration as the table records it. -/
def entry (r : Registration) : String × Datum :=
  (r.name, r.datum)

/-- The token is the mark and the name. -/
def Spelled (r : Registration) : Prop :=
  r.token = ⟨r.mark ++ r.name, false⟩

theorem name_mk (capturing : Bool) (datum : Datum) (name : String) :
    (Registration.mk capturing datum
      ⟨(if capturing then "$#" else "#") ++ name, false⟩).name = name := by
  have one : "#".length = 1 := rfl
  have two : "$#".length = 2 := rfl
  cases capturing <;> simp [Registration.name, mark, one, two]

end Registration

theorem perform_register {bench : Bench} {datum : Datum} {name : String} {registry : Registry}
    (granted : bench.registry.register datum = .ok (name, registry)) (parser : Ruby.Parser)
    (capturing : Bool) :
    ((Step.register capturing datum).perform parser).perform bench =
      (.ok (some ⟨(if capturing then "$#" else "#") ++ name, false⟩),
        ⟨registry, bench.log ++ [.registered name datum.typeName]⟩) := by
  have single : (matching datum).perform bench = (.ok ⟨"#" ++ name, false⟩,
      ⟨registry, bench.log ++ [.registered name datum.typeName]⟩) := by
    have start : (get : Building Bench).perform bench = (.ok bench, bench) := rfl
    unfold matching
    rw [perform_bind, start]
    simp only [granted, settled, pure_bind]
    rfl
  have text : "$" ++ ("#" ++ name) = "$#" ++ name := by
    rw [← String.append_assoc]
    rfl
  cases capturing with
  | false =>
    rw [Step.perform, perform_bind, single]
    rfl
  | true =>
    have captured : capture (.token ⟨"#" ++ name, false⟩) = .ok ⟨"$#" ++ name, false⟩ := by
      rw [← text]
      rfl
    rw [Step.perform, captureMatching, perform_bind, perform_bind, single]
    simp only [captured, settled]
    rfl

theorem keeps_step {step : Step} (other : ∀ capturing datum, step ≠ .register capturing datum)
    (parser : Ruby.Parser) : Keeps (step.perform parser) := by
  cases step with
  | register capturing datum => exact absurd rfl (other capturing datum)
  | parse source => exact (keeps_parse parser source).bind fun _ => keeps_pure _
  | expand items => exact (keeps_expand parser items).bind fun _ => keeps_pure _
  | compile tree => exact (keeps_compile tree).bind fun _ => keeps_pure _
  | matchCandidate tree candidate =>
    exact (keeps_matchCandidate parser tree candidate).bind fun _ => keeps_pure _
  | search tree candidate => exact (keeps_search tree candidate).bind fun _ => keeps_pure _

/-- The table of a bench records just these registrations, under the names that
    their tokens call. -/
structure Recorded (bench : Bench) (registrations : List Registration) : Prop where
  records : Registry.Records Predicate.defaultNames (registrations.map Registration.entry)
    bench.registry
  spelled : ∀ r ∈ registrations, r.Spelled

theorem recorded_empty : Recorded .empty [] :=
  ⟨Registry.records_ofNames _, by simp⟩

/-- One step: a registration is recorded as long as a name is free, and any
    other step changes nothing. -/
theorem Recorded.step {bench : Bench} {before : List Registration} (h : Recorded bench before)
    (parser : Ruby.Parser) (step : Step)
    (room : before.length + (asked [step]).length ≤ 702) :
    let (result, next) := (step.perform parser).perform bench
    Recorded next (before ++ (registration? step result).toList) ∧
      (registration? step result).toList.map (fun r => (r.capturing, r.datum)) = asked [step] := by
  by_cases other : ∀ capturing datum, step ≠ .register capturing datum
  · have none : ∀ result, registration? step result = none := by
      intro result
      unfold registration?
      split
      next capturing datum _ => exact absurd rfl (other capturing datum)
      next => rfl
    have nothing : asked [step] = [] := by
      cases step with
      | register capturing datum => exact absurd rfl (other capturing datum)
      | _ => rfl
    have kept := keeps_step other parser bench
    dsimp only
    rw [none, nothing, Option.toList_none, List.append_nil]
    exact ⟨⟨kept ▸ h.records, h.spelled⟩, rfl⟩
  · simp only [not_forall, not_not] at other
    obtain ⟨capturing, datum, rfl⟩ := other
    have free : (before.map Registration.entry).length < Predicate.defaultNames.length := by
      rw [List.length_map, Predicate.length_defaultNames]
      simp only [asked, List.filterMap_cons, List.filterMap_nil, List.length_singleton] at room
      omega
    have granted := h.records.register_eq_ok Predicate.nodup_defaultNames free datum
    dsimp only
    rw [perform_register granted parser capturing]
    refine ⟨⟨?_, ?_⟩, rfl⟩
    · have recorded := h.records.snoc free datum
      simpa [registration?, Registration.entry, Registration.name_mk] using recorded
    · intro r mem
      rcases List.mem_append.mp mem with mem | mem
      · exact h.spelled r mem
      · obtain rfl := List.mem_singleton.mp mem
        rw [Registration.Spelled, Registration.name_mk]
        rfl

/-- A run that asks for no more registrations than there are names gets them
    all, and the table records them. -/
theorem Recorded.run {bench : Bench} {before : List Registration} (h : Recorded bench before)
    (parser : Ruby.Parser) {steps : List Step}
    (room : before.length + (asked steps).length ≤ 702) :
    Recorded (run parser bench steps).2 (before ++ (run parser bench steps).1) ∧
      (run parser bench steps).1.map (fun r => (r.capturing, r.datum)) = asked steps := by
  induction steps generalizing bench before with
  | nil => exact ⟨by simpa [Builder.run] using h, rfl⟩
  | cons step steps ih =>
    have parts : asked (step :: steps) = asked [step] ++ asked steps := by
      rw [asked, ← List.singleton_append, List.filterMap_append]
      rfl
    rw [parts, List.length_append] at room
    have here := h.step parser step (by omega)
    rcases result : (step.perform parser).perform bench with ⟨answer, next⟩
    simp only [result] at here
    obtain ⟨recorded, first⟩ := here
    have length := congrArg List.length first
    rw [List.length_map] at length
    obtain ⟨recordedAll, others⟩ := ih recorded (by rw [List.length_append]; omega)
    simp only [Builder.run, result]
    refine ⟨by simpa using recordedAll, ?_⟩
    rw [List.map_append, first, others, parts]

/-- The name of a recorded registration is made of letters. -/
theorem Recorded.letters {bench : Bench} {registrations : List Registration}
    (h : Recorded bench registrations) {r : Registration} (mem : r ∈ registrations) :
    r.name.toList ≠ [] ∧ ∀ c ∈ r.name.toList, c ∈ Predicate.letters := by
  have named : r.name ∈ (registrations.map Registration.entry).map (·.1) :=
    List.mem_map.mpr ⟨r.entry, List.mem_map_of_mem mem, rfl⟩
  rw [h.records.front] at named
  exact Predicate.letters_of_mem_defaultNames (List.mem_of_mem_take named)

/-- The table binds the name of a recorded registration to its own predicate. -/
theorem Recorded.lookup_eq {bench : Bench} {registrations : List Registration}
    (h : Recorded bench registrations) {r : Registration} (mem : r ∈ registrations) :
    bench.registry.entries.lookup r.name = some r.datum.predicate :=
  h.records.get?_of_mem Predicate.nodup_defaultNames (List.mem_map_of_mem mem)

end Builder

end RubyPattern
