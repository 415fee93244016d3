/-
  RubyPattern.Proofs.Admissible

  The patterns that the grammar can return. Groups are never empty, unions
  capture evenly, nothing is captured under a negation, and rests stand
  directly in sequences. Proofs about matching go by induction on this
  predicate, which has a case for each construct and no other patterns.
-/
import RubyPattern.Pattern.Compiled
import RubyPattern.Predicate.Datum
import RubyPattern.Proofs.Reading

namespace RubyPattern

namespace Element

/-- What the grammar admits outside of sequences. -/
inductive Admissible : Element → Prop
  | wildcard : Admissible .wildcard
  | unify (name : String) : Admissible (.unify name)
  | scalar (value : Scalar) : Admissible (.scalar value)
  | nodeType (name : String) : Admissible (.nodeType name)
  | predicate (name : String) (known : (Builtin.ofName? name).isSome) :
      Admissible (.predicate name)
  | call (name : String) (arguments : List Scalar) : Admissible (.call name arguments)
  | capture (e : Element) (inner : Admissible e) : Admissible (.capture e)
  | negation (e : Element) (inner : Admissible e) (plain : e.captureCount = 0) :
      Admissible (.negation e)
  | union (es : List Element) (nonempty : es ≠ []) (even : Grammar.evenlyCapturing es = true)
      (inner : ∀ e ∈ es, Admissible e) : Admissible (.union es)
  | intersection (es : List Element) (nonempty : es ≠ []) (inner : ∀ e ∈ es, Admissible e) :
      Admissible (.intersection es)
  | sequence (es : List Element) (nonempty : es ≠ [])
      (inner : ∀ e ∈ es, e.isRest = false → Admissible e) : Admissible (.sequence es)

theorem isRest_eq_true_iff {e : Element} : e.isRest = true ↔ ∃ captured, e = .rest captured := by
  cases e <;> simp [isRest]

theorem Admissible.isRest_eq_false {e : Element} (h : Admissible e) : e.isRest = false := by
  cases h <;> rfl

-- ============================================================================
-- What a pattern mentions
-- ============================================================================

theorem mem_walkAll {d : Element} {es : List Element} :
    d ∈ walkAll es ↔ ∃ e ∈ es, d ∈ e.walk := by
  induction es with
  | nil => simp [walkAll]
  | cons e es ih => simp [walkAll, ih]

/-- A pattern is the first in its own walk. -/
theorem mem_walk_self (e : Element) : e ∈ e.walk := by
  cases e <;> simp [walk]

theorem subset_cons_of_mem_walk {d e : Element} {es : List Element} (h : d ∈ e :: es)
    (hwalk : e.walk = e :: es) (inner : d ∈ es → d.walk ⊆ es) : d.walk ⊆ e :: es := by
  rcases List.mem_cons.mp h with rfl | h
  · rw [hwalk]
    exact List.Subset.refl _
  · exact List.Subset.trans (inner h) (List.subset_cons_self _ _)

mutual

/-- What stands in a part of a pattern stands in the pattern. -/
theorem walk_subset_of_mem_walk {d : Element} : ∀ {e : Element}, d ∈ e.walk → d.walk ⊆ e.walk
  | .capture e, h => subset_cons_of_mem_walk h rfl fun h => walk_subset_of_mem_walk h
  | .negation e, h => subset_cons_of_mem_walk h rfl fun h => walk_subset_of_mem_walk h
  | .union es, h => subset_cons_of_mem_walk h rfl fun h => walk_subset_of_mem_walkAll h
  | .intersection es, h => subset_cons_of_mem_walk h rfl fun h => walk_subset_of_mem_walkAll h
  | .sequence es, h => subset_cons_of_mem_walk h rfl fun h => walk_subset_of_mem_walkAll h
  | .wildcard, h | .unify _, h | .scalar _, h | .nodeType _, h | .predicate _, h
  | .call .., h | .rest _, h => by rw [List.mem_singleton.mp h]; exact fun _ => id

theorem walk_subset_of_mem_walkAll {d : Element} :
    ∀ {es : List Element}, d ∈ walkAll es → d.walk ⊆ walkAll es
  | [], h => nomatch h
  | e :: es, h => by
    rw [walkAll] at h ⊢
    rcases List.mem_append.mp h with h | h
    · exact List.Subset.trans (walk_subset_of_mem_walk h) (List.subset_append_left _ _)
    · exact List.Subset.trans (walk_subset_of_mem_walkAll h) (List.subset_append_right _ _)

end

/-- The names that a pattern binds values to, once for each occurrence. -/
def names (e : Element) : List String :=
  e.walk.filterMap fun d => match d with
    | .unify name => some name
    | _ => none

theorem mem_names {e : Element} {name : String} : name ∈ e.names ↔ .unify name ∈ e.walk := by
  unfold names
  rw [List.mem_filterMap]
  constructor
  · rintro ⟨d, hd, hname⟩
    split at hname
    next => cases hname; exact hd
    next => cases hname
  · intro h
    exact ⟨_, h, rfl⟩

theorem mem_calledNames {e : Element} {name : String} :
    name ∈ e.calledNames ↔ ∃ arguments, .call name arguments ∈ e.walk := by
  unfold calledNames
  rw [List.mem_filterMap]
  constructor
  · rintro ⟨d, hd, hname⟩
    split at hname
    next => cases hname; exact ⟨_, hd⟩
    next => cases hname
  · rintro ⟨arguments, h⟩
    exact ⟨_, h, rfl⟩

/-- No name is bound inside a negation. -/
def NegationsNameFree (e : Element) : Prop :=
  ∀ d, .negation d ∈ e.walk → d.names = []

/-- The patterns directly inside a pattern. -/
def parts : Element → List Element
  | .capture e => [e]
  | .negation e => [e]
  | .union es => es
  | .intersection es => es
  | .sequence es => es
  | _ => []

section Parts

variable {d e : Element} (part : d ∈ e.parts)
include part

theorem walk_subset_of_mem_parts : d.walk ⊆ e.walk := by
  intro c hc
  cases e <;> simp_all [parts, walk, mem_walkAll] <;> exact .inr ⟨_, part, hc⟩

/-- A pattern without names has none inside its parts. -/
theorem names_eq_nil_of_mem_parts (h : e.names = []) : d.names = [] := by
  rw [List.eq_nil_iff_forall_not_mem] at h ⊢
  intro name hname
  exact h name (mem_names.mpr (walk_subset_of_mem_parts part (mem_names.mp hname)))

theorem calledNames_subset_of_mem_parts : d.calledNames ⊆ e.calledNames := by
  intro name hname
  obtain ⟨arguments, hcall⟩ := mem_calledNames.mp hname
  exact mem_calledNames.mpr ⟨arguments, walk_subset_of_mem_parts part hcall⟩

theorem NegationsNameFree.of_mem_parts (h : e.NegationsNameFree) : d.NegationsNameFree :=
  fun c hc => h c (walk_subset_of_mem_parts part hc)

end Parts

end Element

-- ============================================================================
-- Readings are admissible
-- ============================================================================

namespace Grammar

mutual

/-- Only in a sequence a rest is read off; everything else is admissible. -/
theorem Reads.admissible {b : Bool} {ls rest : List Lexeme} {e : Element}
    (h : Reads b ls e rest) : (b = false → e.isRest = false) ∧
      (e.isRest = false → e.Admissible) := by
  cases h with
  | wildcard => exact ⟨fun _ => rfl, fun _ => .wildcard⟩
  | unify => exact ⟨fun _ => rfl, fun _ => .unify _⟩
  | scalar => exact ⟨fun _ => rfl, fun _ => .scalar _⟩
  | nodeType => exact ⟨fun _ => rfl, fun _ => .nodeType _⟩
  | predicate _ known => exact ⟨fun _ => rfl, fun _ => .predicate _ known⟩
  | rest => simp [Element.isRest]
  | capturedRest => simp [Element.isRest]
  | capture _ inner =>
    have hinner := inner.admissible
    exact ⟨fun _ => rfl, fun _ => .capture _ (hinner.2 (hinner.1 rfl))⟩
  | negation _ inner plain =>
    have hinner := inner.admissible
    exact ⟨fun _ => rfl, fun _ => .negation _ (hinner.2 (hinner.1 rfl)) plain⟩
  | sequence _ inner nonempty =>
    exact ⟨fun _ => rfl, fun _ => .sequence _ nonempty fun e he => (inner.admissible e he).2⟩
  | intersection _ inner nonempty =>
    refine ⟨fun _ => rfl, fun _ => .intersection _ nonempty fun e he => ?_⟩
    have hinner := inner.admissible e he
    exact hinner.2 (hinner.1 (by decide))
  | union _ inner nonempty even =>
    refine ⟨fun _ => rfl, fun _ => .union _ nonempty even fun e he => ?_⟩
    have hinner := inner.admissible e he
    exact hinner.2 (hinner.1 (by decide))
  | call => exact ⟨fun _ => rfl, fun _ => .call _ _⟩
  | callWith => exact ⟨fun _ => rfl, fun _ => .call _ _⟩

theorem ReadsGroup.admissible {bracket : Bracket} {ls rest : List Lexeme} {es : List Element}
    (h : ReadsGroup bracket ls es rest) : ∀ e ∈ es,
      ((bracket == .round) = false → e.isRest = false) ∧ (e.isRest = false → e.Admissible) := by
  cases h with
  | close => simp
  | item first others =>
    have hfirst := first.admissible
    have hothers := others.admissible
    intro e he
    rcases List.mem_cons.mp he with rfl | he
    · exact hfirst
    · exact hothers e he

end

/-- The grammar returns admissible patterns only. -/
theorem admissible_of_parse {pattern : String} {e : Element} (h : parse pattern = .ok e) :
    e.Admissible := by
  obtain ⟨ls, -, read⟩ := parse_eq_ok_iff.mp h
  have hread := read.admissible
  exact hread.2 (hread.1 rfl)

end Grammar

-- ============================================================================
-- Compiled patterns
-- ============================================================================

/-- A function is bound and answers a call with these literals for every value. -/
def Functions.Answers (functions : Functions) (name : String) (arguments : List Scalar) : Prop :=
  ∃ function, functions.lookup name = some function ∧
    ∀ v, ∃ answer, function v (arguments.map Scalar.toValue) = .ok answer

/-- A pattern hands a function the literals of a call and nothing else; the
    functions that it calls answer just these calls. -/
def Element.Answered (functions : Functions) (e : Element) : Prop :=
  ∀ name arguments, .call name arguments ∈ e.walk → functions.Answers name arguments

theorem Element.Answered.of_mem_parts {functions : Functions} {d e : Element}
    (h : e.Answered functions) (part : d ∈ e.parts) : d.Answered functions :=
  fun name arguments call => h name arguments (walk_subset_of_mem_parts part call)

theorem Element.Answered.of_mem_walk {functions : Functions} {d e : Element}
    (h : e.Answered functions) (inside : d ∈ e.walk) : d.Answered functions :=
  fun name arguments call => h name arguments (walk_subset_of_mem_walk inside call)

/-- Predicates made from values answer a pattern that calls them without
    arguments. -/
theorem Element.answered_of_made {functions : Functions} {e : Element}
    (made : ∀ entry ∈ functions, ∃ w, entry.2 = (Datum.value w).predicate)
    (bound : ∀ name ∈ e.calledNames, (functions.lookup name).isSome)
    (bare : ∀ name arguments, .call name arguments ∈ e.walk → arguments = []) :
    e.Answered functions := by
  intro name arguments call
  obtain rfl := bare name arguments call
  have called := mem_calledNames.mpr ⟨_, call⟩
  obtain ⟨function, found⟩ := Option.isSome_iff_exists.mp (bound name called)
  obtain ⟨before, after, table, -⟩ := List.lookup_eq_some_iff.mp found
  obtain ⟨w, rfl⟩ := made (name, function) (by simp [table])
  exact ⟨_, found, fun v => ⟨w.admits v, rfl⟩⟩

/-- A pattern without calls asks nothing of the functions. -/
theorem Element.answered_of_calledNames {functions : Functions} {e : Element}
    (none : e.calledNames = []) : e.Answered functions := by
  intro name arguments call
  have called := mem_calledNames.mpr ⟨arguments, call⟩
  rw [none] at called
  cases called

namespace Compiled

/-- No name is missing exactly when the table binds all that the pattern calls. -/
theorem missingNames_eq_nil_iff {root : Element} {functions : Functions} :
    missingNames root functions = [] ↔
      ∀ name ∈ root.calledNames, (functions.lookup name).isSome := by
  unfold missingNames
  constructor
  · intro h name called
    apply Classical.byContradiction
    intro unbound
    have missing : name ∈ ((root.calledNames.filter fun name =>
        (functions.lookup name).isNone).mergeSort fun a b => decide (a ≤ b)).eraseDups := by
      rw [List.mem_eraseDups, List.mem_mergeSort, List.mem_filter]
      exact ⟨called, Option.isNone_iff_eq_none.mpr (Option.not_isSome_iff_eq_none.mp unbound)⟩
    rw [h] at missing
    simp at missing
  · intro bound
    have none : (root.calledNames.filter fun name => (functions.lookup name).isNone) = [] := by
      rw [List.filter_eq_nil_iff]
      intro name called
      simpa using bound name called
    simp [none]

/-- A compiled pattern is what its text spells, and its table binds all that
    it calls. -/
theorem compile_eq_ok_iff {pattern : String} {functions : Functions} {p : Compiled} :
    compile pattern functions = .ok p ↔ Grammar.parse pattern = .ok p.root ∧
      p.pattern = pattern ∧ p.functions = functions ∧
      ∀ name ∈ p.root.calledNames, (functions.lookup name).isSome := by
  obtain ⟨text, root, table⟩ := p
  unfold compile
  cases Grammar.parse pattern with
  | error fault => simp [bind, Except.bind]
  | ok e =>
    simp only [bind, Except.bind]
    split
    next complete =>
      rw [missingNames_eq_nil_iff] at complete
      constructor
      · intro h
        cases h
        exact ⟨rfl, rfl, rfl, complete⟩
      · rintro ⟨hroot, rfl, rfl, -⟩
        cases hroot
        rfl
    next missing =>
      rw [missingNames_eq_nil_iff] at missing
      constructor
      · intro h
        cases h
      · rintro ⟨hroot, -, -, bound⟩
        cases hroot
        exact absurd bound missing

/-- What a compiled pattern brings along. -/
theorem admissible_of_compile {pattern : String} {functions : Functions} {p : Compiled}
    (compiled : compile pattern functions = .ok p) :
    p.functions = functions ∧ p.root.Admissible := by
  obtain ⟨parsed, -, table, -⟩ := compile_eq_ok_iff.mp compiled
  exact ⟨table, Grammar.admissible_of_parse parsed⟩

end Compiled

end RubyPattern
