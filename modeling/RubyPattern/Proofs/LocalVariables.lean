/-
  RubyPattern.Proofs.LocalVariables

  Which identifiers are local variables. Those are, in Ruby, that stand behind a
  binding of their name in a scope that they see. Lowering goes by the bindings
  that it has come to, which are the same as long as it comes to the mentions of
  names in the order of the source, or to others that have nothing to do with
  each other. It does so for all concrete syntax without an `else` of an
  `unless`, a subject of a `case`, an index or keywords in front of other
  arguments.
-/
import RubyPattern.Proofs.Descent
import RubyPattern.Proofs.SourceOrder
import RubyPattern.Proofs.Yields

namespace RubyPattern.Ruby

namespace Mention

-- ============================================================================
-- What sees what
-- ============================================================================

/-- A name that is read at an offset sees that it is bound at another one. -/
inductive Sees : List Mention → String → Nat → Nat → Prop
  | here {ms : List Mention} {name : String} {start bound : Nat}
      (exposed : Exposes ms name start) (mem : .binds name bound ∈ ms) :
      Sees ms name start bound
  | inside {ms : List Mention} {inherits : Bool} {inner : List Mention} {name : String}
      {start bound : Nat} (mem : .scope inherits inner ∈ ms)
      (inside : Sees inner name start bound) : Sees ms name start bound

section

variable {ms ms' : List Mention} {name : String} {start bound : Nat}

theorem Sees.mono (h : Sees ms name start bound) (sub : ms ⊆ ms') :
    Sees ms' name start bound := by
  cases h with
  | here exposed mem => exact .here (exposed.mono sub) (sub mem)
  | inside mem inside => exact .inside (sub mem) inside

theorem Sees.occurs (h : Sees ms name start bound) : Occurs ms start := by
  induction h with
  | here exposed _ => exact exposed.occurs
  | inside mem _ ih => exact .scope mem ih

end

-- ============================================================================
-- The order of the source
-- ============================================================================

section

variable {rule : String → Nat → Bool} {known : List String} {m : Mention} {ms : List Mention}

/-- Names are told by where they are bound: some are known in front, and the
    others are bound at a smaller offset where they are seen. -/
def ToldBySource (rule : String → Nat → Bool) (known : List String) (ms : List Mention) : Prop :=
  ∀ name start, Occurs ms start →
    (rule name start = true ↔
      (Exposes ms name start ∧ name ∈ known) ∨ ∃ bound < start, Sees ms name start bound)

theorem mem_extend {name : String} :
    name ∈ m.extend known ↔ name ∈ known ∨ ∃ bound, m = .binds name bound := by
  cases m with
  | binds other start =>
    simp only [extend]
    split
    next here =>
      have here : other ∈ known := by simpa using here
      constructor
      · exact .inl
      · rintro (mem | ⟨_, ⟨⟩⟩)
        · exact mem
        · exact here
    next => simp [eq_comm, or_comm]
  | reads => simp [extend]
  | scope => simp [extend]

variable (ordered : ∀ m' ∈ ms, InFront m m' ∨ InFront m' m ∧ Apart m m')
include ordered

/-- No offset belongs to two mentions. -/
theorem not_occurs_of_occurs {start : Nat} (h : Occurs [m] start) : ¬ Occurs ms start := by
  intro occurs
  obtain ⟨m', mem, h'⟩ := occurs.exists_mem
  rcases ordered m' mem with front | ⟨front, -⟩
  · exact absurd (front _ _ h h') (Nat.lt_irrefl _)
  · exact absurd (front _ _ h' h) (Nat.lt_irrefl _)

/-- What comes later is not seen by what comes first. -/
theorem ToldBySource.head (told : ToldBySource rule known (m :: ms)) :
    ToldBySource rule known [m] := by
  intro name start occurs
  have first : [m] ⊆ m :: ms := by simp
  have others : ¬ Occurs ms start := not_occurs_of_occurs ordered occurs
  have exposedHere (h : Exposes (m :: ms) name start) : Exposes [m] name start :=
    h.of_cons.resolve_right fun exposed => others exposed.occurs
  rw [told name start (occurs.mono first)]
  refine or_congr (and_congr_left' ⟨exposedHere, fun h => h.mono first⟩) ?_
  refine exists_congr fun bound => and_congr_right fun smaller => ?_
  refine ⟨fun sees => ?_, fun sees => sees.mono first⟩
  cases sees with
  | here exposed mem =>
    rcases List.mem_cons.mp mem with rfl | mem
    · exact .here (exposedHere exposed) (List.mem_singleton_self _)
    · have bounds : Occurs [.binds name bound] bound := .binds (List.mem_singleton_self _)
      rcases ordered _ mem with front | ⟨-, apart⟩
      · exact absurd (front _ _ occurs bounds) (Nat.lt_asymm smaller)
      · exact absurd (exposedHere exposed) ((apart name bound start).2 rfl)
  | inside mem inside =>
    rcases List.mem_cons.mp mem with rfl | mem
    · exact .inside (List.mem_singleton_self _) inside
    · exact absurd (Occurs.scope mem inside.occurs) others

/-- What comes first is known to what comes later. -/
theorem ToldBySource.tail (told : ToldBySource rule known (m :: ms)) :
    ToldBySource rule (m.extend known) ms := by
  intro name start occurs
  have later : ms ⊆ m :: ms := List.subset_cons_self _ _
  have first : ¬ Occurs [m] start := fun h => not_occurs_of_occurs ordered h occurs
  have exposedLater (h : Exposes (m :: ms) name start) : Exposes ms name start :=
    h.of_cons.resolve_left fun exposed => first exposed.occurs
  rw [told name start (occurs.mono later), mem_extend]
  constructor
  · rintro (⟨exposed, mem⟩ | ⟨bound, smaller, sees⟩)
    · exact .inl ⟨exposedLater exposed, .inl mem⟩
    · cases sees with
      | here exposed mem =>
        rcases List.mem_cons.mp mem with rfl | mem
        · exact .inl ⟨exposedLater exposed, .inr ⟨bound, rfl⟩⟩
        · exact .inr ⟨bound, smaller, .here (exposedLater exposed) mem⟩
      | inside mem inside =>
        rcases List.mem_cons.mp mem with rfl | mem
        · exact absurd (Occurs.scope (List.mem_singleton_self _) inside.occurs) first
        · exact .inr ⟨bound, smaller, .inside mem inside⟩
  · rintro (⟨exposed, mem | ⟨bound, rfl⟩⟩ | ⟨bound, smaller, sees⟩)
    · exact .inl ⟨exposed.mono later, mem⟩
    · have bounds : Occurs [.binds name bound] bound := .binds (List.mem_singleton_self _)
      obtain ⟨m', mem, exposed'⟩ := exposed.exists_mem
      rcases ordered m' mem with front | ⟨-, apart⟩
      · exact .inr ⟨bound, front _ _ bounds exposed'.occurs,
          .here (exposed.mono later) List.mem_cons_self⟩
      · exact absurd exposed' ((apart name bound start).1 rfl)
    · exact .inr ⟨bound, smaller, sees.mono later⟩

omit ordered in
theorem ToldBySource.inner {inherits : Bool} {inner : List Mention}
    (told : ToldBySource rule known [.scope inherits inner]) :
    ToldBySource rule (if inherits = true then known else []) inner := by
  intro name start occurs
  rw [told name start (.scope (List.mem_singleton_self _) occurs)]
  have seen {bound : Nat} :
      Sees [.scope inherits inner] name start bound ↔ Sees inner name start bound := by
    constructor
    · rintro (⟨-, mem⟩ | ⟨mem, inside⟩)
      · simp at mem
      · cases List.mem_singleton.mp mem
        exact inside
    · exact .inside (List.mem_singleton_self _)
  have exposed : Exposes [.scope inherits inner] name start ↔
      inherits = true ∧ Exposes inner name start := by
    constructor
    · rintro (mem | ⟨mem, inside⟩)
      · simp at mem
      · cases List.mem_singleton.mp mem
        exact ⟨rfl, inside⟩
    · rintro ⟨rfl, inside⟩
      exact .scope (List.mem_singleton_self _) inside
  simp only [seen, exposed]
  cases inherits <;> simp

omit ordered in
/-- In the order of the source, the scopes know a name where it is read just if
    it is bound at a smaller offset where it is seen. -/
theorem toldAll_of_sourceOrdered (h : SourceOrdered ms) (told : ToldBySource rule known ms) :
    ToldAll rule known ms := by
  induction h generalizing known with
  | @intro ms ordered inside ih =>
    induction ms generalizing known with
    | nil => trivial
    | cons m ms ihList =>
      obtain ⟨first, others⟩ := List.pairwise_cons.mp ordered
      constructor
      · have alone := told.head first
        cases m with
        | binds name start => trivial
        | reads name start =>
          have self : Exposes [.reads name start] name start := .reads (List.mem_singleton_self _)
          have blind (bound : Nat) : ¬ Sees [.reads name start] name start bound := by
            rintro (⟨-, mem⟩ | ⟨mem, -⟩) <;> simp at mem
          have here : rule name start = true ↔ name ∈ known := by
            simpa [self, blind] using alone name start self.occurs
          show rule name start = known.contains name
          rw [Bool.eq_iff_iff, here, List.contains_iff_mem]
        | scope inherits inner => exact ih inherits inner (by simp) alone.inner
      · exact ihList others (fun i inner mem => inside i inner (by simp [mem]))
          (fun i inner mem => ih i inner (by simp [mem])) (told.tail first)

end

end Mention

-- ============================================================================
-- Programs
-- ============================================================================

namespace Parser

/-- What a program mentions. -/
def mentions (p : Parser) (source : String) (root : Cst) : List Mention :=
  Mentions.ofAll (Ruby.mentions (p.origin source) p.maxDepth.toNat) root.statements

/-- A whole program lowered by a rule that resolves identifiers. -/
def lowerProgramBy (p : Parser) (rule : String → Nat → Bool) (source : String) (root : Cst) :
    Lowering (Option Node) :=
  let o := p.origin source
  Context.compound ⟨o, lowerBy rule o p.maxDepth p.maxDepth.toNat⟩ root.statements

theorem follows_lowerProgram (p : Parser) (rule : String → Nat → Bool) (source : String)
    (root : Cst) :
    Follows rule (p.lowerProgram source root) (p.lowerProgramBy rule source root)
      (p.mentions source root) :=
  (descent rule (p.origin source) p.maxDepth p.maxDepth.toNat).compound root.statements

/-- Concrete syntax in the order of lowering mentions its names in the order of
    the source. -/
theorem sourceOrdered_mentions {p : Parser} {source : String} {root : Cst}
    (orderly : root.Orderly source.toList) : Mention.SourceOrdered (p.mentions source root) :=
  (Mentions.spread_statements (spread_mentions _ _) orderly).ordered

open Classical in
/-- Local variables follow the order of the source. If a program is lowered in
    that order, or in another one only where it does not matter, its tree is the
    one in which an identifier is a local variable just if its name is bound at
    a smaller offset in a scope that it sees, and a call otherwise. -/
theorem identifiers_by_source {p : Parser} {source : String} {root : Cst} {n : Node}
    (grammar : p.grammar source = some root) (parsed : p.parse source = .ok n)
    (ordered : Mention.SourceOrdered (p.mentions source root)) :
    ∃ rule : String → Nat → Bool,
      (∀ name start, rule name start = true ↔
        ∃ bound < start, Mention.Sees (p.mentions source root) name start bound) ∧
      ∃ t, p.lowerProgramBy rule source root Scopes.initial = .ok (some n, t) := by
  obtain ⟨t, run⟩ := lowerProgram_of_parse grammar parsed
  refine ⟨fun name start =>
    decide (∃ bound < start, Mention.Sees (p.mentions source root) name start bound),
    fun name start => decide_eq_true_iff, t, ?_⟩
  rw [← (follows_lowerProgram p _ source root).ruled, run]
  refine Mention.toldAll_of_sourceOrdered ordered fun name start _ => ?_
  simp [Scopes.initial]

/-- The source of two lines, `a = 1` and `a`. -/
def assignedThenRead : Cst :=
  .mk ⟨.other "program", 0, 7, none, true, false, false⟩
    [.mk ⟨.assignment, 0, 5, none, true, false, false⟩
      [.mk ⟨.identifier, 0, 1, some "left", true, false, false⟩ [],
       .mk ⟨.other "=", 2, 3, none, false, false, false⟩ [],
       .mk ⟨.integer, 4, 5, some "right", true, false, false⟩ []],
     .mk ⟨.identifier, 6, 7, none, true, false, false⟩ []]

theorem identifiers_by_source_assignedThenRead :
    let p := ofGrammar fun _ => some assignedThenRead
    ∃ n, p.parse "a = 1\na" = .ok n ∧
      Mention.SourceOrdered (p.mentions "a = 1\na" assignedThenRead) ∧
      ∃ rule : String → Nat → Bool, rule "a" 6 = true ∧
        ∃ t, p.lowerProgramBy rule "a = 1\na" assignedThenRead Scopes.initial =
          .ok (some n, t) := by
  intro p
  have parsed : ∃ n, p.parse "a = 1\na" = .ok n := ⟨_, rfl⟩
  obtain ⟨n, parsed⟩ := parsed
  have mentioned : p.mentions "a = 1\na" assignedThenRead = [.binds "a" 0, .reads "a" 6] := rfl
  have ordered : Mention.SourceOrdered (p.mentions "a = 1\na" assignedThenRead) :=
    sourceOrdered_mentions ⟨by decide, by decide, by decide⟩
  have sees : Mention.Sees (p.mentions "a = 1\na" assignedThenRead) "a" 6 0 := by
    rw [mentioned]
    exact .here (.reads (by simp)) (by simp)
  obtain ⟨rule, told, t, run⟩ := identifiers_by_source rfl parsed ordered
  exact ⟨n, parsed, ordered, rule, (told "a" 6).mpr ⟨0, by decide, sees⟩, t, run⟩

/-- The source `a[a=1]`. -/
def boundInIndex : Cst :=
  .mk ⟨.other "program", 0, 6, none, true, false, false⟩
    [.mk ⟨.elementReference, 0, 6, none, true, false, false⟩
      [.mk ⟨.identifier, 0, 1, some "object", true, false, false⟩ [],
       .mk ⟨.assignment, 2, 5, none, true, false, false⟩
        [.mk ⟨.identifier, 2, 3, some "left", true, false, false⟩ [],
         .mk ⟨.integer, 4, 5, some "right", true, false, false⟩ []]]]

/-- The index is lowered before the object in front of it, which becomes a local
    variable although it is the first thing in the source. -/
theorem lvar_in_front_boundInIndex :
    let p := ofGrammar fun _ => some boundInIndex
    (∃ index location, p.parse "a[a=1]" = .ok ⟨.plain "send",
      [.node (.plain "lvar") [.sym "a"] (some ⟨0, 1, 1, 0, 1, 1, "a"⟩), .sym "[]", index],
      location⟩) ∧
    ¬ Mention.SourceOrdered (p.mentions "a[a=1]" boundInIndex) := by
  intro p
  have mentioned : p.mentions "a[a=1]" boundInIndex = [.binds "a" 2, .reads "a" 0] := rfl
  refine ⟨⟨_, _, rfl⟩, ?_⟩
  rw [mentioned]
  rintro ⟨ordered, -⟩
  rcases List.pairwise_pair.mp ordered with front | ⟨-, apart⟩
  · have bound : Mention.Occurs [.binds "a" 2] 2 := .binds (List.mem_singleton_self _)
    have read : Mention.Occurs [.reads "a" 0] 0 := .reads (List.mem_singleton_self _)
    exact absurd (front 2 0 bound read) (by decide)
  · exact (apart "a" 2 0).1 rfl (.reads (List.mem_singleton_self _))

end Parser

end RubyPattern.Ruby
