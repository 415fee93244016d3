/-
  RubyPattern.Proofs.SourceOrder

  When a program mentions its names in the order of the source. The parts of a
  construct stand in the order in which Ruby writes them, and lowering goes
  through them in that order, with four exceptions: the `else` of an `unless`,
  the subject of a `case`, an index, and keywords in front of other arguments.
  Without these, mentions are in source order in every scope.
-/
import RubyPattern.Proofs.Mentions
import RubyPattern.Proofs.SourceRanges

namespace RubyPattern.Ruby

namespace Mention

-- ============================================================================
-- Where something is mentioned
-- ============================================================================

/-- Something is mentioned at an offset. -/
inductive Occurs : List Mention → Nat → Prop
  | binds {ms : List Mention} {name : String} {start : Nat} (mem : .binds name start ∈ ms) :
      Occurs ms start
  | reads {ms : List Mention} {name : String} {start : Nat} (mem : .reads name start ∈ ms) :
      Occurs ms start
  | scope {ms : List Mention} {inherits : Bool} {inner : List Mention} {start : Nat}
      (mem : .scope inherits inner ∈ ms) (inside : Occurs inner start) : Occurs ms start

/-- A name is read at an offset where the scope at hand is seen: in the scope
    itself or in blocks and lambdas inside. -/
inductive Exposes : List Mention → String → Nat → Prop
  | reads {ms : List Mention} {name : String} {start : Nat} (mem : .reads name start ∈ ms) :
      Exposes ms name start
  | scope {ms inner : List Mention} {name : String} {start : Nat}
      (mem : .scope true inner ∈ ms) (inside : Exposes inner name start) : Exposes ms name start

section

variable {ms ms' : List Mention} {m : Mention} {name : String} {start : Nat}

theorem Occurs.mono (h : Occurs ms start) (sub : ms ⊆ ms') : Occurs ms' start := by
  cases h with
  | binds mem => exact .binds (sub mem)
  | reads mem => exact .reads (sub mem)
  | scope mem inside => exact .scope (sub mem) inside

theorem Exposes.mono (h : Exposes ms name start) (sub : ms ⊆ ms') : Exposes ms' name start := by
  cases h with
  | reads mem => exact .reads (sub mem)
  | scope mem inside => exact .scope (sub mem) inside

theorem Exposes.occurs (h : Exposes ms name start) : Occurs ms start := by
  induction h with
  | reads mem => exact .reads mem
  | scope mem _ ih => exact .scope mem ih

theorem Exposes.exists_mem (h : Exposes ms name start) : ∃ m ∈ ms, Exposes [m] name start := by
  cases h with
  | reads mem => exact ⟨_, mem, .reads (List.mem_singleton_self _)⟩
  | scope mem inside => exact ⟨_, mem, .scope (List.mem_singleton_self _) inside⟩

theorem Occurs.exists_mem (h : Occurs ms start) : ∃ m ∈ ms, Occurs [m] start := by
  cases h with
  | binds mem => exact ⟨_, mem, .binds (List.mem_singleton_self _)⟩
  | reads mem => exact ⟨_, mem, .reads (List.mem_singleton_self _)⟩
  | scope mem inside => exact ⟨_, mem, .scope (List.mem_singleton_self _) inside⟩

theorem Exposes.of_cons (h : Exposes (m :: ms) name start) :
    Exposes [m] name start ∨ Exposes ms name start := by
  obtain ⟨m', mem, exposed⟩ := h.exists_mem
  rcases List.mem_cons.mp mem with rfl | mem
  · exact .inl exposed
  · exact .inr (exposed.mono (by simpa using mem))

theorem Occurs.of_append (h : Occurs (ms ++ ms') start) : Occurs ms start ∨ Occurs ms' start := by
  obtain ⟨m, mem, occurs⟩ := h.exists_mem
  rcases List.mem_append.mp mem with mem | mem
  · exact .inl (occurs.mono (by simpa using mem))
  · exact .inr (occurs.mono (by simpa using mem))

end

-- ============================================================================
-- The order of the source
-- ============================================================================

/-- Of two mentions neither one reads a name that the other one binds. -/
def Apart (m m' : Mention) : Prop :=
  ∀ name bound start, (m = .binds name bound → ¬ Exposes [m'] name start) ∧
    (m' = .binds name bound → ¬ Exposes [m] name start)

/-- All that one mention has stands in front of all that the other one has. -/
def InFront (m m' : Mention) : Prop :=
  ∀ a b, Occurs [m] a → Occurs [m'] b → a < b

/-- Mentions in the order of the source, in every scope, except for those that
    have nothing to do with each other. -/
inductive SourceOrdered : List Mention → Prop
  | intro {ms : List Mention}
      (ordered : ms.Pairwise fun m m' => InFront m m' ∨ InFront m' m ∧ Apart m m')
      (inside : ∀ inherits inner, .scope inherits inner ∈ ms → SourceOrdered inner) :
      SourceOrdered ms

theorem SourceOrdered.append {ms ms' : List Mention} (h : SourceOrdered ms)
    (h' : SourceOrdered ms') (front : ∀ a b, Occurs ms a → Occurs ms' b → a < b) :
    SourceOrdered (ms ++ ms') := by
  obtain ⟨ordered, inside⟩ := h
  obtain ⟨ordered', inside'⟩ := h'
  refine ⟨List.pairwise_append.mpr ⟨ordered, ordered', fun m mem m' mem' => .inl ?_⟩, ?_⟩
  · exact fun a b here there =>
      front a b (here.mono (by simpa using mem)) (there.mono (by simpa using mem'))
  · intro inherits inner mem
    exact (List.mem_append.mp mem).elim (inside inherits inner) (inside' inherits inner)

-- ============================================================================
-- Mentions inside constructs
-- ============================================================================

/-- Mentions in the order of the source, each inside one of some constructs that
    stand in a row. -/
structure Spread (cs : List Cst) (ms : List Mention) : Prop where
  row : cs.Pairwise Cst.Before
  ordered : SourceOrdered ms
  inside : ∀ start, Occurs ms start → ∃ c ∈ cs, c.head.start ≤ start ∧ start < c.head.stop

namespace Spread

variable {cs ds : List Cst} {c : Cst} {ms ms' : List Mention}

theorem none (row : cs.Pairwise Cst.Before) : Spread cs [] where
  row := row
  ordered := ⟨.nil, by simp⟩
  inside := by rintro _ (mem | mem | mem) <;> cases mem

theorem nothing : Spread [c] [] :=
  none (List.pairwise_singleton _ _)

theorem append (h : Spread cs ms) (h' : Spread ds ms') (before : ∀ c ∈ cs, ∀ d ∈ ds, c.Before d) :
    Spread (cs ++ ds) (ms ++ ms') where
  row := List.pairwise_append.mpr ⟨h.row, h'.row, before⟩
  ordered := by
    refine h.ordered.append h'.ordered fun a b here there => ?_
    obtain ⟨c, hc, -, stops⟩ := h.inside a here
    obtain ⟨d, hd, starts, -⟩ := h'.inside b there
    have apart : c.head.stop ≤ d.head.start := before c hc d hd
    omega
  inside := by
    intro start occurs
    rcases occurs.of_append with here | there
    · obtain ⟨c, hc, place⟩ := h.inside start here
      exact ⟨c, List.mem_append_left ds hc, place⟩
    · obtain ⟨d, hd, place⟩ := h'.inside start there
      exact ⟨d, List.mem_append_right cs hd, place⟩

theorem cons (h : Spread [c] ms) (h' : Spread cs ms') (row : (c :: cs).Pairwise Cst.Before) :
    Spread (c :: cs) (ms ++ ms') :=
  h.append h' (by simpa using (List.pairwise_cons.mp row).1)

theorem flatMap {f : Cst → List Mention} (row : cs.Pairwise Cst.Before)
    (each : ∀ c ∈ cs, Spread [c] (f c)) : Spread cs (cs.flatMap f) := by
  induction cs with
  | nil => exact .none .nil
  | cons c cs ih =>
    rw [List.forall_mem_cons] at each
    rw [List.flatMap_cons]
    exact each.1.cons (ih row.of_cons each.2) row

theorem mono (h : Spread cs ms) (row : ds.Pairwise Cst.Before)
    (inside : ∀ c ∈ cs, ∃ d ∈ ds, c.Inside d) : Spread ds ms where
  row := row
  ordered := h.ordered
  inside := by
    intro start occurs
    obtain ⟨c, hc, starts, stops⟩ := h.inside start occurs
    obtain ⟨d, hd, starts', stops'⟩ := inside c hc
    exact ⟨d, hd, by omega, by omega⟩

theorem skip (h : Spread cs ms) (row : (c :: cs).Pairwise Cst.Before) : Spread (c :: cs) ms :=
  h.mono row fun d hd => ⟨d, List.mem_cons_of_mem c hd, .refl d⟩

theorem within (h : Spread cs ms) (inside : ∀ d ∈ cs, d.Inside c) : Spread [c] ms :=
  h.mono (List.pairwise_singleton _ _) fun d hd => ⟨c, by simp, inside d hd⟩

theorem scope (h : Spread cs ms) (inherits : Bool) : Spread cs [.scope inherits ms] where
  row := h.row
  ordered := ⟨List.pairwise_singleton _ _, by simpa using h.ordered⟩
  inside := by
    rintro start (mem | mem | ⟨mem, occurs⟩)
    · simp at mem
    · simp at mem
    · cases List.mem_singleton.mp mem
      exact h.inside start occurs

theorem binds (name : String) (proper : c.head.start < c.head.stop) :
    Spread [c] [.binds name c.head.start] where
  row := List.pairwise_singleton _ _
  ordered := ⟨List.pairwise_singleton _ _, by simp⟩
  inside := by
    rintro start (mem | mem | ⟨mem, -⟩) <;> simp at mem
    exact ⟨c, by simp, by omega, by omega⟩

theorem reads (name : String) (proper : c.head.start < c.head.stop) :
    Spread [c] [.reads name c.head.start] where
  row := List.pairwise_singleton _ _
  ordered := ⟨List.pairwise_singleton _ _, by simp⟩
  inside := by
    rintro start (mem | mem | ⟨mem, -⟩) <;> simp at mem
    exact ⟨c, by simp, by omega, by omega⟩

end Spread

end Mention

-- ============================================================================
-- Constructs as Ruby writes them
-- ============================================================================

/-- The roles of the parts of a construct, in the order in which Ruby writes them.
    Those of blocks and lambdas come last. -/
def Kind.roles : Kind → List String
  | .pair => ["key", "value"]
  | .range => ["begin", "end"]
  | .assignment | .operatorAssignment | .binary => ["left", "right"]
  | .optionalParameter | .keywordParameter => ["name", "value"]
  | .call => ["receiver", "method", "arguments", "block"]
  | .ifStatement | .elsifClause | .conditional | .unlessStatement =>
    ["condition", "consequence", "alternative"]
  | .ifModifier | .unlessModifier | .whileModifier | .untilModifier => ["body", "condition"]
  | .whileLoop | .untilLoop => ["condition", "body"]
  | .caseStatement => ["value"]
  | .whenClause => ["pattern", "body"]
  | .method => ["name", "parameters", "body"]
  | .singletonMethod => ["object", "name", "parameters", "body"]
  | .classDefinition => ["name", "superclass", "body"]
  | .moduleDefinition => ["name", "body"]
  | .singletonClass => ["value", "body"]
  | _ => ["parameters", "body"]

namespace Cst

/-- Where a part of a construct comes by its role; parts in other roles or in
    none come last. -/
def place (c d : Cst) : Nat :=
  match d.head.field with
  | some role => c.kind.roles.idxOf role
  | none => c.kind.roles.length

/-- A child that is no punctuation. -/
def IsPart (c d : Cst) : Prop :=
  d.isPlain = true ∨ c.place d < c.kind.roles.length

instance (c d : Cst) : Decidable (c.IsPart d) :=
  inferInstanceAs (Decidable (_ ∨ _))

/-- A construct that stands for its name. -/
def BearsName (c : Cst) : Prop :=
  c.kind = .identifier ∨ c.head.field = some "name" ∨ c.head.field = some "locals"

instance (c : Cst) : Decidable c.BearsName :=
  inferInstanceAs (Decidable (_ ∨ _))

/-- A construct as Ruby writes it: its parts in the order of their roles, an
    `else` behind the branches of a `case`, a block of a call with braces or `do`,
    and no name without characters. -/
structure Written (c : Cst) : Prop where
  parts : c.children.Pairwise fun d e => c.IsPart d → c.place d ≤ c.place e
  branches : c.kind = .caseStatement → c.plainChildren.Pairwise fun d e =>
    d.kind = .elseClause → e.kind ≠ .whenClause
  block : c.head.field = some "block" → c.kind = .other "block" ∨ c.kind = .other "do_block"
  name : c.BearsName → c.head.start < c.head.stop

instance (c : Cst) : Decidable c.Written :=
  decidable_of_iff
    ((c.children.Pairwise fun d e => c.IsPart d → c.place d ≤ c.place e) ∧
      (c.kind = .caseStatement → c.plainChildren.Pairwise fun d e =>
        d.kind = .elseClause → e.kind ≠ .whenClause) ∧
      (c.head.field = some "block" → c.kind = .other "block" ∨ c.kind = .other "do_block") ∧
      (c.BearsName → c.head.start < c.head.stop))
    ⟨fun ⟨h₁, h₂, h₃, h₄⟩ => ⟨h₁, h₂, h₃, h₄⟩, fun ⟨h₁, h₂, h₃, h₄⟩ => ⟨h₁, h₂, h₃, h₄⟩⟩

/-- A construct that lowering goes through in the order of its parts: no `unless`
    with an `else`, no `case` with a subject, no index, and no arguments with a
    keyword in front of another argument. -/
structure Forward (c : Cst) : Prop where
  noElse : c.kind = .unlessStatement → c.part? "alternative" = none
  noSubject : c.kind = .caseStatement → c.part? "value" = none
  noIndex : c.kind ≠ .elementReference
  keywordsLast : c.kind = .argumentList ∨ c.head.field = some "arguments" →
    c.plainChildren.Pairwise fun d e =>
      Context.isKeyword d = true → Context.isKeyword e = true

instance (c : Cst) : Decidable c.Forward :=
  decidable_of_iff
    ((c.kind = .unlessStatement → c.part? "alternative" = none) ∧
      (c.kind = .caseStatement → c.part? "value" = none) ∧ c.kind ≠ .elementReference ∧
      (c.kind = .argumentList ∨ c.head.field = some "arguments" →
        c.plainChildren.Pairwise fun d e =>
          Context.isKeyword d = true → Context.isKeyword e = true))
    ⟨fun ⟨h₁, h₂, h₃, h₄⟩ => ⟨h₁, h₂, h₃, h₄⟩, fun ⟨h₁, h₂, h₃, h₄⟩ => ⟨h₁, h₂, h₃, h₄⟩⟩

variable {source : List Char} {c d e : Cst} {first second role : String}

/-- Tidy concrete syntax, as Ruby writes it and in the order of lowering. -/
structure Orderly (source : List Char) (c : Cst) : Prop where
  tidy : c.Tidy source
  written : ∀ d ∈ c.constructs, d.Written
  forward : ∀ d ∈ c.constructs, d.Forward

theorem Orderly.child (h : c.Orderly source) (hd : d ∈ c.children) : d.Orderly source where
  tidy := h.tidy.child hd
  written := fun e he => h.written e (mem_constructs_of_mem hd he)
  forward := fun e he => h.forward e (mem_constructs_of_mem hd he)

/-- What is spread over the children of a construct is inside the construct. -/
theorem Orderly.spread (h : c.Orderly source) {cs : List Cst} {ms : List Mention}
    (spread : Mention.Spread cs ms) (children : ∀ d ∈ cs, d ∈ c.children) :
    Mention.Spread [c] ms :=
  spread.within fun d hd => h.tidy.neat.inside d (children d hd)

/-- What the plain children of a construct mention is inside the construct. -/
theorem Orderly.spread_plainChildren (h : c.Orderly source) {f : Cst → List Mention}
    (each : ∀ d ∈ c.children, Mention.Spread [d] (f d)) :
    Mention.Spread [c] (c.plainChildren.flatMap f) := by
  have sublist := c.plainChildren_sublist
  have all := Mention.Spread.flatMap (h.tidy.neat.row.sublist sublist) fun d hd =>
    each d (sublist.mem hd)
  exact h.spread all fun _ => sublist.mem

theorem mem_inRole_of_part? (h : c.part? role = some d) : d ∈ c.inRole role := by
  have mem := mem_of_part? h
  rw [part?] at h
  have field := List.find?_some h
  exact List.mem_filter.mpr ⟨mem, field⟩

theorem mem_of_inRole (h : d ∈ c.inRole role) : d ∈ c.children :=
  List.mem_of_mem_filter h

theorem field_of_inRole (h : d ∈ c.inRole role) : d.head.field = some role := by
  simpa using (List.mem_filter.mp h).2

theorem place_of_inRole (h : d ∈ c.inRole role) : c.place d = c.kind.roles.idxOf role := by
  rw [place, field_of_inRole h]

/-- Of two constructs in a row the first one stands in front if no others so
    related come in the other order. -/
theorem before_of_mem {cs : List Cst} {R : Cst → Cst → Prop} (row : cs.Pairwise Before)
    (order : cs.Pairwise fun d e => ¬ R e d) (hd : d ∈ cs) (he : e ∈ cs) (irrefl : ∀ c, ¬ R c c)
    (h : R d e) : d.Before e := by
  have ordered : cs.Pairwise fun d e => R d e → d.Before e := by
    refine row.imp ?_
    exact fun before _ => before
  have reversed : cs.Pairwise fun d e => R e d → e.Before d := order.imp fun no h => absurd h no
  exact ordered.forall_of_forall_of_flip (fun _ _ h => absurd h (irrefl _)) reversed hd he h

/-- Of two parts the one with the earlier place stands in front. -/
theorem Orderly.before_of_place (h : c.Orderly source) (hd : d ∈ c.children)
    (he : e ∈ c.children) (less : c.place d < c.place e) (part : c.IsPart e) : d.Before e := by
  have order : c.children.Pairwise fun d e => ¬ (c.place e < c.place d ∧ c.IsPart d) :=
    (h.written c (mem_constructs_self c)).parts.imp fun order ⟨less, part⟩ =>
      absurd (order part) (Nat.not_le_of_lt less)
  exact before_of_mem h.tidy.neat.row order hd he (fun _ h => Nat.lt_irrefl _ h.1) ⟨less, part⟩

/-- What has an earlier role stands in front of what has a later one. -/
theorem Orderly.before_of_roles (h : c.Orderly source) {roles : List String}
    (kind : c.kind.roles = roles)
    (order : roles.idxOf first < roles.idxOf second ∧ roles.idxOf second < roles.length) :
    ∀ d ∈ c.inRole first, ∀ e ∈ c.inRole second, d.Before e := by
  intro d hd e he
  have place := place_of_inRole he
  refine h.before_of_place (mem_of_inRole hd) (mem_of_inRole he) ?_ (.inr ?_)
  · rw [place_of_inRole hd, place, kind]
    exact order.1
  · rw [place, kind]
    exact order.2

theorem Orderly.before_of_parts (h : c.Orderly source) {roles : List String}
    (kind : c.kind.roles = roles)
    (order : roles.idxOf first < roles.idxOf second ∧ roles.idxOf second < roles.length) :
    ∀ d ∈ (c.part? first).toList, ∀ e ∈ (c.part? second).toList, d.Before e := by
  intro d hd e he
  exact h.before_of_roles kind order d (mem_inRole_of_part? (Option.mem_toList.mp hd)) e
    (mem_inRole_of_part? (Option.mem_toList.mp he))

theorem mem_of_parts (h : d ∈ (c.part? role).toList) : d ∈ c.children :=
  mem_of_part? (Option.mem_toList.mp h)

theorem Orderly.parts (h : c.Orderly source) : ∀ d ∈ c.part? role, d.Orderly source :=
  fun _ hd => h.child (mem_of_part? hd)

/-- Two parts in the order of their roles. -/
theorem Orderly.spread_parts (h : c.Orderly source) {roles : List String}
    (kind : c.kind.roles = roles)
    (order : roles.idxOf first < roles.idxOf second ∧ roles.idxOf second < roles.length)
    {ms ms' : List Mention} (front : Mention.Spread (c.part? first).toList ms)
    (behind : Mention.Spread (c.part? second).toList ms') : Mention.Spread [c] (ms ++ ms') :=
  h.spread (front.append behind (h.before_of_parts kind order))
    (List.forall_mem_append.mpr ⟨fun _ => mem_of_parts, fun _ => mem_of_parts⟩)

/-- Three parts in the order of their roles. -/
theorem Orderly.spread_threeParts (h : c.Orderly source) {third : String} {roles : List String}
    (kind : c.kind.roles = roles)
    (order : roles.idxOf first < roles.idxOf second ∧ roles.idxOf second < roles.idxOf third ∧
      roles.idxOf third < roles.length)
    {ms ms' ms'' : List Mention} (front : Mention.Spread (c.part? first).toList ms)
    (middle : Mention.Spread (c.part? second).toList ms')
    (behind : Mention.Spread (c.part? third).toList ms'') :
    Mention.Spread [c] (ms ++ ms' ++ ms'') := by
  obtain ⟨early, late, listed⟩ := order
  have pair := front.append middle (h.before_of_parts kind ⟨early, late.trans listed⟩)
  refine h.spread (pair.append behind ?_) ?_
  · exact List.forall_mem_append.mpr ⟨h.before_of_parts kind ⟨early.trans late, listed⟩,
      h.before_of_parts kind ⟨late, listed⟩⟩
  · exact List.forall_mem_append.mpr ⟨List.forall_mem_append.mpr
      ⟨fun _ => mem_of_parts, fun _ => mem_of_parts⟩, fun _ => mem_of_parts⟩

/-- The constructs that a body is made of: the part in that role, or what is in
    none of some other roles. -/
def bodyParts (c : Cst) (otherRoles : List String) : List Cst :=
  match c.part? "body" with
  | some body => [body]
  | none =>
    let taken := (otherRoles.flatMap c.inRole).map key
    c.plainChildren.filter fun child => !taken.contains child.key

theorem mem_of_bodyParts {otherRoles : List String} (h : d ∈ c.bodyParts otherRoles) :
    d ∈ c.children := by
  unfold bodyParts at h
  split at h
  next body part =>
    cases List.mem_singleton.mp h
    exact mem_of_part? part
  next => exact c.plainChildren_sublist.mem (List.mem_of_mem_filter h)

/-- A body stands behind the parts in other roles. -/
theorem Orderly.before_body (h : c.Orderly source) {otherRoles : List String}
    (kind : c.kind.roles = otherRoles ++ ["body"]) (fresh : "body" ∉ otherRoles)
    (listed : role ∈ otherRoles) :
    ∀ d ∈ (c.part? role).toList, ∀ e ∈ c.bodyParts otherRoles, d.Before e := by
  intro d hd e he
  replace hd := mem_inRole_of_part? (Option.mem_toList.mp hd)
  have place : c.place d < otherRoles.length := by
    rw [place_of_inRole hd, kind, List.idxOf_append_of_mem listed]
    exact List.idxOf_lt_length_iff.mpr listed
  have child := mem_of_bodyParts he
  unfold bodyParts at he
  split at he
  next body part =>
    cases List.mem_singleton.mp he
    have last : c.place e = otherRoles.length := by
      rw [place_of_inRole (mem_inRole_of_part? part), kind, List.idxOf_append_of_notMem fresh]
      rfl
    refine h.before_of_place (mem_of_inRole hd) child (by omega) (.inr ?_)
    rw [kind, List.length_append, List.length_singleton]
    omega
  next part =>
    obtain ⟨plain, other⟩ := List.mem_filter.mp he
    have last : c.place e = otherRoles.length + 1 := by
      unfold Cst.place
      rw [kind]
      split
      next role' field =>
        have mem : e ∈ c.inRole role' := List.mem_filter.mpr ⟨child, by simp [field]⟩
        rw [List.idxOf_eq_length, List.length_append, List.length_singleton]
        rw [List.mem_append, List.mem_singleton]
        rintro (taken | rfl)
        · have key : e.key ∈ (otherRoles.flatMap c.inRole).map Cst.key :=
            List.mem_map_of_mem (List.mem_flatMap.mpr ⟨role', taken, mem⟩)
          simp [key] at other
        · rw [part?, List.find?_eq_none] at part
          exact part e child (by simp [field])
      next => rw [List.length_append, List.length_singleton]
    exact h.before_of_place (mem_of_inRole hd) child (by omega)
      (.inl (List.mem_filter.mp plain).2)

end Cst

-- ============================================================================
-- Parts and statements
-- ============================================================================

namespace Mentions

open Mention

variable {o : Origin} {inside : Cst → List Mention} {source : List Char} {c : Cst}
  (hin : ∀ d, d.Orderly source → Spread [d] (inside d))

include hin

theorem spread_part {part : Option Cst} (orderly : ∀ d ∈ part, d.Orderly source) :
    Spread part.toList (ofPart inside part) := by
  cases part with
  | none => exact .none .nil
  | some d => exact hin d (orderly d rfl)

/-- A part that is a child of the construct. -/
theorem spread_child (h : c.Orderly source) {part : Option Cst}
    (child : ∀ d ∈ part, d ∈ c.children) : Spread [c] (ofPart inside part) :=
  h.spread (spread_part hin fun d hd => h.child (child d hd))
    fun d hd => child d (Option.mem_toList.mp hd)

/-- Some children of the construct. -/
theorem spread_sublist (h : c.Orderly source) {ds : List Cst} (sublist : ds.Sublist c.children) :
    Spread ds (ofAll inside ds) :=
  .flatMap (h.tidy.neat.row.sublist sublist) fun d hd => hin d (h.child (sublist.mem hd))

theorem spread_picked {cs ds : List Cst} (picked : Picked cs ds) (row : cs.Pairwise Cst.Before)
    (orderly : ∀ c ∈ cs, c.Orderly source) : Spread cs (ofAll inside ds) := by
  obtain ⟨row', within⟩ := picked.tidy (fun c hc => (orderly c hc).tidy) row
  have all := picked.forall_mem (fun c h d hd => Cst.Orderly.child h hd) orderly
  exact (Spread.flatMap row' fun d hd => hin d (all d hd)).mono row fun d hd => (within d hd).2

theorem spread_plain (h : c.Orderly source) : Spread [c] (ofAll inside c.plainChildren) :=
  h.spread_plainChildren fun d hd => hin d (h.child hd)

theorem spread_statements (h : c.Orderly source) : Spread [c] (ofAll inside c.statements) :=
  h.spread (spread_picked hin (picked_statements c) h.tidy.neat.row fun _ hd => h.child hd)
    fun _ => id

theorem spread_clause {part : Option Cst} (orderly : ∀ d ∈ part, d.Orderly source) :
    Spread part.toList (ofClause inside part) := by
  cases part with
  | none => exact .none .nil
  | some d =>
    rw [ofClause]
    split
    next => exact spread_statements hin (orderly d rfl)
    next => exact hin d (orderly d rfl)

theorem spread_body (h : c.Orderly source) (otherRoles : List String) :
    Spread (c.bodyParts otherRoles) (ofBody inside c otherRoles) := by
  unfold ofBody Cst.bodyParts
  cases part : c.part? "body" with
  | some body =>
    have orderly : ∀ d ∈ some body, d.Orderly source := fun d hd => h.parts d (part ▸ hd)
    exact spread_clause hin orderly
  | none =>
    dsimp only
    have rest : ∀ taken : List (Nat × Nat × Kind),
        (c.plainChildren.filter fun child => !taken.contains child.key).Sublist c.children :=
      fun taken => List.filter_sublist.trans c.plainChildren_sublist
    have plain (cs : List Cst) : Cst.flatten (cs.filter Cst.isPlain) = Cst.flatten cs :=
      Cst.flatten_filter_of_plain fun _ _ plain => plain
    rw [← plain, List.filter_comm, ← Cst.plainChildren]
    exact spread_picked hin (picked_flatten _) (h.tidy.neat.row.sublist (rest _))
      fun d hd => h.child ((rest _).mem hd)

/-- The parts in two roles, one after the other. -/
theorem spread_roles (h : c.Orderly source) {first second : String} {roles : List String}
    (kind : c.kind.roles = roles)
    (order : roles.idxOf first < roles.idxOf second ∧ roles.idxOf second < roles.length) :
    Spread [c] (ofRoles inside c first second) :=
  h.spread_parts kind order (spread_part hin h.parts) (spread_part hin h.parts)

-- ============================================================================
-- Arguments and targets
-- ============================================================================

theorem spread_piece (h : c.Orderly source) : Spread [c] (ofPiece inside c) := by
  unfold ofPiece
  split
  next => exact spread_statements hin h
  next => exact .nothing

theorem spread_pieces (h : c.Orderly source) :
    Spread [c] (c.plainChildren.flatMap (ofPiece inside)) :=
  h.spread_plainChildren fun _ hd => spread_piece hin (h.child hd)

/-- Arguments whose keywords come last are lowered in their order. -/
theorem spread_arguments (h : c.Orderly source)
    (last : c.plainChildren.Pairwise fun d e =>
      Context.isKeyword d = true → Context.isKeyword e = true) :
    Spread [c] (ofArguments inside c.plainChildren) := by
  have sublist := c.plainChildren_sublist
  have picked (p : Cst → Bool) : Spread (c.plainChildren.filter p)
      (ofAll inside (c.plainChildren.filter p)) :=
    spread_sublist hin h (List.filter_sublist.trans sublist)
  have order : c.plainChildren.Pairwise fun d e =>
      ¬ (Context.isKeyword e = false ∧ Context.isKeyword d = true) := by
    refine last.imp fun order ⟨no, yes⟩ => ?_
    rw [order yes] at no
    cases no
  refine h.spread ((picked _).append (picked _) fun d hd e he => ?_) ?_
  · obtain ⟨hd, noKeyword⟩ := List.mem_filter.mp hd
    obtain ⟨he, keyword⟩ := List.mem_filter.mp he
    exact Cst.before_of_mem (h.tidy.neat.row.sublist sublist) order hd he (by simp)
      ⟨by simpa using noKeyword, keyword⟩
  · exact List.forall_mem_append.mpr ⟨fun _ hd => sublist.mem (List.mem_of_mem_filter hd),
      fun _ hd => sublist.mem (List.mem_of_mem_filter hd)⟩

omit hin

theorem spread_binding (h : c.Orderly source) (named : c.BearsName) :
    Spread [c] (ofBinding o c) :=
  .binds _ ((h.written c c.mem_constructs_self).name named)

mutual

theorem spread_target (hin : ∀ d, d.Orderly source → Spread [d] (inside d)) (c : Cst)
    (h : c.Orderly source) : Spread [c] (ofTarget o inside c) := by
  have index := (h.forward c c.mem_constructs_self).noIndex
  have part (role : String) : Spread [c] (ofPart inside (c.part? role)) :=
    spread_child hin h fun _ => Cst.mem_of_part?
  obtain ⟨head, children⟩ := c
  have list : Spread [.mk head children] (ofTargets o inside children) :=
    h.spread (spread_targets hin children (fun _ hd => h.child hd) h.tidy.neat.row) fun _ => id
  unfold ofTarget
  dsimp only
  split
  next kind => exact spread_binding h (.inl kind)
  next => exact part "scope"
  next => exact part "receiver"
  next kind => exact absurd kind index
  next => exact list
  next => exact list
  next => exact list
  next => exact .nothing

theorem spread_targets (hin : ∀ d, d.Orderly source → Spread [d] (inside d)) (cs : List Cst)
    (orderly : ∀ d ∈ cs, d.Orderly source) (row : cs.Pairwise Cst.Before) :
    Spread cs (ofTargets o inside cs) := by
  cases cs with
  | nil => exact .none .nil
  | cons c cs =>
    rw [List.forall_mem_cons] at orderly
    have rest := spread_targets hin cs orderly.2 row.of_cons
    unfold ofTargets
    split
    next => exact (spread_target hin c orderly.1).cons rest row
    next => exact rest.skip row

end

include hin

theorem spread_assignedValue (h : c.Orderly source) :
    Spread [c] (ofAssignedValue inside c) := by
  unfold ofAssignedValue
  split
  next => exact spread_plain hin h
  next => exact hin c h

-- ============================================================================
-- Parameters and blocks
-- ============================================================================

omit hin

theorem spread_parameterName (h : c.Orderly source) :
    Spread (c.part? "name").toList (ofParameterName o c) := by
  unfold ofParameterName
  cases part : c.part? "name" with
  | none => exact .none .nil
  | some d =>
    have named := Cst.field_of_inRole (Cst.mem_inRole_of_part? part)
    exact spread_binding (h.parts d part) (.inr (.inl named))

mutual

theorem spread_parameter (hin : ∀ d, d.Orderly source → Spread [d] (inside d)) (c : Cst)
    (h : c.Orderly source) : Spread [c] (ofParameter o inside c) := by
  have name : Spread [c] (ofParameterName o c) :=
    h.spread (spread_parameterName h) fun _ => Cst.mem_of_parts
  have valued (kind : c.kind.roles = ["name", "value"]) :
      Spread [c] (ofParameterName o c ++ ofPart inside (c.part? "value")) :=
    h.spread_parts kind (by decide) (spread_parameterName h) (spread_part hin h.parts)
  obtain ⟨head, children⟩ := c
  have list : Spread [.mk head children] (ofParameterList o inside children) :=
    h.spread (spread_parameterList hin children (fun _ hd => h.child hd) h.tidy.neat.row)
      fun _ => id
  unfold ofParameter
  dsimp only
  split
  next kind => exact spread_binding h (.inl kind)
  next => exact list
  next => exact .nothing
  next => exact .nothing
  next kind => exact valued (congrArg Kind.roles kind)
  next kind => exact valued (congrArg Kind.roles kind)
  next => exact name

theorem spread_parameterList (hin : ∀ d, d.Orderly source → Spread [d] (inside d))
    (cs : List Cst) (orderly : ∀ d ∈ cs, d.Orderly source) (row : cs.Pairwise Cst.Before) :
    Spread cs (ofParameterList o inside cs) := by
  cases cs with
  | nil => exact .none .nil
  | cons c cs =>
    rw [List.forall_mem_cons] at orderly
    have rest := spread_parameterList hin cs orderly.2 row.of_cons
    unfold ofParameterList
    split
    next => exact (spread_parameter hin c orderly.1).cons rest row
    next => exact rest.skip row

end

include hin

/-- A variable of a block's own covers the same stretch as its declaration. -/
theorem spread_parameterOrLocal {list : Cst} (orderly : list.Orderly source)
    (hc : c ∈ list.children) :
    Spread [c] (ofParameterOrLocal o inside ((list.inRole "locals").map Cst.key) c) := by
  unfold ofParameterOrLocal
  split
  next listed =>
    rw [List.contains_iff_mem, List.mem_map] at listed
    obtain ⟨d, hd, key⟩ := listed
    have named : d.BearsName := .inr (.inr (Cst.field_of_inRole hd))
    have child := orderly.child (Cst.mem_of_inRole hd)
    have proper := (child.written d d.mem_constructs_self).name named
    simp only [Cst.key, Prod.mk.injEq] at key
    rw [key.1, key.2.1] at proper
    exact .binds _ proper
  next => exact spread_parameter hin c (orderly.child hc)

theorem spread_parameters {part : Option Cst} (orderly : ∀ d ∈ part, d.Orderly source) :
    Spread part.toList (ofParameters o inside part) := by
  cases part with
  | none => exact .none .nil
  | some c =>
    have h := orderly c rfl
    exact h.spread_plainChildren fun _ hd => spread_parameterOrLocal hin h hd

/-- Parameters stand in front of the body. -/
theorem spread_methodParts (h : c.Orderly source) {otherRoles : List String}
    (kind : c.kind.roles = otherRoles ++ ["body"]) (fresh : "body" ∉ otherRoles)
    (listed : "parameters" ∈ otherRoles) :
    Spread ((c.part? "parameters").toList ++ c.bodyParts otherRoles)
      (ofMethodParts o inside c otherRoles) :=
  (spread_parameters hin h.parts).append (spread_body hin h otherRoles)
    (h.before_body kind fresh listed)

-- ============================================================================
-- Blocks and calls
-- ============================================================================

/-- A construct with parameters in front of its body. -/
theorem spread_parametersAndBody (h : c.Orderly source) {otherRoles : List String}
    (kind : c.kind.roles = otherRoles ++ ["body"]) (fresh : "body" ∉ otherRoles)
    (listed : "parameters" ∈ otherRoles) : Spread [c] (ofMethodParts o inside c otherRoles) :=
  h.spread (spread_methodParts hin h kind fresh listed)
    (List.forall_mem_append.mpr ⟨fun _ => Cst.mem_of_parts, fun _ => Cst.mem_of_bodyParts⟩)

theorem spread_block (h : c.Orderly source) (field : c.head.field = some "block") :
    Spread [c] (ofBlock o inside c) := by
  have kind : c.kind.roles = ["parameters"] ++ ["body"] := by
    rcases (h.written c c.mem_constructs_self).block field with kind | kind <;> rw [kind] <;> rfl
  exact spread_parametersAndBody hin h kind (by decide) (by decide)

theorem spread_lambdaParts (h : c.Orderly source) (kind : c.kind = .lambda) :
    Spread [c] (ofLambdaParts o inside c) := by
  have body : Spread (c.part? "body").toList
      (match c.part? "body" with
        | some body => ofBody inside body ["parameters"]
        | none => []) := by
    cases part : c.part? "body" with
    | none => exact .none .nil
    | some body =>
      have orderly := h.parts body part
      exact orderly.spread (spread_body hin orderly _) fun _ => Cst.mem_of_bodyParts
  exact h.spread_parts (congrArg Kind.roles kind) (by decide) (spread_parameters hin h.parts) body

theorem spread_callArguments (h : c.Orderly source) :
    Spread (c.part? "arguments").toList (ofCallArguments inside (c.part? "arguments")) := by
  cases part : c.part? "arguments" with
  | none => exact .none .nil
  | some list =>
    have orderly := h.parts list part
    have field := Cst.field_of_inRole (Cst.mem_inRole_of_part? part)
    exact spread_arguments hin orderly
      ((orderly.forward list list.mem_constructs_self).keywordsLast (.inr field))

theorem spread_call (h : c.Orderly source) (kind : c.kind = .call) :
    Spread [c] (ofCall o inside c) := by
  have block : Spread (c.part? "block").toList
      (match c.part? "block" with
        | some block => [.scope true (ofBlock o inside block)]
        | none => []) := by
    cases part : c.part? "block" with
    | none => exact .none .nil
    | some block =>
      have field := Cst.field_of_inRole (Cst.mem_inRole_of_part? part)
      exact (spread_block hin (h.parts block part) field).scope true
  exact h.spread_threeParts (congrArg Kind.roles kind) (by decide) (spread_part hin h.parts)
    (spread_callArguments hin h) block

-- ============================================================================
-- Assignments and control flow
-- ============================================================================

/-- An assignment, the target in front of the value. -/
theorem spread_assigned (h : c.Orderly source) (kind : c.kind.roles = ["left", "right"])
    {left right : Cst} (hleft : c.part? "left" = some left)
    (hright : c.part? "right" = some right) {ms : List Mention} (value : Spread [right] ms) :
    Spread [c] (ofTarget o inside left ++ ms) := by
  have front : Spread (c.part? "left").toList (ofTarget o inside left) :=
    hleft ▸ spread_target hin left (h.parts left hleft)
  have behind : Spread (c.part? "right").toList ms := hright ▸ value
  exact h.spread_parts kind (by decide) front behind

theorem spread_assignment (h : c.Orderly source) (kind : c.kind = .assignment) :
    Spread [c] (ofAssignment o inside c) := by
  unfold ofAssignment
  split
  next left right hleft hright =>
    exact spread_assigned hin h (congrArg Kind.roles kind) hleft hright
      (spread_assignedValue hin (h.parts right hright))
  next => exact .nothing

theorem spread_operatorAssignment (h : c.Orderly source) (kind : c.kind = .operatorAssignment) :
    Spread [c] (ofOperatorAssignment o inside c) := by
  unfold ofOperatorAssignment
  split
  next left right hleft hright =>
    exact spread_assigned hin h (congrArg Kind.roles kind) hleft hright
      (hin right (h.parts right hright))
  next => exact .nothing

/-- A condition with two branches, the one that is lowered first in front. -/
theorem spread_branches (h : c.Orderly source)
    (kind : c.kind.roles = ["condition", "consequence", "alternative"]) :
    Spread [c] (ofBranches inside c "consequence" "alternative") :=
  h.spread_threeParts kind (by decide) (spread_part hin h.parts) (spread_clause hin h.parts)
    (spread_clause hin h.parts)

/-- Without an `else` there is one branch behind the condition. -/
theorem spread_unless (h : c.Orderly source) (kind : c.kind = .unlessStatement) :
    Spread [c] (ofBranches inside c "alternative" "consequence") := by
  rw [ofBranches, (h.forward c c.mem_constructs_self).noElse kind, ofClause, List.append_nil]
  exact h.spread_parts (congrArg Kind.roles kind) (by decide) (spread_part hin h.parts)
    (spread_clause hin h.parts)

theorem spread_loop (h : c.Orderly source) (kind : c.kind.roles = ["condition", "body"]) :
    Spread [c] (ofLoop inside c) :=
  h.spread_parts kind (by decide) (spread_part hin h.parts) (spread_clause hin h.parts)

/-- Without a subject the branches stand in front of the `else`. -/
theorem spread_case (h : c.Orderly source) (kind : c.kind = .caseStatement) :
    Spread [c] (ofCase inside c) := by
  have sublist := c.plainChildren_sublist
  have order : c.plainChildren.Pairwise fun d e =>
      ¬ (e.kind = .whenClause ∧ d.kind = .elseClause) :=
    ((h.written c c.mem_constructs_self).branches kind).imp fun order ⟨isWhen, isElse⟩ =>
      absurd isWhen (order isElse)
  have whens : Spread (c.plainChildren.filter fun child => child.kind == .whenClause)
      (ofAll inside (c.plainChildren.filter fun child => child.kind == .whenClause)) :=
    spread_sublist hin h (List.filter_sublist.trans sublist)
  have otherwise : Spread (c.plainChildren.find? fun child => child.kind == .elseClause).toList
      (ofClause inside (c.plainChildren.find? fun child => child.kind == .elseClause)) :=
    spread_clause hin fun d hd => h.child (sublist.mem (List.mem_of_find?_eq_some hd))
  rw [ofCase, (h.forward c c.mem_constructs_self).noSubject kind, ofPart, List.append_nil]
  refine h.spread (whens.append otherwise fun d hd e he => ?_) ?_
  · obtain ⟨hd, isWhen⟩ := List.mem_filter.mp hd
    have found := Option.mem_toList.mp he
    refine Cst.before_of_mem (h.tidy.neat.row.sublist sublist) order hd
      (List.mem_of_find?_eq_some found) ?_
      ⟨by simpa using isWhen, by simpa using List.find?_some found⟩
    rintro c ⟨isWhen, isElse⟩
    rw [isWhen] at isElse
    cases isElse
  · exact List.forall_mem_append.mpr ⟨fun _ hd => sublist.mem (List.mem_of_mem_filter hd),
      fun _ hd => sublist.mem (List.mem_of_find?_eq_some (Option.mem_toList.mp hd))⟩

theorem spread_when (h : c.Orderly source) (kind : c.kind = .whenClause) :
    Spread [c] (ofWhen inside c) := by
  have patterns : Spread (c.inRole "pattern") (ofAll inside (c.inRole "pattern")) :=
    spread_sublist hin h List.filter_sublist
  refine h.spread (patterns.append (spread_clause hin h.parts) fun d hd e he => ?_) ?_
  · exact h.before_of_roles (congrArg Kind.roles kind) (by decide) d hd e
      (Cst.mem_inRole_of_part? (Option.mem_toList.mp he))
  · exact List.forall_mem_append.mpr ⟨fun _ => Cst.mem_of_inRole, fun _ => Cst.mem_of_parts⟩

theorem spread_matchPattern (h : c.Orderly source) : Spread [c] (ofMatchPattern inside c) := by
  unfold ofMatchPattern
  split
  next inner plain =>
    have child : inner ∈ c.children := c.plainChildren_sublist.mem (by simp [plain])
    exact h.spread (hin inner (h.child child)) (by simpa using child)
  next => exact .nothing

theorem spread_jumpValue (h : c.Orderly source) : Spread [c] (ofJumpValue inside c) := by
  unfold ofJumpValue
  split
  next list =>
    exact spread_arguments hin h
      ((h.forward c c.mem_constructs_self).keywordsLast (.inl (by simpa using list)))
  next => exact hin c h

theorem spread_jump (h : c.Orderly source) :
    Spread [c] (c.plainChildren.flatMap (ofJumpValue inside)) :=
  h.spread_plainChildren fun _ hd => spread_jumpValue hin (h.child hd)

-- ============================================================================
-- Definitions
-- ============================================================================

/-- A part in front of a body. -/
theorem spread_bodyBehind (h : c.Orderly source) {role : String}
    (kind : c.kind.roles = [role, "body"]) (fresh : "body" ∉ [role]) :
    Spread [c] (ofBodyBehind inside role c) := by
  refine h.spread ((spread_part hin h.parts).append ((spread_body hin h [role]).scope false)
    (h.before_body kind fresh List.mem_cons_self)) ?_
  exact List.forall_mem_append.mpr ⟨fun _ => Cst.mem_of_parts, fun _ => Cst.mem_of_bodyParts⟩

theorem spread_operand (h : c.Orderly source) :
    Spread [c] (ofPart inside (c.part? "operand" <|> c.plainChildren.getLast?)) := by
  refine spread_child hin h fun d hd => ?_
  rw [Option.mem_def, Option.orElse_eq_some] at hd
  rcases hd with part | ⟨-, last⟩
  · exact Cst.mem_of_part? part
  · exact c.plainChildren_sublist.mem (List.mem_of_getLast? last)

theorem spread_superclass (h : c.Orderly source) :
    Spread (c.part? "superclass").toList (ofSuperclass inside (c.part? "superclass")) := by
  cases part : c.part? "superclass" with
  | none => exact .none .nil
  | some d =>
    exact spread_child hin (h.parts d part) fun _ hd =>
      d.plainChildren_sublist.mem (List.mem_of_head? hd)

theorem spread_class (h : c.Orderly source) (kind : c.kind = .classDefinition) :
    Spread [c] (ofClass inside c) := by
  have roles : c.kind.roles = ["name", "superclass"] ++ ["body"] := congrArg Kind.roles kind
  have front : Spread ((c.part? "name").toList ++ (c.part? "superclass").toList)
      (ofPart inside (c.part? "name") ++ ofSuperclass inside (c.part? "superclass")) :=
    (spread_part hin h.parts).append (spread_superclass hin h)
      (h.before_of_parts roles (by decide))
  have body := (spread_body hin h ["name", "superclass"]).scope false
  refine h.spread (front.append body ?_) ?_
  · exact List.forall_mem_append.mpr ⟨h.before_body roles (by decide) (by decide),
      h.before_body roles (by decide) (by decide)⟩
  · exact List.forall_mem_append.mpr ⟨List.forall_mem_append.mpr
      ⟨fun _ => Cst.mem_of_parts, fun _ => Cst.mem_of_parts⟩, fun _ => Cst.mem_of_bodyParts⟩

theorem spread_singletonMethod (h : c.Orderly source) (kind : c.kind = .singletonMethod) :
    Spread [c] (ofSingletonMethod o inside c) := by
  have roles : c.kind.roles = ["object", "name", "parameters"] ++ ["body"] :=
    congrArg Kind.roles kind
  have parts : Spread ((c.part? "parameters").toList ++
      c.bodyParts ["object", "name", "parameters"])
      (ofMethodParts o inside c ["object", "name", "parameters"]) :=
    spread_methodParts hin h roles (by decide) (by decide)
  refine h.spread ((spread_part hin h.parts).append (parts.scope false) fun d hd => ?_) ?_
  · exact List.forall_mem_append.mpr ⟨h.before_of_parts roles (by decide) d hd,
      h.before_body roles (by decide) (by decide) d hd⟩
  · exact List.forall_mem_append.mpr ⟨fun _ => Cst.mem_of_parts, List.forall_mem_append.mpr
      ⟨fun _ => Cst.mem_of_parts, fun _ => Cst.mem_of_bodyParts⟩⟩

-- ============================================================================
-- Constructs
-- ============================================================================

/-- A construct in the order of the source mentions its names in that order, if
    its parts do. -/
theorem spread_construct (h : c.Orderly source) : Spread [c] (ofConstruct o inside c) := by
  have index := (h.forward c c.mem_constructs_self).noIndex
  unfold ofConstruct
  split
  next => exact spread_pieces hin h
  next => exact spread_pieces hin h
  next => exact spread_pieces hin h
  next => exact spread_pieces hin h
  next => exact spread_pieces hin h
  next => exact spread_plain hin h
  next => exact spread_plain hin h
  next => exact spread_plain hin h
  next => exact spread_plain hin h
  next => exact spread_plain hin h
  next => exact spread_plain hin h
  next => exact spread_plain hin h
  next => exact spread_statements hin h
  next => exact spread_statements hin h
  next kind => exact spread_roles hin h (congrArg Kind.roles kind) (by decide)
  next =>
    exact spread_child hin h fun _ hd => c.plainChildren_sublist.mem (List.mem_of_head? hd)
  next kind => exact spread_roles hin h (congrArg Kind.roles kind) (by decide)
  next kind => exact .reads _ ((h.written c c.mem_constructs_self).name (.inl kind))
  next => exact spread_child hin h fun _ => Cst.mem_of_part?
  next kind => exact spread_assignment hin h kind
  next kind => exact spread_operatorAssignment hin h kind
  next kind => exact spread_call hin h kind
  next kind => exact (spread_lambdaParts hin h kind).scope true
  next kind => exact absurd kind index
  next kind => exact spread_roles hin h (congrArg Kind.roles kind) (by decide)
  next => exact spread_operand hin h
  next kind => exact spread_branches hin h (congrArg Kind.roles kind)
  next kind => exact spread_branches hin h (congrArg Kind.roles kind)
  next kind => exact spread_branches hin h (congrArg Kind.roles kind)
  next kind => exact spread_unless hin h kind
  next kind => exact spread_roles hin h (congrArg Kind.roles kind) (by decide)
  next kind => exact spread_roles hin h (congrArg Kind.roles kind) (by decide)
  next kind => exact spread_roles hin h (congrArg Kind.roles kind) (by decide)
  next kind => exact spread_roles hin h (congrArg Kind.roles kind) (by decide)
  next kind => exact spread_loop hin h (congrArg Kind.roles kind)
  next kind => exact spread_loop hin h (congrArg Kind.roles kind)
  next kind => exact spread_case hin h kind
  next kind => exact spread_when hin h kind
  next => exact spread_matchPattern hin h
  next => exact spread_jump hin h
  next => exact spread_jump hin h
  next => exact spread_jump hin h
  next => exact spread_jump hin h
  next kind =>
    have parts : Spread [c] (ofMethodParts o inside c ["name", "parameters"]) :=
      spread_parametersAndBody hin h (congrArg Kind.roles kind) (by decide) (by decide)
    exact parts.scope false
  next kind => exact spread_singletonMethod hin h kind
  next kind => exact spread_class hin h kind
  next kind => exact spread_bodyBehind hin h (congrArg Kind.roles kind) (by decide)
  next kind => exact spread_bodyBehind hin h (congrArg Kind.roles kind) (by decide)
  next => exact .nothing

end Mentions

/-- Constructs in the order of the source mention their names in that order. -/
theorem spread_mentions {source : List Char} (o : Origin) (room : Nat) (c : Cst)
    (h : c.Orderly source) : Mention.Spread [c] (mentions o room c) := by
  induction room generalizing c with
  | zero => exact .nothing
  | succ room ih => exact Mentions.spread_construct ih h

end RubyPattern.Ruby
