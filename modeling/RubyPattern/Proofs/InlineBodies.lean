/-
  RubyPattern.Proofs.InlineBodies

  Bodies in a wrapper and bodies in the open. A body is the part in the role of body,
  or else what stands among the children of a construct apart from the parts in other
  roles, which are told by their kind and their stretch. So a wrapper may lose its
  role, and the statements in it may stand in its place: the body stays the same,
  unless the wrapper, or a child of it, has the kind and the stretch of a part in
  another role and is taken for it.
-/
import RubyPattern.Ruby.Parser

namespace RubyPattern.Ruby

-- ============================================================================
-- Constructs with a wrapper for their body
-- ============================================================================

namespace Cst

/-- The construct without its role. -/
def withoutRole (c : Cst) : Cst :=
  .mk { c.head with field := none } c.children

/-- The construct has one of some roles. -/
def HasRole (roles : List String) (c : Cst) : Prop :=
  ∃ role ∈ roles, c.head.field = some role

/-- The construct has the kind and the stretch of one of some others that has one of
    the roles. -/
def Clashes (roles : List String) (others : List Cst) (c : Cst) : Prop :=
  ∃ d ∈ others, d.HasRole roles ∧ d.key = c.key

instance (roles : List String) (c : Cst) : Decidable (c.HasRole roles) :=
  inferInstanceAs (Decidable (∃ role ∈ roles, _))

instance (roles : List String) (others : List Cst) (c : Cst) :
    Decidable (c.Clashes roles others) :=
  inferInstanceAs (Decidable (∃ d ∈ others, _))

/-- A wrapper stands in the role of body between other children, which are parts in
    other roles as far as they are of interest. The children of the wrapper have no
    roles. -/
structure WrapsBody (roles : List String) (front : List Cst) (body : Cst) (back : List Cst) :
    Prop where
  role : body.head.field = some "body"
  named : body.head.named = true
  container : body.kind.isContainer = true
  others : ∀ d ∈ front ++ back, d.isPlain = true → d.HasRole roles
  unique : ∀ d ∈ front ++ back, d.head.field ≠ some "body"
  free : ∀ d ∈ body.children, d.head.field = none

instance (roles : List String) (front : List Cst) (body : Cst) (back : List Cst) :
    Decidable (WrapsBody roles front body back) :=
  decidable_of_iff
    (body.head.field = some "body" ∧ body.head.named = true ∧ body.kind.isContainer = true ∧
      (∀ d ∈ front ++ back, d.isPlain = true → d.HasRole roles) ∧
      (∀ d ∈ front ++ back, d.head.field ≠ some "body") ∧
      ∀ d ∈ body.children, d.head.field = none)
    ⟨fun ⟨h₁, h₂, h₃, h₄, h₅, h₆⟩ => ⟨h₁, h₂, h₃, h₄, h₅, h₆⟩,
      fun ⟨h₁, h₂, h₃, h₄, h₅, h₆⟩ => ⟨h₁, h₂, h₃, h₄, h₅, h₆⟩⟩

-- ============================================================================
-- Statements side by side
-- ============================================================================

theorem flatten_append (cs ds : List Cst) : flatten (cs ++ ds) = flatten cs ++ flatten ds := by
  induction cs with
  | nil => rfl
  | cons c cs ih =>
    rw [List.cons_append, flatten, flatten, ih]
    split
    next =>
      split
      next => rw [List.append_assoc]
      next => rw [List.cons_append]
    next => rfl

theorem flatten_eq_nil {cs : List Cst} (h : ∀ c ∈ cs, c.isPlain = false) : flatten cs = [] := by
  induction cs with
  | nil => rfl
  | cons c cs ih =>
    rw [List.forall_mem_cons] at h
    rw [flatten, h.1, ih h.2]
    rfl

theorem statements_eq_flatten (c : Cst) : c.statements = flatten c.children := by
  obtain ⟨head, children⟩ := c
  rw [statements]
  rfl

theorem isPlain_of_isContainer {c : Cst} (named : c.head.named = true)
    (container : c.kind.isContainer = true) : c.isPlain = true := by
  rw [isPlain, named, Bool.true_and]
  cases kind : c.kind <;> rw [kind] at container <;> first | rfl | cases container

/-- The statements of a wrapper that stands alone are those in it. -/
theorem flatten_singleton {c : Cst} (plain : c.isPlain = true)
    (container : c.kind.isContainer = true) : flatten [c] = flatten c.children := by
  rw [flatten, if_pos plain, if_pos container, statements_eq_flatten, flatten, List.append_nil]

-- ============================================================================
-- Parts in roles
-- ============================================================================

variable {head : Head} {front middle back : List Cst} {role : String}

/-- Children without a role do not matter to the part in it. -/
theorem part?_of_middle (free : ∀ d ∈ middle, d.head.field ≠ some role) :
    (Cst.mk head (front ++ middle ++ back)).part? role =
      (front ++ back).find? fun child => child.head.field == some role := by
  have none : middle.find? (fun child => child.head.field == some role) = .none := by
    rw [List.find?_eq_none]
    intro d mem found
    exact free d mem (eq_of_beq found)
  show (front ++ middle ++ back).find? _ = _
  rw [List.find?_append, List.find?_append, List.find?_append, none, Option.or_none]

theorem inRole_of_middle (free : ∀ d ∈ middle, d.head.field ≠ some role) :
    (Cst.mk head (front ++ middle ++ back)).inRole role =
      (front ++ back).filter fun child => child.head.field == some role := by
  have none : middle.filter (fun child => child.head.field == some role) = [] := by
    rw [List.filter_eq_nil_iff]
    intro d mem found
    exact free d mem (eq_of_beq found)
  show (front ++ middle ++ back).filter _ = _
  rw [List.filter_append, List.filter_append, List.filter_append, none, List.append_nil]

end Cst

namespace Context

variable {w : Context} {roles : List String} {head : Head} {front middle back : List Cst}
  {body : Cst}

-- ============================================================================
-- Bodies
-- ============================================================================

theorem bodyOf_of_part {c : Cst} (part : c.part? "body" = some body)
    (container : body.kind.isContainer = true) :
    w.bodyOf c roles = w.compound (Cst.flatten body.children) := by
  rw [bodyOf, part, ← Cst.statements_eq_flatten]
  show w.clause (some body) = _
  rw [clause, if_pos container]

/-- A wrapper in the role of body has the body in it. -/
theorem bodyOf_wrapped (wraps : Cst.WrapsBody roles front body back) :
    w.bodyOf (.mk head (front ++ body :: back)) roles =
      w.compound (Cst.flatten body.children) := by
  refine bodyOf_of_part ?_ wraps.container
  have before : front.find? (fun child => child.head.field == some "body") = none := by
    rw [List.find?_eq_none]
    intro d mem found
    exact wraps.unique d (List.mem_append_left back mem) (eq_of_beq found)
  show (front ++ body :: back).find? _ = _
  rw [List.find?_append, before, Option.none_or, List.find?_cons_of_pos]
  exact beq_iff_eq.mpr wraps.role

/-- Without a part in the role of body, it is what stands among the children that
    have no other role and cannot be taken for one that has. -/
theorem bodyOf_open (others : ∀ d ∈ front ++ back, d.isPlain = true → d.HasRole roles)
    (unique : ∀ d ∈ front ++ middle ++ back, d.head.field ≠ some "body")
    (free : ∀ d ∈ middle, ¬ d.HasRole roles)
    (apart : ∀ d ∈ middle, d.isPlain = true → ¬ d.Clashes roles (front ++ back)) :
    w.bodyOf (.mk head (front ++ middle ++ back)) roles = w.compound (Cst.flatten middle) := by
  let c := Cst.mk head (front ++ middle ++ back)
  let taken := (roles.flatMap c.inRole).map Cst.key
  have absent : c.part? "body" = none := by
    show (front ++ middle ++ back).find? _ = none
    rw [List.find?_eq_none]
    intro d mem found
    exact unique d mem (eq_of_beq found)
  -- What is taken are the keys of the children around that have one of the roles.
  have taken_iff : ∀ key, key ∈ taken ↔ ∃ d ∈ front ++ back, d.HasRole roles ∧ d.key = key := by
    intro key
    have inRole : ∀ role ∈ roles, c.inRole role =
        (front ++ back).filter fun child => child.head.field == some role := fun role mem =>
      Cst.inRole_of_middle fun d hd same => free d hd ⟨role, mem, same⟩
    constructor
    · intro mem
      obtain ⟨d, found, rfl⟩ := List.mem_map.mp mem
      obtain ⟨role, hrole, found⟩ := List.mem_flatMap.mp found
      rw [inRole role hrole, List.mem_filter] at found
      exact ⟨d, found.1, ⟨role, hrole, eq_of_beq found.2⟩, rfl⟩
    · rintro ⟨d, mem, ⟨role, hrole, field⟩, rfl⟩
      refine List.mem_map_of_mem (List.mem_flatMap.mpr ⟨role, hrole, ?_⟩)
      rw [inRole role hrole, List.mem_filter]
      exact ⟨mem, beq_iff_eq.mpr field⟩
  have around : ∀ cs : List Cst, (∀ d ∈ cs, d ∈ front ++ back) →
      Cst.flatten (cs.filter fun child => !taken.contains child.key) = [] := by
    intro cs mem
    refine Cst.flatten_eq_nil fun d hd => ?_
    obtain ⟨hd, untaken⟩ := List.mem_filter.mp hd
    refine Bool.eq_false_iff.mpr fun plain => ?_
    have found : d.key ∈ taken :=
      (taken_iff d.key).mpr ⟨d, mem d hd, others d (mem d hd) plain, rfl⟩
    rw [List.contains_iff_mem.mpr found] at untaken
    cases untaken
  have inside : Cst.flatten (middle.filter fun child => !taken.contains child.key) =
      Cst.flatten middle := by
    refine Cst.flatten_filter_of_plain fun d hd plain => ?_
    rw [Bool.not_eq_true', Bool.eq_false_iff]
    intro found
    exact apart d hd plain ((taken_iff d.key).mp (List.contains_iff_mem.mp found))
  have statements : Cst.flatten (c.children.filter fun child => !taken.contains child.key) =
      Cst.flatten middle := by
    show Cst.flatten ((front ++ middle ++ back).filter _) = _
    rw [List.filter_append, List.filter_append, Cst.flatten_append, Cst.flatten_append, inside,
      around front fun d hd => List.mem_append_left back hd,
      around back fun d hd => List.mem_append_right front hd, List.nil_append, List.append_nil]
  show w.bodyOf c roles = _
  rw [bodyOf, absent]
  dsimp only
  rw [statements]

-- ============================================================================
-- Constructs with a body
-- ============================================================================

/-- How a construct with a body is lowered, and the roles of the other parts that it
    reads. A block is lowered with the call that it belongs to. -/
inductive ReadsBody : (Context → Cst → Lowering Node) → List String → Prop
  | block (call : Cst) (send : Node) :
      ReadsBody (fun w block => w.withBlock call send block) ["parameters"]
  | method : ReadsBody method ["name", "parameters"]
  | singletonMethod : ReadsBody singletonMethod ["object", "name", "parameters"]
  | classDefinition : ReadsBody classDefinition ["name", "superclass"]
  | moduleDefinition : ReadsBody moduleDefinition ["name"]
  | singletonClass : ReadsBody singletonClass ["value"]

namespace ReadsBody

variable {handler : Context → Cst → Lowering Node}

theorem body_not_mem (reads : ReadsBody handler roles) : "body" ∉ roles := by
  cases reads <;> decide

/-- Nothing counts but what the construct says about itself, the parts in these roles
    and the body. -/
theorem congr (reads : ReadsBody handler roles) {c d : Cst} (heads : c.head = d.head)
    (parts : ∀ role ∈ roles, c.part? role = d.part? role)
    (bodies : w.bodyOf c roles = w.bodyOf d roles) : handler w c = handler w d := by
  have located : ∀ type children, w.located c type children = w.located d type children := by
    intro type children
    simp only [Origin.located, Origin.span, heads]
  cases reads with
  | block call send =>
    have parameters := parts "parameters" (by decide)
    simp only [withBlock, parameters, bodies]
  | method =>
    have name := parts "name" (by decide)
    have parameters := parts "parameters" (by decide)
    simp only [Context.method, textOfRole, methodParts, name, parameters, bodies, located]
  | singletonMethod =>
    have object := parts "object" (by decide)
    have name := parts "name" (by decide)
    have parameters := parts "parameters" (by decide)
    simp only [Context.singletonMethod, lowerRole, textOfRole, methodParts, object, name,
      parameters, bodies, located]
  | classDefinition =>
    have name := parts "name" (by decide)
    have superclass := parts "superclass" (by decide)
    simp only [Context.classDefinition, lowerRole, name, superclass, bodies, located]
  | moduleDefinition =>
    have name := parts "name" (by decide)
    simp only [Context.moduleDefinition, lowerRole, name, bodies, located]
  | singletonClass =>
    have value := parts "value" (by decide)
    simp only [Context.singletonClass, lowerRole, value, bodies, located]

/-- The construct is lowered as before if in the place of the wrapper stands what has
    no roles, cannot be taken for another part and has the same statements. -/
theorem of_middle (reads : ReadsBody handler roles) (wraps : Cst.WrapsBody roles front body back)
    (free : ∀ d ∈ middle, d.head.field = none)
    (apart : ∀ d ∈ middle, d.isPlain = true → ¬ d.Clashes roles (front ++ back))
    (same : Cst.flatten middle = Cst.flatten body.children) :
    handler w (.mk head (front ++ middle ++ back)) =
      handler w (.mk head (front ++ body :: back)) := by
  have without : ∀ d ∈ middle, ∀ role, d.head.field ≠ some role := by
    intro d mem role field
    rw [free d mem] at field
    cases field
  have unique : ∀ d ∈ front ++ middle ++ back, d.head.field ≠ some "body" := by
    rw [List.forall_mem_append, List.forall_mem_append]
    have around := List.forall_mem_append.mp wraps.unique
    exact ⟨⟨around.1, fun d mem => without d mem "body"⟩, around.2⟩
  have bodies : w.bodyOf (.mk head (front ++ middle ++ back)) roles =
      w.bodyOf (.mk head (front ++ body :: back)) roles := by
    rw [bodyOf_wrapped wraps, ← same]
    exact bodyOf_open wraps.others unique (fun d mem ⟨role, _, field⟩ => without d mem role field)
      apart
  refine reads.congr rfl (fun role mem => ?_) bodies
  have other : ∀ d ∈ [body], d.head.field ≠ some role := by
    rw [List.forall_mem_singleton, wraps.role]
    rintro ⟨⟩
    exact reads.body_not_mem mem
  have wrapped : front ++ body :: back = front ++ [body] ++ back := by
    rw [List.append_assoc, List.singleton_append]
  rw [wrapped, Cst.part?_of_middle other, Cst.part?_of_middle fun d hd => without d hd role]

end ReadsBody

/-- A construct is lowered as before, to the same tree with the same locations or the
    same fault and with the same scopes, if the wrapper of its body loses its role and
    cannot be taken for another part; and likewise if the children of the wrapper
    stand in its place and none of them can be taken for another part. -/
theorem lower_inline_body {handler : Context → Cst → Lowering Node} {roles : List String}
    (reads : ReadsBody handler roles) {front back : List Cst} {body : Cst}
    (wraps : Cst.WrapsBody roles front body back) (w : Context) (head : Head) :
    (¬ body.Clashes roles (front ++ back) →
      handler w (.mk head (front ++ body.withoutRole :: back)) =
        handler w (.mk head (front ++ body :: back))) ∧
    ((∀ d ∈ body.children, d.isPlain = true → ¬ d.Clashes roles (front ++ back)) →
      handler w (.mk head (front ++ body.children ++ back)) =
        handler w (.mk head (front ++ body :: back))) := by
  constructor
  · intro apart
    have plain : body.withoutRole.isPlain = true :=
      Cst.isPlain_of_isContainer wraps.named wraps.container
    have single : front ++ body.withoutRole :: back = front ++ [body.withoutRole] ++ back := by
      rw [List.append_assoc, List.singleton_append]
    rw [single]
    refine reads.of_middle wraps (List.forall_mem_singleton.mpr rfl) ?_
      (Cst.flatten_singleton plain wraps.container)
    rw [List.forall_mem_singleton]
    exact fun _ => apart
  · intro apart
    exact reads.of_middle wraps wraps.free apart rfl

end Context

-- ============================================================================
-- A method, and parts that are taken for others
-- ============================================================================

/-- A keyword from an offset on. -/
def keywordAt (text : String) (start : Nat) : Cst :=
  .mk ⟨.other text, start, start + text.length, none, false, false, false⟩ []

/-- A named construct between two offsets. -/
def namedAt (kind : Kind) (start stop : Nat) (role : Option String) (children : List Cst) : Cst :=
  .mk ⟨kind, start, stop, role, true, false, false⟩ children

/-- The setting in which the constructs of a source are lowered. -/
def settingOf (source : String) : Context :=
  let o : Origin := ⟨source, source.toList, "3.3"⟩
  ⟨o, lower o 200 199⟩

/-- The text of the tree of a construct, if it has one. -/
def textOf (step : Lowering Node) : Option String :=
  match step Scopes.initial with
  | .ok (n, _) => n.toValue.render.toOption
  | .error _ => none

/-- The body of the method `def f; a; b; end` in a wrapper, its second statement in a
    wrapper of its own. -/
def statementsInside : Cst :=
  namedAt .bodyStatement 7 11 (some "body")
    [namedAt .identifier 7 8 none [],
      namedAt .thenClause 10 11 none [namedAt .identifier 10 11 none []]]

theorem lower_inline_body_statementsInside :
    let w := settingOf "def f; a; b; end"
    let head : Head := ⟨.method, 0, 16, none, true, false, false⟩
    let front := [keywordAt "def" 0, namedAt .identifier 4 5 (some "name") []]
    let back := [keywordAt "end" 13]
    let body := statementsInside
    Cst.WrapsBody ["name", "parameters"] front body back ∧
      ¬ body.Clashes ["name", "parameters"] (front ++ back) ∧
      (∀ d ∈ body.children, d.isPlain = true → ¬ d.Clashes ["name", "parameters"] (front ++ back)) ∧
      w.method (.mk head (front ++ body.withoutRole :: back)) =
        w.method (.mk head (front ++ body :: back)) ∧
      w.method (.mk head (front ++ body.children ++ back)) =
        w.method (.mk head (front ++ body :: back)) ∧
      textOf (w.method (.mk head (front ++ body :: back))) =
        some "(def :f (args) (begin (send nil :a) (send nil :b)))" := by
  intro w head front back body
  have wraps : Cst.WrapsBody ["name", "parameters"] front body back := by decide
  have apart : ¬ body.Clashes ["name", "parameters"] (front ++ back) := by decide
  have apartInside : ∀ d ∈ body.children, d.isPlain = true →
      ¬ d.Clashes ["name", "parameters"] (front ++ back) := by decide
  obtain ⟨open_, inside⟩ := Context.lower_inline_body .method wraps w head
  exact ⟨wraps, apart, apartInside, open_ apart, inside apartInside, by decide +kernel⟩

/-- It is not enough that the statements of the body cannot be taken for a part in
    another role. A wrapper can: that of the body, when it loses its role, and one
    directly in it, when it comes to stand in its place. -/
theorem not_inline_of_statements_apart :
    (¬ ∀ {handler : Context → Cst → Lowering Node} {roles : List String},
      Context.ReadsBody handler roles → ∀ {front back : List Cst} {body : Cst},
        Cst.WrapsBody roles front body back →
        (∀ d ∈ body.statements, ¬ d.Clashes roles (front ++ back)) →
        ∀ (w : Context) (head : Head),
          handler w (.mk head (front ++ body.withoutRole :: back)) =
            handler w (.mk head (front ++ body :: back))) ∧
    (¬ ∀ {handler : Context → Cst → Lowering Node} {roles : List String},
      Context.ReadsBody handler roles → ∀ {front back : List Cst} {body : Cst},
        Cst.WrapsBody roles front body back →
        (∀ d ∈ body.statements, ¬ d.Clashes roles (front ++ back)) →
        ∀ (w : Context) (head : Head),
          handler w (.mk head (front ++ body.children ++ back)) =
            handler w (.mk head (front ++ body :: back))) := by
  let w := settingOf "def a;end"
  let head : Head := ⟨.method, 0, 9, none, true, false, false⟩
  let back := [keywordAt "end" 6]
  have text : ∀ {step step' : Lowering Node}, step = step' → textOf step = textOf step' := by
    rintro step _ rfl
    rfl
  constructor
  · intro claim
    -- The name is a wrapper with the stretch of the body.
    let front := [keywordAt "def" 0, namedAt .bodyStatement 4 5 (some "name") []]
    let body := namedAt .bodyStatement 4 5 (some "body") [namedAt .identifier 4 5 none []]
    have same := text (@claim _ _ .method front back body (by decide) (by decide) w head)
    have without : textOf (w.method (.mk head (front ++ body.withoutRole :: back))) =
        some "(def :a (args) nil)" := by decide +kernel
    have wrapped : textOf (w.method (.mk head (front ++ body :: back))) =
        some "(def :a (args) (send nil :a))" := by decide +kernel
    rw [without, wrapped] at same
    exact absurd same (by decide)
  · intro claim
    -- The name is a wrapper with the stretch of one inside the body.
    let front := [keywordAt "def" 0, namedAt .thenClause 4 5 (some "name") []]
    let body := namedAt .bodyStatement 4 6 (some "body")
      [namedAt .thenClause 4 5 none [namedAt .identifier 4 5 none []]]
    have same := text (@claim _ _ .method front back body (by decide) (by decide) w head)
    have inside : textOf (w.method (.mk head (front ++ body.children ++ back))) =
        some "(def :a (args) nil)" := by decide +kernel
    have wrapped : textOf (w.method (.mk head (front ++ body :: back))) =
        some "(def :a (args) (send nil :a))" := by decide +kernel
    rw [inside, wrapped] at same
    exact absurd same (by decide)

end RubyPattern.Ruby
