/-
  RubyPattern.Proofs.AssignmentTargets

  Patterns for assignments to a name. The look of the name tells the kind of the
  target; a text that has the look of no kind is refused. For every other text
  the pattern applies just to the assignments to that name, and captures what is
  assigned.
-/
import RubyPattern.Proofs.NamedNodes

namespace RubyPattern

open RubyPattern.Text RubyPattern.Lexeme

-- ============================================================================
-- The looks of names
-- ============================================================================

namespace Name

/-- An identifier: a word character that is no digit, then word characters. -/
inductive Identifier : List Char → Prop
  | mk {c : Char} {cs : List Char} (start : isNameStart c = true)
      (more : ∀ d ∈ cs, isWord d = true) : Identifier (c :: cs)

theorem isIdentifier_iff {cs : List Char} : isIdentifier cs = true ↔ Identifier cs := by
  constructor
  · intro h
    obtain ⟨c, rest, rfl, start, more⟩ := exists_of_isIdentifier h
    exact ⟨start, more⟩
  · rintro ⟨start, more⟩
    have whole := List.takeWhile_eq_self_iff.mpr more
    simp [isIdentifier, identifierLength, start, whole, Nat.add_comm]

theorem isSpecialGlobal_iff {cs : List Char} :
    isSpecialGlobal ('$' :: cs) = true ↔ SpecialName cs ∧ cs ≠ [] := by
  constructor
  · intro h
    obtain ⟨rest, same, special⟩ := exists_of_isSpecialGlobal h
    cases same
    refine ⟨special, ?_⟩
    rintro rfl
    cases h
  · rintro ⟨special, nonempty⟩
    have length : specialGlobalLength cs = cs.length := by
      cases special with
      | mark special => simp [specialGlobalLength, special]
      | number digits =>
        obtain ⟨d, ds, rfl⟩ := List.exists_cons_of_ne_nil nonempty
        obtain ⟨digit, digits⟩ := List.forall_mem_cons.mp digits
        have none : specialGlobals.any isDecimal = false := by decide
        have ordinary : d ∉ specialGlobals := fun mem =>
          List.any_eq_false.mp none d mem digit
        have whole := List.takeWhile_eq_self_iff.mpr digits
        simp [specialGlobalLength, ordinary, digit, whole, Nat.add_comm]
      | option word =>
        have ordinary : '-' ∉ specialGlobals := by decide
        have noDigit : isDecimal '-' = false := by decide
        simp [specialGlobalLength, ordinary, noDigit, word]
    simp [isSpecialGlobal, length, nonempty]

end Name

namespace Builder

open RubyPattern.Name RubyPattern.Element

/-- The names that can be assigned to, and the kinds of target that they are. -/
inductive Designates : TargetKind → List Char → Prop
  | classVariable {cs : List Char} (rest : Identifier cs) :
      Designates .classVariable ('@' :: '@' :: cs)
  | instanceVariable {cs : List Char} (rest : Identifier cs) :
      Designates .instanceVariable ('@' :: cs)
  | globalVariable {cs : List Char} (rest : Identifier cs) :
      Designates .globalVariable ('$' :: cs)
  | specialGlobal {cs : List Char} (rest : SpecialName cs) (nonempty : cs ≠ []) :
      Designates .globalVariable ('$' :: cs)
  | constant {c : Char} {cs : List Char} (whole : Identifier (c :: cs))
      (upper : c.isUpper = true) : Designates .constant (c :: cs)
  | localVariable {c : Char} {cs : List Char} (whole : Identifier (c :: cs))
      (other : c.isUpper = false) : Designates .localVariable (c :: cs)

/-- The front of an identifier is taken for no sigil. -/
theorem ofName_identifier {c : Char} {cs : List Char} (h : Identifier (c :: cs)) :
    TargetKind.ofName (c :: cs) = if c.isUpper then .constant else .localVariable := by
  cases h with
  | mk start _ =>
    obtain ⟨at_, dollar⟩ := not_isNameStart_of_sigil start
    rw [TargetKind.ofName]
    · exact fun _ same => absurd same at_
    · exact at_
    · exact dollar

theorem ofName_instanceVariable {cs : List Char} (h : Identifier cs) :
    TargetKind.ofName ('@' :: cs) = .instanceVariable := by
  cases h with
  | mk start _ =>
    obtain ⟨at_, -⟩ := not_isNameStart_of_sigil start
    rw [TargetKind.ofName]
    rintro _ ⟨⟩
    exact at_ rfl

/-- A name is complete for the kind that its front announces just if it is a
    name of that kind, and then it is of no other. -/
theorem designates_iff {kind : TargetKind} {cs : List Char} :
    Designates kind cs ↔ kind = .ofName cs ∧ kind.admits cs = true := by
  constructor
  · intro h
    cases h with
    | classVariable rest => exact ⟨rfl, isIdentifier_iff.mpr rest⟩
    | instanceVariable rest =>
      exact ⟨(ofName_instanceVariable rest).symm, isIdentifier_iff.mpr rest⟩
    | globalVariable rest =>
      exact ⟨rfl, Bool.or_eq_true_iff.mpr (.inl (isIdentifier_iff.mpr rest))⟩
    | specialGlobal rest nonempty =>
      exact ⟨rfl, Bool.or_eq_true_iff.mpr (.inr (isSpecialGlobal_iff.mpr ⟨rest, nonempty⟩))⟩
    | constant whole upper =>
      rw [ofName_identifier whole, if_pos upper]
      exact ⟨rfl, isIdentifier_iff.mpr whole⟩
    | localVariable whole other =>
      rw [ofName_identifier whole, other]
      exact ⟨rfl, isIdentifier_iff.mpr whole⟩
  · rintro ⟨rfl, admitted⟩
    revert admitted
    fun_cases TargetKind.ofName cs with
    | case1 rest => exact fun admitted => .classVariable (isIdentifier_iff.mp admitted)
    | case2 rest => exact fun admitted => .instanceVariable (isIdentifier_iff.mp admitted)
    | case3 rest =>
      intro admitted
      rcases Bool.or_eq_true_iff.mp admitted with identifier | special
      · exact .globalVariable (isIdentifier_iff.mp identifier)
      · obtain ⟨special, nonempty⟩ := isSpecialGlobal_iff.mp special
        exact .specialGlobal special nonempty
    | case4 c rest _ _ _ upper =>
      exact fun admitted => .constant (isIdentifier_iff.mp admitted) upper
    | case5 c rest _ _ _ other =>
      exact fun admitted => .localVariable (isIdentifier_iff.mp admitted) (by simpa using other)
    | case6 => nofun

-- ============================================================================
-- Assignments
-- ============================================================================

theorem harmless_capture : AbsentChild.Harmless "$_".toList :=
  ⟨by decide, by decide, by decide⟩

theorem spells_capture_wildcard : Spells "$_".toList [.capture .wildcard] :=
  spells_of_tokenize rfl (by decide) (.single (.capture rfl (.wildcard rfl)))

/-- The assignment to a name of some kind. The receiver of a constant is absent. -/
theorem assign_eq_ok {kind : TargetKind} {name : String} (h : Designates kind name.toList)
    (t : Token) : assign (.str name) (.token t) =
      .ok (named kind.nodeType (kind == .constant) name t) := by
  obtain ⟨rfl, admitted⟩ := designates_iff.mp h
  show assignName name (.token t) = _
  unfold assignName
  dsimp only
  rw [if_pos admitted]
  cases TargetKind.ofName name.toList <;> rfl

theorem assign_eq_error {name : String} (h : ∀ kind, ¬ Designates kind name.toList) (v : Value) :
    assign (.str name) v = .error (.invalidIdentifier name) := by
  have refused : ¬ (TargetKind.ofName name.toList).admits name.toList = true := fun admitted =>
    h _ (designates_iff.mpr ⟨rfl, admitted⟩)
  exact if_neg refused

/-- A name that can be assigned to gives a pattern that applies just to the
    assignments to it, of its kind, and captures what is assigned. Every other
    text is refused. -/
theorem capturesJust_assign (name : String) (functions : Functions) :
    (∀ kind, Designates kind name.toList → ∃ n p,
      assign (.str name) (.token (.plain "$_")) = .ok n ∧
      Compiled.ofTree n.toValue functions = .ok p ∧ p.captureCount = 1 ∧
      p.CapturesJust (fun x => Value.Bears kind.nodeType (kind == .constant) name [x]) id) ∧
    ((∀ kind, ¬ Designates kind name.toList) →
      assign (.str name) (.token (.plain "$_")) = .error (.invalidIdentifier name)) := by
  refine ⟨fun kind h => ?_, fun h => assign_eq_error h _⟩
  have word : isTypeName kind.nodeType.toList = true := by cases kind <;> decide
  obtain ⟨p, compiled, count, captures⟩ := exists_ofTree_named word (kind == .constant) name
    (.plain "$_") harmless_capture spells_capture_wildcard takesLast_capture
  exact ⟨_, p, assign_eq_ok h _, compiled, count, captures⟩

/-- A constant is assigned to without a receiver; a third sigil is no part of a
    name. -/
theorem capturesJust_assign_constant :
    (∃ n p, assign (.str "MAX") (.token (.plain "$_")) = .ok n ∧
      Compiled.ofTree n.toValue [] = .ok p ∧
      p.captures? (.node (.plain "casgn") [.nil, .sym "MAX", .int 1] none) =
        .ok (some [.int 1]) ∧
      p.captures? (.node (.plain "lvasgn") [.sym "MAX", .int 1] none) = .ok none) ∧
    assign (.str "@@@a") (.token (.plain "$_")) = .error (.invalidIdentifier "@@@a") := by
  have constant : Designates .constant "MAX".toList :=
    .constant ⟨by decide, List.all_eq_true.mp (by decide)⟩ (by decide)
  have none : ∀ kind, ¬ Designates kind "@@@a".toList := by
    intro kind h
    obtain ⟨rfl, admitted⟩ := designates_iff.mp h
    revert admitted
    decide
  refine ⟨?_, (capturesJust_assign "@@@a" []).2 none⟩
  obtain ⟨n, p, made, compiled, -, captures⟩ := (capturesJust_assign "MAX" []).1 _ constant
  refine ⟨n, p, made, compiled, ?_, (captures _).2 fun x => ?_⟩
  · exact (captures _).1 (.int 1) ⟨.plain "casgn", .sym "MAX", .none, rfl, rfl, rfl⟩
  · rintro ⟨label, symbol, location, -, -, same⟩
    cases same

end Builder

end RubyPattern
