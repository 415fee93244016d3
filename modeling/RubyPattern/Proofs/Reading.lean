/-
  RubyPattern.Proofs.Reading

  The grammar of patterns as a relation between lexemes and what is read off
  their front. The recursive descent follows the relation and finds every
  reading that it admits, so statements about all patterns that a text can
  spell go by induction on the relation and never open the descent.
-/
import RubyPattern.Pattern.Grammar

namespace RubyPattern.Grammar

-- ============================================================================
-- The relation
-- ============================================================================

/-- The literals between a function's brackets, through the closing one. -/
inductive ReadsArguments : List Lexeme → List Scalar → List Lexeme → Prop
  | close {l : Lexeme} {ls : List Lexeme} (kind : l.kind = .closing .round) :
      ReadsArguments (l :: ls) [] ls
  | literal {l : Lexeme} {ls rest : List Lexeme} {value : Scalar} {values : List Scalar}
      (kind : l.kind = .scalar value) (more : ReadsArguments ls values rest) :
      ReadsArguments (l :: ls) (value :: values) rest

/-- No round bracket opens right behind a function's name. -/
def Detached (l : Lexeme) (ls : List Lexeme) : Prop :=
  ∀ o ∈ ls.head?, o.kind = .opening .round → o.position ≠ l.stop

mutual

/-- One element off the front of the lexemes, with the lexemes left over. The
    flag says whether it stands directly in a sequence. -/
inductive Reads : Bool → List Lexeme → Element → List Lexeme → Prop
  | wildcard {b : Bool} {l : Lexeme} {ls : List Lexeme} (kind : l.kind = .wildcard) :
      Reads b (l :: ls) .wildcard ls
  | unify {b : Bool} {l : Lexeme} {ls : List Lexeme} {name : String}
      (kind : l.kind = .unify name) : Reads b (l :: ls) (.unify name) ls
  | scalar {b : Bool} {l : Lexeme} {ls : List Lexeme} {value : Scalar}
      (kind : l.kind = .scalar value) : Reads b (l :: ls) (.scalar value) ls
  | nodeType {b : Bool} {l : Lexeme} {ls : List Lexeme} {name : String}
      (kind : l.kind = .nodeType name) : Reads b (l :: ls) (.nodeType name) ls
  | predicate {b : Bool} {l : Lexeme} {ls : List Lexeme} {name : String}
      (kind : l.kind = .predicate name) (known : (Builtin.ofName? name).isSome) :
      Reads b (l :: ls) (.predicate name) ls
  | rest {l : Lexeme} {ls : List Lexeme} (kind : l.kind = .rest) :
      Reads true (l :: ls) (.rest false) ls
  | capturedRest {l dots : Lexeme} {ls : List Lexeme} (kind : l.kind = .capture)
      (dotsKind : dots.kind = .rest) : Reads true (l :: dots :: ls) (.rest true) ls
  | capture {b : Bool} {l : Lexeme} {ls rest : List Lexeme} {e : Element}
      (kind : l.kind = .capture) (inner : Reads false ls e rest) :
      Reads b (l :: ls) (.capture e) rest
  | negation {b : Bool} {l : Lexeme} {ls rest : List Lexeme} {e : Element}
      (kind : l.kind = .negation) (inner : Reads false ls e rest)
      (plain : e.captureCount = 0) : Reads b (l :: ls) (.negation e) rest
  | sequence {b : Bool} {l : Lexeme} {ls rest : List Lexeme} {es : List Element}
      (kind : l.kind = .opening .round) (inner : ReadsGroup .round ls es rest)
      (nonempty : es ≠ []) : Reads b (l :: ls) (.sequence es) rest
  | intersection {b : Bool} {l : Lexeme} {ls rest : List Lexeme} {es : List Element}
      (kind : l.kind = .opening .square) (inner : ReadsGroup .square ls es rest)
      (nonempty : es ≠ []) : Reads b (l :: ls) (.intersection es) rest
  | union {b : Bool} {l : Lexeme} {ls rest : List Lexeme} {es : List Element}
      (kind : l.kind = .opening .curly) (inner : ReadsGroup .curly ls es rest)
      (nonempty : es ≠ []) (even : evenlyCapturing es = true) :
      Reads b (l :: ls) (.union es) rest
  | call {b : Bool} {l : Lexeme} {ls : List Lexeme} {name : String}
      (kind : l.kind = .function name) (detached : Detached l ls) :
      Reads b (l :: ls) (.call name []) ls
  | callWith {b : Bool} {l o : Lexeme} {ls rest : List Lexeme} {name : String}
      {values : List Scalar} (kind : l.kind = .function name)
      (opening : o.kind = .opening .round) (attached : o.position = l.stop)
      (inner : ReadsArguments ls values rest) :
      Reads b (l :: o :: ls) (.call name values) rest

/-- The elements up to the closing bracket, through that bracket. -/
inductive ReadsGroup : Bracket → List Lexeme → List Element → List Lexeme → Prop
  | close {bracket : Bracket} {l : Lexeme} {ls : List Lexeme}
      (kind : l.kind = .closing bracket) : ReadsGroup bracket (l :: ls) [] ls
  | item {bracket : Bracket} {ls middle rest : List Lexeme} {e : Element}
      {es : List Element} (first : Reads (bracket == .round) ls e middle)
      (others : ReadsGroup bracket middle es rest) : ReadsGroup bracket ls (e :: es) rest

end

theorem Reads.exists_cons {b : Bool} {ls rest : List Lexeme} {e : Element}
    (h : Reads b ls e rest) : ∃ l ms, ls = l :: ms := by
  cases h <;> exact ⟨_, _, rfl⟩

theorem Reads.kind_ne_closing {b : Bool} {l : Lexeme} {ls rest : List Lexeme} {e : Element}
    (h : Reads b (l :: ls) e rest) (bracket : Bracket) : l.kind ≠ .closing bracket := by
  cases h <;> simp_all

/-- Outside of sequences no element begins with a rest. -/
theorem Reads.kind_ne_rest {l : Lexeme} {ls rest : List Lexeme} {e : Element}
    (h : Reads false (l :: ls) e rest) : l.kind ≠ .rest := by
  cases h <;> simp_all

-- ============================================================================
-- The descent follows the relation
-- ============================================================================

theorem readsArguments_of_eq_ok {stop : Nat} {ls : List Lexeme} {values : List Scalar}
    {rest : { rest : List Lexeme // rest.length < ls.length }}
    (h : arguments stop ls = .ok (values, rest)) : ReadsArguments ls values rest := by
  induction ls generalizing values with
  | nil => simp [arguments] at h
  | cons l ls ih =>
    unfold arguments at h
    split at h
    next kind =>
      cases h
      exact .close kind
    next value kind =>
      split at h
      next => cases h
      next values rest shorter inner =>
        cases h
        exact .literal kind (ih inner)
    next => cases h

theorem reads_of_closeGroup {b : Bool} {l : Lexeme} {ls rest : List Lexeme} {bracket : Bracket}
    {es : List Element} {e : Element} (kind : l.kind = .opening bracket)
    (inner : ReadsGroup bracket ls es rest) (closed : closeGroup l bracket es = .ok e) :
    Reads b (l :: ls) e rest := by
  unfold closeGroup at closed
  split at closed
  next => cases closed
  next full =>
    have nonempty : es ≠ [] := by simpa using full
    cases bracket with
    | round =>
      cases closed
      exact .sequence kind inner nonempty
    | square =>
      cases closed
      exact .intersection kind inner nonempty
    | curly =>
      simp only at closed
      split at closed
      next even =>
        cases closed
        exact .union kind inner nonempty even
      next => cases closed

/-- An element follows the relation if all readings of shorter lists do. -/
theorem reads_of_element_step {stop : Nat} {b : Bool} {ls : List Lexeme} {e : Element}
    {rest : { rest : List Lexeme // rest.length < ls.length }}
    (elements : ∀ {b ms e rest}, ms.length < ls.length →
      element stop b ms = .ok (e, rest) → Reads b ms e rest)
    (groups : ∀ {opener bracket ms es rest}, ms.length < ls.length →
      group stop opener bracket ms = .ok (es, rest) → ReadsGroup bracket ms es rest)
    (h : element stop b ls = .ok (e, rest)) : Reads b ls e rest := by
  unfold element at h
  split at h
  next => cases h
  next l ls =>
    split at h
    next kind => cases h; exact .wildcard kind
    next name kind => cases h; exact .unify kind
    next value kind => cases h; exact .scalar kind
    next name kind => cases h; exact .nodeType kind
    next name kind =>
      split at h
      next known => cases h; exact .predicate kind known
      next => cases h
    next kind =>
      split at h
      next inside => cases h; subst inside; exact .rest kind
      next => cases h
    next kind =>
      split at h
      next text position rest =>
        split at h
        next inside => cases h; subst inside; exact .capturedRest kind rfl
        next => cases h
      next ls noDots =>
        split at h
        next => cases h
        next d rest shorter inner =>
          cases h
          exact .capture kind (elements (Nat.lt_succ_self _) inner)
    next kind =>
      split at h
      next => cases h
      next d rest shorter inner =>
        split at h
        next plain =>
          cases h
          exact .negation kind (elements (Nat.lt_succ_self _) inner) plain
        next => cases h
    next bracket kind =>
      split at h
      next => cases h
      next es rest shorter inner =>
        split at h
        next => cases h
        next d closed =>
          cases h
          exact reads_of_closeGroup kind (groups (Nat.lt_succ_self _) inner) closed
    next => cases h
    next name kind =>
      split at h
      next text position rest =>
        split at h
        next attached =>
          split at h
          next => cases h
          next values rest shorter inner =>
            cases h
            exact .callWith kind rfl attached (readsArguments_of_eq_ok inner)
        next apart =>
          cases h
          exact .call kind (by simpa [Detached] using apart)
      next ls noBracket =>
        cases h
        refine .call kind ?_
        intro o first opening
        obtain ⟨ms, rfl⟩ := List.head?_eq_some_iff.mp first
        obtain ⟨_, text, position⟩ := o
        cases opening
        exact absurd rfl (noBracket text position ms)

/-- A group follows the relation if its first element and all groups of
    shorter lists do. -/
theorem readsGroup_of_group_step {stop : Nat} {opener : Lexeme} {bracket : Bracket}
    {ls : List Lexeme} {es : List Element}
    {rest : { rest : List Lexeme // rest.length < ls.length }}
    (elements : ∀ {b e rest}, element stop b ls = .ok (e, rest) → Reads b ls e rest)
    (groups : ∀ {opener bracket ms es rest}, ms.length < ls.length →
      group stop opener bracket ms = .ok (es, rest) → ReadsGroup bracket ms es rest)
    (h : group stop opener bracket ls = .ok (es, rest)) : ReadsGroup bracket ls es rest := by
  unfold group at h
  split at h
  next => cases h
  next l ls =>
    split at h
    next other kind =>
      split at h
      next same => cases h; subst same; exact .close kind
      next => cases h
    next =>
      split at h
      next => cases h
      next e middle shorter first =>
        split at h
        next => cases h
        next es rest shorter' others =>
          cases h
          exact .item (elements first) (groups shorter others)

/-- Everything that the descent reads off a list of some length is admitted. -/
theorem reads_of_eq_ok (stop length : Nat) :
    (∀ {b ls e rest}, ls.length = length → element stop b ls = .ok (e, rest) →
      Reads b ls e rest) ∧
    (∀ {opener bracket ls es rest}, ls.length = length →
      group stop opener bracket ls = .ok (es, rest) → ReadsGroup bracket ls es rest) := by
  induction length using Nat.strongRecOn with
  | ind length ih =>
    have elements : ∀ {b ls e rest}, ls.length = length →
        element stop b ls = .ok (e, rest) → Reads b ls e rest := by
      intro b ls e rest hlength h
      exact reads_of_element_step (fun shorter => (ih _ (hlength ▸ shorter)).1 rfl)
        (fun shorter => (ih _ (hlength ▸ shorter)).2 rfl) h
    refine ⟨elements, ?_⟩
    intro opener bracket ls es rest hlength h
    exact readsGroup_of_group_step (elements hlength)
      (fun shorter => (ih _ (hlength ▸ shorter)).2 rfl) h

-- ============================================================================
-- The descent finds what the relation admits
-- ============================================================================

theorem arguments_eq_ok_of_reads (stop : Nat) {ls rest : List Lexeme} {values : List Scalar}
    (h : ReadsArguments ls values rest) :
    ∃ shorter, arguments stop ls = .ok (values, ⟨rest, shorter⟩) := by
  induction h with
  | close kind => exact ⟨by simp, by unfold arguments; simp only [kind]⟩
  | literal kind more ih =>
    obtain ⟨shorter, eq⟩ := ih
    exact ⟨by simp; omega, by unfold arguments; simp only [kind, eq]⟩

theorem closeGroup_of_nonempty (l : Lexeme) (bracket : Bracket) {es : List Element}
    (nonempty : es ≠ []) :
    closeGroup l bracket es = match bracket with
      | .round => .ok (.sequence es)
      | .square => .ok (.intersection es)
      | .curly =>
        if evenlyCapturing es then .ok (.union es) else .error (.unevenUnion, l.position) := by
  unfold closeGroup
  exact if_neg (by simpa using nonempty)

mutual

theorem element_eq_ok_of_reads (stop : Nat) {b : Bool} {ls rest : List Lexeme} {e : Element}
    (h : Reads b ls e rest) : ∃ shorter, element stop b ls = .ok (e, ⟨rest, shorter⟩) := by
  cases h with
  | wildcard kind => exact ⟨by simp, by unfold element; simp only [kind]⟩
  | unify kind => exact ⟨by simp, by unfold element; simp only [kind]⟩
  | scalar kind => exact ⟨by simp, by unfold element; simp only [kind]⟩
  | nodeType kind => exact ⟨by simp, by unfold element; simp only [kind]⟩
  | predicate kind known => exact ⟨by simp, by unfold element; simp only [kind, known, if_true]⟩
  | rest kind => exact ⟨by simp, by unfold element; simp only [kind, if_true]⟩
  | @capturedRest l dots ls kind dotsKind =>
    obtain ⟨_, text, position⟩ := dots
    cases dotsKind
    have shorter : rest.length < (l :: ⟨.rest, text, position⟩ :: rest).length := by
      rw [List.length_cons, List.length_cons]
      omega
    exact ⟨shorter, by unfold element; simp only [kind, if_true]⟩
  | capture kind inner =>
    obtain ⟨shorter, eq⟩ := element_eq_ok_of_reads stop inner
    refine ⟨by simp; omega, ?_⟩
    unfold element
    simp only [kind]
    split
    next => exact absurd rfl inner.kind_ne_rest
    next => simp only [eq]
  | negation kind inner plain =>
    obtain ⟨shorter, eq⟩ := element_eq_ok_of_reads stop inner
    exact ⟨by simp; omega, by unfold element; simp only [kind, eq, plain, if_true]⟩
  | @sequence _ l _ _ _ kind inner nonempty =>
    obtain ⟨shorter, eq⟩ := group_eq_ok_of_reads stop l inner
    refine ⟨by simp; omega, ?_⟩
    unfold element
    simp only [kind, eq, closeGroup_of_nonempty l _ nonempty]
  | @intersection _ l _ _ _ kind inner nonempty =>
    obtain ⟨shorter, eq⟩ := group_eq_ok_of_reads stop l inner
    refine ⟨by simp; omega, ?_⟩
    unfold element
    simp only [kind, eq, closeGroup_of_nonempty l _ nonempty]
  | @union _ l _ _ _ kind inner nonempty even =>
    obtain ⟨shorter, eq⟩ := group_eq_ok_of_reads stop l inner
    refine ⟨by simp; omega, ?_⟩
    unfold element
    simp only [kind, eq, closeGroup_of_nonempty l _ nonempty, even, if_true]
  | call kind detached =>
    refine ⟨by simp, ?_⟩
    unfold element
    simp only [kind]
    split
    next => rw [if_neg (detached _ rfl rfl)]
    next => rfl
  | @callWith _ l o _ _ _ _ kind opening attached inner =>
    obtain ⟨shorter, eq⟩ := arguments_eq_ok_of_reads stop inner
    obtain ⟨_, text, position⟩ := o
    cases opening
    cases attached
    refine ⟨by simp; omega, ?_⟩
    unfold element
    simp only [kind, eq]
    exact if_pos rfl

theorem group_eq_ok_of_reads (stop : Nat) (opener : Lexeme) {bracket : Bracket}
    {ls rest : List Lexeme} {es : List Element} (h : ReadsGroup bracket ls es rest) :
    ∃ shorter, group stop opener bracket ls = .ok (es, ⟨rest, shorter⟩) := by
  cases h with
  | close kind => exact ⟨by simp, by unfold group; simp only [kind, if_true]⟩
  | item first others =>
    obtain ⟨l, ms, rfl⟩ := first.exists_cons
    obtain ⟨shorter, eq⟩ := element_eq_ok_of_reads stop first
    obtain ⟨shorter', eq'⟩ := group_eq_ok_of_reads stop opener others
    refine ⟨Nat.lt_trans shorter' shorter, ?_⟩
    unfold group
    split
    next other kind => exact absurd kind (first.kind_ne_closing other)
    next => simp only [eq, eq']

end

-- ============================================================================
-- Whole texts
-- ============================================================================

/-- A list of lexemes makes the pattern that uses it up. -/
theorem ofLexemes_eq_ok_iff (stop : Nat) {ls : List Lexeme} {e : Element} :
    ofLexemes stop ls = .ok e ↔ Reads false ls e [] := by
  constructor
  · intro h
    unfold ofLexemes at h
    split at h
    next => cases h
    next =>
      split at h
      next => cases h
      next d shorter read =>
        cases h
        exact (reads_of_eq_ok stop ls.length).1 rfl read
      next => cases h
  · intro h
    obtain ⟨l, ms, rfl⟩ := h.exists_cons
    obtain ⟨shorter, eq⟩ := element_eq_ok_of_reads stop h
    simp [ofLexemes, eq]

/-- A text spells a pattern when its lexemes read as that pattern to the end. -/
theorem parse_eq_ok_iff {pattern : String} {e : Element} :
    parse pattern = .ok e ↔ ∃ ls, Lexeme.tokenize pattern = .ok ls ∧ Reads false ls e [] := by
  unfold parse
  cases Lexeme.tokenize pattern with
  | error fault => simp [bind, Except.bind]
  | ok ls =>
    cases read : ofLexemes pattern.length ls with
    | error refusal =>
      have none : ¬ Reads false ls e [] := by
        rw [← ofLexemes_eq_ok_iff pattern.length, read]
        simp
      simp [bind, Except.bind, read, none]
    | ok d =>
      simp [bind, Except.bind, read, ← ofLexemes_eq_ok_iff pattern.length]

end RubyPattern.Grammar
