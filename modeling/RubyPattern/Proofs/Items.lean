/-
  RubyPattern.Proofs.Items

  Complete elements of a sequence, one after the other. A reading depends on
  where lexemes stand only in whether a bracket is attached to a function's
  name, so it survives a move of all lexemes, and more lexemes behind it that
  are not attached to its last one.
-/
import RubyPattern.Proofs.Reading

namespace RubyPattern

/-- A lexeme at a later place. -/
def Lexeme.shift (distance : Nat) (l : Lexeme) : Lexeme :=
  { l with position := distance + l.position }

theorem Lexeme.stop_shift (distance : Nat) (l : Lexeme) :
    (l.shift distance).stop = distance + l.stop := by
  simp only [stop, shift]
  omega

namespace Grammar

/-- Complete elements of a sequence until the lexemes are used up. -/
inductive ReadsItems : List Lexeme → List Element → Prop
  | nil : ReadsItems [] []
  | item {ls middle : List Lexeme} {e : Element} {es : List Element}
      (first : Reads true ls e middle) (others : ReadsItems middle es) : ReadsItems ls (e :: es)

/-- A single element is the only item of its lexemes. -/
theorem ReadsItems.single {ls : List Lexeme} {e : Element} (h : Reads true ls e []) :
    ReadsItems ls [e] :=
  .item h .nil

/-- An element that is no rest reads the same outside of sequences. -/
theorem Reads.outside {b : Bool} {ls rest : List Lexeme} {e : Element} (h : Reads b ls e rest)
    (single : e.isRest = false) : Reads false ls e rest := by
  cases h with
  | wildcard kind => exact .wildcard kind
  | unify kind => exact .unify kind
  | scalar kind => exact .scalar kind
  | nodeType kind => exact .nodeType kind
  | predicate kind known => exact .predicate kind known
  | rest => simp [Element.isRest] at single
  | capturedRest => simp [Element.isRest] at single
  | capture kind inner => exact .capture kind inner
  | negation kind inner plain => exact .negation kind inner plain
  | sequence kind inner nonempty => exact .sequence kind inner nonempty
  | intersection kind inner nonempty => exact .intersection kind inner nonempty
  | union kind inner nonempty even => exact .union kind inner nonempty even
  | call kind detached => exact .call kind detached
  | callWith kind opening attached inner => exact .callWith kind opening attached inner

/-- Reads elements of a sequence off the front of the lexemes until none is
    left over. -/
def elements (stop : Nat) : List Lexeme → Except Refusal (List Element)
  | [] => .ok []
  | l :: ls =>
    match element stop true (l :: ls) with
    | .error refusal => .error refusal
    | .ok (e, ⟨rest, _⟩) =>
      match elements stop rest with
      | .error refusal => .error refusal
      | .ok es => .ok (e :: es)
termination_by ls => ls.length
decreasing_by assumption

/-- The elements of a list of lexemes are those that use it up. -/
theorem elements_eq_ok_iff (stop : Nat) {ls : List Lexeme} {es : List Element} :
    elements stop ls = .ok es ↔ ReadsItems ls es := by
  constructor
  · intro h
    fun_induction elements generalizing es with
    | case1 =>
      cases h
      exact .nil
    | case2 => cases h
    | case3 => cases h
    | case4 l ls e rest shorter read es others ih =>
      cases h
      exact .item ((reads_of_eq_ok stop (l :: ls).length).1 rfl read) (ih others)
  · intro h
    induction h with
    | nil => rw [elements]
    | item first _ ih =>
      obtain ⟨l, ms, rfl⟩ := first.exists_cons
      obtain ⟨shorter, eq⟩ := element_eq_ok_of_reads stop first
      rw [elements, eq]
      simp only [ih]

-- ============================================================================
-- Places
-- ============================================================================

theorem ReadsArguments.shift (distance : Nat) {ls rest : List Lexeme} {values : List Scalar}
    (h : ReadsArguments ls values rest) :
    ReadsArguments (ls.map (Lexeme.shift distance)) values
      (rest.map (Lexeme.shift distance)) := by
  induction h with
  | close kind => exact .close kind
  | literal kind _ ih => exact .literal kind ih

theorem Detached.shift (distance : Nat) {l : Lexeme} {ls : List Lexeme} (h : Detached l ls) :
    Detached (l.shift distance) (ls.map (Lexeme.shift distance)) := by
  intro o first opening
  rw [List.head?_map, Option.mem_def, Option.map_eq_some_iff] at first
  obtain ⟨p, hp, rfl⟩ := first
  rw [Lexeme.stop_shift]
  have apart : p.position ≠ l.stop := h p hp opening
  simp only [Lexeme.shift]
  omega

mutual

theorem Reads.shift (distance : Nat) {b : Bool} {ls rest : List Lexeme} {e : Element}
    (h : Reads b ls e rest) : Reads b (ls.map (Lexeme.shift distance)) e
      (rest.map (Lexeme.shift distance)) := by
  cases h with
  | wildcard kind => exact .wildcard kind
  | unify kind => exact .unify kind
  | scalar kind => exact .scalar kind
  | nodeType kind => exact .nodeType kind
  | predicate kind known => exact .predicate kind known
  | rest kind => exact .rest kind
  | capturedRest kind dotsKind => exact .capturedRest kind dotsKind
  | capture kind inner => exact .capture kind (inner.shift distance)
  | negation kind inner plain => exact .negation kind (inner.shift distance) plain
  | sequence kind inner nonempty => exact .sequence kind (inner.shift distance) nonempty
  | intersection kind inner nonempty => exact .intersection kind (inner.shift distance) nonempty
  | union kind inner nonempty even => exact .union kind (inner.shift distance) nonempty even
  | call kind detached => exact .call kind (detached.shift distance)
  | callWith kind opening attached inner =>
    refine .callWith kind opening ?_ (inner.shift distance)
    rw [Lexeme.stop_shift, ← attached]
    rfl

theorem ReadsGroup.shift (distance : Nat) {bracket : Bracket} {ls rest : List Lexeme}
    {es : List Element} (h : ReadsGroup bracket ls es rest) :
    ReadsGroup bracket (ls.map (Lexeme.shift distance)) es
      (rest.map (Lexeme.shift distance)) := by
  cases h with
  | close kind => exact .close kind
  | item first others => exact .item (first.shift distance) (others.shift distance)

end

theorem ReadsItems.shift (distance : Nat) {ls : List Lexeme} {es : List Element}
    (h : ReadsItems ls es) : ReadsItems (ls.map (Lexeme.shift distance)) es := by
  induction h with
  | nil => exact .nil
  | item first _ ih => exact .item (first.shift distance) ih

-- ============================================================================
-- More lexemes behind
-- ============================================================================

/-- No round bracket opens right behind the last of the lexemes. -/
def Apart (ls more : List Lexeme) : Prop :=
  ∀ l ∈ ls.getLast?, Detached l more

theorem Apart.of_suffix {ls ms more : List Lexeme} (h : Apart ls more) (suffix : ms <:+ ls) :
    Apart ms more := by
  intro l last
  obtain ⟨before, rfl⟩ := suffix
  refine h l ?_
  rw [List.getLast?_append, Option.mem_def.mp last]
  rfl

theorem ReadsArguments.suffix {ls rest : List Lexeme} {values : List Scalar}
    (h : ReadsArguments ls values rest) : rest <:+ ls := by
  induction h with
  | close => exact List.suffix_cons _ _
  | literal _ _ ih => exact ih.trans (List.suffix_cons _ _)

mutual

theorem Reads.suffix {b : Bool} {ls rest : List Lexeme} {e : Element}
    (h : Reads b ls e rest) : rest <:+ ls := by
  cases h with
  | capturedRest => exact (List.suffix_cons _ _).trans (List.suffix_cons _ _)
  | capture _ inner => exact inner.suffix.trans (List.suffix_cons _ _)
  | negation _ inner => exact inner.suffix.trans (List.suffix_cons _ _)
  | sequence _ inner => exact inner.suffix.trans (List.suffix_cons _ _)
  | intersection _ inner => exact inner.suffix.trans (List.suffix_cons _ _)
  | union _ inner => exact inner.suffix.trans (List.suffix_cons _ _)
  | callWith _ _ _ inner =>
    exact (inner.suffix.trans (List.suffix_cons _ _)).trans (List.suffix_cons _ _)
  | _ => exact List.suffix_cons _ _

theorem ReadsGroup.suffix {bracket : Bracket} {ls rest : List Lexeme} {es : List Element}
    (h : ReadsGroup bracket ls es rest) : rest <:+ ls := by
  cases h with
  | close => exact List.suffix_cons _ _
  | item first others => exact others.suffix.trans first.suffix

end

theorem ReadsArguments.append {ls rest : List Lexeme} {values : List Scalar}
    (h : ReadsArguments ls values rest) (more : List Lexeme) :
    ReadsArguments (ls ++ more) values (rest ++ more) := by
  induction h with
  | close kind => exact .close kind
  | literal kind _ ih => exact .literal kind ih

theorem Detached.append {l : Lexeme} {ls more : List Lexeme} (h : Detached l ls)
    (apart : Apart (l :: ls) more) : Detached l (ls ++ more) := by
  cases ls with
  | nil => exact apart l rfl
  | cons m ms => exact h

mutual

theorem Reads.append {b : Bool} {ls rest more : List Lexeme} {e : Element}
    (h : Reads b ls e rest) (apart : Apart ls more) : Reads b (ls ++ more) e (rest ++ more) := by
  cases h with
  | wildcard kind => exact .wildcard kind
  | unify kind => exact .unify kind
  | scalar kind => exact .scalar kind
  | nodeType kind => exact .nodeType kind
  | predicate kind known => exact .predicate kind known
  | rest kind => exact .rest kind
  | capturedRest kind dotsKind => exact .capturedRest kind dotsKind
  | capture kind inner =>
    exact .capture kind (inner.append (apart.of_suffix (List.suffix_cons _ _)))
  | negation kind inner plain =>
    exact .negation kind (inner.append (apart.of_suffix (List.suffix_cons _ _))) plain
  | sequence kind inner nonempty =>
    exact .sequence kind (inner.append (apart.of_suffix (List.suffix_cons _ _))) nonempty
  | intersection kind inner nonempty =>
    exact .intersection kind (inner.append (apart.of_suffix (List.suffix_cons _ _))) nonempty
  | union kind inner nonempty even =>
    exact .union kind (inner.append (apart.of_suffix (List.suffix_cons _ _))) nonempty even
  | call kind detached => exact .call kind (detached.append apart)
  | callWith kind opening attached inner =>
    exact .callWith kind opening attached (inner.append more)

theorem ReadsGroup.append {bracket : Bracket} {ls rest more : List Lexeme} {es : List Element}
    (h : ReadsGroup bracket ls es rest) (apart : Apart ls more) :
    ReadsGroup bracket (ls ++ more) es (rest ++ more) := by
  cases h with
  | close kind => exact .close kind
  | item first others =>
    exact .item (first.append apart) (others.append (apart.of_suffix first.suffix))

end

/-- Items go in front of the rest of a sequence. -/
theorem ReadsItems.readsGroup {ls more rest : List Lexeme} {es ds : List Element}
    (h : ReadsItems ls es) (apart : Apart ls more) (others : ReadsGroup .round more ds rest) :
    ReadsGroup .round (ls ++ more) (es ++ ds) rest := by
  induction h with
  | nil => exact others
  | item first _ ih => exact .item (first.append apart) (ih (apart.of_suffix first.suffix))

end Grammar

end RubyPattern
