/-
  RubyPattern.Proofs.Derivations

  The grammar of patterns by its derivations. A derivation is a tree with the
  lexemes of the text at its places; it follows the rules if each construct
  holds what the grammar allows there. The recursive descent accepts exactly the
  lexeme lists that have a derivation, a list has at most one, and the pattern
  is the one that the derivation describes. All other lists are refused.
-/
import RubyPattern.Proofs.Admissible

namespace RubyPattern.Grammar

-- ============================================================================
-- Derivations
-- ============================================================================

/-- The derivation of an element, with all its lexemes. -/
inductive Derivation where
  /-- A rest, a wildcard, a name, a literal, a node type or a predicate. -/
  | single (l : Lexeme)
  | capturedRest (dollar dots : Lexeme)
  | capture (dollar : Lexeme) (inner : Derivation)
  | negation (mark : Lexeme) (inner : Derivation)
  | group (opener : Lexeme) (items : List Derivation) (closer : Lexeme)
  | call (function : Lexeme)
  | callWith (function opener : Lexeme) (arguments : List Lexeme) (closer : Lexeme)

namespace Derivation

mutual

/-- The lexemes of a derivation, in the order of the text. -/
def lexemes : Derivation → List Lexeme
  | .single l => [l]
  | .capturedRest dollar dots => [dollar, dots]
  | .capture dollar inner => dollar :: lexemes inner
  | .negation mark inner => mark :: lexemes inner
  | .group opener items closer => opener :: (lexemesAll items ++ [closer])
  | .call function => [function]
  | .callWith function opener arguments closer =>
    function :: opener :: (arguments ++ [closer])

/-- The lexemes of several derivations, one after the other. -/
def lexemesAll : List Derivation → List Lexeme
  | [] => []
  | d :: ds => lexemes d ++ lexemesAll ds

end

/-- The lexeme that follows a list of items: the first of theirs, or else the
    closing bracket. -/
def nextOf (items : List Derivation) (closer : Lexeme) : Option Lexeme :=
  (lexemesAll items ++ [closer]).head?

end Derivation

open RubyPattern.Grammar.Derivation

/-- The names of predicates: `nil?`, or a node type and `_type?`. -/
def IsPredicateName (name : String) : Prop :=
  name = "nil?" ∨ ∃ type, type ≠ "" ∧ name = type ++ "_type?"

mutual

/-- The rules of the grammar: what a derivation of an element consists of, and
    the element that it describes. The flag says whether the element stands
    directly in a sequence. The lexeme behind the derivation counts for function
    names only, which take a bracket that opens right at their end. -/
inductive Derives : Bool → Option Lexeme → Derivation → Element → Prop
  | rest {next : Option Lexeme} {l : Lexeme} (kind : l.kind = .rest) :
      Derives true next (.single l) (.rest false)
  | capturedRest {next : Option Lexeme} {l dots : Lexeme} (kind : l.kind = .capture)
      (dotsKind : dots.kind = .rest) : Derives true next (.capturedRest l dots) (.rest true)
  | capture {b : Bool} {next : Option Lexeme} {l : Lexeme} {d : Derivation} {e : Element}
      (kind : l.kind = .capture) (inner : Derives false next d e) :
      Derives b next (.capture l d) (.capture e)
  | negation {b : Bool} {next : Option Lexeme} {l : Lexeme} {d : Derivation} {e : Element}
      (kind : l.kind = .negation) (inner : Derives false next d e)
      (plain : ∀ m ∈ d.lexemes, m.kind ≠ .capture) : Derives b next (.negation l d) (.negation e)
  | sequence {b : Bool} {next : Option Lexeme} {l r : Lexeme} {ds : List Derivation}
      {es : List Element} (kind : l.kind = .opening .round) (closing : r.kind = .closing .round)
      (nonempty : ds ≠ []) (items : DerivesAll true r ds es) :
      Derives b next (.group l ds r) (.sequence es)
  | union {b : Bool} {next : Option Lexeme} {l r : Lexeme} {ds : List Derivation}
      {es : List Element} (kind : l.kind = .opening .curly) (closing : r.kind = .closing .curly)
      (nonempty : ds ≠ []) (items : DerivesAll false r ds es)
      (even : ∀ e ∈ es, ∀ e' ∈ es, e.captureCount = e'.captureCount) :
      Derives b next (.group l ds r) (.union es)
  | intersection {b : Bool} {next : Option Lexeme} {l r : Lexeme} {ds : List Derivation}
      {es : List Element} (kind : l.kind = .opening .square)
      (closing : r.kind = .closing .square) (nonempty : ds ≠ [])
      (items : DerivesAll false r ds es) : Derives b next (.group l ds r) (.intersection es)
  | wildcard {b : Bool} {next : Option Lexeme} {l : Lexeme} (kind : l.kind = .wildcard) :
      Derives b next (.single l) .wildcard
  | unify {b : Bool} {next : Option Lexeme} {l : Lexeme} {name : String}
      (kind : l.kind = .unify name) : Derives b next (.single l) (.unify name)
  | scalar {b : Bool} {next : Option Lexeme} {l : Lexeme} {value : Scalar}
      (kind : l.kind = .scalar value) : Derives b next (.single l) (.scalar value)
  | nodeType {b : Bool} {next : Option Lexeme} {l : Lexeme} {name : String}
      (kind : l.kind = .nodeType name) : Derives b next (.single l) (.nodeType name)
  | predicate {b : Bool} {next : Option Lexeme} {l : Lexeme} {name : String}
      (kind : l.kind = .predicate name) (known : IsPredicateName name) :
      Derives b next (.single l) (.predicate name)
  | call {b : Bool} {next : Option Lexeme} {l : Lexeme} {name : String}
      (kind : l.kind = .function name)
      (detached : ∀ o ∈ next, o.kind = .opening .round → o.position ≠ l.stop) :
      Derives b next (.call l) (.call name [])
  | callWith {b : Bool} {next : Option Lexeme} {l o r : Lexeme} {name : String}
      {arguments : List Lexeme} {values : List Scalar} (kind : l.kind = .function name)
      (opening : o.kind = .opening .round) (attached : o.position = l.stop)
      (literals : arguments.map Lexeme.kind = values.map .scalar)
      (closing : r.kind = .closing .round) :
      Derives b next (.callWith l o arguments r) (.call name values)

/-- Items of a group, the closing bracket behind them. -/
inductive DerivesAll : Bool → Lexeme → List Derivation → List Element → Prop
  | nil {b : Bool} {r : Lexeme} : DerivesAll b r [] []
  | cons {b : Bool} {r : Lexeme} {d : Derivation} {ds : List Derivation} {e : Element}
      {es : List Element} (first : Derives b (nextOf ds r) d e)
      (others : DerivesAll b r ds es) : DerivesAll b r (d :: ds) (e :: es)

end

-- ============================================================================
-- Side conditions
-- ============================================================================

theorem nextOf_eq (ds : List Derivation) (r : Lexeme) (rest : List Lexeme) :
    nextOf ds r = (lexemesAll ds ++ r :: rest).head? := by
  unfold nextOf
  cases lexemesAll ds <;> rfl

theorem evenlyCapturing_iff {es : List Element} :
    evenlyCapturing es = true ↔ ∀ e ∈ es, ∀ e' ∈ es, e.captureCount = e'.captureCount := by
  cases es with
  | nil => simp [evenlyCapturing]
  | cons d es =>
    simp only [evenlyCapturing, List.all_eq_true, beq_iff_eq]
    constructor
    · intro even
      have first : ∀ e ∈ d :: es, e.captureCount = d.captureCount := by
        intro e he
        rcases List.mem_cons.mp he with rfl | he
        · rfl
        · exact even e he
      intro e he e' he'
      rw [first e he, first e' he']
    · intro equal e he
      exact equal e (List.mem_cons_of_mem d he) d List.mem_cons_self

theorem isSome_ofName?_iff {name : String} :
    (Builtin.ofName? name).isSome ↔ IsPredicateName name := by
  unfold Builtin.ofName? IsPredicateName
  dsimp only
  split
  next absent => simp [beq_iff_eq.mp absent]
  next other =>
    have other : name ≠ "nil?" := by simpa using other
    split
    next ending =>
      rw [Bool.and_eq_true, List.isSuffixOf_iff_suffix, decide_eq_true_eq] at ending
      obtain ⟨⟨front, split⟩, longer⟩ := ending
      refine iff_of_true rfl (.inr ⟨String.ofList front, ?_, ?_⟩)
      · intro empty
        have nothing : front = [] := by simpa using empty
        rw [← split, nothing] at longer
        exact Nat.lt_irrefl _ longer
      · rw [← String.toList_inj, String.toList_append, String.toList_ofList, ← split]
        rfl
    next noEnding =>
      refine iff_of_false (by simp) ?_
      rintro (absent | ⟨type, nonempty, rfl⟩)
      · exact other absent
      · refine noEnding ?_
        have parts : (type ++ "_type?").toList = type.toList ++ typeTestEnding := by
          rw [String.toList_append]
          rfl
        have positive : 0 < type.toList.length := by
          rw [List.length_pos_iff]
          intro nothing
          exact nonempty (String.toList_eq_nil_iff.mp nothing)
        rw [Bool.and_eq_true, List.isSuffixOf_iff_suffix, decide_eq_true_eq, parts,
          List.length_append]
        exact ⟨List.suffix_append _ _, by omega⟩

theorem captureCountAll_eq_zero {es : List Element} :
    Element.captureCountAll es = 0 ↔ ∀ e ∈ es, e.captureCount = 0 := by
  induction es with
  | nil => simp [Element.captureCountAll]
  | cons e es ih => simp [Element.captureCountAll, ih]

/-- Branches that capture evenly capture nothing if the first one does not. -/
theorem captureCountFirst_eq_zero {es : List Element}
    (even : ∀ e ∈ es, ∀ e' ∈ es, e.captureCount = e'.captureCount) :
    Element.captureCountFirst es = 0 ↔ ∀ e ∈ es, e.captureCount = 0 := by
  cases es with
  | nil => simp [Element.captureCountFirst]
  | cons d es =>
    rw [Element.captureCountFirst]
    constructor
    · intro first e he
      rw [even e he d List.mem_cons_self, first]
    · intro all
      exact all d List.mem_cons_self

mutual

/-- An element captures nothing just if no `$` stands in its text. -/
theorem Derives.captureCount_eq_zero {b : Bool} {next : Option Lexeme} {d : Derivation}
    {e : Element} (h : Derives b next d e) :
    e.captureCount = 0 ↔ ∀ m ∈ d.lexemes, m.kind ≠ .capture := by
  cases h with
  | capture kind inner => simp [Element.captureCount, lexemes, kind]
  | negation kind inner plain => simpa [Element.captureCount, lexemes, kind] using plain
  | sequence kind closing nonempty items =>
    rw [Element.captureCount, captureCountAll_eq_zero, items.captureCount_eq_zero]
    simp [lexemes, kind, closing, or_imp, forall_and]
  | intersection kind closing nonempty items =>
    rw [Element.captureCount, captureCountAll_eq_zero, items.captureCount_eq_zero]
    simp [lexemes, kind, closing, or_imp, forall_and]
  | union kind closing nonempty items even =>
    rw [Element.captureCount, captureCountFirst_eq_zero even, items.captureCount_eq_zero]
    simp [lexemes, kind, closing, or_imp, forall_and]
  | @callWith _ _ l o r name arguments values kind opening attached literals closing =>
    have none : ∀ m ∈ arguments, m.kind ≠ .capture := by
      intro m hm
      have mem : m.kind ∈ values.map LexemeKind.scalar := literals ▸ List.mem_map_of_mem hm
      obtain ⟨value, -, scalar⟩ := List.mem_map.mp mem
      rw [← scalar]
      exact LexemeKind.noConfusion
    simp [Element.captureCount, lexemes, kind, opening, closing, or_imp, forall_and]
    exact none
  | _ => simp_all [Element.captureCount, lexemes]

theorem DerivesAll.captureCount_eq_zero {b : Bool} {r : Lexeme} {ds : List Derivation}
    {es : List Element} (h : DerivesAll b r ds es) :
    (∀ e ∈ es, e.captureCount = 0) ↔ ∀ m ∈ lexemesAll ds, m.kind ≠ .capture := by
  cases h with
  | nil => simp [lexemesAll]
  | cons first others =>
    rw [List.forall_mem_cons, first.captureCount_eq_zero, others.captureCount_eq_zero,
      lexemesAll, List.forall_mem_append]

end

-- ============================================================================
-- Derivations and readings
-- ============================================================================

theorem ReadsArguments.exists_lexemes {ls rest : List Lexeme} {values : List Scalar}
    (h : ReadsArguments ls values rest) : ∃ arguments r, ls = arguments ++ r :: rest ∧
      arguments.map Lexeme.kind = values.map .scalar ∧ r.kind = .closing .round := by
  induction h with
  | @close l ls kind => exact ⟨[], l, rfl, rfl, kind⟩
  | @literal l ls rest value values kind more ih =>
    obtain ⟨arguments, r, rfl, literals, closing⟩ := ih
    refine ⟨l :: arguments, r, rfl, ?_, closing⟩
    rw [List.map_cons, List.map_cons, kind, literals]

theorem readsArguments_append {arguments rest : List Lexeme} {r : Lexeme} {values : List Scalar}
    (literals : arguments.map Lexeme.kind = values.map .scalar) (closing : r.kind = .closing .round) :
    ReadsArguments (arguments ++ r :: rest) values rest := by
  induction arguments generalizing values with
  | nil =>
    rw [List.map_nil, eq_comm, List.map_eq_nil_iff] at literals
    subst literals
    exact .close closing
  | cons l arguments ih =>
    cases values with
    | nil => cases literals
    | cons value values =>
      obtain ⟨kind, literals⟩ := List.cons.inj literals
      exact .literal kind (ih literals)

mutual

/-- What has a derivation is read off the front of the lexemes. -/
theorem Derives.reads {b : Bool} {d : Derivation} {e : Element} {rest : List Lexeme}
    (h : Derives b rest.head? d e) : Reads b (d.lexemes ++ rest) e rest := by
  cases h with
  | rest kind => exact .rest kind
  | capturedRest kind dotsKind => exact .capturedRest kind dotsKind
  | capture kind inner => exact .capture kind inner.reads
  | negation kind inner plain =>
    exact .negation kind inner.reads (inner.captureCount_eq_zero.mpr plain)
  | sequence kind closing nonempty items =>
    rw [lexemes, List.cons_append, List.append_assoc]
    exact .sequence kind (items.readsGroup closing rfl) (items.ne_nil nonempty)
  | union kind closing nonempty items even =>
    rw [lexemes, List.cons_append, List.append_assoc]
    exact .union kind (items.readsGroup closing rfl) (items.ne_nil nonempty)
      (evenlyCapturing_iff.mpr even)
  | intersection kind closing nonempty items =>
    rw [lexemes, List.cons_append, List.append_assoc]
    exact .intersection kind (items.readsGroup closing rfl) (items.ne_nil nonempty)
  | wildcard kind => exact .wildcard kind
  | unify kind => exact .unify kind
  | scalar kind => exact .scalar kind
  | nodeType kind => exact .nodeType kind
  | predicate kind known => exact .predicate kind (isSome_ofName?_iff.mpr known)
  | call kind detached => exact .call kind detached
  | callWith kind opening attached literals closing =>
    rw [lexemes, List.cons_append, List.cons_append, List.append_assoc]
    exact .callWith kind opening attached (readsArguments_append literals closing)

theorem DerivesAll.readsGroup {b : Bool} {bracket : Bracket} {r : Lexeme} {ds : List Derivation}
    {es : List Element} {rest : List Lexeme} (h : DerivesAll b r ds es)
    (closing : r.kind = .closing bracket) (flag : (bracket == .round) = b) :
    ReadsGroup bracket (lexemesAll ds ++ r :: rest) es rest := by
  cases h with
  | nil => exact .close closing
  | @cons _ _ d ds e es first others =>
    rw [lexemesAll, List.append_assoc]
    rw [nextOf_eq ds r rest, ← flag] at first
    exact .item first.reads (others.readsGroup closing flag)

theorem DerivesAll.ne_nil {b : Bool} {r : Lexeme} {ds : List Derivation} {es : List Element}
    (h : DerivesAll b r ds es) (nonempty : ds ≠ []) : es ≠ [] := by
  cases h with
  | nil => exact absurd rfl nonempty
  | cons first others => exact List.cons_ne_nil _ _

end

mutual

/-- What is read off the front of the lexemes has a derivation. -/
theorem Reads.exists_derivation {b : Bool} {ls rest : List Lexeme} {e : Element}
    (h : Reads b ls e rest) : ∃ d, Derives b rest.head? d e ∧ ls = d.lexemes ++ rest := by
  cases h with
  | wildcard kind => exact ⟨.single _, .wildcard kind, rfl⟩
  | unify kind => exact ⟨.single _, .unify kind, rfl⟩
  | scalar kind => exact ⟨.single _, .scalar kind, rfl⟩
  | nodeType kind => exact ⟨.single _, .nodeType kind, rfl⟩
  | predicate kind known =>
    exact ⟨.single _, .predicate kind (isSome_ofName?_iff.mp known), rfl⟩
  | rest kind => exact ⟨.single _, .rest kind, rfl⟩
  | capturedRest kind dotsKind => exact ⟨.capturedRest _ _, .capturedRest kind dotsKind, rfl⟩
  | capture kind inner =>
    obtain ⟨d, derived, rfl⟩ := inner.exists_derivation
    exact ⟨.capture _ d, .capture kind derived, rfl⟩
  | negation kind inner plain =>
    obtain ⟨d, derived, rfl⟩ := inner.exists_derivation
    exact ⟨.negation _ d, .negation kind derived (derived.captureCount_eq_zero.mp plain), rfl⟩
  | sequence kind inner nonempty =>
    obtain ⟨ds, r, closing, derived, full, rfl⟩ := inner.exists_derivations
    exact ⟨.group _ ds r, .sequence kind closing (full nonempty) derived, by simp [lexemes]⟩
  | intersection kind inner nonempty =>
    obtain ⟨ds, r, closing, derived, full, rfl⟩ := inner.exists_derivations
    exact ⟨.group _ ds r, .intersection kind closing (full nonempty) derived, by simp [lexemes]⟩
  | union kind inner nonempty even =>
    obtain ⟨ds, r, closing, derived, full, rfl⟩ := inner.exists_derivations
    exact ⟨.group _ ds r, .union kind closing (full nonempty) derived
      (evenlyCapturing_iff.mp even), by simp [lexemes]⟩
  | call kind detached => exact ⟨.call _, .call kind detached, rfl⟩
  | callWith kind opening attached inner =>
    obtain ⟨arguments, r, rfl, literals, closing⟩ := inner.exists_lexemes
    exact ⟨.callWith _ _ arguments r, .callWith kind opening attached literals closing,
      by simp [lexemes]⟩

theorem ReadsGroup.exists_derivations {bracket : Bracket} {ls rest : List Lexeme}
    {es : List Element} (h : ReadsGroup bracket ls es rest) :
    ∃ ds r, r.kind = .closing bracket ∧ DerivesAll (bracket == .round) r ds es ∧
      (es ≠ [] → ds ≠ []) ∧ ls = lexemesAll ds ++ r :: rest := by
  cases h with
  | @close _ l _ kind => exact ⟨[], l, kind, .nil, fun full => absurd rfl full, rfl⟩
  | item first others =>
    obtain ⟨ds, r, closing, derivedAll, -, rfl⟩ := others.exists_derivations
    obtain ⟨d, derived, rfl⟩ := first.exists_derivation
    rw [← nextOf_eq ds r rest] at derived
    refine ⟨d :: ds, r, closing, .cons derived derivedAll, fun _ => List.cons_ne_nil _ _, ?_⟩
    rw [lexemesAll, List.append_assoc]

end

/-- A text spells a pattern just if its lexemes have a derivation that describes
    it. -/
theorem reads_iff_derivation {b : Bool} {ls : List Lexeme} {e : Element} :
    Reads b ls e [] ↔ ∃ d, Derives b none d e ∧ d.lexemes = ls := by
  constructor
  · intro h
    obtain ⟨d, derived, same⟩ := h.exists_derivation
    exact ⟨d, derived, by rw [same, List.append_nil]⟩
  · rintro ⟨d, derived, rfl⟩
    have read : Reads b (d.lexemes ++ []) e [] := derived.reads
    rwa [List.append_nil] at read

-- ============================================================================
-- Uniqueness
-- ============================================================================

/-- From one list of lexemes one element is read off, up to one place. -/
theorem Reads.unique {b : Bool} {ls rest rest' : List Lexeme} {e e' : Element}
    (h : Reads b ls e rest) (h' : Reads b ls e' rest') : e = e' ∧ rest = rest' := by
  obtain ⟨shorter, eq⟩ := element_eq_ok_of_reads 0 h
  obtain ⟨shorter', eq'⟩ := element_eq_ok_of_reads 0 h'
  rw [eq] at eq'
  cases eq'
  exact ⟨rfl, rfl⟩

theorem group_lexemes_inj {l l' r r' : Lexeme} {ds ds' : List Derivation}
    (same : (Derivation.group l ds r).lexemes = (Derivation.group l' ds' r').lexemes) :
    l = l' ∧ lexemesAll ds = lexemesAll ds' ∧ r = r' := by
  obtain ⟨first, later⟩ := List.cons.inj same
  obtain ⟨items, last⟩ := List.append_inj' later rfl
  exact ⟨first, items, (List.cons.inj last).1⟩

mutual

/-- The lexemes and the element that they describe leave one derivation. -/
theorem Derives.eq_of_lexemes {b : Bool} {next next' : Option Lexeme} {d d' : Derivation}
    {e : Element} (h : Derives b next d e) (h' : Derives b next' d' e)
    (same : d.lexemes = d'.lexemes) : d = d' := by
  cases h with
  | rest | wildcard | unify | scalar | nodeType | predicate =>
    cases h'
    rw [(List.cons.inj same).1]
  | capturedRest =>
    cases h'
    obtain ⟨first, second⟩ := List.cons.inj same
    rw [first, (List.cons.inj second).1]
  | capture kind inner =>
    cases h' with
    | capture kind' inner' =>
      obtain ⟨first, later⟩ := List.cons.inj same
      have unique := inner.eq_of_lexemes inner' later
      rw [first, unique]
  | negation kind inner plain =>
    cases h' with
    | negation kind' inner' plain' =>
      obtain ⟨first, later⟩ := List.cons.inj same
      have unique := inner.eq_of_lexemes inner' later
      rw [first, unique]
  | sequence kind closing nonempty items =>
    cases h' with
    | sequence kind' closing' nonempty' items' =>
      obtain ⟨first, inside, last⟩ := group_lexemes_inj same
      have unique := items.eq_of_lexemes items' inside last
      rw [first, unique, last]
  | union kind closing nonempty items even =>
    cases h' with
    | union kind' closing' nonempty' items' even' =>
      obtain ⟨first, inside, last⟩ := group_lexemes_inj same
      have unique := items.eq_of_lexemes items' inside last
      rw [first, unique, last]
  | intersection kind closing nonempty items =>
    cases h' with
    | intersection kind' closing' nonempty' items' =>
      obtain ⟨first, inside, last⟩ := group_lexemes_inj same
      have unique := items.eq_of_lexemes items' inside last
      rw [first, unique, last]
  | call kind detached =>
    cases h' with
    | call kind' detached' => rw [(List.cons.inj same).1]
    | callWith kind' opening' attached' literals' closing' =>
      -- without arguments the lexemes end at the name
      cases (List.cons.inj same).2
  | callWith kind opening attached literals closing =>
    cases h' with
    | call kind' detached' => cases (List.cons.inj same).2
    | callWith kind' opening' attached' literals' closing' =>
      obtain ⟨first, later⟩ := List.cons.inj same
      obtain ⟨second, later⟩ := List.cons.inj later
      obtain ⟨arguments, last⟩ := List.append_inj' later rfl
      rw [first, second, arguments, (List.cons.inj last).1]

theorem DerivesAll.eq_of_lexemes {b : Bool} {r r' : Lexeme} {ds ds' : List Derivation}
    {es : List Element} (h : DerivesAll b r ds es) (h' : DerivesAll b r' ds' es)
    (same : lexemesAll ds = lexemesAll ds') (last : r = r') : ds = ds' := by
  cases h with
  | nil =>
    cases h'
    rfl
  | @cons _ _ d ds e es first others =>
    cases h' with
    | @cons _ _ d' ds' _ _ first' others' =>
      -- the first element is read up to one place, so the others begin there in both
      have read : Reads b (d.lexemes ++ (lexemesAll ds ++ [r])) e (lexemesAll ds ++ [r]) :=
        first.reads
      have read' : Reads b (d'.lexemes ++ (lexemesAll ds' ++ [r'])) e (lexemesAll ds' ++ [r']) :=
        first'.reads
      rw [lexemesAll, lexemesAll] at same
      rw [← List.append_assoc, same, List.append_assoc, last] at read
      obtain ⟨-, later⟩ := read.unique read'
      have laterLexemes := List.append_cancel_right later
      rw [laterLexemes] at same
      have unique := first.eq_of_lexemes first' (List.append_cancel_right same)
      have uniqueAll := others.eq_of_lexemes others' laterLexemes last
      rw [unique, uniqueAll]

end

/-- A list of lexemes has one derivation at most, and it describes one element. -/
theorem Derives.unique {b : Bool} {d d' : Derivation} {e e' : Element}
    (h : Derives b none d e) (h' : Derives b none d' e') (same : d.lexemes = d'.lexemes) :
    d = d' ∧ e = e' := by
  have read : Reads b (d.lexemes ++ []) e [] := h.reads
  have read' : Reads b (d'.lexemes ++ []) e' [] := h'.reads
  rw [same] at read
  obtain ⟨rfl, -⟩ := read.unique read'
  exact ⟨h.eq_of_lexemes h' same, rfl⟩

-- ============================================================================
-- Whole texts
-- ============================================================================

/-- The grammar accepts exactly the lexeme lists that have a derivation: the
    text then spells the element that the derivation describes, and there is no
    other derivation; every other text is refused as a pattern. -/
theorem parse_eq_ok_iff_derivation {pattern : String} {ls : List Lexeme}
    (tokenized : Lexeme.tokenize pattern = .ok ls) :
    (∀ e, parse pattern = .ok e ↔ ∃ d, Derives false none d e ∧ d.lexemes = ls) ∧
    (∀ d d' e e', Derives false none d e → Derives false none d' e' → d.lexemes = ls →
      d'.lexemes = ls → d = d' ∧ e = e') ∧
    ((¬ ∃ d e, Derives false none d e ∧ d.lexemes = ls) →
      ∃ reason position, parse pattern = .error (.pattern reason pattern position)) := by
  have accepts : ∀ e, parse pattern = .ok e ↔ ∃ d, Derives false none d e ∧ d.lexemes = ls := by
    intro e
    rw [parse_eq_ok_iff, tokenized, ← reads_iff_derivation]
    simp
  refine ⟨accepts, ?_, ?_⟩
  · intro d d' e e' h h' hls hls'
    exact h.unique h' (hls.trans hls'.symm)
  · intro none
    have refused : ∀ e, parse pattern ≠ .ok e := by
      intro e parsed
      obtain ⟨d, derived, same⟩ := (accepts e).mp parsed
      exact none ⟨d, e, derived, same⟩
    unfold parse at refused ⊢
    rw [tokenized] at refused ⊢
    cases read : ofLexemes pattern.length ls with
    | ok e =>
      simp only [read, bind, Except.bind] at refused
      exact absurd rfl (refused e)
    | error refusal =>
      obtain ⟨reason, position⟩ := refusal
      simp only [read, bind, Except.bind]
      exact ⟨reason, position, rfl⟩

/-- The derivation of a sequence with a captured rest, a call with an argument
    and a union that captures once on either branch. -/
def restCallUnion : Derivation :=
  .group ⟨.opening .round, "(", 0⟩
    [.single ⟨.nodeType "send", "send", 1⟩,
     .capturedRest ⟨.capture, "$", 6⟩ ⟨.rest, "...", 7⟩,
     .callWith ⟨.function "f", "#f", 11⟩ ⟨.opening .round, "(", 13⟩
      [⟨.scalar (.symbol "b"), ":b", 14⟩] ⟨.closing .round, ")", 16⟩,
     .group ⟨.opening .curly, "\x7b", 18⟩
      [.capture ⟨.capture, "$", 19⟩ (.single ⟨.wildcard, "_", 20⟩),
       .capture ⟨.capture, "$", 22⟩ (.single ⟨.predicate "nil?", "nil?", 23⟩)]
      ⟨.closing .curly, "\x7d", 27⟩]
    ⟨.closing .round, ")", 28⟩

theorem parse_eq_ok_restCallUnion :
    let text := "(send $... #f(:b) \x7b$_ $nil?\x7d)"
    let e := Element.sequence [.nodeType "send", .rest true, .call "f" [.symbol "b"],
      .union [.capture .wildcard, .capture (.predicate "nil?")]]
    Lexeme.tokenize text = .ok restCallUnion.lexemes ∧ Derives false none restCallUnion e ∧
      parse text = .ok e ∧
      ∀ d' e', Derives false none d' e' → d'.lexemes = restCallUnion.lexemes →
        d' = restCallUnion ∧ e' = e := by
  intro text e
  have tokenized : Lexeme.tokenize "(send $... #f(:b) \x7b$_ $nil?\x7d)" =
      .ok restCallUnion.lexemes := rfl
  have derived : Derives false none restCallUnion e := by
    refine .sequence rfl rfl (by simp) (.cons (.nodeType rfl) (.cons (.capturedRest rfl rfl)
      (.cons (.callWith rfl rfl rfl rfl rfl) (.cons (.union rfl rfl (by simp) ?_ ?_) .nil))))
    · exact .cons (.capture rfl (.wildcard rfl))
        (.cons (.capture rfl (.predicate rfl (.inl rfl))) .nil)
    · simp [Element.captureCount]
  obtain ⟨accepts, unique, -⟩ := parse_eq_ok_iff_derivation tokenized
  refine ⟨tokenized, derived, (accepts e).mpr ⟨_, derived, rfl⟩, fun d' e' h' same => ?_⟩
  exact unique d' _ e' e h' derived same rfl

end RubyPattern.Grammar
