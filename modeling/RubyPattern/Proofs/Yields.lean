/-
  RubyPattern.Proofs.Yields

  What the results of lowering satisfy. A step yields a condition if each of its
  results does, from whatever scopes it starts; steps that follow one another
  hand their conditions on, and the step that fails yields anything. The tree of
  a source is what its program yields.
-/
import RubyPattern.Ruby.Parser

namespace RubyPattern.Ruby

/-- Every result of a step of lowering satisfies a condition. -/
def Yields {α : Type} (step : Lowering α) (post : α → Prop) : Prop :=
  ∀ s a t, step s = .ok (a, t) → post a

namespace Yields

variable {α β : Type} {step : Lowering α} {next : α → Lowering β} {pre pre' : α → Prop}
  {post : β → Prop}

theorem pure {a : β} (h : post a) : Yields (Pure.pure a) post := by
  rintro s _ t ⟨⟩
  exact h

theorem throw (fault : Fault) : Yields (MonadExcept.throw fault) post := by
  rintro s a t ⟨⟩

theorem bind (first : Yields step pre) (then_ : ∀ a, pre a → Yields (next a) post) :
    Yields (step >>= next) post := by
  intro s b u h
  cases run : step s with
  | error fault => simp [Bind.bind, StateT.bind, Except.bind, run] at h
  | ok result =>
    obtain ⟨a, t⟩ := result
    simp only [Bind.bind, StateT.bind, Except.bind, run] at h
    exact then_ a (first s a t run) t b u h

/-- What the first step results in does not matter. -/
theorem after (then_ : ∀ a, Yields (next a) post) : Yields (step >>= next) post :=
  have first : Yields step fun _ => True := fun _ _ _ _ => trivial
  first.bind fun a _ => then_ a

theorem mono (h : Yields step pre) (weaker : ∀ a, pre a → pre' a) : Yields step pre' :=
  fun s a t run => weaker a (h s a t run)

theorem and (h : Yields step pre) (h' : Yields step pre') :
    Yields step fun a => pre a ∧ pre' a :=
  fun s a t run => ⟨h s a t run, h' s a t run⟩

theorem withScope {inherit : Bool} {inner : Lowering β} (h : Yields inner post) :
    Yields (withScope inherit inner) post :=
  after fun _ => h.bind fun _ ha => after fun _ => pure ha

end Yields

-- ============================================================================
-- Programs
-- ============================================================================

namespace Parser

/-- Trees come from source that the grammar reads. -/
theorem exists_grammar_of_parse {p : Parser} {source : String} {n : Node}
    (h : p.parse source = .ok n) : ∃ root, p.grammar source = some root := by
  unfold parse at h
  split at h
  next => cases h
  next root grammar => exact ⟨root, grammar⟩

/-- The tree of a source is its program lowered. -/
theorem lowerProgram_of_parse {p : Parser} {source : String} {root : Cst} {n : Node}
    (grammar : p.grammar source = some root) (parsed : p.parse source = .ok n) :
    ∃ t, p.lowerProgram source root Scopes.initial = .ok (some n, t) := by
  unfold parse at parsed
  rw [grammar] at parsed
  dsimp only at parsed
  split at parsed
  next => cases parsed
  next =>
    split at parsed
    next => cases parsed
    next => cases parsed
    next t run =>
      cases parsed
      exact ⟨t, run⟩

end Parser

end RubyPattern.Ruby
