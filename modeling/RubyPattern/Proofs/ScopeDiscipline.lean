/-
  RubyPattern.Proofs.ScopeDiscipline

  What lowering does to the scopes. It leaves as many as it found, changes none
  below the one at hand and only adds names to that. Parameters and bodies of
  blocks, lambdas and definitions add nothing around them, and a method
  definition depends on none of the scopes around it.
-/
import RubyPattern.Proofs.Descent

namespace RubyPattern.Ruby

/-- The kinds of constructs that may have parameters or a body in a scope of
    their own. -/
def Kind.opensScope : Kind → Bool
  | .call => true
  | .lambda => true
  | .method => true
  | .singletonMethod => true
  | .classDefinition => true
  | .moduleDefinition => true
  | .singletonClass => true
  | _ => false

namespace Context

/-- Lowers of such a construct just the parts outside that scope: the call in
    front of a block, the object of a method, the name of a class or module, the
    class that another one inherits from, and the object whose class is
    opened. -/
def outside (w : Context) (c : Cst) : Lowering Unit :=
  match c.kind with
  | .call => do
    let _ ← w.send c
    return ()
  | .singletonMethod => do
    let _ ← w.lowerRole c "object"
    return ()
  | .classDefinition => do
    let _ ← w.lowerRole c "name"
    let _ ← w.superclass (c.part? "superclass")
    return ()
  | .moduleDefinition => do
    let _ ← w.lowerRole c "name"
    return ()
  | .singletonClass => do
    let _ ← w.lowerRole c "value"
    return ()
  | _ => pure ()

end Context

/-- A step does not change the scopes. -/
def Lowering.Idle {α : Type} (step : Lowering α) : Prop :=
  ∀ {s t a}, step s = .ok (a, t) → t = s

section

variable {α β : Type} {step : Lowering α} {next : α → Lowering β} {s u : Scopes} {b : β}

theorem Steady.idle (h : Steady step) : step.Idle := by
  intro s t a run
  obtain ⟨outcome, hrun⟩ := h
  rw [hrun] at run
  cases outcome <;> cases run
  rfl

/-- A sequence of two steps succeeds where both do. -/
theorem bind_eq_ok_iff :
    (step >>= next) s = .ok (b, u) ↔ ∃ a t, step s = .ok (a, t) ∧ next a t = .ok (b, u) := by
  rw [bind_run]
  cases step s with
  | error fault => simp [bind, Except.bind]
  | ok result =>
    obtain ⟨a, t⟩ := result
    constructor
    · exact fun run => ⟨a, t, rfl, run⟩
    · rintro ⟨_, _, ⟨⟩, run⟩
      exact run

/-- If what comes second does not change the scopes, they are those behind the
    first step. -/
theorem ok_of_bind_idle (idle : ∀ a, (next a).Idle) (run : (step >>= next) s = .ok (b, u)) :
    ∃ a, step s = .ok (a, u) := by
  obtain ⟨a, t, first, rest⟩ := bind_eq_ok_iff.mp run
  cases idle a rest
  exact ⟨a, first⟩

end

/-- A result comes from the way in which the kind of the construct is lowered. -/
theorem exists_handler_of_lower {o : Origin} {limit : Int} {room : Nat} {c : Cst} {s t : Scopes}
    {n : Node} (run : lower o limit room c s = .ok (n, t)) :
    ∃ handler, Context.handler? c.kind = some handler ∧
      handler ⟨o, lower o limit (room - 1)⟩ c s = .ok (n, t) := by
  unfold lower at run
  split at run
  next => cases run
  next =>
    cases found : Context.handler? c.kind with
    | none =>
      rw [found] at run
      cases run
    | some handler =>
      rw [found] at run
      cases room with
      | zero => cases run
      | succ room => exact ⟨handler, rfl, run⟩

namespace Comparison

variable (v : Comparison) (c : Cst)

-- ============================================================================
-- Definitions by themselves
-- ============================================================================

theorem steady_body (otherRoles : List String) :
    Steady (withScope false (v.plain.bodyOf c otherRoles)) :=
  (v.bodyOf c otherRoles).steady_withScope

theorem steady_methodParts (otherRoles : List String) :
    Steady (v.plain.methodParts c otherRoles) :=
  Follows.steady_withScope ((v.parameters _).bind fun _ => (v.bodyOf _ _).before fun _ => .pure _)

theorem steady_method : Steady (v.plain.method c) :=
  (Steady.textOfRole _ _ _).bind fun _ => (v.steady_methodParts _ _).bind fun _ =>
    .located _ _ _ _

-- ============================================================================
-- Constructs with a scope of their own
-- ============================================================================

variable {c} {s t : Scopes} {n : Node}

theorem ok_of_call (run : v.plain.call c s = .ok (n, t)) :
    ∃ send, v.plain.send c s = .ok (send, t) := by
  refine ok_of_bind_idle (fun send => ?_) run
  cases c.part? "block" with
  | none => exact (Steady.pure send).idle
  | some block => exact (v.withBlock c send block).leaves_scope

theorem ok_of_singletonMethod (run : v.plain.singletonMethod c s = .ok (n, t)) :
    ∃ object, v.plain.lowerRole c "object" s = .ok (object, t) := by
  refine ok_of_bind_idle (fun object => Steady.idle ?_) run
  exact (Steady.textOfRole _ _ _).bind fun _ => (v.steady_methodParts _ _).bind fun _ =>
    .located _ _ _ _

theorem ok_of_classDefinition (run : v.plain.classDefinition c s = .ok (n, t)) :
    ∃ name s' superclass, v.plain.lowerRole c "name" s = .ok (name, s') ∧
      v.plain.superclass (c.part? "superclass") s' = .ok (superclass, t) := by
  obtain ⟨name, s', named, rest⟩ := bind_eq_ok_iff.mp run
  obtain ⟨superclass, inherited⟩ := ok_of_bind_idle
    (fun superclass => ((v.steady_body _ _).bind fun _ => .located _ _ _ _).idle) rest
  exact ⟨name, s', superclass, named, inherited⟩

theorem ok_of_moduleDefinition (run : v.plain.moduleDefinition c s = .ok (n, t)) :
    ∃ name, v.plain.lowerRole c "name" s = .ok (name, t) :=
  ok_of_bind_idle (fun _ => ((v.steady_body _ _).bind fun _ => .located _ _ _ _).idle) run

theorem ok_of_singletonClass (run : v.plain.singletonClass c s = .ok (n, t)) :
    ∃ value, v.plain.lowerRole c "value" s = .ok (value, t) :=
  ok_of_bind_idle (fun _ => ((v.steady_body _ _).bind fun _ => .located _ _ _ _).idle) run

/-- What such a construct leaves is what the parts outside its scope leave. -/
theorem outside_of_handler {handler : Context → Cst → Lowering Node}
    (opens : c.kind.opensScope = true) (found : Context.handler? c.kind = some handler)
    (run : handler v.plain c s = .ok (n, t)) : v.plain.outside c s = .ok ((), t) := by
  unfold Context.outside
  generalize c.kind = kind at opens found
  unfold Kind.opensScope at opens
  split at opens
  · cases found
    obtain ⟨send, run⟩ := v.ok_of_call run
    exact bind_eq_ok_iff.mpr ⟨send, t, run, rfl⟩
  · cases found
    cases (v.lambda c).leaves_scope run
    rfl
  · cases found
    cases (v.method c).leaves_scope run
    rfl
  · cases found
    obtain ⟨object, run⟩ := v.ok_of_singletonMethod run
    exact bind_eq_ok_iff.mpr ⟨object, t, run, rfl⟩
  · cases found
    obtain ⟨name, s', superclass, named, inherited⟩ := v.ok_of_classDefinition run
    exact bind_eq_ok_iff.mpr ⟨name, s', named,
      bind_eq_ok_iff.mpr ⟨superclass, t, inherited, rfl⟩⟩
  · cases found
    obtain ⟨name, run⟩ := v.ok_of_moduleDefinition run
    exact bind_eq_ok_iff.mpr ⟨name, t, run, rfl⟩
  · cases found
    obtain ⟨value, run⟩ := v.ok_of_singletonClass run
    exact bind_eq_ok_iff.mpr ⟨value, t, run, rfl⟩
  · cases opens

end Comparison

-- ============================================================================
-- The descent
-- ============================================================================

/-- The discipline of scopes, for every construct, budget and state. A success
    leaves all scopes but the one at hand as they are and takes no name from
    that. Where the construct opens a scope of its own, the scopes are then what
    the parts outside of it leave. A method definition has the same result
    whatever the scopes are, and leaves them. -/
theorem lower_scopes (o : Origin) (limit : Int) (room : Nat) (c : Cst) (s : Scopes) :
    (∀ n t, lower o limit room c s = .ok (n, t) →
      t.depth = s.depth ∧ t.enclosing = s.enclosing ∧ s.current ⊆ t.current) ∧
    (∀ n t, c.kind.opensScope = true → lower o limit room c s = .ok (n, t) →
      (⟨o, lower o limit (room - 1)⟩ : Context).outside c s = .ok ((), t)) ∧
    (c.kind = .method →
      (∀ s', (lower o limit room c s).map Prod.fst = (lower o limit room c s').map Prod.fst) ∧
      ∀ n t, lower o limit room c s = .ok (n, t) → t = s) := by
  refine ⟨?_, ?_, ?_⟩
  · intro n t run
    have left := (follows_lower (fun _ _ => false) o limit room c).leaves run
    rw [left]
    exact ⟨rfl, rfl, Mention.subset_extendAll _ _⟩
  · intro n t opens run
    obtain ⟨handler, found, run⟩ := exists_handler_of_lower run
    exact (descent (fun _ _ => false) o limit (room - 1)).outside_of_handler opens found run
  · intro kind
    have steady : Steady (lower o limit room c) := by
      unfold lower
      rw [kind]
      split
      next => exact .throw _
      next =>
        cases room with
        | zero => exact .throw _
        | succ room => exact (descent (fun _ _ => false) o limit room).steady_method c
    obtain ⟨outcome, run⟩ := steady
    constructor
    · intro s'
      rw [run, run]
      cases outcome <;> rfl
    · intro n t success
      exact Steady.idle ⟨outcome, run⟩ success

/-- The source of a method `f` with a parameter `a` and the body `b = a`. -/
def assigningMethod : Cst :=
  .mk ⟨.method, 0, 20, none, true, false, false⟩
    [.mk ⟨.identifier, 4, 5, some "name", true, false, false⟩ [],
     .mk ⟨.other "method_parameters", 5, 8, some "parameters", true, false, false⟩
      [.mk ⟨.identifier, 6, 7, none, true, false, false⟩ []],
     .mk ⟨.bodyStatement, 11, 16, some "body", true, false, false⟩
      [.mk ⟨.assignment, 11, 16, none, true, false, false⟩
        [.mk ⟨.identifier, 11, 12, some "left", true, false, false⟩ [],
         .mk ⟨.identifier, 15, 16, some "right", true, false, false⟩ []]]]

theorem lower_scopes_assigningMethod :
    let o := (Parser.ofGrammar fun _ => none).origin "def f(a)\n  b = a\nend"
    let s : Scopes := ⟨["x"], [["y"]]⟩
    assigningMethod.kind = .method ∧
      (∃ n, lower o 200 3 assigningMethod s = .ok (n, s)) ∧
      (lower o 200 3 assigningMethod s).map Prod.fst =
        (lower o 200 3 assigningMethod Scopes.initial).map Prod.fst := by
  intro o s
  obtain ⟨-, -, method⟩ := lower_scopes o 200 3 assigningMethod s
  obtain ⟨independent, leaves⟩ := method rfl
  have succeeds : (lower o 200 3 assigningMethod s).toBool = true := by decide +kernel
  have run : ∃ n t, lower o 200 3 assigningMethod s = .ok (n, t) := by
    cases run : lower o 200 3 assigningMethod s with
    | error fault =>
      rw [run] at succeeds
      cases succeeds
    | ok result => exact ⟨result.1, result.2, rfl⟩
  obtain ⟨n, t, run⟩ := run
  cases leaves n t run
  exact ⟨rfl, ⟨n, run⟩, independent Scopes.initial⟩

end RubyPattern.Ruby
