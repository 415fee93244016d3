/-
  RubyPattern.Proofs.Following

  Lowering follows the mentions of a construct. Whatever it is run on, it leaves
  the scopes around the one at hand as they are and adds the names that the
  construct binds; its result depends on the names of the scope at hand alone;
  and a rule that knows for every name that is read whether it is known there
  can stand in for the scopes. Each function of lowering does so if the lowering
  of parts does, so the descent does.
-/
import RubyPattern.Proofs.Mentions

namespace RubyPattern.Ruby

namespace Mention

mutual

/-- A rule tells the names that are known from those that are not, wherever a
    mention reads one. -/
def Told (rule : String → Nat → Bool) (known : List String) : Mention → Prop
  | .binds _ _ => True
  | .reads name start => rule name start = known.contains name
  | .scope inherits inner => ToldAll rule (if inherits then known else []) inner

/-- A rule tells them in all mentions, each after the ones in front of it. -/
def ToldAll (rule : String → Nat → Bool) (known : List String) : List Mention → Prop
  | [] => True
  | m :: ms => Told rule known m ∧ ToldAll rule (m.extend known) ms

end

theorem toldAll_append {rule : String → Nat → Bool} {known : List String}
    {ms ms' : List Mention} :
    ToldAll rule known (ms ++ ms') ↔
      ToldAll rule known ms ∧ ToldAll rule (extendAll known ms) ms' := by
  induction ms generalizing known with
  | nil => simp [ToldAll]
  | cons m ms ih => simp [ToldAll, ih, and_assoc]

end Mention

-- ============================================================================
-- Steps
-- ============================================================================

/-- A step that succeeds or fails whatever the scopes are, and leaves them. -/
def Steady {α : Type} (step : Lowering α) : Prop :=
  ∃ outcome : Except Fault α, ∀ s, step s = outcome.map (·, s)

/-- What the first step gives is handed to the second one. -/
theorem bind_run {α β : Type} (step : Lowering α) (next : α → Lowering β) (s : Scopes) :
    (step >>= next) s = step s >>= fun result => next result.1 result.2 := rfl

/-- A scope is entered, and left for the one around it. -/
theorem withScope_run {α : Type} (inherit : Bool) (step : Lowering α) (s : Scopes) :
    withScope inherit step s =
      (step (s.enter inherit)).map fun result => (result.1, result.2.leave) := by
  show (step (s.enter inherit) >>= fun result => _) = _
  cases step (s.enter inherit) <;> rfl

theorem declare_eq (s : Scopes) (name : String) (start : Nat) :
    s.declare name = ⟨(Mention.binds name start).extend s.current, s.enclosing⟩ := by
  unfold Scopes.declare Mention.extend
  by_cases known : s.isLocal name = true
  · have here : s.current.contains name = true := known
    simp only [if_pos known, if_pos here]
  · have absent : ¬ s.current.contains name = true := known
    simp only [if_neg known, if_neg absent]

namespace Steady

variable {α β : Type} {step : Lowering α} {next : α → Lowering β}

theorem pure (a : α) : Steady (Pure.pure a) :=
  ⟨.ok a, fun _ => rfl⟩

theorem throw (fault : Fault) : Steady (MonadExcept.throw fault : Lowering α) :=
  ⟨.error fault, fun _ => rfl⟩

theorem lift (outcome : Except Fault α) : Steady (liftM outcome) := by
  refine ⟨outcome, fun s => ?_⟩
  cases outcome <;> rfl

theorem bind (first : Steady step) (then_ : ∀ a, Steady (next a)) : Steady (step >>= next) := by
  obtain ⟨outcome, run⟩ := first
  cases outcome with
  | error fault => exact ⟨.error fault, fun s => by rw [bind_run, run]; rfl⟩
  | ok a =>
    obtain ⟨outcome, runNext⟩ := then_ a
    exact ⟨outcome, fun s => by rw [bind_run, run]; exact runNext s⟩

theorem textBetween (o : Origin) (start stop : Nat) : Steady (o.textBetween start stop) := by
  unfold Origin.textBetween
  split
  next => exact .pure _
  next => exact .throw _

theorem text (o : Origin) (c : Cst) : Steady (o.text c) :=
  textBetween o _ _

theorem span (o : Origin) (first last : Cst) : Steady (o.span first last) :=
  (textBetween o _ _).bind fun _ => .pure _

theorem located (o : Origin) (c : Cst) (type : String) (children : List Value) :
    Steady (o.located c type children) :=
  (span o c c).bind fun _ => .pure _

theorem requirePart (part : Option Cst) : Steady (Context.requirePart part) := by
  cases part with
  | none => exact .throw _
  | some c => exact .pure c

theorem textOfRole (w : Context) (c : Cst) (role : String) : Steady (w.textOfRole c role) :=
  (requirePart _).bind fun _ => text _ _

theorem operatorText (w : Context) (c : Cst) : Steady (w.operatorText c) := by
  unfold Context.operatorText
  split
  next => exact text _ _
  next =>
    split
    next => exact text _ _
    next => exact .throw _

theorem callOperator (w : Context) (c : Cst) : Steady (w.callOperator c) := by
  unfold Context.callOperator
  split
  next => exact text _ _
  next => exact .pure _

theorem keyName (key : Node) : Steady (Context.keyName key) := by
  unfold Context.keyName
  split
  next => exact .throw _
  next v _ _ => exact lift v.display

theorem symbolNode (w : Context) (type : String) (dropped : Nat) (c : Cst) :
    Steady (w.symbolNode type dropped c) :=
  (text _ _).bind fun _ => located _ _ _ _

end Steady

/-- A step follows some mentions, side by side with one that resolves names by a
    rule. -/
structure Follows {α : Type} (rule : String → Nat → Bool) (step ruled : Lowering α)
    (ms : List Mention) : Prop where
  leaves : ∀ {s a t}, step s = .ok (a, t) →
    t = ⟨Mention.extendAll s.current ms, s.enclosing⟩
  framed : ∀ {s s' : Scopes}, s.current = s'.current →
    (step s).map Prod.fst = (step s').map Prod.fst
  ruled : ∀ {s}, Mention.ToldAll rule s.current ms → step s = ruled s

namespace Follows

variable {α β : Type} {rule : String → Nat → Bool} {step ruled : Lowering α}
  {next ruledNext : α → Lowering β} {ms ms' : List Mention}

theorem steady (h : Steady step) : Follows rule step step [] := by
  obtain ⟨outcome, run⟩ := h
  constructor
  · intro s a t h
    rw [run] at h
    cases outcome <;> cases h
    rfl
  · intro s s' _
    rw [run, run]
    cases outcome <;> rfl
  · intro _ _
    rfl

/-- A step that fails follows anything. -/
theorem fails {fault : Fault} (h : ∀ s, step s = .error fault) (h' : ∀ s, ruled s = .error fault) :
    Follows rule step ruled ms := by
  constructor
  · intro s a t run
    rw [h] at run
    cases run
  · intro s s' _
    rw [h, h]
  · intro s _
    rw [h, h']

theorem bind (first : Follows rule step ruled ms)
    (then_ : ∀ a, Follows rule (next a) (ruledNext a) ms') :
    Follows rule (step >>= next) (ruled >>= ruledNext) (ms ++ ms') := by
  constructor
  · intro s b u h
    rw [bind_run] at h
    cases run : step s with
    | error fault =>
      rw [run] at h
      cases h
    | ok result =>
      obtain ⟨a, t⟩ := result
      rw [run] at h
      have left := (then_ a).leaves h
      rw [first.leaves run] at left
      rw [left, Mention.extendAll_append]
  · intro s s' same
    have sameFirst := first.framed same
    rw [bind_run, bind_run]
    cases run : step s with
    | error fault =>
      cases run' : step s' with
      | error fault' =>
        rw [run, run'] at sameFirst
        cases sameFirst
        rfl
      | ok result =>
        rw [run, run'] at sameFirst
        cases sameFirst
    | ok result =>
      cases run' : step s' with
      | error fault' =>
        rw [run, run'] at sameFirst
        cases sameFirst
      | ok result' =>
        obtain ⟨a, t⟩ := result
        obtain ⟨a', t'⟩ := result'
        rw [run, run'] at sameFirst
        cases sameFirst
        refine (then_ a).framed ?_
        rw [first.leaves run, first.leaves run', same]
  · intro s told
    rw [Mention.toldAll_append] at told
    rw [bind_run, bind_run, ← first.ruled told.1]
    cases run : step s with
    | error fault => rfl
    | ok result =>
      obtain ⟨a, t⟩ := result
      refine (then_ a).ruled ?_
      rw [first.leaves run]
      exact told.2

/-- A step without mentions comes first. -/
theorem after {first : Lowering α} (h : Steady first)
    (then_ : ∀ a, Follows rule (next a) (ruledNext a) ms) :
    Follows rule (first >>= next) (first >>= ruledNext) ms :=
  (Follows.steady h).bind then_

theorem afterPure {a : α} (h : Follows rule (next a) (ruledNext a) ms) :
    Follows rule (Pure.pure a >>= next) (Pure.pure a >>= ruledNext) ms :=
  h

/-- A step without mentions comes last. -/
theorem before (first : Follows rule step ruled ms) (h : ∀ a, Steady (next a)) :
    Follows rule (step >>= next) (ruled >>= next) ms := by
  have both : Follows rule (step >>= next) (ruled >>= next) (ms ++ []) :=
    first.bind fun a => .steady (h a)
  rwa [List.append_nil] at both

/-- A name is read from the source and bound. -/
theorem binding {o : Origin} {c : Cst} {next ruledNext : String → Lowering β}
    (then_ : ∀ name, Follows rule (next name) (ruledNext name) ms) :
    Follows rule (o.text c >>= fun name => declare name >>= fun _ => next name)
      (o.text c >>= fun name => declare name >>= fun _ => ruledNext name)
      (Mentions.ofBinding o c ++ ms) := by
  unfold Mentions.ofBinding Origin.nameOf Origin.text Origin.textBetween
  cases slice? o.chars c.head.start c.head.stop with
  | none => exact .fails (fun _ => rfl) fun _ => rfl
  | some cs =>
    have declares : Follows rule (declare (String.ofList cs)) (declare (String.ofList cs))
        [.binds (String.ofList cs) c.head.start] := by
      constructor
      · rintro s _ _ ⟨⟩
        exact declare_eq s _ c.head.start
      · intro s s' _
        rfl
      · intro _ _
        rfl
    exact declares.bind fun _ => then_ _

/-- A name is looked up, in the scope at hand or by the rule. -/
theorem lookup {name : String} {start : Nat} {known unknown : Lowering α}
    (hknown : Steady known) (hunknown : Steady unknown) :
    Follows rule (isLocal name >>= fun here => if here = true then known else unknown)
      (if rule name start = true then known else unknown) [.reads name start] := by
  have run (s : Scopes) : (isLocal name >>= fun here => if here = true then known else unknown) s =
      (if s.isLocal name = true then known else unknown) s := rfl
  have either (here : Bool) : Steady (if here = true then known else unknown) := by
    cases here with
    | true => exact hknown
    | false => exact hunknown
  constructor
  · intro s a t h
    rw [run] at h
    have quiet : Follows rule _ _ [] := .steady (either (s.isLocal name))
    exact quiet.leaves h
  · intro s s' same
    have sameLookup : s.isLocal name = s'.isLocal name := by simp [Scopes.isLocal, same]
    have quiet : Follows rule _ _ [] := .steady (either (s'.isLocal name))
    rw [run, run, sameLookup]
    exact quiet.framed same
  · intro s told
    have sameLookup : rule name start = s.isLocal name := told.1
    rw [run, sameLookup]

/-- The result inside a scope is the result of the scope. -/
theorem withScope_framed {inherit : Bool} (inner : Follows rule step ruled ms) {s s' : Scopes}
    (same : (s.enter inherit).current = (s'.enter inherit).current) :
    (Ruby.withScope inherit step s).map Prod.fst =
      (Ruby.withScope inherit step s').map Prod.fst := by
  have result (s : Scopes) : (Ruby.withScope inherit step s).map Prod.fst =
      (step (s.enter inherit)).map Prod.fst := by
    rw [withScope_run]
    cases step (s.enter inherit) <;> rfl
  rw [result, result, inner.framed same]

/-- What a scope binds is gone behind it. -/
theorem withScope {inherit : Bool} (inner : Follows rule step ruled ms) :
    Follows rule (withScope inherit step) (withScope inherit ruled) [.scope inherit ms] := by
  constructor
  · intro s a t h
    rw [withScope_run] at h
    cases run : step (s.enter inherit) with
    | error fault =>
      rw [run] at h
      cases h
    | ok result =>
      obtain ⟨a, u⟩ := result
      rw [run] at h
      cases h
      rw [inner.leaves run]
      rfl
  · intro s s' same
    exact inner.withScope_framed (by simp [Scopes.enter, same])
  · intro s told
    rw [withScope_run, withScope_run, inner.ruled (s := s.enter inherit) told.1]

/-- Behind a scope everything is as in front of it. -/
theorem leaves_scope {inherit : Bool} (h : Follows rule step ruled [.scope inherit ms])
    {s t : Scopes} {a : α} (run : step s = .ok (a, t)) : t = s :=
  h.leaves run

/-- A scope that inherits nothing does not depend on the scopes around it. -/
theorem steady_withScope (inner : Follows rule step ruled ms) :
    Steady (Ruby.withScope false step) := by
  refine ⟨(Ruby.withScope false step Scopes.initial).map Prod.fst, fun s => ?_⟩
  have same : (Ruby.withScope false step s).map Prod.fst =
      (Ruby.withScope false step Scopes.initial).map Prod.fst := inner.withScope_framed rfl
  rw [← same]
  cases run : Ruby.withScope false step s with
  | error fault => rfl
  | ok result =>
    obtain ⟨a, t⟩ := result
    rw [inner.withScope.leaves_scope run]
    rfl

end Follows

-- ============================================================================
-- Parts and statements
-- ============================================================================

/-- Two ways to lower the parts of a construct, one of which resolves names by a
    rule, and what the parts mention. -/
structure Comparison where
  rule : String → Nat → Bool
  origin : Origin
  lower : Cst → Lowering Node
  lowerRuled : Cst → Lowering Node
  inside : Cst → List Mention
  follows : ∀ c, Follows rule (lower c) (lowerRuled c) (inside c)

namespace Comparison

open Mentions

/-- Lowering as it is. -/
abbrev plain (v : Comparison) : Context :=
  ⟨v.origin, v.lower⟩

/-- Lowering by the rule. -/
abbrev ruled (v : Comparison) : Context :=
  ⟨v.origin, v.lowerRuled⟩

variable (v : Comparison)

theorem lowerPart (part : Option Cst) :
    Follows v.rule (Context.requirePart part >>= v.plain.lower)
      (Context.requirePart part >>= v.ruled.lower) (ofPart v.inside part) := by
  cases part with
  | none => exact .fails (fun _ => rfl) fun _ => rfl
  | some c => exact v.follows c

theorem lowerRole (c : Cst) (role : String) :
    Follows v.rule (v.plain.lowerRole c role) (v.ruled.lowerRole c role)
      (ofPart v.inside (c.part? role)) :=
  v.lowerPart _

theorem lowerOptional (part : Option Cst) :
    Follows v.rule (v.plain.lowerOptional part) (v.ruled.lowerOptional part)
      (ofPart v.inside part) := by
  cases part with
  | none => exact .steady (.pure none)
  | some c => exact (v.follows c).before fun _ => .pure _

theorem lowerAll (cs : List Cst) :
    Follows v.rule (v.plain.lowerAll cs) (v.ruled.lowerAll cs) (ofAll v.inside cs) := by
  induction cs with
  | nil => exact .steady (.pure [])
  | cons c cs ih => exact (v.follows c).bind fun _ => ih.before fun _ => .pure _

theorem compound (statements : List Cst) :
    Follows v.rule (v.plain.compound statements) (v.ruled.compound statements)
      (ofAll v.inside statements) := by
  refine (v.lowerAll statements).before fun ns => ?_
  split
  next => exact .pure none
  next => exact .pure _
  next =>
    split
    next => exact (Steady.span _ _ _).bind fun _ => .pure _
    next => exact .pure none

theorem clause (part : Option Cst) :
    Follows v.rule (v.plain.clause part) (v.ruled.clause part) (ofClause v.inside part) := by
  cases part with
  | none => exact .steady (.pure none)
  | some c =>
    unfold Context.clause ofClause
    dsimp only
    split
    next => exact v.compound _
    next => exact (v.follows c).before fun _ => .pure _

theorem bodyOf (c : Cst) (otherRoles : List String) :
    Follows v.rule (v.plain.bodyOf c otherRoles) (v.ruled.bodyOf c otherRoles)
      (ofBody v.inside c otherRoles) := by
  unfold Context.bodyOf ofBody
  cases c.part? "body" with
  | some body => exact v.clause (some body)
  | none => exact v.compound _

-- ============================================================================
-- Literals and variables
-- ============================================================================

theorem collection (type : String) (c : Cst) :
    Follows v.rule (v.plain.collection type c) (v.ruled.collection type c)
      (ofAll v.inside c.plainChildren) :=
  (v.lowerAll _).before fun _ => .located _ _ _ _

theorem statementGroup (type : String) (c : Cst) :
    Follows v.rule (v.plain.statementGroup type c) (v.ruled.statementGroup type c)
      (ofAll v.inside c.statements) :=
  (v.lowerAll _).before fun _ => .located _ _ _ _

theorem integer (c : Cst) : Follows v.rule (v.plain.integer c) (v.ruled.integer c) [] :=
  .steady ((Steady.text _ _).bind fun _ => (Steady.lift _).bind fun _ => .located _ _ _ _)

theorem float (c : Cst) : Follows v.rule (v.plain.float c) (v.ruled.float c) [] := by
  refine .after (.text _ _) fun s => ?_
  cases Number.float? (String.ofList (s.toList.filter (· != '_'))) with
  | some x => exact .steady (.located _ _ _ _)
  | none => exact .steady (.throw _)

theorem character (c : Cst) : Follows v.rule (v.plain.character c) (v.ruled.character c) [] :=
  .steady ((Steady.text _ _).bind fun _ => (Steady.lift _).bind fun _ => .located _ _ _ _)

theorem constant (c : Cst) : Follows v.rule (v.plain.constant c) (v.ruled.constant c) [] :=
  .steady ((Steady.text _ _).bind fun _ => .located _ _ _ _)

theorem piece (c : Cst) :
    Follows v.rule (v.plain.piece c) (v.ruled.piece c) (ofPiece v.inside c) := by
  unfold Context.piece ofPiece
  split
  next kind =>
    rw [kind]
    exact .steady ((Steady.text _ _).bind fun _ => .pure _)
  next kind =>
    rw [kind]
    exact .steady ((Steady.text _ _).bind fun _ => (Steady.lift _).bind fun _ => .pure _)
  next kind =>
    rw [kind]
    exact (v.lowerAll _).before fun _ => (Steady.located _ _ _ _).bind fun _ => .pure _
  next => exact .fails (fun _ => rfl) fun _ => rfl

theorem pieces (cs : List Cst) :
    Follows v.rule (v.plain.pieces cs) (v.ruled.pieces cs) (cs.flatMap (ofPiece v.inside)) := by
  induction cs with
  | nil => exact .steady (.pure [])
  | cons c cs ih => exact (v.piece c).bind fun _ => ih.before fun _ => .pure _

theorem stringPieces (c : Cst) :
    Follows v.rule (v.plain.stringPieces c) (v.ruled.stringPieces c)
      (c.plainChildren.flatMap (ofPiece v.inside)) :=
  (v.pieces _).before fun _ => .pure _

theorem stringNode (plain dynamic : String) (wrap : String → Value) (c : Cst) :
    Follows v.rule (v.plain.stringNode plain dynamic wrap c)
      (v.ruled.stringNode plain dynamic wrap c)
      (c.plainChildren.flatMap (ofPiece v.inside)) := by
  refine (v.stringPieces c).before fun ps => ?_
  split
  next => exact .located _ _ _ _
  next => exact .located _ _ _ _
  next => exact .located _ _ _ _

theorem regex (c : Cst) :
    Follows v.rule (v.plain.regex c) (v.ruled.regex c)
      (c.plainChildren.flatMap (ofPiece v.inside)) :=
  (v.stringPieces c).before fun _ => (Steady.text _ _).bind fun _ => .located _ _ _ _

/-- The name of a shorthand pair is looked up in the scopes on both sides. -/
theorem shorthandValue (key : Node) :
    Follows v.rule (Context.shorthandValue key) (Context.shorthandValue key) [] := by
  refine .after (.keyName key) fun name => ?_
  refine (Follows.bind ?_ fun known => ?_ : Follows _ _ _ ([] ++ []))
  · constructor
    · rintro s _ _ ⟨⟩
      rfl
    · intro s s' same
      show Except.ok (s.current.contains name) = Except.ok (s'.current.contains name)
      rw [same]
    · intro _ _
      rfl
  · cases known with
    | true => exact .steady (.pure _)
    | false => exact .steady (.pure _)

theorem pair (c : Cst) :
    Follows v.rule (v.plain.pair c) (v.ruled.pair c) (ofRoles v.inside c "key" "value") := by
  unfold Context.pair ofRoles
  cases c.part? "key" with
  | none => exact .fails (fun _ => rfl) fun _ => rfl
  | some key =>
    refine (v.follows key).bind fun keyNode => ?_
    -- The value stands behind both forms of the key.
    have finish {ms : List Mention} {value ruledValue : Node → Lowering Node}
        (h : ∀ keyNode, Follows v.rule (value keyNode) (ruledValue keyNode) ms) (cond : Bool) :
        Follows v.rule
          (if cond = true then do
            let name ← Context.keyName keyNode
            let keyNode ← pure ⟨.plain "sym", [.sym name], keyNode.location⟩
            let valueNode ← value keyNode
            v.plain.located c "pair" [keyNode, valueNode]
          else do
            let keyNode ← pure keyNode
            let valueNode ← value keyNode
            v.plain.located c "pair" [keyNode, valueNode])
          (if cond = true then do
            let name ← Context.keyName keyNode
            let keyNode ← pure ⟨.plain "sym", [.sym name], keyNode.location⟩
            let valueNode ← ruledValue keyNode
            v.ruled.located c "pair" [keyNode, valueNode]
          else do
            let keyNode ← pure keyNode
            let valueNode ← ruledValue keyNode
            v.ruled.located c "pair" [keyNode, valueNode]) ms := by
      split
      next =>
        exact .after (.keyName _) fun _ => .after (.pure _) fun keyNode =>
          (h keyNode).before fun _ => .located _ _ _ _
      next =>
        exact .after (.pure _) fun keyNode => (h keyNode).before fun _ => .located _ _ _ _
    cases c.part? "value" with
    | none => exact finish v.shorthandValue _
    | some value => exact finish (fun _ => v.follows value) _

theorem blockArgument (c : Cst) :
    Follows v.rule (v.plain.blockArgument c) (v.ruled.blockArgument c)
      (ofPart v.inside c.plainChildren.head?) :=
  (v.lowerOptional _).before fun _ => .located _ _ _ _

theorem range (c : Cst) :
    Follows v.rule (v.plain.range c) (v.ruled.range c) (ofRoles v.inside c "begin" "end") :=
  (v.lowerOptional _).bind fun _ => (v.lowerOptional _).before fun _ => .located _ _ _ _

theorem pathScope (part : Option Cst) :
    Follows v.rule (v.plain.pathScope part) (v.ruled.pathScope part) (ofPart v.inside part) := by
  cases part with
  | none => exact .steady (.pure _)
  | some c => exact v.follows c

theorem scopeResolution (c : Cst) :
    Follows v.rule (v.plain.scopeResolution c) (v.ruled.scopeResolution c)
      (ofPart v.inside (c.part? "scope")) := by
  unfold Context.scopeResolution
  split
  next => exact .fails (fun _ => rfl) fun _ => rfl
  next =>
    exact (v.pathScope _).before fun _ => (Steady.text _ _).bind fun _ => .located _ _ _ _

end Comparison

end RubyPattern.Ruby
