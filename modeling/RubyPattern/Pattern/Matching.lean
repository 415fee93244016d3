/-
  RubyPattern.Pattern.Matching

  Matching patterns against values. An attempt says whether the pattern applies and in which state
  it leaves the captures and bindings; a failed attempt leaves them as they were. Rests try their
  lengths from the shortest on.
-/
import RubyPattern.Pattern.Element

namespace RubyPattern

/-- A function that patterns can call with the value at hand and further arguments. It may fail,
    and then the match fails with it. -/
abbrev Function := Value → List Value → Except Fault Bool

/-- Functions by name, the first entry of a name counting. -/
abbrev Functions := List (String × Function)

/-- Whether a value passes a builtin test. The head of a sequence passes none. -/
def Builtin.holds : Builtin → Value → Bool
  | .absent, .nil => true
  | .typed name, .node type _ _ => type == .plain name
  | _, _ => false

/-- The captures so far, in the order of the pattern text, and the values bound to names. -/
structure MatchState where
  captures : List Value
  bindings : List (String × Value)
  deriving Inhabited

namespace MatchState

/-- The state before any matching. -/
def empty : MatchState :=
  ⟨[], []⟩

/-- Adds a capture at the end. -/
def push (s : MatchState) (v : Value) : MatchState :=
  { s with captures := s.captures ++ [v] }

/-- Replaces the capture at a place. -/
def fill (s : MatchState) (slot : Nat) (v : Value) : MatchState :=
  { s with captures := s.captures.set slot v }

/-- Binds a name. -/
def bind (s : MatchState) (name : String) (v : Value) : MatchState :=
  { s with bindings := (name, v) :: s.bindings }

end MatchState

/-- The outcome of an attempt: whether it succeeded, and the state that it leaves. -/
abbrev Attempt := Except Fault (Bool × MatchState)

/-- Tries to match the items that remain after each skipped run, the shortest run first, with at
    most `extra` items more in the run than are in it already. -/
def tryLengths (next : List Value → MatchState → Attempt) (captured : Bool) (s : MatchState) :
    Nat → List Value → List Value → Attempt
  | extra, skipped, items =>
    match next items (if captured then s.push (.tuple skipped) else s) with
    | .error fault => .error fault
    | .ok (true, t) => .ok (true, t)
    | .ok (false, _) =>
      match extra, items with
      | extra + 1, item :: items =>
        tryLengths next captured s extra (skipped ++ [item]) items
      | _, _ => .ok (false, s)

namespace Element

/-- How many items the elements need at least: one for each that is no rest. -/
def required (elements : List Element) : Nat :=
  (elements.filter fun e => !e.isRest).length

mutual

/-- Matches one element against one value. -/
def attempt (functions : Functions) : Element → Value → MatchState → Attempt
  | .wildcard, _, s => .ok (true, s)
  | .unify name, v, s =>
    match s.bindings.lookup name with
    | some bound => .ok (bound.literalEquals v, s)
    | none => .ok (true, s.bind name v)
  | .scalar value, v, s => .ok (value.toValue.literalEquals v, s)
  | .nodeType name, v, s => .ok (v.hasType name, s)
  | .predicate name, v, s =>
    match Builtin.ofName? name with
    | some test => .ok (test.holds v, s)
    | none => .ok (false, s)
  | .call name arguments, v, s =>
    match functions.lookup name with
    | none => .error (.unboundName name)
    | some function =>
      match function v (arguments.map Scalar.toValue) with
      | .error fault => .error fault
      | .ok holds => .ok (holds, s)
  | .capture element, v, s =>
    match attempt functions element v (s.push .nil) with
    | .error fault => .error fault
    | .ok (true, t) => .ok (true, t.fill s.captures.length v)
    | .ok (false, _) => .ok (false, s)
  | .negation element, v, s =>
    match attempt functions element v s with
    | .error fault => .error fault
    | .ok (matched, _) => .ok (!matched, s)
  | .union alternatives, v, s => attemptAny functions alternatives v s
  | .intersection elements, v, s =>
    match attemptAll functions elements v s with
    | .error fault => .error fault
    | .ok (true, t) => .ok (true, t)
    | .ok (false, _) => .ok (false, s)
  | .rest _, _, _ => .error .restAlone
  | .sequence elements, v, s =>
    match v with
    | .node type children _ =>
      attemptSequence functions elements (.head type.text :: children) s
    | _ => .ok (false, s)

/-- Matches the first of the alternatives that applies. -/
def attemptAny (functions : Functions) : List Element → Value → MatchState → Attempt
  | [], _, s => .ok (false, s)
  | e :: es, v, s =>
    match attempt functions e v s with
    | .error fault => .error fault
    | .ok (true, t) => .ok (true, t)
    | .ok (false, _) => attemptAny functions es v s

/-- Matches all elements against the same value, one after the other. -/
def attemptAll (functions : Functions) : List Element → Value → MatchState → Attempt
  | [], _, s => .ok (true, s)
  | e :: es, v, s =>
    match attempt functions e v s with
    | .error fault => .error fault
    | .ok (true, t) => attemptAll functions es v t
    | .ok (false, t) => .ok (false, t)

/-- Matches elements against the items of a sequence in order, all items used up. -/
def attemptSequence (functions : Functions) : List Element → List Value → MatchState → Attempt
  | [], items, s => .ok (items.isEmpty, s)
  | .rest captured :: es, items, s =>
    if required es ≤ items.length then
      tryLengths (attemptSequence functions es) captured s (items.length - required es) [] items
    else .ok (false, s)
  | _ :: _, [], s => .ok (false, s)
  | e :: es, item :: items, s =>
    match attempt functions e item s with
    | .error fault => .error fault
    | .ok (false, _) => .ok (false, s)
    | .ok (true, t) =>
      match attemptSequence functions es items t with
      | .error fault => .error fault
      | .ok (true, u) => .ok (true, u)
      | .ok (false, _) => .ok (false, s)

end

/-- The captures of a match, in the order of the pattern text; `none` if the pattern does not
    apply. -/
def captures? (e : Element) (functions : Functions) (v : Value) :
    Except Fault (Option (List Value)) :=
  match e.attempt functions v .empty with
  | .error fault => .error fault
  | .ok (true, s) => .ok (some s.captures)
  | .ok (false, _) => .ok none

end Element

end RubyPattern
