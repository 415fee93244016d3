/-
  RubyPattern.Ruby.Scopes

  The local variables in sight while source is read from front to back.
-/
namespace RubyPattern.Ruby

/-- The names known in the scope at hand, and those of the scopes around it. -/
structure Scopes where
  current : List String
  enclosing : List (List String)
  deriving DecidableEq, Repr, Inhabited

namespace Scopes

/-- One scope without names. -/
def initial : Scopes :=
  ⟨[], []⟩

/-- Whether a name is a local variable here. -/
def isLocal (s : Scopes) (name : String) : Bool :=
  s.current.contains name

/-- Adds a name to the scope at hand. -/
def declare (s : Scopes) (name : String) : Scopes :=
  if s.isLocal name then s else { s with current := name :: s.current }

/-- Enters a scope: blocks start with the names around them, definitions without any. -/
def enter (s : Scopes) (inherit : Bool) : Scopes :=
  ⟨if inherit then s.current else [], s.current :: s.enclosing⟩

/-- Leaves a scope for the one around it. -/
def leave (s : Scopes) : Scopes :=
  match s.enclosing with
  | outer :: rest => ⟨outer, rest⟩
  | [] => s

/-- The number of scopes. -/
def depth (s : Scopes) : Nat :=
  s.enclosing.length + 1

end Scopes

end RubyPattern.Ruby
