/-
  RubyPattern.Predicate.Registry

  The table of predicates. Names are given out in their fixed order and never twice; the table
  only grows.
-/
import RubyPattern.Predicate.Datum
import RubyPattern.Predicate.Names

namespace RubyPattern

/-- The names to give out, and the predicates registered so far in the order of registration. -/
structure Registry where
  names : List String
  entries : Functions

namespace Registry

/-- A registry without predicates. -/
def ofNames (names : List String) : Registry :=
  ⟨names, []⟩

/-- Binds a name: in its place if it is bound already, else at the end. -/
def put (name : String) (f : Function) : Functions → Functions
  | [] => [(name, f)]
  | (other, g) :: rest =>
    if other == name then (name, f) :: rest else (other, g) :: put name f rest

/-- How many names are bound. -/
def size (r : Registry) : Nat :=
  r.entries.length

/-- The bound names in order. -/
def keys (r : Registry) : List String :=
  r.entries.map (·.1)

/-- The predicate of a name. -/
def get? (r : Registry) (name : String) : Option Function :=
  r.entries.lookup name

/-- Registers a predicate under the next free name. -/
def register (r : Registry) (datum : Datum) : Except Fault (String × Registry) :=
  match r.names[r.size]? with
  | some name => .ok (name, { r with entries := put name datum.predicate r.entries })
  | none => .error (.predicateLimit r.names.length)

/-- The answer of a registered predicate. -/
def test (r : Registry) (name : String) (v : Value) : Except Fault Bool :=
  match r.get? name with
  | some f => f v []
  | none => .error (.unboundName name)

/-- As `test`, for a name given as any value; only plain strings are names. -/
def testNamed (r : Registry) (name v : Value) : Except Fault Bool :=
  match name with
  | .str s => r.test s v
  | other =>
    if other.hashable then .error (.unboundName other.diagnostic)
    else .error (.misuse .notHashable)

end Registry

end RubyPattern
