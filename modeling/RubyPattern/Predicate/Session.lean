/-
  RubyPattern.Predicate.Session

  What is asked of a registry, one request after the other: predicates are registered, names are
  looked up, listed and counted, and snapshots of the table are taken, to be looked at later.
-/
import RubyPattern.Predicate.Registry

namespace RubyPattern.Registry

/-- Something asked of a registry. Snapshots are numbered from zero on as they are taken. -/
inductive Request where
  | register (datum : Datum)
  | lookup (name : String)
  | names
  | size
  | snapshot
  | recall (number : Nat)

/-- What a request is answered. -/
inductive Answer where
  | name (name : String)
  | refused (fault : Fault)
  | predicate (f : Option Function)
  | names (names : List String)
  | size (n : Nat)
  | table (entries : Option Functions)

/-- A registry and the snapshots that were taken of it. -/
structure Session where
  registry : Registry
  snapshots : List Functions

namespace Session

/-- A session with a registry without predicates. -/
def ofNames (names : List String) : Session :=
  ⟨.ofNames names, []⟩

/-- Answers a request. A registration that is refused leaves everything as it is. -/
def perform (s : Session) : Request → Answer × Session
  | .register datum =>
    match s.registry.register datum with
    | .ok (name, registry) => (.name name, { s with registry })
    | .error fault => (.refused fault, s)
  | .lookup name => (.predicate (s.registry.get? name), s)
  | .names => (.names s.registry.keys, s)
  | .size => (.size s.registry.size, s)
  | .snapshot =>
    (.table (some s.registry.entries), { s with snapshots := s.snapshots ++ [s.registry.entries] })
  | .recall number => (.table s.snapshots[number]?, s)

/-- The session behind some requests. -/
def after (s : Session) : List Request → Session
  | [] => s
  | request :: requests => (s.perform request).2.after requests

end Session

end RubyPattern.Registry
