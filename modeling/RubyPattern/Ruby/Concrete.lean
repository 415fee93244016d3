/-
  RubyPattern.Ruby.Concrete

  Concrete syntax trees of Ruby source, as a grammar reads them: every node covers a stretch of
  bytes, may have a role in its parent, and keeps all its children, punctuation included.
-/
import RubyPattern.Ruby.Kind

namespace RubyPattern.Ruby

/-- What a concrete syntax node says about itself. -/
structure Head where
  kind : Kind
  /-- The byte offset at which the node begins. -/
  start : Nat
  /-- The byte offset just behind the node. -/
  stop : Nat
  /-- The role that the node has in its parent. -/
  field : Option String
  /-- Whether the grammar names the node; punctuation and keywords are not named. -/
  named : Bool
  /-- Whether the grammar made the node up to go on after an error. -/
  missing : Bool
  /-- Whether there is a syntax error at or below the node. -/
  broken : Bool
  deriving DecidableEq, Repr, Inhabited

/-- A concrete syntax node with its children in order. -/
inductive Cst where
  | mk (head : Head) (children : List Cst)
  deriving Inhabited

namespace Cst

/-- What the node says about itself. -/
def head : Cst → Head
  | .mk head _ => head

/-- All children in order. -/
def children : Cst → List Cst
  | .mk _ children => children

/-- The kind of the node. -/
def kind (c : Cst) : Kind :=
  c.head.kind

/-- What tells one child from another: its stretch and its kind. -/
def key (c : Cst) : Nat × Nat × Kind :=
  (c.head.start, c.head.stop, c.head.kind)

/-- Whether a child is of interest: named, and neither a comment nor empty. -/
def isPlain (c : Cst) : Bool :=
  c.head.named && !c.kind.isIgnored

/-- The children of interest. -/
def plainChildren (c : Cst) : List Cst :=
  c.children.filter isPlain

/-- The children in a role. -/
def inRole (c : Cst) (role : String) : List Cst :=
  c.children.filter fun child => child.head.field == some role

/-- The first child in a role. -/
def part? (c : Cst) (role : String) : Option Cst :=
  c.children.find? fun child => child.head.field == some role

mutual

/-- The statements of a node: its children of interest, with containers replaced by their own
    statements. -/
def statements : Cst → List Cst
  | .mk _ children => flatten children

/-- The statements among some children. -/
def flatten : List Cst → List Cst
  | [] => []
  | c :: cs =>
    if c.isPlain then
      if c.kind.isContainer then statements c ++ flatten cs else c :: flatten cs
    else flatten cs

end

/-- A child that is not of interest has no statements, whether it is kept or not. -/
theorem flatten_filter_of_plain {keep : Cst → Bool} {cs : List Cst}
    (kept : ∀ c ∈ cs, c.isPlain = true → keep c = true) :
    flatten (cs.filter keep) = flatten cs := by
  induction cs with
  | nil => rfl
  | cons c cs ih =>
    rw [List.forall_mem_cons] at kept
    have later := ih kept.2
    by_cases plain : c.isPlain = true
    · rw [List.filter_cons_of_pos (kept.1 plain), flatten, flatten, later]
    · have skipped : flatten (c :: cs) = flatten cs := by rw [flatten, if_neg plain]
      rw [List.filter_cons, skipped]
      split
      next => rw [flatten, if_neg plain, later]
      next => exact later

end Cst

end RubyPattern.Ruby
