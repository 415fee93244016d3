/-
  RubyPattern.Builder.Assignment

  Assignment patterns by the look of their target: the sigil or the first letter tells which kind
  of variable or constant a name is.
-/
import RubyPattern.Error.Cause
import RubyPattern.Tree.Name

namespace RubyPattern.Builder

/-- The kinds of assignment target that a name can be. -/
inductive TargetKind where
  | classVariable
  | instanceVariable
  | globalVariable
  | constant
  | localVariable
  deriving DecidableEq, Repr

namespace TargetKind

/-- The kind that the front of a name announces. -/
def ofName : List Char → TargetKind
  | '@' :: '@' :: _ => classVariable
  | '@' :: _ => instanceVariable
  | '$' :: _ => globalVariable
  | c :: _ => if c.isUpper then constant else localVariable
  | [] => localVariable

/-- Whether a name is complete for its kind. -/
def admits : TargetKind → List Char → Bool
  | classVariable, cs => Name.isIdentifier (cs.drop 2)
  | instanceVariable, cs => Name.isIdentifier (cs.drop 1)
  | globalVariable, cs => Name.isIdentifier (cs.drop 1) || Name.isSpecialGlobal cs
  | constant, cs => Name.isIdentifier cs
  | localVariable, cs => Name.isIdentifier cs

/-- The type of the assignment node. -/
def nodeType : TargetKind → String
  | classVariable => "cvasgn"
  | instanceVariable => "ivasgn"
  | globalVariable => "gvasgn"
  | constant => "casgn"
  | localVariable => "lvasgn"

end TargetKind

/-- The assignment of a value to a name. -/
def assignName (name : String) (value : Value) : Except Fault Node :=
  let kind := TargetKind.ofName name.toList
  if kind.admits name.toList then
    match kind with
    | .constant => .ok (.bare kind.nodeType [.nil, .sym name, value])
    | _ => .ok (.bare kind.nodeType [.sym name, value])
  else .error (.invalidIdentifier name)

/-- The assignment of a value to a target: a name, or a node. A constant path gives its scope and
    name to the assignment, any other node is its target as a whole. -/
def assign (target value : Value) : Except Fault Node :=
  match target with
  | .node ⟨"const", false⟩ [scope, name] _ => .ok (.bare "casgn" [scope, name, value])
  | .node type children location => .ok (.bare "casgn" [.nil, .node type children location, value])
  | other =>
    match other.text? with
    | some name => assignName name value
    | none => .error (.invalidIdentifier other.diagnostic)

end RubyPattern.Builder
