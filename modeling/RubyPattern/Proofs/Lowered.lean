/-
  RubyPattern.Proofs.Lowered

  The form of parsed trees, as their texts show it. Node types are plain words,
  apart from `defined?`, and leaves are absent children, strings, symbols,
  integers and floats.
-/
import RubyPattern.Proofs.Spelling

namespace RubyPattern

/-- The node types of parsed trees. -/
def isLoweredType (type : String) : Bool :=
  Lexeme.isTypeName type.toList || type == "defined?"

mutual

/-- The form of parsed trees. -/
def Value.Lowered : Value → Prop
  | .nil => True
  | .str _ => True
  | .sym _ => True
  | .int _ => True
  | .float _ => True
  | .nan _ => True
  | .node type children _ => isLoweredType type.text = true ∧ LoweredAll children
  | _ => False

/-- All of the values have this form. -/
def Value.LoweredAll : List Value → Prop
  | [] => True
  | v :: vs => Lowered v ∧ LoweredAll vs

end

/-- A node of this form. -/
def Node.Lowered (n : Node) : Prop :=
  n.toValue.Lowered

end RubyPattern
