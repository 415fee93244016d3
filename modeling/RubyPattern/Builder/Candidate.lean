/-
  RubyPattern.Builder.Candidate

  What a pattern is matched against: a node as it is, or Ruby source, which is read first.
-/
import RubyPattern.Pattern.Compiled
import RubyPattern.Predicate.Datum
import RubyPattern.Ruby.Parser

namespace RubyPattern

/-- The node that a candidate is: a node itself, or the tree of source text. -/
def Datum.candidateNode {m : Type → Type} [Monad m] [MonadExceptOf Fault m]
    (read : String → m Node) : Datum → m Node
  | .value (.node type children location) => pure ⟨type, children, location⟩
  | .value v =>
    match v.text? with
    | some source => read source
    | none => throw (.cannotMatch v.typeName)
  | .function f => throw (.cannotMatch (Datum.function f).typeName)

/-- Matches a compiled pattern against a candidate. -/
def Compiled.matchCandidate (p : Compiled) (parser : Ruby.Parser) (candidate : Datum) :
    Except Fault Value := do
  let n ← candidate.candidateNode parser.parse
  p.matchValue n.toValue

end RubyPattern
