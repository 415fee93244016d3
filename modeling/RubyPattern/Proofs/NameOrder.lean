/-
  RubyPattern.Proofs.NameOrder

  The order in which predicates are named. The names up to a last one are the
  front of the list of all words, shorter words first and those of one length
  in alphabetical order. So they are exactly the words that do not come behind
  the last one, each of them once, and their number is the last one read as a
  number with the digits from a to z.
-/
import Mathlib.Data.List.Shortlex
import RubyPattern.Proofs.DynamicPredicates

namespace RubyPattern.Predicate

open RubyPattern.Builder RubyPattern.Lexeme

-- ============================================================================
-- All words in order
-- ============================================================================

/-- Whether a name stands in front of another: it is shorter, or of the same
    length and alphabetically smaller. -/
def Before (name other : String) : Prop :=
  List.Shortlex (· < ·) name.toList other.toList

end RubyPattern.Predicate
