import RubyPattern.Builder.Building
import RubyPattern.Error.Record
import RubyPattern.Log.Structured
import RubyPattern.Predicate.Session
import RubyPattern.Predicate.Stock
import RubyPattern.Proofs.AssignmentTargets
import RubyPattern.Proofs.CanonicalCaptures
import RubyPattern.Proofs.DepthGuard
import RubyPattern.Proofs.Derivations
import RubyPattern.Proofs.DynamicPredicates
import RubyPattern.Proofs.FoldedKeywords
import RubyPattern.Proofs.InlineBodies
import RubyPattern.Proofs.IntegerLiterals
import RubyPattern.Proofs.Layouts
import RubyPattern.Proofs.LocalVariables
import RubyPattern.Proofs.NameOrder
import RubyPattern.Proofs.NamedNodes
import RubyPattern.Proofs.OwnPattern
import RubyPattern.Proofs.ParserFaults
import RubyPattern.Proofs.Partition
import RubyPattern.Proofs.PreOrder
import RubyPattern.Proofs.QuotedKeys
import RubyPattern.Proofs.RaisedFaults
import RubyPattern.Proofs.RegexTexts
import RubyPattern.Proofs.Remarks
import RubyPattern.Proofs.ScopeDiscipline
import RubyPattern.Proofs.SettledChoices
import RubyPattern.Proofs.StableMarks
import RubyPattern.Proofs.StructuralEquality
