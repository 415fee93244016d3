/-
  RubyPattern.Error.Cause

  Everything that can go wrong, one constructor per cause. `PatternFault` says why a pattern text
  is refused, `Fault` names every failure of the library.
-/
import RubyPattern.Tree.Diagnostic

namespace RubyPattern

open RubyPattern.Number RubyPattern.Text

/-- The three kinds of bracket in a pattern. -/
inductive Bracket where
  | round
  | curly
  | square
  deriving DecidableEq, Repr, Inhabited

/-- The construct that a bracket encloses, as messages name it. -/
def Bracket.groupName : Bracket → String
  | .round => "sequence '()'"
  | .curly => "union '\x7b\x7d'"
  | .square => "intersection '[]'"

/-- Why a pattern text is refused. Texts of lexemes are given where the message shows them. -/
inductive PatternFault where
  | unexpectedCharacter (c : Char)
  | digitsInFunctionName (text : String)
  | emptyPattern
  | trailingLexeme (text : String)
  | unexpectedEnd
  | restOutsideSequence (captured : Bool)
  | captureInNegation
  | unevenUnion
  | unknownPredicate (text : String)
  | unexpectedLexeme (text : String)
  | unclosedGroup (text : String)
  | emptyGroup (bracket : Bracket)
  | argumentNotLiteral (text : String)
  deriving DecidableEq, Repr

/-- The message for a refused pattern. The position is that of the fault in the text. -/
def PatternFault.message (position : Nat) : PatternFault → String
  | .unexpectedCharacter c =>
    "Unexpected character " ++ quoted (String.singleton c) ++ " at " ++ integerText position
  | .digitsInFunctionName text => "Function name " ++ quoted text ++ " may not contain digits"
  | .emptyPattern => "Empty pattern"
  | .trailingLexeme text => "Unexpected " ++ quoted text ++ " after pattern end"
  | .unexpectedEnd => "Unexpected end of pattern"
  | .restOutsideSequence captured =>
    (if captured then "'$...'" else "'...'") ++ " is only valid inside a sequence"
  | .captureInNegation => "Captures are not allowed inside a negation"
  | .unevenUnion => "Union branches must capture the same number of values"
  | .unknownPredicate text => "Unknown predicate " ++ quoted text
  | .unexpectedLexeme text => "Unexpected " ++ quoted text
  | .unclosedGroup text => "Unclosed " ++ quoted text
  | .emptyGroup bracket => "Empty " ++ bracket.groupName
  | .argumentNotLiteral text => "Function arguments must be literals, got " ++ quoted text

/-- What a value was asked to do and cannot. -/
inductive Misuse where
  | notANode
  | noLiteralText
  | notHashable
  | notOrdered
  | notDivisible
  | wrongArguments
  | badFormat
  deriving DecidableEq, Repr

/-- Every failure of the library, by cause. -/
inductive Fault where
  /-- Ruby source without a tree: empty, or refused by the grammar. -/
  | malformedSource (source rubyVersion : String)
  /-- Valid Ruby that has no tree shape here. -/
  | unsupportedSyntax (source kind : String) (line : Nat) (rubyVersion : String)
  /-- A pattern text that is refused at a position. -/
  | pattern (reason : PatternFault) (pattern : String) (position : Nat)
  /-- Functions that a pattern calls and no table binds, in order. -/
  | undefinedFunctions (names : List String) (pattern : String)
  /-- An assignment target that is no variable and no constant. -/
  | invalidIdentifier (identifier : String)
  /-- A registry that has given out all its names. -/
  | predicateLimit (limit : Nat)
  /-- Syntax nested deeper than the parser follows. -/
  | tooDeep (limit : Int)
  /-- A value without a literal in patterns. -/
  | cannotRender (value : Value)
  /-- A candidate that is neither source text nor a node. -/
  | cannotMatch (typeName : String)
  /-- A rest matched by itself, outside any sequence. -/
  | restAlone
  /-- A builder given neither source nor a construction. -/
  | nothingToBuild
  /-- An expansion of no items. -/
  | nothingToExpand
  /-- An expansion whose first item is no node. -/
  | baseNotNode (typeName : String)
  /-- A last name that the sequence of names does not reach. -/
  | badLastName (last : String)
  /-- A range in steps of zero. -/
  | emptyStep
  /-- A predicate that failed with a message of its own. -/
  | predicateFailed (message : String)
  /-- A number whose digits do not read. -/
  | badNumber (text : String)
  /-- An escape for a code point beyond Unicode. -/
  | badCodePoint (code : Nat)
  /-- A stretch of source that begins or ends inside a character. -/
  | splitCharacter (start stop : Nat)
  /-- A syntax node without a part that its kind needs. -/
  | missingPart
  /-- A unary operation without an operand. -/
  | missingOperand
  /-- A shorthand pair whose key has no name. -/
  | missingKeyName
  /-- A name that a table does not bind. -/
  | unboundName (name : String)
  /-- A value asked for something it cannot do. -/
  | misuse (what : Misuse)
  deriving Inhabited

end RubyPattern
