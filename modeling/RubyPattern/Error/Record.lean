/-
  RubyPattern.Error.Record

  The library's own errors as callers see them: a class, a code, a message and named details. They
  can also be made directly, from arguments in order and by name.
-/
import RubyPattern.Detail.Basic
import RubyPattern.Error.Cause

namespace RubyPattern

open RubyPattern.Number RubyPattern.Text

/-- The classes of the library's errors. -/
inductive ErrorClass where
  | base
  | malformedSource
  | unsupportedSyntax
  | pattern
  | invalidIdentifier
  | predicateLimit
  deriving DecidableEq, Repr

namespace ErrorClass

/-- The name of a class. -/
def name : ErrorClass → String
  | .base => "AstaError"
  | .malformedSource => "MalformedSource"
  | .unsupportedSyntax => "UnsupportedSyntax"
  | .pattern => "PatternCompileError"
  | .invalidIdentifier => "InvalidIdentifier"
  | .predicateLimit => "PredicateLimitExceeded"

/-- The class of a name. -/
def ofName? (name : String) : Option ErrorClass :=
  [base, malformedSource, unsupportedSyntax, pattern, invalidIdentifier, predicateLimit].find?
    fun c => c.name == name

/-- Whether the errors of a class also count as malformed source. -/
def isMalformedSource : ErrorClass → Bool
  | .malformedSource => true
  | .unsupportedSyntax => true
  | _ => false

/-- The code of a class; errors of the base class bring their own. -/
def code : ErrorClass → String
  | .base => ""
  | .malformedSource => "MALFORMED_SOURCE"
  | .unsupportedSyntax => "UNSUPPORTED_SYNTAX"
  | .pattern => "PATTERN_COMPILE_ERROR"
  | .invalidIdentifier => "INVALID_IDENTIFIER"
  | .predicateLimit => "PREDICATE_LIMIT"

/-- The named arguments of a class in order, each with the value that it has if it is left out. -/
def parameters : ErrorClass → List (String × Option Detail)
  | .base => [("code", none), ("message", none)]
  | .malformedSource =>
    [("source", none), ("message", some .null), ("code", some (.text "MALFORMED_SOURCE"))]
  | .unsupportedSyntax => [("source", none), ("node_type", none)]
  | .pattern => [("message", none), ("pattern", some (.text "")), ("position", some .null)]
  | .invalidIdentifier => [("identifier", none)]
  | .predicateLimit => [("limit", none)]

/-- The names that further details of a class cannot have. -/
def reserved : ErrorClass → List String
  | .base => ["self"]
  | .malformedSource => ["self"]
  | _ => ["self", "code", "message"]

end ErrorClass

/-- An error of the library. -/
structure ErrorRecord where
  kind : ErrorClass
  code : Detail
  message : Detail
  context : List (String × Detail)

namespace ErrorRecord

/-- The error in one line: the code in square brackets, and the message. -/
def text (e : ErrorRecord) : String :=
  "[" ++ e.code.display ++ "] " ++ e.message.display

/-- The error with all that it carries. -/
def diagnostic (e : ErrorRecord) : String :=
  let details := e.context.map fun entry => entry.1 ++ "=" ++ entry.2.diagnostic
  e.kind.name ++ "(code=" ++ e.code.diagnostic ++ ", message=" ++ e.message.diagnostic ++ ", "
    ++ ", ".intercalate details ++ ")"

/-! ## The errors of each class -/

/-- Source without a tree. An empty message gives way to the standard one. -/
def malformedSource (source message code : Detail) (details : List (String × Detail)) :
    ErrorRecord :=
  let standard := .text ("The following source is invalid:\n  " ++ source.diagnostic)
  ⟨.malformedSource, code, if message.truthy then message else standard,
    ("source", source) :: details⟩

/-- A construct without a tree shape. -/
def unsupportedSyntax (source kind : Detail) (details : List (String × Detail)) : ErrorRecord :=
  ⟨.unsupportedSyntax, .text ErrorClass.unsupportedSyntax.code,
    .text ("Unsupported Ruby syntax " ++ kind.diagnostic),
    ("source", source) :: ("node_type", kind) :: details⟩

/-- A refused pattern text. -/
def pattern (message pattern position : Detail) (details : List (String × Detail)) : ErrorRecord :=
  ⟨.pattern, .text ErrorClass.pattern.code, message,
    ("pattern", pattern) :: ("position", position) :: details⟩

/-- An assignment target that is no variable and no constant. -/
def invalidIdentifier (identifier : Detail) (details : List (String × Detail)) : ErrorRecord :=
  ⟨.invalidIdentifier, .text ErrorClass.invalidIdentifier.code,
    .text ("Cannot classify assignment target " ++ identifier.diagnostic),
    ("identifier", identifier) :: details⟩

/-- A registry without names left. -/
def predicateLimit (limit : Detail) (details : List (String × Detail)) : ErrorRecord :=
  ⟨.predicateLimit, .text ErrorClass.predicateLimit.code,
    .text ("No predicate names left after " ++ limit.display ++ " registrations"),
    ("limit", limit) :: details⟩

/-! ## Making errors from arguments -/

/-- The arguments of a class in order: those given in order first, then those given by name, then
    the values of arguments left out. -/
def bindArguments : List (String × Option Detail) → List Detail → List (String × Detail) →
    Except Fault (List Detail)
  | [], [], _ => .ok []
  | [], _ :: _, _ => .error (.misuse .wrongArguments)
  | (name, standard) :: rest, given, named => do
    let v ← match given, named.lookup name with
      | v :: _, none => .ok v
      | _ :: _, some _ => .error (.misuse .wrongArguments)
      | [], some v => .ok v
      | [], none =>
        match standard with
        | some v => .ok v
        | none => .error (.misuse .wrongArguments)
    let vs ← bindArguments rest given.tail named
    return v :: vs

/-- Makes an error of a class from arguments in order and by name. Names that the class does not
    know become details; of a name given twice the last value counts. -/
def make (c : ErrorClass) (given : List Detail) (named : List (String × Detail)) :
    Except Fault ErrorRecord := do
  let parameters := c.parameters
  let named := Detail.settle named
  let values ← bindArguments parameters given named
  let details := named.filter fun entry => !(parameters.map (·.1)).contains entry.1
  if details.any fun entry => c.reserved.contains entry.1 then .error (.misuse .wrongArguments)
  else match c, values with
    | .base, [code, message] => .ok ⟨.base, code, message, details⟩
    | .malformedSource, [source, message, code] =>
      .ok (malformedSource source message code details)
    | .unsupportedSyntax, [source, kind] => .ok (unsupportedSyntax source kind details)
    | .pattern, [message, text, position] => .ok (pattern message text position details)
    | .invalidIdentifier, [identifier] => .ok (invalidIdentifier identifier details)
    | .predicateLimit, [limit] => .ok (predicateLimit limit details)
    | _, _ => .error (.misuse .wrongArguments)

end ErrorRecord

/-! ## Faults as errors -/

/-- The words for the functions that a pattern calls and nothing binds. -/
def undefinedMessage (names : List String) : String :=
  "Undefined function(s) " ++ ", ".intercalate (names.map ("#" ++ ·))

/-- The error of the library that a fault is; `none` for the faults that are not its own. -/
def Fault.record? : Fault → Option ErrorRecord
  | .malformedSource source version =>
    some (.malformedSource (.text source) .null (.text ErrorClass.malformedSource.code)
      [("ruby_version", .text version)])
  | .unsupportedSyntax source kind line version =>
    some (.unsupportedSyntax (.text source) (.text kind)
      [("line", .int line), ("ruby_version", .text version)])
  | .pattern reason text position =>
    some (.pattern (.text (reason.message position)) (.text text) (.int position) [])
  | .undefinedFunctions names text =>
    some (.pattern (.text (undefinedMessage names)) (.text text) .null
      [("missing", .list (names.map .text))])
  | .invalidIdentifier identifier => some (.invalidIdentifier (.text identifier) [])
  | .predicateLimit limit => some (.predicateLimit (.int limit) [])
  | _ => none

/-- The words for the faults that have some of their own and are no errors of the library. -/
def Fault.message? : Fault → Option String
  | .tooDeep limit =>
    some ("Ruby syntax tree exceeded maximum depth of " ++ integerText limit)
  | .cannotRender v =>
    some ("Cannot render " ++ v.typeName ++ " as a pattern literal: " ++ v.diagnostic)
  | .cannotMatch typeName =>
    some ("Cannot match against " ++ typeName ++ "; expected source text or a Node")
  | .restAlone => some "Rest only matches inside a sequence"
  | .nothingToBuild => some "Builder needs either source text or a construct function"
  | .nothingToExpand => some "expand() needs at least one item"
  | .baseNotNode typeName => some ("expand() base must be a Node, got " ++ typeName)
  | .badLastName last => some ("Invalid last predicate name: " ++ quoted last)
  | .predicateFailed message => some message
  | _ => none

end RubyPattern
