/-
  RubyPattern.Ruby.Kind

  The kinds of concrete syntax nodes. Kinds that lowering does not single out keep their name.
-/
namespace RubyPattern.Ruby

/-- The kind of a concrete syntax node. -/
inductive Kind where
  | integer
  | float
  | nilLiteral
  | trueLiteral
  | falseLiteral
  | selfLiteral
  | string
  | bareString
  | chainedString
  | character
  | simpleSymbol
  | hashKeySymbol
  | delimitedSymbol
  | bareSymbol
  | regex
  | array
  | stringArray
  | symbolArray
  | hash
  | pair
  | splatArgument
  | hashSplatArgument
  | blockArgument
  | forwardArgument
  | range
  | parenthesizedStatements
  | beginBlock
  | identifier
  | instanceVariable
  | classVariable
  | globalVariable
  | constant
  | superCall
  | scopeResolution
  | assignment
  | operatorAssignment
  | call
  | lambda
  | elementReference
  | binary
  | unary
  | ifStatement
  | elsifClause
  | unlessStatement
  | conditional
  | ifModifier
  | unlessModifier
  | whileLoop
  | untilLoop
  | whileModifier
  | untilModifier
  | caseStatement
  | whenClause
  | matchPattern
  | returnStatement
  | breakStatement
  | nextStatement
  | yieldStatement
  | redoStatement
  | retryStatement
  | method
  | singletonMethod
  | classDefinition
  | moduleDefinition
  | singletonClass
  | comment
  | emptyStatement
  | thenClause
  | elseClause
  | doClause
  | blockBody
  | bodyStatement
  | stringContent
  | escapeSequence
  | interpolation
  | restAssignment
  | leftAssignmentList
  | destructuredLeftAssignment
  | rightAssignmentList
  | argumentList
  | destructuredParameter
  | forwardParameter
  | hashSplatNil
  | optionalParameter
  | keywordParameter
  | splatParameter
  | hashSplatParameter
  | blockParameter
  | dot
  | safeDot
  | doubleColon
  | twoDots
  | threeDots
  | other (name : String)
  deriving DecidableEq, Repr, Inhabited

namespace Kind

/-- The kinds that lowering singles out. -/
def known : List Kind :=
  [.integer, .float, .nilLiteral, .trueLiteral, .falseLiteral, .selfLiteral, .string,
   .bareString, .chainedString, .character, .simpleSymbol, .hashKeySymbol, .delimitedSymbol,
   .bareSymbol, .regex, .array, .stringArray, .symbolArray, .hash, .pair, .splatArgument,
   .hashSplatArgument, .blockArgument, .forwardArgument, .range, .parenthesizedStatements,
   .beginBlock, .identifier, .instanceVariable, .classVariable, .globalVariable, .constant,
   .superCall, .scopeResolution, .assignment, .operatorAssignment, .call, .lambda,
   .elementReference, .binary, .unary, .ifStatement, .elsifClause, .unlessStatement,
   .conditional, .ifModifier, .unlessModifier, .whileLoop, .untilLoop, .whileModifier,
   .untilModifier, .caseStatement, .whenClause, .matchPattern, .returnStatement, .breakStatement,
   .nextStatement, .yieldStatement, .redoStatement, .retryStatement, .method, .singletonMethod,
   .classDefinition, .moduleDefinition, .singletonClass, .comment, .emptyStatement, .thenClause,
   .elseClause, .doClause, .blockBody, .bodyStatement, .stringContent, .escapeSequence,
   .interpolation, .restAssignment, .leftAssignmentList, .destructuredLeftAssignment,
   .rightAssignmentList, .argumentList, .destructuredParameter, .forwardParameter, .hashSplatNil,
   .optionalParameter, .keywordParameter, .splatParameter, .hashSplatParameter, .blockParameter,
   .dot, .safeDot, .doubleColon, .twoDots, .threeDots]

/-- The name of a kind in the grammar. -/
def name : Kind → String
  | .integer => "integer"
  | .float => "float"
  | .nilLiteral => "nil"
  | .trueLiteral => "true"
  | .falseLiteral => "false"
  | .selfLiteral => "self"
  | .string => "string"
  | .bareString => "bare_string"
  | .chainedString => "chained_string"
  | .character => "character"
  | .simpleSymbol => "simple_symbol"
  | .hashKeySymbol => "hash_key_symbol"
  | .delimitedSymbol => "delimited_symbol"
  | .bareSymbol => "bare_symbol"
  | .regex => "regex"
  | .array => "array"
  | .stringArray => "string_array"
  | .symbolArray => "symbol_array"
  | .hash => "hash"
  | .pair => "pair"
  | .splatArgument => "splat_argument"
  | .hashSplatArgument => "hash_splat_argument"
  | .blockArgument => "block_argument"
  | .forwardArgument => "forward_argument"
  | .range => "range"
  | .parenthesizedStatements => "parenthesized_statements"
  | .beginBlock => "begin"
  | .identifier => "identifier"
  | .instanceVariable => "instance_variable"
  | .classVariable => "class_variable"
  | .globalVariable => "global_variable"
  | .constant => "constant"
  | .superCall => "super"
  | .scopeResolution => "scope_resolution"
  | .assignment => "assignment"
  | .operatorAssignment => "operator_assignment"
  | .call => "call"
  | .lambda => "lambda"
  | .elementReference => "element_reference"
  | .binary => "binary"
  | .unary => "unary"
  | .ifStatement => "if"
  | .elsifClause => "elsif"
  | .unlessStatement => "unless"
  | .conditional => "conditional"
  | .ifModifier => "if_modifier"
  | .unlessModifier => "unless_modifier"
  | .whileLoop => "while"
  | .untilLoop => "until"
  | .whileModifier => "while_modifier"
  | .untilModifier => "until_modifier"
  | .caseStatement => "case"
  | .whenClause => "when"
  | .matchPattern => "pattern"
  | .returnStatement => "return"
  | .breakStatement => "break"
  | .nextStatement => "next"
  | .yieldStatement => "yield"
  | .redoStatement => "redo"
  | .retryStatement => "retry"
  | .method => "method"
  | .singletonMethod => "singleton_method"
  | .classDefinition => "class"
  | .moduleDefinition => "module"
  | .singletonClass => "singleton_class"
  | .comment => "comment"
  | .emptyStatement => "empty_statement"
  | .thenClause => "then"
  | .elseClause => "else"
  | .doClause => "do"
  | .blockBody => "block_body"
  | .bodyStatement => "body_statement"
  | .stringContent => "string_content"
  | .escapeSequence => "escape_sequence"
  | .interpolation => "interpolation"
  | .restAssignment => "rest_assignment"
  | .leftAssignmentList => "left_assignment_list"
  | .destructuredLeftAssignment => "destructured_left_assignment"
  | .rightAssignmentList => "right_assignment_list"
  | .argumentList => "argument_list"
  | .destructuredParameter => "destructured_parameter"
  | .forwardParameter => "forward_parameter"
  | .hashSplatNil => "hash_splat_nil"
  | .optionalParameter => "optional_parameter"
  | .keywordParameter => "keyword_parameter"
  | .splatParameter => "splat_parameter"
  | .hashSplatParameter => "hash_splat_parameter"
  | .blockParameter => "block_parameter"
  | .dot => "."
  | .safeDot => "&."
  | .doubleColon => "::"
  | .twoDots => ".."
  | .threeDots => "..."
  | .other name => name

/-- The kind of a name. -/
def ofName (name : String) : Kind :=
  (known.find? fun kind => kind.name == name).getD (.other name)

/-- A kind found by its name has that name. -/
theorem name_ofName (name : String) : (ofName name).name = name := by
  unfold ofName
  cases h : known.find? fun kind => kind.name == name with
  | none => rfl
  | some kind => simpa using List.find?_some h

/-- Kinds that never become part of a tree. -/
def isIgnored : Kind → Bool
  | .comment => true
  | .emptyStatement => true
  | _ => false

/-- Wrappers whose children are plain statements. -/
def isContainer : Kind → Bool
  | .thenClause => true
  | .elseClause => true
  | .doClause => true
  | .blockBody => true
  | .bodyStatement => true
  | _ => false

end Kind

end RubyPattern.Ruby
