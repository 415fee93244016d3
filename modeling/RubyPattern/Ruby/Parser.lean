/-
  RubyPattern.Ruby.Parser

  From Ruby source to trees. Lowering goes down the concrete syntax with a budget of
  levels: each construct inside another takes one, and a construct without one left is too deep.
-/
import RubyPattern.Ruby.Control
import RubyPattern.Ruby.Definitions

namespace RubyPattern.Ruby

namespace Context

/-- How a kind of construct is lowered; `none` for the kinds that have no tree shape. -/
def handler? : Kind → Option (Context → Cst → Lowering Node)
  | .integer => some integer
  | .float => some float
  | .nilLiteral => some (·.keyword "nil")
  | .trueLiteral => some (·.keyword "true")
  | .falseLiteral => some (·.keyword "false")
  | .selfLiteral => some (·.keyword "self")
  | .string => some string
  | .bareString => some string
  | .chainedString => some (·.collection "dstr")
  | .character => some character
  | .simpleSymbol => some (·.symbolNode "sym" 1)
  | .hashKeySymbol => some (·.symbolNode "sym" 0)
  | .delimitedSymbol => some quotedSymbol
  | .bareSymbol => some quotedSymbol
  | .regex => some regex
  | .array => some (·.collection "array")
  | .stringArray => some (·.collection "array")
  | .symbolArray => some (·.collection "array")
  | .hash => some (·.collection "hash")
  | .pair => some pair
  | .splatArgument => some (·.collection "splat")
  | .hashSplatArgument => some (·.collection "kwsplat")
  | .blockArgument => some blockArgument
  | .forwardArgument => some (·.keyword "forwarded_args")
  | .range => some range
  | .parenthesizedStatements => some (·.statementGroup "begin")
  | .beginBlock => some (·.statementGroup "kwbegin")
  | .identifier => some identifier
  | .instanceVariable => some (·.symbolNode "ivar" 0)
  | .classVariable => some (·.symbolNode "cvar" 0)
  | .globalVariable => some (·.symbolNode "gvar" 0)
  | .constant => some constant
  | .superCall => some (·.keyword "zsuper")
  | .scopeResolution => some scopeResolution
  | .assignment => some assignment
  | .operatorAssignment => some operatorAssignment
  | .call => some call
  | .lambda => some lambda
  | .elementReference => some elementReference
  | .binary => some binary
  | .unary => some unary
  | .ifStatement => some ifStatement
  | .elsifClause => some ifStatement
  | .unlessStatement => some unlessStatement
  | .conditional => some ifStatement
  | .ifModifier => some ifModifier
  | .unlessModifier => some unlessModifier
  | .whileLoop => some (·.loop "while")
  | .untilLoop => some (·.loop "until")
  | .whileModifier => some (·.loopModifier "while")
  | .untilModifier => some (·.loopModifier "until")
  | .caseStatement => some caseStatement
  | .whenClause => some whenClause
  | .matchPattern => some matchPattern
  | .returnStatement => some (·.jump "return")
  | .breakStatement => some (·.jump "break")
  | .nextStatement => some (·.jump "next")
  | .yieldStatement => some (·.jump "yield")
  | .redoStatement => some (·.keyword "redo")
  | .retryStatement => some (·.keyword "retry")
  | .method => some method
  | .singletonMethod => some singletonMethod
  | .classDefinition => some classDefinition
  | .moduleDefinition => some moduleDefinition
  | .singletonClass => some singletonClass
  | _ => none

end Context

/-- Lowers a construct with a budget of levels. A construct that the grammar made up
    makes the source malformed; one without a tree shape is unsupported, however deep it is. -/
def lower (o : Origin) (limit : Int) : Nat → Cst → Lowering Node
  | room, c =>
    if c.head.missing then throw o.malformed
    else match Context.handler? c.kind with
      | none => throw (o.unsupported c)
      | some handler =>
        match room with
        | 0 => throw (.tooDeep limit)
        | room + 1 => handler ⟨o, lower o limit room⟩ c

/-- Reads Ruby source: the grammar that yields concrete syntax, the version that faults report,
    and how deep constructs may nest. -/
structure Parser where
  grammar : String → Option Cst
  rubyVersion : String
  maxDepth : Int

namespace Parser

/-- The version that faults report unless told otherwise. -/
def defaultVersion : String := "3.3"

/-- How deep constructs may nest unless told otherwise. -/
def defaultDepth : Int := 200

/-- A parser with a grammar and the default settings. -/
def ofGrammar (grammar : String → Option Cst) : Parser :=
  ⟨grammar, defaultVersion, defaultDepth⟩

/-- The source as lowering sees it. -/
def origin (p : Parser) (source : String) : Origin :=
  ⟨source, source.toList, p.rubyVersion⟩

/-- A whole program lowered: its statements as one node, or none. -/
def lowerProgram (p : Parser) (source : String) (root : Cst) : Lowering (Option Node) :=
  let o := p.origin source
  Context.compound ⟨o, lower o p.maxDepth p.maxDepth.toNat⟩ root.statements

/-- The tree of Ruby source. Source that the grammar refuses, or that has no statements, is
    malformed. -/
def parse (p : Parser) (source : String) : Except Fault Node :=
  match p.grammar source with
  | none => .error (p.origin source).malformed
  | some root =>
    if root.head.broken then .error (p.origin source).malformed
    else match p.lowerProgram source root Scopes.initial with
      | .error fault => .error fault
      | .ok (none, _) => .error (p.origin source).malformed
      | .ok (some n, _) => .ok n

end Parser

end RubyPattern.Ruby
