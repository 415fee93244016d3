/-
  RubyPattern.Ruby.Literals

  Literals, collections and variables: numbers, strings with their interpolations, symbols,
  regular expressions, arrays, hashes, ranges and names that are read.
-/
import RubyPattern.Number.Reading
import RubyPattern.Pattern.Escape
import RubyPattern.Ruby.IntegerLiteral
import RubyPattern.Ruby.Lowering
import RubyPattern.Tree.Render

namespace RubyPattern.Ruby.Context

open RubyPattern.Number

/-! ## Shapes shared by many constructs -/

/-- A node without children. -/
def keyword (w : Context) (type : String) (c : Cst) : Lowering Node :=
  w.located c type []

/-- A node of the children of interest. -/
def collection (w : Context) (type : String) (c : Cst) : Lowering Node := do
  let items ← w.lowerAll c.plainChildren
  w.located c type (asChildren items)

/-- A node of the statements inside a construct. -/
def statementGroup (w : Context) (type : String) (c : Cst) : Lowering Node := do
  let items ← w.lowerAll c.statements
  w.located c type (asChildren items)

/-- A node of one symbol, which is the source text less a number of characters in front. -/
def symbolNode (w : Context) (type : String) (dropped : Nat) (c : Cst) : Lowering Node := do
  let s ← w.text c
  w.located c type [.sym (String.ofList (s.toList.drop dropped))]

/-! ## Numbers -/

/-- An integer literal. -/
def integer (w : Context) (c : Cst) : Lowering Node := do
  let n ← integerLiteral (← w.text c)
  w.located c "int" [.int n]

/-- A float literal; underscores between its digits do not count. -/
def float (w : Context) (c : Cst) : Lowering Node := do
  let s ← w.text c
  match float? (String.ofList (s.toList.filter (· != '_'))) with
  | some x => w.located c "float" [.ofFloat c.head.start x]
  | none => throw (.badNumber s)

/-! ## Strings -/

/-- A piece of a string: text, or the node of an interpolation. -/
inductive Piece where
  | text (s : String)
  | code (n : Node)

/-- A piece as a child: text becomes a string node of its own. -/
def Piece.toValue : Piece → Value
  | .text s => (Node.bare "str" [.str s]).toValue
  | .code n => n.toValue

/-- One piece of a string. -/
def piece (w : Context) (c : Cst) : Lowering Piece :=
  match c.kind with
  | .stringContent => do return .text (← w.text c)
  | .escapeSequence => do
    let s ← Escape.decodeString (← w.text c)
    return .text s
  | .interpolation => do
    let statements ← w.lowerAll c.statements
    return .code (← w.located c "begin" (asChildren statements))
  | _ => throw (w.unsupported c)

/-- The pieces of a list of constructs. -/
def pieces (w : Context) : List Cst → Lowering (List Piece)
  | [] => pure []
  | c :: cs => do
    let p ← w.piece c
    let ps ← w.pieces cs
    return p :: ps

/-- Joins texts that stand side by side. -/
def joinTexts : List Piece → List Piece
  | [] => []
  | .code n :: ps => .code n :: joinTexts ps
  | .text s :: ps =>
    match joinTexts ps with
    | .text t :: rest => .text (s ++ t) :: rest
    | rest => .text s :: rest

/-- The pieces of a string, texts joined. -/
def stringPieces (w : Context) (c : Cst) : Lowering (List Piece) := do
  return joinTexts (← w.pieces c.plainChildren)

/-- A string or symbol: a plain one with its text, or a dynamic one with its pieces. -/
def stringNode (w : Context) (plain dynamic : String) (wrap : String → Value) (c : Cst) :
    Lowering Node := do
  match ← w.stringPieces c with
  | [] => w.located c plain [wrap ""]
  | [.text s] => w.located c plain [wrap s]
  | pieces => w.located c dynamic (pieces.map Piece.toValue)

/-- A string literal. -/
def string (w : Context) (c : Cst) : Lowering Node :=
  w.stringNode "str" "dstr" .str c

/-- A symbol literal with quotes. -/
def quotedSymbol (w : Context) (c : Cst) : Lowering Node :=
  w.stringNode "sym" "dsym" .sym c

/-- A character literal: the text behind its question mark, escapes decoded. -/
def character (w : Context) (c : Cst) : Lowering Node := do
  let s ← w.text c
  let body ← Escape.decodeString (String.ofList (s.toList.drop 1))
  w.located c "str" [.str body]

/-- The flags of a regular expression: the lower-case letters at its end, each once, in order. -/
def regexFlags (s : String) : List Char :=
  let flags := s.toList.reverse.takeWhile Char.isLower
  (flags.mergeSort fun a b => decide (a ≤ b)).eraseDups

/-- A regular expression: its pieces and its flags. -/
def regex (w : Context) (c : Cst) : Lowering Node := do
  let pieces ← w.stringPieces c
  let flags := regexFlags (← w.text c)
  let options := Node.bare "regopt" (flags.map fun flag => .sym (String.singleton flag))
  w.located c "regexp" (pieces.map Piece.toValue ++ [options.toValue])

/-! ## Hashes -/

/-- The text of a key node's first child. -/
def keyName (key : Node) : Lowering String :=
  match key.children with
  | [] => throw .missingKeyName
  | v :: _ => do
    let name ← v.display
    return name

/-- The value of a shorthand pair: the local variable of the key's name, or a call of that name. -/
def shorthandValue (key : Node) : Lowering Node := do
  let name ← keyName key
  if ← isLocal name then return ⟨.plain "lvar", [.sym name], key.location⟩
  else return ⟨.plain "send", [.nil, .sym name], key.location⟩

/-- A pair of a hash. A plain string key is a symbol unless an arrow stands between key and
    value. -/
def pair (w : Context) (c : Cst) : Lowering Node :=
  match c.part? "key" with
  | none => throw (w.unsupported c)
  | some key => do
    let value := c.part? "value"
    let keyNode ← w.lower key
    let separatorStop := match value with
      | some value => value.head.start
      | none => c.head.stop
    let keyNode ←
      if key.kind == .string && keyNode.type == .plain "str"
          && !hasArrow w.chars key.head.stop separatorStop then do
        let name ← keyName keyNode
        pure ⟨.plain "sym", [.sym name], keyNode.location⟩
      else pure keyNode
    let valueNode ← match value with
      | none => shorthandValue keyNode
      | some value => w.lower value
    w.located c "pair" [keyNode, valueNode]

/-! ## Other literals -/

/-- A block argument, its value absent in the anonymous form. -/
def blockArgument (w : Context) (c : Cst) : Lowering Node := do
  let value ← w.lowerOptional c.plainChildren.head?
  w.located c "block_pass" [.ofNode? value]

/-- The operator of a range: the first of its children that is two or three dots. -/
def isOpenRange (c : Cst) : Bool :=
  (c.children.find? fun child => child.kind == .twoDots || child.kind == .threeDots).any
    fun child => child.kind == .threeDots

/-- A range; either end may be absent. -/
def range (w : Context) (c : Cst) : Lowering Node := do
  let first ← w.lowerOptional (c.part? "begin")
  let last ← w.lowerOptional (c.part? "end")
  w.located c (if isOpenRange c then "erange" else "irange") [.ofNode? first, .ofNode? last]

/-! ## Names -/

/-- An identifier: a local variable that was declared before, or a call without arguments. -/
def identifier (w : Context) (c : Cst) : Lowering Node := do
  let name ← w.text c
  if ← isLocal name then w.located c "lvar" [.sym name]
  else w.located c "send" [.nil, .sym name]

/-- A constant without a scope. -/
def constant (w : Context) (c : Cst) : Lowering Node := do
  let name ← w.text c
  w.located c "const" [.nil, .sym name]

/-- The scope of a constant path; without one the path begins at the top. -/
def pathScope (w : Context) : Option Cst → Lowering Node
  | some c => w.lower c
  | none => pure (Node.bare "cbase" [])

/-- A constant or a method behind a double colon. -/
def scopeResolution (w : Context) (c : Cst) : Lowering Node :=
  match c.part? "name" with
  | none => throw (w.unsupported c)
  | some name => do
    let scope ← w.pathScope (c.part? "scope")
    let text ← w.text name
    w.located c (if name.kind == .constant then "const" else "send") [scope, .sym text]

end RubyPattern.Ruby.Context
