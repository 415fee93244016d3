/-
  RubyPattern.Pattern.Lexeme

  The lexemes of pattern text. At each place the first class of lexeme that fits is taken, as far
  as it reaches; white space and comments are dropped.
-/
import RubyPattern.Number.Reading
import RubyPattern.Pattern.Escape
import RubyPattern.Tree.Name

namespace RubyPattern

open RubyPattern.Number RubyPattern.Text

/-- A literal in a pattern. -/
inductive Scalar where
  | symbol (name : String)
  | string (s : String)
  | integer (n : Int)
  | real (x : Float)
  deriving Inhabited

/-- The value that a literal denotes. -/
def Scalar.toValue : Scalar → Value
  | .symbol name => .sym name
  | .string s => .str s
  | .integer n => .int n
  | .real x => .float x

/-- What a lexeme is, with what it carries. -/
inductive LexemeKind where
  | opening (bracket : Bracket)
  | closing (bracket : Bracket)
  | capture
  | negation
  | rest
  | wildcard
  | unify (name : String)
  | scalar (value : Scalar)
  | nodeType (name : String)
  | predicate (name : String)
  | function (name : String)
  deriving Inhabited

/-- A lexeme, its text and the place where it begins. -/
structure Lexeme where
  kind : LexemeKind
  text : String
  position : Nat
  deriving Inhabited

/-- The place just behind a lexeme. -/
def Lexeme.stop (l : Lexeme) : Nat :=
  l.position + l.text.length

namespace Lexeme

/-! ## How far a lexeme reaches

Each function gives the number of characters of one class that stand at the front of a text, and
zero if there are none. -/

/-- Lengthens a reach, unless there is none. -/
def extend (count reach : Nat) : Nat :=
  if reach = 0 then 0 else reach + count

/-- One fixed spelling. -/
def fixedReach (spelling : String) (cs : List Char) : Nat :=
  if spelling.toList.isPrefixOf cs then spelling.length else 0

/-- White space. -/
def blankReach (cs : List Char) : Nat :=
  (cs.takeWhile isBlank).length

/-- A number sign with white space behind it, up to the end of the line. -/
def commentReach : List Char → Nat
  | '#' :: c :: cs => if isBlank c then 1 + ((c :: cs).takeWhile (· != '\n')).length else 0
  | _ => 0

/-- The rest of a quoted text through its closing quote; a backslash takes the next character with
    it. -/
def closingReach : List Char → Nat
  | [] => 0
  | '"' :: _ => 1
  | '\\' :: [] => 0
  | '\\' :: _ :: cs => extend 2 (closingReach cs)
  | _ :: cs => extend 1 (closingReach cs)

/-- A quoted text with both its quotes. -/
def quotedReach : List Char → Nat
  | '"' :: cs => extend 1 (closingReach cs)
  | _ => 0

/-- A colon and a quoted text. -/
def quotedSymbolReach : List Char → Nat
  | ':' :: cs => extend 1 (quotedReach cs)
  | _ => 0

/-- Operators in the order in which they are tried. -/
def operatorOrder : List String :=
  ["[]=", "[]", "**", "<=>", "===", "==", "=~", "!~", "!=", "<<", ">>", "<=", ">=", "+@", "-@",
    "-", "+", "*", "/", "%", "<", ">", "!", "~", "^", "&", "|", "\x60"]

/-- A special global with its dollar, or else an operator. -/
def operatorReach : List Char → Nat
  | '$' :: cs => extend 1 (Name.specialGlobalLength cs)
  | cs => ((operatorOrder.map (fixedReach · cs)).find? (· != 0)).getD 0

/-- One character of a class. -/
def oneReach (p : Char → Bool) : List Char → Nat
  | c :: _ => if p c then 1 else 0
  | [] => 0

/-- The name of a symbol: an identifier with a sigil before it or a method mark behind it, or
    else an operator. -/
def symbolNameReach (cs : List Char) : Nat :=
  let sigil := Name.sigilLength cs
  let body := cs.drop sigil
  let name := Name.identifierLength body
  if name = 0 then operatorReach cs
  else sigil + name + oneReach Name.isMethodMark (body.drop name)

/-- A colon and the name of a symbol. -/
def symbolReach : List Char → Nat
  | ':' :: cs => extend 1 (symbolNameReach cs)
  | _ => 0

/-- Digits. -/
def digitsReach (cs : List Char) : Nat :=
  (cs.takeWhile isDecimal).length

/-- Digits with an optional minus sign. -/
def integerReach (cs : List Char) : Nat :=
  let sign := oneReach (· == '-') cs
  extend sign (digitsReach (cs.drop sign))

/-- A point and digits. -/
def fractionReach : List Char → Nat
  | '.' :: cs => extend 1 (digitsReach cs)
  | _ => 0

/-- An exponent mark, an optional sign and digits. -/
def exponentReach : List Char → Nat
  | c :: cs =>
    if c == 'e' || c == 'E' then
      let sign := oneReach (fun d => d == '-' || d == '+') cs
      extend (1 + sign) (digitsReach (cs.drop sign))
    else 0
  | [] => 0

/-- A number with a fraction, an exponent or both. -/
def realReach (cs : List Char) : Nat :=
  let whole := integerReach cs
  if whole = 0 then 0
  else
    let fraction := fractionReach (cs.drop whole)
    let exponent := exponentReach (cs.drop (whole + fraction))
    if fraction + exponent = 0 then 0 else whole + fraction + exponent

/-- A number sign and a function's name. -/
def functionReach : List Char → Nat
  | '#' :: cs =>
    let name := Name.identifierLength cs
    if name = 0 then 0 else 1 + name + oneReach (fun c => c == '?' || c == '!') (cs.drop name)
  | _ => 0

/-- An underscore and a name. -/
def unifyReach : List Char → Nat
  | '_' :: cs => extend 1 (cs.takeWhile isWord).length
  | _ => 0

/-- A lower-case letter, then word characters and hyphens. -/
def nodeTypeReach : List Char → Nat
  | c :: cs =>
    if c.isLower then 1 + (cs.takeWhile fun d => isWord d || d == '-').length else 0
  | [] => 0

/-- As a node type, with a question mark behind it. -/
def predicateReach (cs : List Char) : Nat :=
  let name := nodeTypeReach cs
  if name = 0 then 0
  else if oneReach (· == '?') (cs.drop name) = 0 then 0 else name + 1

/-! ## Classes of lexemes -/

/-- The classes that the scan tells apart. -/
inductive Class where
  | blank
  | comment
  | fixed (kind : LexemeKind)
  | quotedSymbol
  | symbol
  | string
  | real
  | integer
  | function
  | unify
  | predicate
  | nodeType

/-- The classes in the order in which they are tried, each with its reach. -/
def classes : List (Class × (List Char → Nat)) :=
  [(.blank, blankReach),
   (.comment, commentReach),
   (.fixed .rest, fixedReach "..."),
   (.fixed (.opening .round), fixedReach "("),
   (.fixed (.closing .round), fixedReach ")"),
   (.fixed (.opening .curly), fixedReach "\x7b"),
   (.fixed (.closing .curly), fixedReach "\x7d"),
   (.fixed (.opening .square), fixedReach "["),
   (.fixed (.closing .square), fixedReach "]"),
   (.fixed .capture, fixedReach "$"),
   (.fixed .negation, fixedReach "!"),
   (.quotedSymbol, quotedSymbolReach),
   (.symbol, symbolReach),
   (.string, quotedReach),
   (.real, realReach),
   (.integer, integerReach),
   (.function, functionReach),
   (.unify, unifyReach),
   (.fixed .wildcard, fixedReach "_"),
   (.predicate, predicateReach),
   (.nodeType, nodeTypeReach)]

/-- The first class that fits at the front of a text, and how far it reaches. -/
def classify (cs : List Char) : Option (Class × Nat) :=
  classes.findSome? fun entry =>
    let reach := entry.2 cs
    if reach = 0 then none else some (entry.1, reach)

/-! ## Values -/

/-- Hyphens in names are read as underscores. -/
def underscored (cs : List Char) : List Char :=
  cs.map fun c => if c == '-' then '_' else c

/-- What a lexeme of a class and text is. White space and comments are nothing. -/
def kind? (pattern : String) (position : Nat) (text : List Char) :
    Class → Except Fault (Option LexemeKind)
  | .blank => .ok none
  | .comment => .ok none
  | .fixed kind => .ok (some kind)
  | .quotedSymbol => do
    let name ← Escape.decode (text.drop 2).dropLast
    return some (.scalar (.symbol (String.ofList name)))
  | .symbol => .ok (some (.scalar (.symbol (String.ofList (text.drop 1)))))
  | .string => do
    let body ← Escape.decode (text.drop 1).dropLast
    return some (.scalar (.string (String.ofList body)))
  | .real =>
    match float? (String.ofList text) with
    | some x => .ok (some (.scalar (.real x)))
    | none => .error (.badNumber (String.ofList text))
  | .integer =>
    match integer? 10 none text with
    | some n => .ok (some (.scalar (.integer n)))
    | none => .error (.badNumber (String.ofList text))
  | .function =>
    if text.any isDigitLike then
      .error (.pattern (.digitsInFunctionName (String.ofList text)) pattern position)
    else .ok (some (.function (String.ofList (text.drop 1))))
  | .unify => .ok (some (.unify (String.ofList (text.drop 1))))
  | .predicate => .ok (some (.predicate (String.ofList (underscored text))))
  | .nodeType => .ok (some (.nodeType (String.ofList (underscored text))))

/-! ## The scan -/

/-- The lexemes of the characters from a position on, the first `skip` characters left out. -/
def scan (pattern : String) : Nat → Nat → List Char → Except Fault (List Lexeme)
  | _, _, [] => .ok []
  | skip + 1, position, _ :: cs => scan pattern skip (position + 1) cs
  | 0, position, c :: cs =>
    match classify (c :: cs) with
    | none => .error (.pattern (.unexpectedCharacter c) pattern position)
    | some (entry, reach) => do
      let text := (c :: cs).take reach
      let kind ← kind? pattern position text entry
      let rest ← scan pattern (reach - 1) (position + 1) cs
      return match kind with
        | some kind => ⟨kind, String.ofList text, position⟩ :: rest
        | none => rest

/-- The lexemes of a pattern text. -/
def tokenize (pattern : String) : Except Fault (List Lexeme) :=
  scan pattern 0 0 pattern.toList

end Lexeme

end RubyPattern
