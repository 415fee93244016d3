/-
  RubyPattern.Tree.Name

  The names of Ruby variables, constants and operators: which texts are names, and how far a name
  reaches at the front of a longer text.
-/
import RubyPattern.Text.Digit

namespace RubyPattern.Name

open RubyPattern.Text

/-- How many characters of an identifier stand at the front; zero if there is none. -/
def identifierLength : List Char → Nat
  | [] => 0
  | c :: cs => if isNameStart c then 1 + (cs.takeWhile isWord).length else 0

/-- The characters that name a special global variable on their own. -/
def specialGlobals : List Char :=
  ['~', '*', '$', '?', '!', '@', '/', '\\', ';', ',', '.', '=', ':', '<', '>', '"', '&', '\x60',
    '\'', '+']

/-- How many characters of a special global's name stand at the front, its dollar left out: one
    special character, a run of digits, or a hyphen and a word character. -/
def specialGlobalLength : List Char → Nat
  | [] => 0
  | c :: cs =>
    if specialGlobals.contains c then 1
    else if isDecimal c then 1 + (cs.takeWhile isDecimal).length
    else match c, cs with
      | '-', d :: _ => if isWord d then 2 else 0
      | _, _ => 0

/-- The sigil of a variable: class variables have two, instance variables and globals one. -/
def sigilLength : List Char → Nat
  | '@' :: '@' :: _ => 2
  | '@' :: _ => 1
  | '$' :: _ => 1
  | _ => 0

/-- Operators that are symbols without quotes. -/
def operators : List String :=
  ["[]", "[]=", "*", "**", "<=>", "==", "===", "=~", "!~", "!=", "<<", ">>", "<=", ">=", "+", "-",
    "+@", "-@", "/", "%", "<", ">", "!", "~", "^", "&", "|", "\x60"]

/-- Whether a text is an identifier from end to end. -/
def isIdentifier (cs : List Char) : Bool :=
  !cs.isEmpty && identifierLength cs == cs.length

/-- The marks that may end a method's name. -/
def isMethodMark (c : Char) : Bool :=
  c == '?' || c == '!' || c == '='

/-- Whether a text names a special global, its dollar included. -/
def isSpecialGlobal : List Char → Bool
  | '$' :: cs => !cs.isEmpty && specialGlobalLength cs == cs.length
  | _ => false

/-- Whether a text is an identifier with one method mark behind it. -/
def isMarkedMethod (cs : List Char) : Bool :=
  match cs.reverse with
  | mark :: body => isMethodMark mark && isIdentifier body.reverse
  | [] => false

/-- Whether a symbol of this name is written without quotes. -/
def isBareSymbol (cs : List Char) : Bool :=
  isIdentifier (cs.drop (sigilLength cs)) || isMarkedMethod cs || isSpecialGlobal cs
    || operators.contains (String.ofList cs)

end RubyPattern.Name
