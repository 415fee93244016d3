/-
  RubyPattern.Tree.Literal

  Ruby literals for plain values: how strings and symbols are written so that they read back.
-/
import RubyPattern.Text.Hex
import RubyPattern.Text.Printable
import RubyPattern.Tree.Name

namespace RubyPattern.Literal

open RubyPattern.Text

/-- The letter that stands for a control character after a backslash. -/
def controlLetter? (c : Char) : Option Char :=
  match c with
  | '\n' => some 'n'
  | '\t' => some 't'
  | '\r' => some 'r'
  | '\x0c' => some 'f'
  | '\x0b' => some 'v'
  | '\x07' => some 'a'
  | '\x08' => some 'b'
  | '\x1b' => some 'e'
  | _ => none

/-- One character inside double quotes. -/
def stringChar (c : Char) : List Char :=
  if c == '\\' || c == '"' then ['\\', c]
  else match controlLetter? c with
    | some letter => ['\\', letter]
    | none =>
      if isPrintable c then [c]
      else if c.toNat ≤ 0xFFFF then '\\' :: 'u' :: hexPaddedUpper 4 c.toNat
      else
        '\\' :: 'u' :: '\x7b' :: hexPaddedUpper (if c.toNat < 0x100000 then 5 else 6) c.toNat
          ++ ['\x7d']

/-- Whether a number sign before these characters would begin an interpolation. -/
def opensInterpolation : List Char → Bool
  | c :: _ => c == '\x7b' || c == '$' || c == '@'
  | [] => false

/-- The characters of a string between its double quotes. A number sign is escaped only where it
    would begin an interpolation. -/
def stringBody : List Char → List Char
  | [] => []
  | c :: cs =>
    (if c == '#' && opensInterpolation cs then ['\\', '#'] else stringChar c) ++ stringBody cs

/-- A string in double quotes. -/
def stringChars (cs : List Char) : List Char :=
  '"' :: stringBody cs ++ ['"']

/-- A symbol: a colon and the name, in double quotes unless the name can stand without. -/
def symbolChars (cs : List Char) : List Char :=
  ':' :: if Name.isBareSymbol cs then cs else stringChars cs

/-- The literal of a string. -/
def string (s : String) : String :=
  String.ofList (stringChars s.toList)

/-- The literal of a symbol. -/
def symbol (name : String) : String :=
  String.ofList (symbolChars name.toList)

end RubyPattern.Literal
