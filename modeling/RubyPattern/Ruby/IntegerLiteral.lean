/-
  RubyPattern.Ruby.IntegerLiteral

  The value of a Ruby integer literal: decimal, hexadecimal, binary or octal by its mark, with
  underscores anywhere between the digits.
-/
import RubyPattern.Error.Cause
import RubyPattern.Number.Digits

namespace RubyPattern.Ruby

open RubyPattern.Number

/-- The value of a literal in lower case, its underscores and leading signs removed. A bare leading
    zero makes it octal. -/
def markedInteger? (cs : List Char) : Option Int :=
  match cs with
  | '0' :: 'd' :: digits => integer? 10 none digits
  | '0' :: 'x' :: _ => integer? 16 (some 'x') cs
  | '0' :: 'b' :: _ => integer? 2 (some 'b') cs
  | '0' :: 'o' :: _ => integer? 8 (some 'o') cs
  | '0' :: d :: digits => integer? 8 (some 'o') (d :: digits)
  | cs => integer? 10 none cs

/-- The value of an integer literal. The sign is that of the first character; further signs do not
    count. -/
def integerLiteral (s : String) : Except Fault Int :=
  let cs := (s.toList.filter (· != '_')).map Char.toLower
  let negative := cs.head? == some '-'
  match markedInteger? (cs.dropWhile fun c => c == '+' || c == '-') with
  | some n => .ok (if negative then -n else n)
  | none => .error (.badNumber s)

end RubyPattern.Ruby
