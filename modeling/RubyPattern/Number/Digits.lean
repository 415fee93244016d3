/-
  RubyPattern.Number.Digits

  Whole numbers in positional notation: decimal writing, and reading in any base up to
  thirty-six. Decimal digits may come from any script.
-/
import RubyPattern.Text.Blank
import RubyPattern.Text.Digit

namespace RubyPattern.Number

open RubyPattern.Text

/-! ## Writing -/

/-- The decimal digits of a natural number. -/
def natDigits (n : Nat) : List Char :=
  Nat.toDigits 10 n

/-- The decimal text of an integer, with a minus sign below zero. -/
def integerText (n : Int) : String :=
  String.ofList (if n < 0 then '-' :: natDigits n.natAbs else natDigits n.natAbs)

/-! ## Reading -/

/-- The value of a digit: decimal digits of any script, then the letters from ten on in either
    case. -/
def digitValue? (c : Char) : Option Nat :=
  match decimalValue? c with
  | some d => some d
  | none =>
    if 'a' ≤ c ∧ c ≤ 'z' then some (c.toNat - 'a'.toNat + 10)
    else if 'A' ≤ c ∧ c ≤ 'Z' then some (c.toNat - 'A'.toNat + 10)
    else none

/-- Adds one more digit to the number read so far; refuses what is no digit of the base. -/
def pushDigit? (base total : Nat) (c : Char) : Option Nat :=
  match digitValue? c with
  | some d => if d < base then some (total * base + d) else none
  | none => none

/-- The number that a non-empty run of digits denotes in a base. -/
def natural? (base : Nat) (digits : List Char) : Option Nat :=
  if digits.isEmpty then none else digits.foldlM (pushDigit? base) 0

/-- Removes the white space around a number. -/
def trimmed (cs : List Char) : List Char :=
  ((cs.dropWhile isNumberPadding).reverse.dropWhile isNumberPadding).reverse

/-- Splits an optional sign off; `true` stands for minus. -/
def splitSign : List Char → Bool × List Char
  | '-' :: cs => (true, cs)
  | '+' :: cs => (false, cs)
  | cs => (false, cs)

/-- Drops a base mark such as the `0x` of a hexadecimal number, if it is there. The zero of the
    mark may be that of any script. -/
def dropMark (mark : Option Char) : List Char → List Char
  | zero :: c :: cs =>
    if decimalValue? zero == some 0 && mark == some c then cs else zero :: c :: cs
  | cs => cs

/-- An integer in a base: white space around it, one sign and the base's own mark are allowed. -/
def integer? (base : Nat) (mark : Option Char) (cs : List Char) : Option Int :=
  let (negative, digits) := splitSign (trimmed cs)
  (natural? base (dropMark mark digits)).map fun n => if negative then -(n : Int) else n

end RubyPattern.Number
