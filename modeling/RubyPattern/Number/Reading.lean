/-
  RubyPattern.Number.Reading

  Reading a double from decimal text: white space around it, a sign, digits of any script with
  an optional point and exponent, or the name of a special value in any case. Single underscores
  may stand between digits.
-/
import RubyPattern.Number.Digits

namespace RubyPattern.Number

open RubyPattern.Text

/-- The double nearest to mantissa · 10 ^ exponent. Powers far outside the range of doubles are
    settled by the number of digits alone. -/
def scientific (mantissa : Nat) (exponent : Int) : Float :=
  let power := exponent + (natDigits mantissa).length
  if mantissa = 0 ∨ power < -330 then 0.0
  else if 330 < power then 1.0 / 0.0
  else Float.ofScientific mantissa (exponent < 0) exponent.natAbs

/-- The exponent at the end of a number: nothing, or a mark, an optional sign and digits. -/
def exponent? : List Char → Option Int
  | [] => some 0
  | c :: cs =>
    if c == 'e' || c == 'E' then
      let (negative, digits) := splitSign cs
      (natural? 10 digits).map fun n => if negative then -(n : Int) else n
    else none

/-- An unsigned number: digits, an optional point with digits, an optional exponent. At least
    one digit stands before the exponent. -/
def unsigned? (cs : List Char) : Option Float :=
  let whole := cs.takeWhile isDecimal
  let rest := cs.dropWhile isDecimal
  let (fraction, rest) := match rest with
    | '.' :: after => (after.takeWhile isDecimal, after.dropWhile isDecimal)
    | _ => ([], rest)
  match natural? 10 (whole ++ fraction), exponent? rest with
  | some mantissa, some exponent => some (scientific mantissa (exponent - fraction.length))
  | _, _ => none

/-- Removes the underscores between digits; `none` if one stands elsewhere. The flag says whether
    a digit stands in front. -/
def ungrouped? : Bool → List Char → Option (List Char)
  | _, [] => some []
  | afterDigit, '_' :: cs =>
    if afterDigit && cs.head?.any isDecimal then ungrouped? false cs else none
  | _, c :: cs => (ungrouped? (isDecimal c) cs).map (c :: ·)

/-- Reads a double from text without white space and underscores. -/
def bareFloat? (cs : List Char) : Option Float :=
  let (negative, cs) := splitSign cs
  let name := String.ofList (cs.map Char.toLower)
  let magnitude :=
    if name == "inf" || name == "infinity" then some (1.0 / 0.0)
    else if name == "nan" then some (0.0 / 0.0)
    else unsigned? cs
  magnitude.map fun x => if negative then -x else x

/-- Reads a double; `none` if the text is no number. -/
def float? (s : String) : Option Float :=
  (ungrouped? false (trimmed s.toList)).bind bareFloat?

end RubyPattern.Number
