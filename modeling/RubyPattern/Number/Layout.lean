/-
  RubyPattern.Number.Layout

  How a double is laid out as text, once its shortest digits are known.
-/
import RubyPattern.Number.Binary
import RubyPattern.Number.Shortest

namespace RubyPattern.Number

/-- The decisions of a text form for doubles. Numbers from 10 ^ `leastPower` up to, not
    including, 10 ^ `firstExponent` are written positionally and keep a digit after the point;
    the others get an exponent with a sign and two digits at least. -/
structure Layout where
  leastPower : Int
  firstExponent : Int
  notANumber : String
  infinite : String

/-- The form that messages use. -/
def Layout.diagnostic : Layout :=
  ⟨-4, 16, "nan", "inf"⟩

/-- The form that patterns use; only the names of the special values differ. -/
def Layout.literal : Layout :=
  { Layout.diagnostic with notANumber := "NaN", infinite := "Infinity" }

/-- Digits with the point set between them, zeros filled in as needed. -/
def positional (d : Decimal) : List Char :=
  if d.point ≤ 0 then '0' :: '.' :: List.replicate (-d.point).toNat '0' ++ d.digits
  else
    let whole := d.point.toNat
    let before := d.digits.take whole ++ List.replicate (whole - d.digits.length) '0'
    match d.digits.drop whole with
    | [] => before ++ ['.', '0']
    | after => before ++ '.' :: after

/-- One digit, the point and the other digits if there are any, and the exponent. -/
def exponential (d : Decimal) : List Char :=
  let power := d.point - 1
  let digits := natDigits power.natAbs
  let mark := if power < 0 then '-' else '+'
  let body := match d.digits with
    | [] => ['0']
    | [c] => [c]
    | c :: cs => c :: '.' :: cs
  body ++ 'e' :: mark :: List.replicate (2 - digits.length) '0' ++ digits

/-- The text of a finite number that is not zero, without its sign. -/
def Layout.magnitude (layout : Layout) (d : Decimal) : List Char :=
  if layout.leastPower ≤ d.point - 1 ∧ d.point - 1 < layout.firstExponent then positional d
  else exponential d

/-- The text of a double. The sign of zero is kept, a NaN has none. -/
def Layout.text (layout : Layout) (x : Float) : String :=
  match Binary.ofFloat x with
  | .notANumber => layout.notANumber
  | .infinite negative => if negative then "-" ++ layout.infinite else layout.infinite
  | .finite negative mantissa exponent =>
    let body := if mantissa = 0 then ['0', '.', '0']
      else layout.magnitude (shortest mantissa exponent)
    String.ofList (if negative then '-' :: body else body)

end RubyPattern.Number
