/-
  RubyPattern.Number.Shortest

  The shortest decimal that reads back as a given double. A double stands for all reals that
  round to it. Of the decimals among those, the one with the fewest digits is taken, of these the
  nearest, and of two equally near ones the even one.
-/
import RubyPattern.Number.Digits

namespace RubyPattern.Number

/-- A positive double on the decimal grid of step 10 ^ k, with the ends of the interval of reals
    that round to it, all four over one denominator. -/
structure Grid where
  value : Nat
  low : Nat
  high : Nat
  step : Nat

/-- Puts mantissa · 2 ^ exponent on the grid of step 10 ^ k. Quarters of the gap between doubles
    are whole numbers here. The gap below a power of two is half as wide, except at the least
    exponent. -/
def Grid.ofBinary (mantissa : Nat) (exponent k : Int) : Grid :=
  let narrow := mantissa = Nat.pow 2 52 ∧ exponent ≠ -1074
  let scale := Nat.pow 2 (exponent - 2).toNat * Nat.pow 10 (-k).toNat
  { value := 4 * mantissa * scale
    low := (4 * mantissa - if narrow then 1 else 2) * scale
    high := (4 * mantissa + 2) * scale
    step := Nat.pow 2 (2 - exponent).toNat * Nat.pow 10 k.toNat }

/-- Whether a grid point lies in the interval; the ends belong to it iff `closed`. -/
def Grid.admits (g : Grid) (closed : Bool) (point : Nat) : Bool :=
  if closed then Nat.ble g.low (point * g.step) && Nat.ble (point * g.step) g.high
  else Nat.blt g.low (point * g.step) && Nat.blt (point * g.step) g.high

/-- The admitted neighbour of the value on the grid: the nearer one, and the even one of two
    equally near. -/
def Grid.nearest? (g : Grid) (closed : Bool) : Option Nat :=
  let below := g.value / g.step
  let above := below + 1
  match g.admits closed below, g.admits closed above with
  | false, false => none
  | true, false => some below
  | false, true => some above
  | true, true =>
    let fromBelow := g.value - below * g.step
    let toAbove := above * g.step - g.value
    if fromBelow < toAbove then some below
    else if toAbove < fromBelow then some above
    else if below % 2 = 0 then some below else some above

/-- Whether mantissa · 2 ^ exponent is at least 10 ^ k. -/
def atLeastPower (mantissa : Nat) (exponent k : Int) : Bool :=
  Nat.ble (Nat.pow 2 (-exponent).toNat * Nat.pow 10 k.toNat)
    (mantissa * Nat.pow 2 exponent.toNat * Nat.pow 10 (-k).toNat)

/-- The greatest k with 10 ^ k ≤ mantissa · 2 ^ exponent: an estimate from the binary length,
    which is off by one at most, put right. -/
def decimalExponent (mantissa : Nat) (exponent : Int) : Int :=
  let estimate := ((mantissa.log2 : Int) + exponent) * 30103 / 100000
  if atLeastPower mantissa exponent (estimate + 1) then estimate + 1
  else if atLeastPower mantissa exponent estimate then estimate
  else estimate - 1

/-- Decimal digits with the place of the point: the number is 0.d₁d₂d₃… · 10 ^ point. The last
    digit is not zero. -/
structure Decimal where
  digits : List Char
  point : Int

/-- The shortest decimal for mantissa · 2 ^ exponent, mantissa not zero. Seventeen digits are
    always enough. -/
def shortest (mantissa : Nat) (exponent : Int) : Decimal :=
  let top := decimalExponent mantissa exponent
  let found := (List.range 17).findSome? fun (n : Nat) =>
    ((Grid.ofBinary mantissa exponent (top - n)).nearest? (mantissa % 2 == 0)).map fun point =>
      (natDigits point, top - (n : Int))
  let (digits, k) := found.getD (['0'], 0)
  { digits := (digits.reverse.dropWhile (· == '0')).reverse
    point := digits.length + k }

end RubyPattern.Number
