/-
  RubyPattern.Number.Binary

  The exact value of a double, and the exact comparison of doubles with integers. Every finite
  double and every integer is a whole multiple of 2 ^ -1074, the gap between the least doubles;
  as such multiples they compare as integers do, without rounding.
-/
namespace RubyPattern.Number

/-- What a double stands for: a finite one is its mantissa times two to its exponent. -/
inductive Binary where
  | notANumber
  | infinite (negative : Bool)
  | finite (negative : Bool) (mantissa : Nat) (exponent : Int)
  deriving DecidableEq, Repr

/-- Takes a double apart. -/
def Binary.ofFloat (x : Float) : Binary :=
  let bits : Nat := x.toBits.toNat
  let negative := Nat.ble (Nat.pow 2 63) bits
  let scale : Nat := bits / Nat.pow 2 52 % Nat.pow 2 11
  let fraction : Nat := bits % Nat.pow 2 52
  if scale = 2047 then
    if fraction = 0 then .infinite negative else .notANumber
  else if scale = 0 then .finite negative fraction (-1074)
  else .finite negative (Nat.pow 2 52 + fraction) ((scale : Int) - 1075)

/-- A number as it compares: in whole multiples of 2 ^ -1074, with the infinities at the ends. -/
inductive Exact where
  | notANumber
  | negativeInfinity
  | finite (quanta : Int)
  | positiveInfinity
  deriving DecidableEq, Repr

namespace Exact

/-- How many times 2 ^ -1074 goes into one. -/
def quantaPerUnit : Int :=
  Nat.pow 2 1074

/-- An integer among the exact numbers. -/
def ofInt (n : Int) : Exact :=
  .finite (n * quantaPerUnit)

/-- A double among the exact numbers. -/
def ofFloat (x : Float) : Exact :=
  match Binary.ofFloat x with
  | .notANumber => .notANumber
  | .infinite negative => if negative then .negativeInfinity else .positiveInfinity
  | .finite negative mantissa exponent =>
    let quanta : Int := mantissa * Nat.pow 2 (exponent + 1074).toNat
    .finite (if negative then -quanta else quanta)

/-- Equality of values; a NaN equals nothing. -/
def eq : Exact → Exact → Bool
  | .notANumber, _ => false
  | a, b => decide (a = b)

/-- The strict order of values; a NaN is not below, nor above, anything. -/
def lt : Exact → Exact → Bool
  | .notANumber, _ => false
  | _, .notANumber => false
  | .negativeInfinity, b => decide (b ≠ .negativeInfinity)
  | .positiveInfinity, _ => false
  | .finite _, .negativeInfinity => false
  | .finite a, .finite b => decide (a < b)
  | .finite _, .positiveInfinity => true

/-- Below or equal. -/
def le (a b : Exact) : Bool :=
  lt a b || eq a b

/-- Whether a number is a whole multiple of two. -/
def isEven : Exact → Bool
  | .finite quanta => decide (quanta % (2 * quantaPerUnit) = 0)
  | _ => false

theorem eq_comm (a b : Exact) : eq a b = eq b a := by
  cases a <;> cases b <;> simp [eq, Eq.comm]

theorem eq_self {a : Exact} (h : a ≠ .notANumber) : eq a a = true := by
  cases a <;> simp_all [eq]

theorem eq_of_eq_true {a b : Exact} (h : eq a b = true) : a = b := by
  cases a <;> simp_all [eq]

end Exact

end RubyPattern.Number
