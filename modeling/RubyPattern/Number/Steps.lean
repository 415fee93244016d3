/-
  RubyPattern.Number.Steps

  Whole numbers in equal steps: from a first one on, up or down, short of a last one.
-/
import RubyPattern.Number.Digits

namespace RubyPattern.Number

/-- The numbers start, start + step, … short of stop. A step of zero leads nowhere. -/
structure Steps where
  start : Int
  stop : Int
  step : Int
  deriving DecidableEq, Repr, Inhabited

namespace Steps

/-- How many numbers there are. -/
def count (s : Steps) : Nat :=
  if 0 < s.step then ((s.stop - s.start + s.step - 1) / s.step).toNat
  else if s.step < 0 then ((s.start - s.stop - s.step - 1) / -s.step).toNat
  else 0

/-- The numbers in order. -/
def toList (s : Steps) : List Int :=
  (List.range s.count).map fun k : Nat => s.start + k * s.step

/-- Whether a number is one of them. -/
def contains (s : Steps) (n : Int) : Bool :=
  if 0 < s.step then decide (s.start ≤ n ∧ n < s.stop ∧ (n - s.start) % s.step = 0)
  else if s.step < 0 then decide (s.stop < n ∧ n ≤ s.start ∧ (s.start - n) % -s.step = 0)
  else false

/-- Whether two sequences have the same numbers: as many, from the same first one, in the same
    steps if there is more than one. -/
def same (s t : Steps) : Bool :=
  s.count == t.count &&
    (s.count == 0 || (s.start == t.start && (s.count == 1 || s.step == t.step)))

/-- The text of a sequence in messages; a step of one is left out. -/
def diagnostic (s : Steps) : String :=
  let ends := integerText s.start ++ ", " ++ integerText s.stop
  "range(" ++ (if s.step = 1 then ends else ends ++ ", " ++ integerText s.step) ++ ")"

/-- The list has as many numbers as are counted. -/
@[simp] theorem length_toList (s : Steps) : s.toList.length = s.count := by
  simp [toList]

end Steps

end RubyPattern.Number
