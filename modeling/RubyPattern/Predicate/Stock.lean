/-
  RubyPattern.Predicate.Stock

  Ready-made functions for patterns, by name.
-/
import RubyPattern.Pattern.Matching

namespace RubyPattern.Stock

open RubyPattern.Number

/-- Whether one value is at most another. Numbers compare with numbers by value, texts with texts
    by code point; other pairs have no order. -/
def atMost (a b : Value) : Except Fault Bool :=
  match a.number?, b.number?, a.text?, b.text? with
  | some x, some y, _, _ => .ok (x.le y)
  | _, _, some s, some t => .ok (decide (s ≤ t))
  | _, _, _, _ => .error (.misuse .notOrdered)

/-- Whether one value is below another, as `atMost` orders them. -/
def below (a b : Value) : Except Fault Bool :=
  match a.number?, b.number?, a.text?, b.text? with
  | some x, some y, _, _ => .ok (x.lt y)
  | _, _, some s, some t => .ok (decide (s < t))
  | _, _, _, _ => .error (.misuse .notOrdered)

/-- Holds of every value. -/
def always : Function := fun _ _ => .ok true

/-- Holds of no value. -/
def never : Function := fun _ _ => .ok false

/-- Holds of the values that count as true. -/
def echo : Function := fun v _ => .ok v.truthy

/-- Holds of the numbers that two divides. -/
def even : Function := fun v arguments =>
  match v.number?, arguments with
  | _, _ :: _ => .error (.misuse .wrongArguments)
  | some x, [] => .ok x.isEven
  | none, [] => .error (.misuse .notDivisible)

/-- Holds of the values above the argument. -/
def greater : Function := fun v arguments =>
  match arguments with
  | [low] => below low v
  | _ => .error (.misuse .wrongArguments)

/-- Holds of the values from the first argument up to the second. -/
def between : Function := fun v arguments =>
  match arguments with
  | [low, high] => do
    if ← atMost low v then atMost v high else return false
  | _ => .error (.misuse .wrongArguments)

/-- Holds of the values that equal one of the arguments. -/
def oneOf : Function := fun v arguments => .ok (arguments.any fun a => a.literalEquals v)

/-- Holds of nodes. -/
def isNode : Function := fun v arguments =>
  match v, arguments with
  | _, _ :: _ => .error (.misuse .wrongArguments)
  | .node .., [] => .ok true
  | _, [] => .ok false

/-- Fails with a message. -/
def failing (message : String) : Function := fun _ _ => .error (.predicateFailed message)

end RubyPattern.Stock
