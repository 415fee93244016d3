/-
  RubyPattern.Predicate.Datum

  What a predicate can be made from, and how it then tests a candidate: a class asks for its
  members, a text pattern for an occurrence, a range or set for membership, a function for its own
  answer, and a plain value for equality.
-/
import RubyPattern.Pattern.Matching

namespace RubyPattern

open RubyPattern.Number

/-! ## Tests that values make -/

/-- Whether a value belongs to a class. Booleans are integers too, and symbols are strings too. -/
def ValueClass.admits : ValueClass → Value → Bool
  | .any, _ => true
  | .nil, .nil => true
  | .bool, .bool _ => true
  | .int, .bool _ => true
  | .int, .int _ => true
  | .float, .float _ => true
  | .float, .nan _ => true
  | .str, v => v.text?.isSome
  | .symbol, v => v.symbol?.isSome
  | .token, .token _ => true
  | .node, .node .. => true
  | .tuple, .tuple _ => true
  | _, _ => false

namespace Value

/-- The integer that a value equals, if it is a number without a fraction. -/
def integral? (v : Value) : Option Int :=
  match v.number? with
  | some (.finite quanta) =>
    if quanta % Exact.quantaPerUnit = 0 then some (quanta / Exact.quantaPerUnit) else none
  | _ => none

/-- Whether a candidate passes the test that a value makes. A function that is only known by name
    admits nothing. -/
def admits : Value → Value → Bool
  | .criterion (.class c), v => c.admits v
  | .criterion (.text p), v => v.text?.any p.occursIn
  | .criterion (.steps s), v => v.integral?.any s.contains
  | .criterion (.function _), _ => false
  | .set _ members, v => v.isAmong members
  | w, v => v.same w

end Value

/-! ## Data -/

/-- A value, or a function. -/
inductive Datum where
  | value (v : Value)
  | function (f : Function)

instance : Inhabited Datum := ⟨.value .nil⟩

namespace Datum

/-- The name of a datum's type, as messages show it. -/
def typeName : Datum → String
  | .value v => v.typeName
  | .function _ => "function"

/-- The predicate made from a datum. Only functions take further arguments. -/
def predicate : Datum → Function
  | .function f => f
  | .value w => fun v arguments =>
    if arguments.isEmpty then .ok (w.admits v) else .error (.misuse .wrongArguments)

end Datum

end RubyPattern
