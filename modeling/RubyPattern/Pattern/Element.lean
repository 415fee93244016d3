/-
  RubyPattern.Pattern.Element

  Patterns as data: what each construct of the pattern language is made of.
-/
import RubyPattern.Pattern.Lexeme
import RubyPattern.Tree.Equality

namespace RubyPattern

/-- A pattern. `rest` has its place in sequences only; every other element matches one value. -/
inductive Element where
  | wildcard
  | unify (name : String)
  | scalar (value : Scalar)
  | nodeType (name : String)
  | predicate (name : String)
  | call (name : String) (arguments : List Scalar)
  | capture (element : Element)
  | negation (element : Element)
  | union (alternatives : List Element)
  | intersection (elements : List Element)
  | rest (captured : Bool)
  | sequence (elements : List Element)
  deriving Inhabited

namespace Element

mutual

/-- How many values a match captures. The alternatives of a union all capture as many as the
    first. -/
def captureCount : Element → Nat
  | .capture element => 1 + captureCount element
  | .union alternatives => captureCountFirst alternatives
  | .intersection elements => captureCountAll elements
  | .rest captured => if captured then 1 else 0
  | .sequence elements => captureCountAll elements
  | _ => 0

/-- The count of the first element. -/
def captureCountFirst : List Element → Nat
  | [] => 0
  | e :: _ => captureCount e

/-- The counts of all elements together. -/
def captureCountAll : List Element → Nat
  | [] => 0
  | e :: es => captureCount e + captureCountAll es

end

mutual

/-- A pattern and all patterns inside it, in the order of their text. -/
def walk : Element → List Element
  | .capture element => .capture element :: walk element
  | .negation element => .negation element :: walk element
  | .union alternatives => .union alternatives :: walkAll alternatives
  | .intersection elements => .intersection elements :: walkAll elements
  | .sequence elements => .sequence elements :: walkAll elements
  | e => [e]

/-- The walks of several patterns, one after the other. -/
def walkAll : List Element → List Element
  | [] => []
  | e :: es => walk e ++ walkAll es

end

/-- Equality of literals as values. -/
def sameScalars (as bs : List Scalar) : Bool :=
  Value.sameAll (as.map Scalar.toValue) (bs.map Scalar.toValue)

mutual

/-- Equality of patterns: the same constructs with the same names and equal literals. -/
def same : Element → Element → Bool
  | .wildcard, b => match b with
    | .wildcard => true
    | _ => false
  | .unify x, b => match b with
    | .unify y => x == y
    | _ => false
  | .scalar v, b => match b with
    | .scalar w => v.toValue.same w.toValue
    | _ => false
  | .nodeType x, b => match b with
    | .nodeType y => x == y
    | _ => false
  | .predicate x, b => match b with
    | .predicate y => x == y
    | _ => false
  | .call x as, b => match b with
    | .call y bs => x == y && sameScalars as bs
    | _ => false
  | .capture e, b => match b with
    | .capture d => same e d
    | _ => false
  | .negation e, b => match b with
    | .negation d => same e d
    | _ => false
  | .union es, b => match b with
    | .union ds => sameAll es ds
    | _ => false
  | .intersection es, b => match b with
    | .intersection ds => sameAll es ds
    | _ => false
  | .rest x, b => match b with
    | .rest y => x == y
    | _ => false
  | .sequence es, b => match b with
    | .sequence ds => sameAll es ds
    | _ => false

/-- Equality of lists of patterns, one by one. -/
def sameAll : List Element → List Element → Bool
  | [], [] => true
  | a :: as, b :: bs => same a b && sameAll as bs
  | _, _ => false

end

/-- Whether an element is a rest. -/
def isRest : Element → Bool
  | .rest _ => true
  | _ => false

end Element

/-! ## Predicates of the language -/

/-- A test that needs no function table. -/
inductive Builtin where
  | absent
  | typed (type : String)
  deriving DecidableEq, Repr

/-- What ends the name of a test for a node type. -/
def typeTestEnding : List Char :=
  ['_', 't', 'y', 'p', 'e', '?']

/-- The test that a predicate's name stands for: `nil?`, or a node type before `_type?`. -/
def Builtin.ofName? (name : String) : Option Builtin :=
  let cs := name.toList
  if name == "nil?" then some .absent
  else if typeTestEnding.isSuffixOf cs && typeTestEnding.length < cs.length then
    some (.typed (String.ofList (cs.take (cs.length - typeTestEnding.length))))
  else none

end RubyPattern
